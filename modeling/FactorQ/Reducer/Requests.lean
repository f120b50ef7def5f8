/-
# `FactorQ.Reducer.Requests` — requests are never taken back

The ids the model has requested are read off its answered turns.  No move of the
loop changes an answered turn, so they only grow.
-/
import FactorQ.Reducer.Log
import FactorQ.Reducer.Moves

namespace FactorQ.Reducer

open Lib Wal

variable {cfg : HostConfig} {w w' : Wal} {p : Point} {next : HarnessState}

theorem turn?_of_status {row : LlmRow} (h : row.status ≠ .completed) : row.turn? = none := by
  simp [LlmRow.turn?, LlmRow.isTurn, h]

theorem LlmMove.requestedIds {origin : LlmCallOrigin} {spent spent' : ℚ} {q : LlmPoint}
    {o : LlmPoint ⊕ LlmOutcome} (m : LlmMove origin w spent q w' spent' o) :
    w.requestedIds.Subperm w'.requestedIds := by
  cases m with
  | refused | answered | blank | failed => exact List.Subperm.refl _
  | opened id hw free hrow =>
    refine requestedIds_subperm hw fun row hg => ?_
    rw [free] at hg
    cases hg
  | charged id r cost hw hb hs ha | marked id e cost hw hb hs ha =>
    refine requestedIds_subperm hw fun row hg => turn?_of_status ?_
    rw [hb] at hg
    cases hg
    rw [hs]
    decide
  | closed id r cost now hw hb hs ha | closedError id e cost now hw hb hs ha =>
    refine requestedIds_subperm hw fun row hg => turn?_of_status ?_
    rw [hb] at hg
    cases hg
    rw [hs]
    decide

theorem LlmMove.tools {origin : LlmCallOrigin} {spent spent' : ℚ} {q : LlmPoint}
    {o : LlmPoint ⊕ LlmOutcome} (m : LlmMove origin w spent q w' spent' o) : w'.tools = w.tools := by
  cases m with
  | refused | answered | blank | failed => rfl
  | opened _ hw _ _ | charged _ _ _ hw _ _ _ | closed _ _ _ _ hw _ _ _ | marked _ _ _ hw _ _ _
  | closedError _ _ _ _ hw _ _ _ => exact hw.tools

theorem requestedIds_of_llms (h : w'.llms = w.llms) : w.requestedIds.Subperm w'.requestedIds := by
  rw [Wal.requestedIds, Wal.requestedIds, h]

theorem ToolStep.requestedIds {req : ToolCallRequest} {spent spent' : ℚ} {q : ToolPoint}
    {executed : Option ToolCallResult} {move : ToolMove} (m : ToolStep cfg req w spent q w' spent' executed move) :
    w.requestedIds.Subperm w'.requestedIds := by
  cases m with
  | recorded | admitted | ran | serves | judged | streak => exact List.Subperm.refl _
  | opened _ hw _ | reopened hw _ | dispatched _ _ hw _ _ _ | closed _ _ hw _ _ _ =>
    exact requestedIds_of_llms hw.llms
  | serving m | served m => exact m.requestedIds

namespace Host

variable {h h' : Host} {e : Env}

theorem requestedIds_move (m : Move cfg e h h') : h.wal.requestedIds.Subperm h'.wal.requestedIds := by
  cases m with
  | overrun | drained | suspended | rejected | overspent | advanced | unstamped | announced | lost | failed
  | completed | archived | kept | handedOff | idle =>
    exact List.Subperm.refl _
  | noticed p carried n pending pc _ _ insert =>
    rw [insertHostNotice_spec insert]
    exact List.Subperm.refl _
  | reduced => exact requestedIds_of_llms (upsertInvocationState_spec _ _).llms
  | called p next pc m | replied p next r pc m | refused p next pc m | rateLimited p next id text pc m
  | broken p next id text pc m =>
    exact m.requestedIds
  | stamped p id pc stamp =>
    obtain ⟨hw, row, hb, hs, he, ha⟩ := markLlmDeferred_spec stamp
    refine requestedIds_subperm hw fun row' hg => ?_
    rw [hb] at hg
    cases hg
    simp [LlmRow.turn?, LlmRow.isTurn, he]
  | putDown => exact requestedIds_of_llms (markDeferred_spec _).llms
  | toolWent p next done req rest pc m | toolAborted p next done req rest r pc m
  | toolAnswered p next done req req' rest r pc m | roundDone p next done req r pc m =>
    exact m.requestedIds
  | ended => exact requestedIds_of_llms (ensureTerminal_spec _ _ _).llms

theorem Resumes.wal (m : Resumes cfg h h') : h'.wal = h.wal := by
  cases m with
  | refused | failure | overspent | entered => rfl

theorem requestedIds_act (a : Action) : h.wal.requestedIds.Subperm (h.act cfg a).wal.requestedIds := by
  cases a with
  | step e => exact requestedIds_move step_move
  | crash => exact List.Subperm.refl _
  | resume =>
    show h.wal.requestedIds.Subperm (h.resume cfg).wal.requestedIds
    rw [resume_resumes.wal]
  | inject render =>
    dsimp only [act]
    rcases inject_cases (h := h) render with heq | ⟨o, hpc, heq⟩
    · rw [heq]
    · rw [heq]
      exact requestedIds_of_llms (injectInterruptedResults_spec _ _).1

theorem requestedIds_run (schedule : List Action) (h : Host) :
    h.wal.requestedIds.Subperm (h.run cfg schedule).wal.requestedIds := by
  induction schedule generalizing h with
  | nil => exact List.Subperm.refl _
  | cons a rest ih => exact (requestedIds_act a).trans (ih _)

/-- Ids that are distinct at the end of a run were distinct all along. -/
theorem nodup_requestedIds_of_run (schedule : List Action)
    (hnd : (h.run cfg schedule).wal.requestedIds.Nodup) : h.wal.requestedIds.Nodup := by
  have hgrow : h.wal.requestedIds.Subperm (h.run cfg schedule).wal.requestedIds := requestedIds_run schedule h
  obtain ⟨l, hperm, hsub⟩ := hgrow
  exact hperm.nodup_iff.mp (hnd.sublist hsub)

end Host

end FactorQ.Reducer
