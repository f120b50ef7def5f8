/-
# `FactorQ.Reducer.Ending` — an ended invocation stays ended

The state row turns terminal on the way out of the loop and on no other, and an
incarnation whose row is terminal is on its way out.  A resume of such an
invocation is refused, so the loop is never entered again.

An operator who gives an invocation up turns its row terminal from outside, and
then a loop in the middle of a step goes on to the end of it.  So the result is
about rows that the loop itself has ended; what operators do later is in it.
-/
import FactorQ.Reducer.Moves

namespace FactorQ.Reducer

open Lib Wal

variable {cfg : HostConfig} {w w' : Wal} {p : Point} {next : HarnessState}

/-- The row is terminal. -/
def Wal.Ended (w : Wal) : Prop := ∃ row, w.state = some row ∧ row.terminalAt.isSome = true

/-- The row says that the invocation completed. -/
def Wal.Completed (w : Wal) : Prop := ∃ row, w.state = some row ∧ row.phase = .completed

structure Ending (w : Wal) (pc : Pc) : Prop where
  ended : w.Ended → pc.ending = true
  terminal : w.Completed → w.Ended

theorem Ending.frame {pc pc' : Pc} (h : Ending w pc) (hs : w'.state = w.state)
    (hpc : pc.ending = true → pc'.ending = true) : Ending w' pc' where
  ended := by
    unfold Wal.Ended
    rw [hs]
    exact fun he => hpc (h.ended he)
  terminal := by
    unfold Wal.Ended Wal.Completed
    rw [hs]
    exact h.terminal

/-! ## The state row after each write -/

/-- The guard: a row that is not terminal takes what is written. -/
theorem upsert_of_open (hopen : ¬ w.Ended) (row : StateRow) :
    ∃ pending, (w.upsertInvocationState row).state = some { row with archivePending := pending } := by
  unfold upsertInvocationState
  split
  · exact ⟨false, rfl⟩
  · next old hold =>
    split
    · next hterm => exact absurd ⟨old, hold, hterm⟩ hopen
    · exact ⟨old.archivePending, rfl⟩

theorem upsert_of_ended (hended : w.Ended) (row : StateRow) : w.upsertInvocationState row = w := by
  obtain ⟨old, hold, hterm⟩ := hended
  unfold upsertInvocationState
  rw [hold]
  dsimp only
  rw [if_pos hterm]

theorem ensureTerminal_state (phase : PhaseLabel) (now : Int) :
    (w.ensureTerminal phase now).state = w.state ∨
      ∃ row, (w.ensureTerminal phase now).state = some row ∧ row.phase = phase ∧
        row.terminalAt.isSome = true := by
  unfold ensureTerminal
  cases hs : w.state with
  | none => exact .inl hs
  | some row =>
    dsimp only
    by_cases hended : w.Ended
    · rw [upsert_of_ended hended]
      exact .inl hs
    · obtain ⟨pending, hp⟩ := upsert_of_open hended { row with phase := phase, terminalAt := some now }
      exact .inr ⟨_, hp, rfl, rfl⟩

theorem ensureTerminal_of_ended (hended : w.Ended) (phase : PhaseLabel) (now : Int) :
    w.ensureTerminal phase now = w := by
  unfold ensureTerminal
  split
  · rfl
  · exact upsert_of_ended hended _

theorem markDeferred_state (hopen : ¬ w.Ended) :
    w.markDeferred.state = none ∨
      ∃ row, w.markDeferred.state = some row ∧ row.phase = .deferred ∧ row.terminalAt.isSome = false := by
  unfold markDeferred
  cases hs : w.state with
  | none => exact .inl hs
  | some row =>
    dsimp only
    have hterm : row.terminalAt.isSome = false := by
      cases ht : row.terminalAt.isSome with
      | false => rfl
      | true => exact absurd ⟨row, hs, ht⟩ hopen
    rw [if_neg (by simp [hterm])]
    obtain ⟨pending, hp⟩ := upsert_of_open hopen { row with phase := .deferred }
    exact .inr ⟨_, hp, rfl, hterm⟩

theorem setArchivePending_ended : w.setArchivePending.Ended ↔ w.Ended := by
  unfold Wal.Ended setArchivePending
  cases hs : w.state with
  | none => simp
  | some row => cases ht : row.terminalAt.isSome <;> simp [ht]

theorem setArchivePending_completed : w.setArchivePending.Completed ↔ w.Completed := by
  unfold Wal.Completed setArchivePending
  cases hs : w.state with
  | none => simp
  | some row => cases ht : row.terminalAt.isSome <;> simp [ht]

/-! ## Each move -/

theorem LlmMove.state {origin : LlmCallOrigin} {spent spent' : ℚ} {q : LlmPoint} {o : LlmPoint ⊕ LlmOutcome}
    (m : LlmMove origin w spent q w' spent' o) : w'.state = w.state := by
  cases m with
  | refused | answered | blank | failed => rfl
  | opened _ hw _ _ | charged _ _ _ hw _ _ _ | closed _ _ _ _ hw _ _ _ | marked _ _ _ hw _ _ _
  | closedError _ _ _ _ hw _ _ _ => exact hw.state

theorem ToolStep.state {req : ToolCallRequest} {spent spent' : ℚ} {q : ToolPoint}
    {executed : Option ToolCallResult} {move : ToolMove}
    (m : ToolStep cfg req w spent q w' spent' executed move) : w'.state = w.state := by
  cases m with
  | recorded | admitted | ran | serves | judged | streak => rfl
  | opened _ hw _ | reopened hw _ | dispatched _ _ hw _ _ _ | closed _ _ hw _ _ _ => exact hw.state
  | serving m | served m => exact m.state

/-- A move from inside the loop leaves an open row behind it. -/
theorem Ending.stay {pc pc' : Pc} (h : Ending w pc) (hpc : pc.ending = false) (hs : w'.state = w.state) :
    Ending w' pc' := by
  refine ⟨?_, ?_⟩
  · rintro ⟨row, hr, ht⟩
    have htrue := h.ended ⟨row, hs ▸ hr, ht⟩
    rw [hpc] at htrue
    cases htrue
  · rintro ⟨row, hr, hc⟩
    obtain ⟨old, ho, ht⟩ := h.terminal ⟨row, hs ▸ hr, hc⟩
    exact ⟨old, hs.trans ho, ht⟩

theorem Ending.open_row {pc : Pc} (h : Ending w pc) (hpc : pc.ending = false) : ¬ w.Ended := by
  intro hended
  have htrue := h.ended hended
  rw [hpc] at htrue
  cases htrue

/-- What a step writes is terminal exactly if its action ends the invocation. -/
theorem Performs.ending {spent : ℚ} {out : StepOutput} {pc' : Pc} (hperf : Performs cfg spent p out pc')
    (hopen : ¬ w.Ended) (now : Int) : Ending (w.upsertInvocationState (Host.rowOf p out now)) pc' := by
  obtain ⟨pending, hp⟩ := upsert_of_open hopen (Host.rowOf p out now)
  have hout : (phaseAndTerminalFrom out.nextAction now).2 = some now → pc'.ending = true →
      Ending (w.upsertInvocationState (Host.rowOf p out now)) pc' := by
    intro hterm hpc
    refine ⟨fun _ => hpc, fun _ => ⟨_, hp, ?_⟩⟩
    show (phaseAndTerminalFrom out.nextAction now).2.isSome = true
    rw [hterm]
    rfl
  have hin : (phaseAndTerminalFrom out.nextAction now).2 = none →
      (phaseAndTerminalFrom out.nextAction now).1 ≠ .completed →
      Ending (w.upsertInvocationState (Host.rowOf p out now)) pc' := by
    intro hnone hne
    refine ⟨?_, ?_⟩
    · rintro ⟨row, hr, ht⟩
      rw [hp] at hr
      cases hr
      change (phaseAndTerminalFrom out.nextAction now).2.isSome = true at ht
      rw [hnone] at ht
      cases ht
    · rintro ⟨row, hr, hc⟩
      rw [hp] at hr
      cases hr
      exact absurd hc hne
  cases hperf with
  | completed r text status taken action =>
    rw [action] at hout
    exact hout rfl rfl
  | failed err action =>
    rw [action] at hout
    exact hout rfl rfl
  | exhausted q action | model q action phase noCalls below =>
    rw [action] at hin
    exact hin rfl PhaseLabel.noConfusion
  | tools r req rest taken calls action phase asked =>
    rw [action, calls] at hin
    cases rest with
    | nil => exact hin rfl PhaseLabel.noConfusion
    | cons _ _ => exact hin rfl PhaseLabel.noConfusion

/-! ## The run -/

namespace Host

variable {h h' : Host} {e : Env}

theorem ending_move (m : Move cfg e h h') (hx : Ending h.wal h.pc) : Ending h'.wal h'.pc := by
  cases m with
  | overrun p carried pc | drained p carried pc | suspended p carried pc | rejected p carried pc
  | overspent p next r pc | advanced p next r pc _ | unstamped p id pc _ | announced p pc =>
    exact hx.stay (pc ▸ rfl) rfl
  | noticed p carried n pending pc _ _ insert =>
    rw [insertHostNotice_spec insert]
    exact hx.stay (pc ▸ rfl) rfl
  | reduced p carried out pc step performs => exact performs.ending (hx.open_row (pc ▸ rfl)) e.now
  | called p next pc m | replied p next r pc m | refused p next pc m | rateLimited p next id text pc m
  | broken p next id text pc m =>
    exact hx.stay (pc ▸ rfl) m.state
  | stamped p id pc stamp => exact hx.stay (pc ▸ rfl) (markLlmDeferred_spec stamp).1.state
  | putDown p pc =>
    have hrow := markDeferred_state (hx.open_row (pc ▸ rfl))
    refine ⟨?_, ?_⟩
    · rintro ⟨row, hr, ht⟩
      rcases hrow with hnone | ⟨row', hr', -, ht'⟩
      · cases hnone.symm.trans hr
      · cases hr'.symm.trans hr
        rw [ht'] at ht
        cases ht
    · rintro ⟨row, hr, hc⟩
      rcases hrow with hnone | ⟨row', hr', hd, -⟩
      · cases hnone.symm.trans hr
      · cases hr'.symm.trans hr
        rw [hd] at hc
        cases hc
  | toolWent p next done req rest pc m | toolAborted p next done req rest r pc m
  | toolAnswered p next done req req' rest r pc m | roundDone p next done req r pc m =>
    exact hx.stay (pc ▸ rfl) m.state
  | lost running _ => exact hx.stay running rfl
  | failed p kind call pc | completed pc | archived o pc _ | kept o pc _ => exact ⟨fun _ => rfl, hx.terminal⟩
  | ended p kind call pc =>
    refine ⟨fun _ => rfl, ?_⟩
    rintro ⟨row, hr, hc⟩
    rcases ensureTerminal_state (w := h.wal) .failed e.now with hs | ⟨row', hr', -, ht⟩
    · obtain ⟨old, ho, ht⟩ := hx.terminal ⟨row, hs.symm.trans hr, hc⟩
      exact ⟨old, hs.trans ho, ht⟩
    · exact ⟨row', hr', ht⟩
  | handedOff o pc =>
    refine ⟨fun _ => rfl, fun hc => ?_⟩
    exact setArchivePending_ended.mpr (hx.terminal (setArchivePending_completed.mp hc))
  | idle o pc => exact hx

/-- A resume is refused once the row is terminal. -/
theorem open_of_resume {r : Resumed} (hres : w.resume cfg = .ok r) : ¬ w.Ended := by
  rintro ⟨row, hr, ht⟩
  unfold Wal.resume at hres
  rw [hr] at hres
  dsimp only at hres
  rw [if_pos ht] at hres
  cases hres

theorem ending_resumes (m : Resumes cfg h h') (hx : Ending h.wal h.pc) : Ending h'.wal h'.pc := by
  cases m with
  | refused => exact hx
  | failure | overspent => exact ⟨fun _ => rfl, hx.terminal⟩
  | entered o p pc hres => exact ⟨fun hended => absurd hended (open_of_resume hres), hx.terminal⟩

theorem ending_act {a : Action} (hx : Ending h.wal h.pc) : Ending (h.act cfg a).wal (h.act cfg a).pc := by
  cases a with
  | step e => exact ending_move step_move hx
  | crash => exact ⟨fun _ => rfl, hx.terminal⟩
  | resume => exact ending_resumes resume_resumes hx
  | inject render =>
    dsimp only [act]
    rcases inject_cases (h := h) render with heq | ⟨o, hpc, heq⟩
    · rw [heq]
      exact hx
    · rw [heq]
      exact hx.frame (injectInterruptedResults_spec _ _).2 id

theorem ending_init : Ending Host.init.wal Host.init.pc := by
  refine ⟨?_, ?_⟩
  · rintro ⟨row, hr, -⟩
    cases hr
  · rintro ⟨row, hr, -⟩
    cases hr

theorem ending_run (schedule : List Action) (hx : Ending h.wal h.pc) :
    Ending (h.run cfg schedule).wal (h.run cfg schedule).pc := by
  induction schedule generalizing h with
  | nil => exact hx
  | cons a rest ih => exact ih (ending_act hx)

/-! ## What an ended invocation came to -/

/-- The rows but for the archive flag, and what was run and answered. -/
def work (h : Host) : Wal × List Execution × List Answer := (h.wal.setArchivePending, h.executions, h.answers)

theorem work_move (m : Move cfg e h h') (hx : Ending h.wal h.pc) (hended : h.wal.Ended) : h'.work = h.work := by
  have hpc := hx.ended hended
  cases m with
  | failed | completed | archived | kept | idle => rfl
  | ended => simp only [work, goto, store, ensureTerminal_of_ended hended]
  | handedOff =>
    obtain ⟨row, hr, ht⟩ := hended
    simp [work, goto, store, setArchivePending, hr, ht]
  -- the other moves start inside the loop
  | _ => simp_all [Pc.ending]

theorem work_resumes (m : Resumes cfg h h') (hended : h.wal.Ended) : h'.work = h.work := by
  cases m with
  | refused => rfl
  | failure o id message pc hres | overspent o p pc hres | entered o p pc hres =>
    exact absurd hended (open_of_resume hres)

theorem work_act (a : Action) (hx : Ending h.wal h.pc) (hended : h.wal.Ended) : (h.act cfg a).work = h.work := by
  cases a with
  | step e => exact work_move step_move hx hended
  | crash => rfl
  | resume => exact work_resumes resume_resumes hended
  | inject render =>
    obtain ⟨row, hr, ht⟩ := hended
    dsimp only [act, inject]
    split
    · simp [hr, Option.isSome_iff_ne_none.mp ht]
    · rfl

theorem markOperatorTerminal_of_ended (hended : w.Ended) (phase : PhaseLabel) (now : Int) :
    w.markOperatorTerminal phase now = w := by
  obtain ⟨row, hr, ht⟩ := hended
  obtain ⟨state, tools, llms, notices⟩ := w
  obtain rfl : state = some row := hr
  simp [markOperatorTerminal, ht]

/-- What can still reach an invocation: its own actions, and an operator who gives it up. -/
inductive Touch where
  | act (a : Action)
  | giveUp (phase : PhaseLabel) (now : Int)

def touch (cfg : HostConfig) (h : Host) : Touch → Host
  | .act a => h.act cfg a
  | .giveUp phase now => h.store (h.wal.markOperatorTerminal phase now)

theorem touch_ended (cfg : HostConfig) (t : Touch) (hx : Ending h.wal h.pc) (hended : h.wal.Ended) :
    Ending (h.touch cfg t).wal (h.touch cfg t).pc ∧ (h.touch cfg t).work = h.work := by
  cases t with
  | act a => exact ⟨ending_act hx, work_act a hx hended⟩
  | giveUp phase now =>
    have hsame : h.touch cfg (.giveUp phase now) = h := by
      rw [touch, markOperatorTerminal_of_ended hended]
      rfl
    rw [hsame]
    exact ⟨hx, rfl⟩

/-- Once the loop has turned the row terminal nothing more is done for the invocation, whatever
steps, crashes, resumes, injections and operators follow. -/
theorem ended_is_final (cfg : HostConfig) (before : List Action) (after : List Touch)
    (hended : (init.run cfg before).wal.Ended) :
    (after.foldl (touch cfg) (init.run cfg before)).work = (init.run cfg before).work := by
  have hx : Ending (init.run cfg before).wal (init.run cfg before).pc := ending_run before ending_init
  generalize init.run cfg before = h at hended hx
  induction after generalizing h with
  | nil => rfl
  | cons t rest ih =>
    obtain ⟨hx', hwork⟩ := touch_ended cfg t hx hended
    have hstays : (h.touch cfg t).work.1.Ended := by
      rw [hwork]
      exact setArchivePending_ended.mpr hended
    exact (ih _ (setArchivePending_ended.mp hstays) hx').trans hwork

/-- A blank turn ends the invocation; giving it up and picking it up again do nothing. -/
theorem blank_turn_is_final :
    ([Touch.act .crash, .giveUp .failed 1, .act .resume].foldl (touch sampleConfig)
        (init.run sampleConfig (.replicate 10 (.step (sampleEnv []))))).work =
      (init.run sampleConfig (.replicate 10 (.step (sampleEnv [])))).work :=
  ended_is_final _ _ _ ⟨_, rfl, by decide +kernel⟩

end Host

end FactorQ.Reducer
