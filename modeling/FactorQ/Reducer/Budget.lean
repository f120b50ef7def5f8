/-
# `FactorQ.Reducer.Budget` — the budget bounds the invocation's whole life

The running total lives in memory and is rebuilt from the rows on a resume.  It
equals the sum of the rows at every point of the loop but inside a model call,
where the cost of the call is added before its row is closed; that difference is
`pending`, and it is zero again once the call is over.

A turn is asked for only below the budget.  A turn that crosses it ends the
invocation, at the check after the call or, if the process stopped in between,
at the check of the resume; so a completion, which only ever answers a turn,
happens within the budget.
-/
import FactorQ.Reducer.Ending

namespace FactorQ.Reducer

open Lib Wal

variable {cfg : HostConfig} {w w' : Wal} {p : Point} {next : HarnessState} {spent spent' : ℚ}

def HostConfig.Within (cfg : HostConfig) (cost : ℚ) : Prop := ∀ b, cfg.budget = some b → cost ≤ b

def HostConfig.Below (cfg : HostConfig) (cost : ℚ) : Prop := ∀ b, cfg.budget = some b → cost < b

theorem within_of_not_any (h : ¬ (cfg.budget.any fun b => b < spent) = true) : cfg.Within spent := by
  intro b hb
  rw [hb] at h
  simpa using h

theorem below_of_not_any (h : ¬ (cfg.budget.any fun b => b ≤ spent) = true) : cfg.Below spent := by
  intro b hb
  rw [hb] at h
  simpa using h

/-! ## The sum of the rows -/

/-- What a row counts. -/
def LlmRow.charge (r : LlmRow) : ℚ := if r.status = .completed then r.costUsd.getD 0 else 0

def Wal.chargeAt (w : Wal) (id : Nat) : ℚ := ((w.llms.get? id).map LlmRow.charge).getD 0

theorem chargeAt_eq {id : Nat} {row : LlmRow} (h : w.llms.get? id = some row) : w.chargeAt id = row.charge := by
  rw [Wal.chargeAt, h]
  rfl

theorem totalCost_eq (w : Wal) : w.totalCost = (w.llms.rows.map fun r => r.2.charge).sum := by
  unfold Wal.totalCost
  induction w.llms.rows with
  | nil => rfl
  | cons r rest ih =>
    by_cases hs : r.2.status = .completed
    · rw [List.filter_cons_of_pos (by simpa using hs), List.map_cons, List.sum_cons, ih, List.map_cons,
        List.sum_cons, LlmRow.charge, if_pos hs]
    · rw [List.filter_cons_of_neg (by simpa using hs), ih, List.map_cons, List.sum_cons, LlmRow.charge,
        if_neg hs, zero_add]

theorem totalCost_erase (w : Wal) (id : Nat) :
    w.totalCost = w.chargeAt id + ((w.llms.erase id).rows.map fun r => r.2.charge).sum := by
  rw [totalCost_eq]
  cases hg : w.llms.get? id with
  | none => rw [Table.erase_eq_self hg, Wal.chargeAt, hg, Option.map_none, Option.getD_none, zero_add]
  | some row =>
    rw [((Table.rows_perm_cons hg).map _).sum_eq, List.map_cons, List.sum_cons, chargeAt_eq hg]

theorem Wal.LlmWrite.totalCost {id : Nat} (h : LlmWrite w w' id) :
    w'.totalCost + w.chargeAt id = w.totalCost + w'.chargeAt id := by
  rw [totalCost_erase w id, totalCost_erase w' id, h.llms]
  ring

/-- The row written over had no outcome yet, and counts only now. -/
theorem Wal.LlmWrite.totalCost_of_open {id : Nat} {row row' : LlmRow} (h : LlmWrite w w' id)
    (hb : w.llms.get? id = some row) (hs : row.status ≠ .completed) (ha : w'.llms.get? id = some row') :
    w'.totalCost = w.totalCost + row'.charge := by
  have hcost := h.totalCost
  rw [chargeAt_eq hb, chargeAt_eq ha, LlmRow.charge, if_neg hs, add_zero] at hcost
  exact hcost

theorem totalCost_of_llms (h : w'.llms = w.llms) : w'.totalCost = w.totalCost := by
  rw [Wal.totalCost, Wal.totalCost, h]

/-! ## What is charged and not yet in a row -/

def LlmPoint.pending : LlmPoint → ℚ
  | .closing _ _ cost | .failed _ _ cost | .closingError _ _ cost => cost
  | _ => 0

def ToolPoint.pending : ToolPoint → ℚ
  | .serving _ q => q.pending
  | _ => 0

def pendingAfter : LlmPoint ⊕ LlmOutcome → ℚ
  | .inl q => q.pending
  | .inr _ => 0

theorem LlmMove.account {origin : LlmCallOrigin} {q : LlmPoint} {o : LlmPoint ⊕ LlmOutcome}
    (m : LlmMove origin w spent q w' spent' o) (h : spent = w.totalCost + q.pending) :
    spent' = w'.totalCost + pendingAfter o := by
  cases m with
  | refused | answered | failed => exact h
  | blank id cost =>
    rw [h]
    exact congrArg (· + cost) (add_zero w.totalCost)
  | opened id hw free hrow =>
    have hcost := hw.totalCost
    rw [Wal.chargeAt, free, chargeAt_eq hrow] at hcost
    rw [h]
    simpa [LlmRow.charge, LlmPoint.pending, pendingAfter] using hcost.symm
  | charged id r cost hw hb hs ha | marked id e cost hw hb hs ha =>
    rw [h, hw.totalCost_of_open hb (by rw [hs]; decide) ha]
    simp [LlmRow.charge, LlmPoint.pending, pendingAfter]
  | closed id r cost now hw hb hs ha | closedError id e cost now hw hb hs ha =>
    rw [h, hw.totalCost_of_open hb (by rw [hs]; decide) ha]
    simp [LlmRow.charge, LlmPoint.pending, pendingAfter]

def ToolMove.pending : ToolMove → ℚ
  | .goes q => q.pending
  | _ => 0

theorem ToolStep.account {req : ToolCallRequest} {q : ToolPoint} {executed : Option ToolCallResult}
    {move : ToolMove} (m : ToolStep cfg req w spent q w' spent' executed move)
    (h : spent = w.totalCost + q.pending) : spent' = w'.totalCost + move.pending := by
  cases m with
  | recorded | ran | serves | judged | streak => exact h
  | admitted fresh =>
    rw [h]
    unfold ToolPoint.step.afterPermission
    split <;> rfl
  | opened hopens hw _ =>
    rw [totalCost_of_llms hw.llms, h]
    cases hopens <;> rfl
  | reopened hw _ =>
    rw [totalCost_of_llms hw.llms]
    exact h
  | dispatched _ hdisp hw _ _ _ =>
    rw [totalCost_of_llms hw.llms, h]
    cases hdisp <;> rfl
  | closed _ hcloses hw _ _ _ =>
    rw [totalCost_of_llms hw.llms, h]
    cases hcloses <;> rfl
  | serving m | served m => exact m.account h

/-- A rate limit costs nothing. -/
def LlmPoint.LimitIsFree : LlmPoint → Prop
  | .failed _ (.rateLimited _) cost | .closingError _ (.rateLimited _) cost => cost = 0
  | _ => True

theorem LlmMove.limitIsFree {origin : LlmCallOrigin} {q q' : LlmPoint}
    (m : LlmMove origin w spent q w' spent' (.inl q')) (h : q.LimitIsFree) : q'.LimitIsFree := by
  cases m with
  | opened | answered | blank | charged => trivial
  | failed id err =>
    cases err with
    | rateLimited => rfl
    | other => trivial
  | marked id err =>
    cases err with
    | rateLimited => exact h
    | other => trivial

/-- The sum of the rows moves only when a call is closed. -/
theorem LlmMove.totalCost_inl {origin : LlmCallOrigin} {q q' : LlmPoint}
    (m : LlmMove origin w spent q w' spent' (.inl q')) : w'.totalCost = w.totalCost := by
  cases m with
  | answered | blank | failed => rfl
  | opened id hw free hrow =>
    have hcost := hw.totalCost
    rw [Wal.chargeAt, free, chargeAt_eq hrow] at hcost
    simpa [LlmRow.charge] using hcost
  | charged id r cost hw hb hs ha | marked id e cost hw hb hs ha =>
    have hcost := hw.totalCost
    rw [chargeAt_eq hb, chargeAt_eq ha, LlmRow.charge, LlmRow.charge, hs] at hcost
    simpa using hcost

/-! ## The loop -/

/-- The account at each point of the loop, and what the checks have established. -/
def Accounts (cfg : HostConfig) (w : Wal) (spent : ℚ) : Pc → Prop
  | .boundary p _ | .noticing p _ _ =>
    spent = w.totalCost ∧ ∀ r, p.lastResult = some (.modelResult r) → cfg.Within spent
  | .model _ _ q => spent = w.totalCost + q.pending ∧ cfg.Below w.totalCost ∧ q.LimitIsFree
  | .deferring _ _ | .stamped _ | .announcing _ => cfg.Below w.totalCost
  | .answered _ _ _ => spent = w.totalCost
  | .tools _ _ _ _ _ q => spent = w.totalCost + q.pending
  | .completing => w.Completed
  | _ => True

structure Budgeted (cfg : HostConfig) (h : Host) : Prop where
  ending : Ending h.wal h.pc
  accounts : Accounts cfg h.wal h.spent h.pc
  within : h.wal.Completed → cfg.Within h.wal.totalCost
  event : .completed ∈ h.events → h.wal.Completed

theorem Budgeted.at {h : Host} {pc : Pc} (hb : Budgeted cfg h) (hpc : h.pc = pc) :
    Accounts cfg h.wal h.spent pc := hpc ▸ hb.accounts

namespace Host

variable {h h' : Host} {e : Env}

theorem mem_of_emit {events : List Event} {ev ev' : Event} (hmem : ev ∈ events ++ [ev']) (hne : ev' ≠ ev) :
    ev ∈ events := by
  simpa [hne.symm] using hmem

theorem not_completed (hb : Budgeted cfg h) (hpc : h.pc.ending = false) : ¬ h.wal.Completed :=
  fun hc => hb.ending.open_row hpc (hb.ending.terminal hc)

/-- A move inside the loop, whatever it does to the sum. -/
theorem budgeted_loop (hb : Budgeted cfg h) (hpc : h.pc.ending = false)
    (ha : Accounts cfg h'.wal h'.spent h'.pc) (hs : h'.wal.state = h.wal.state) (he : h'.events = h.events) :
    Budgeted cfg h' where
  ending := hb.ending.stay hpc hs
  accounts := ha
  within := by
    intro hc
    refine absurd ?_ (not_completed hb hpc)
    unfold Wal.Completed at hc ⊢
    rwa [hs] at hc
  event := by
    intro hev
    rw [he] at hev
    exact absurd (hb.event hev) (not_completed hb hpc)

theorem budgeted_out (hb : Budgeted cfg h) (hpc : h'.pc.ending = true)
    (ha : Accounts cfg h'.wal h'.spent h'.pc) (hw : h'.wal = h.wal)
    (he : .completed ∈ h'.events → .completed ∈ h.events ∨ h.wal.Completed) : Budgeted cfg h' where
  ending := ⟨fun _ => hpc, hw ▸ hb.ending.terminal⟩
  accounts := ha
  within := hw ▸ hb.within
  event := by
    intro hev
    rw [hw]
    exact (he hev).elim hb.event fun hc => hc

theorem budgeted_reduced {out : StepOutput} {pc' : Pc} (hb : Budgeted cfg h) (hpc : h.pc.ending = false)
    (hspent : h.spent = h.wal.totalCost)
    (hmodel : ∀ r, p.lastResult = some (.modelResult r) → cfg.Within h.spent)
    (hperf : Performs cfg h.spent p out pc') :
    Budgeted cfg ((h.store (h.wal.upsertInvocationState (rowOf p out e.now))).goto pc') := by
  have hopen := hb.ending.open_row hpc
  obtain ⟨pending, hp⟩ := upsert_of_open hopen (rowOf p out e.now)
  have hcost : (h.wal.upsertInvocationState (rowOf p out e.now)).totalCost = h.wal.totalCost :=
    totalCost_of_llms (upsertInvocationState_spec _ _).llms
  have hacc : h.spent = (h.wal.upsertInvocationState (rowOf p out e.now)).totalCost + 0 := by
    rw [hcost, add_zero, hspent]
  refine ⟨hperf.ending hopen e.now, ?_, ?_, fun hev => absurd (hb.event hev) (not_completed hb hpc)⟩
  · cases hperf with
    | completed r text status taken action =>
      refine ⟨_, hp, ?_⟩
      show (phaseAndTerminalFrom out.nextAction e.now).1 = .completed
      rw [action]
      rfl
    | failed | exhausted => trivial
    | model q action phase noCalls below =>
      refine ⟨hacc, ?_, trivial⟩
      show cfg.Below (h.wal.upsertInvocationState (rowOf p out e.now)).totalCost
      rw [hcost, ← hspent]
      exact below_of_not_any below
    | tools => exact hacc
  · rintro ⟨row, hr, hc⟩
    show cfg.Within (h.wal.upsertInvocationState (rowOf p out e.now)).totalCost
    rw [hcost, ← hspent]
    change (h.wal.upsertInvocationState (rowOf p out e.now)).state = some row at hr
    rw [hp] at hr
    cases hr
    change (phaseAndTerminalFrom out.nextAction e.now).1 = .completed at hc
    cases hperf with
    | completed r text status taken action => exact hmodel r taken
    | failed err action | exhausted q action | model q action phase noCalls below =>
      rw [action] at hc
      cases hc
    | tools r req rest taken calls action =>
      rw [action, calls] at hc
      cases rest <;> cases hc

theorem budgeted_move (m : Move cfg e h h') (hb : Budgeted cfg h) : Budgeted cfg h' := by
  have hx := ending_move m hb.ending
  cases m with
  | overrun p carried pc | suspended p carried pc | rejected p carried pc | overspent p next r pc
  | unstamped p id pc _ =>
    exact budgeted_loop hb (pc ▸ rfl) trivial rfl rfl
  | drained p carried pc =>
    have hacc := hb.at pc
    exact budgeted_loop hb (pc ▸ rfl) hacc rfl rfl
  | noticed p carried n pending pc _ _ insert =>
    have hacc := hb.at pc
    rw [insertHostNotice_spec insert]
    exact budgeted_loop hb (pc ▸ rfl) hacc rfl rfl
  | reduced p carried out pc step performs =>
    obtain ⟨hspent, hmodel⟩ := hb.at pc
    exact budgeted_reduced hb (pc ▸ rfl) hspent hmodel performs
  | called p next pc m =>
    obtain ⟨hspent, hbelow, hfree⟩ := hb.at pc
    refine budgeted_loop hb (pc ▸ rfl) ⟨m.account hspent, ?_, m.limitIsFree hfree⟩ m.state rfl
    exact m.totalCost_inl ▸ hbelow
  | replied p next r pc m =>
    exact budgeted_loop hb (pc ▸ rfl) ((m.account (hb.at pc).1).trans (add_zero _)) m.state rfl
  | refused p next pc m | broken p next id text pc m => exact budgeted_loop hb (pc ▸ rfl) trivial m.state rfl
  | rateLimited p next id text pc m =>
    obtain ⟨hspent, hbelow, hfree⟩ := hb.at pc
    have haccount := m.account hspent
    have hstate := m.state
    refine budgeted_loop hb (pc ▸ rfl) ?_ hstate rfl
    cases m with
    | closedError _ _ cost =>
      -- the running total has not moved, and the row adds nothing to the sum
      rw [hspent, show cost = 0 from hfree] at haccount
      simp only [LlmPoint.pending, pendingAfter, add_zero] at haccount
      show cfg.Below _
      rw [← haccount]
      exact hbelow
  | advanced p next r pc within =>
    exact budgeted_loop hb (pc ▸ rfl) ⟨hb.at pc, fun _ _ => within_of_not_any within⟩ rfl rfl
  | stamped p id pc stamp =>
    obtain ⟨hw, row, hr, hs, he, hafter⟩ := markLlmDeferred_spec stamp
    refine budgeted_loop hb (pc ▸ rfl) ?_ hw.state rfl
    have hcost := hw.totalCost
    rw [chargeAt_eq hr, chargeAt_eq hafter] at hcost
    have hsame := add_right_cancel (b := row.charge) hcost
    show cfg.Below _
    exact hsame ▸ hb.at pc
  | putDown p pc =>
    have hopen := hb.ending.open_row (pc ▸ rfl)
    refine ⟨hx, ?_, ?_, fun hev => absurd (hb.event hev) (not_completed hb (pc ▸ rfl))⟩
    · show cfg.Below h.wal.markDeferred.totalCost
      rw [totalCost_of_llms (markDeferred_spec h.wal).llms]
      exact hb.at pc
    · rintro ⟨row, hr, hc⟩
      rcases markDeferred_state hopen with hnone | ⟨row', hr', hd, -⟩
      · cases hnone.symm.trans hr
      · cases hr'.symm.trans hr
        rw [hd] at hc
        cases hc
  | announced p pc => exact budgeted_out hb rfl trivial rfl fun hev => .inl (mem_of_emit hev Event.noConfusion)
  | toolWent p next done req rest pc m =>
    exact budgeted_loop hb (pc ▸ rfl) (m.account (hb.at pc)) m.state rfl
  | toolAborted p next done req rest r pc m => exact budgeted_loop hb (pc ▸ rfl) trivial m.state rfl
  | toolAnswered p next done req req' rest r pc m =>
    exact budgeted_loop hb (pc ▸ rfl) (m.account (hb.at pc)) m.state rfl
  | roundDone p next done req r pc m =>
    refine budgeted_loop hb (pc ▸ rfl) ⟨(m.account (hb.at pc)).trans (add_zero _), ?_⟩ m.state rfl
    intro resp hlast
    exact absurd hlast (batchResult_ne_modelResult _ _)
  | lost running _ => exact budgeted_loop hb running trivial rfl rfl
  | failed p kind call pc | archived o pc _ =>
    exact budgeted_out hb rfl trivial rfl fun hev => .inl (mem_of_emit hev Event.noConfusion)
  | kept o pc _ => exact budgeted_out hb rfl trivial rfl .inl
  | completed pc => exact budgeted_out hb rfl trivial rfl fun _ => .inr (hb.at pc)
  | ended p kind call pc =>
    refine ⟨hx, trivial, ?_, ?_⟩
    · rintro ⟨row, hr, hc⟩
      show cfg.Within (h.wal.ensureTerminal .failed e.now).totalCost
      rw [totalCost_of_llms (ensureTerminal_spec _ _ _).llms]
      rcases ensureTerminal_state (w := h.wal) .failed e.now with hs | ⟨row', hr', hf, -⟩
      · exact hb.within ⟨row, hs.symm.trans hr, hc⟩
      · cases hr'.symm.trans hr
        rw [hf] at hc
        cases hc
    · intro hev
      have hdone := hb.event hev
      show (h.wal.ensureTerminal .failed e.now).Completed
      rw [ensureTerminal_of_ended (hb.ending.terminal hdone)]
      exact hdone
  | handedOff o pc =>
    refine ⟨hx, trivial, ?_, ?_⟩
    · intro hc
      exact hb.within (setArchivePending_completed.mp hc)
    · intro hev
      exact setArchivePending_completed.mpr (hb.event hev)
  | idle o pc => exact hb

theorem budgeted_resumes (m : Resumes cfg h h') (hb : Budgeted cfg h) : Budgeted cfg h' := by
  have hx := ending_resumes m hb.ending
  cases m with
  | refused => exact hb
  | failure | overspent => exact budgeted_out hb rfl trivial rfl .inl
  | entered o p pc hres within =>
    exact ⟨hx, ⟨rfl, fun _ _ => within_of_not_any within⟩, hb.within, hb.event⟩

theorem budgeted_act {a : Action} (hb : Budgeted cfg h) : Budgeted cfg (h.act cfg a) := by
  cases a with
  | step e => exact budgeted_move step_move hb
  | crash => exact budgeted_out hb rfl trivial rfl .inl
  | resume => exact budgeted_resumes resume_resumes hb
  | inject render =>
    dsimp only [act]
    rcases inject_cases (h := h) render with heq | ⟨o, hpc, heq⟩
    · rw [heq]
      exact hb
    · obtain ⟨hllms, hstate⟩ := injectInterruptedResults_spec h.wal render
      rw [heq]
      refine ⟨hb.ending.frame hstate id, ?_, ?_, ?_⟩
      · show Accounts cfg _ h.spent h.pc
        rw [hpc]
        trivial
      · rintro ⟨row, hr, hc⟩
        show cfg.Within (h.wal.injectInterruptedResults render).totalCost
        rw [totalCost_of_llms hllms]
        exact hb.within ⟨row, hstate ▸ hr, hc⟩
      · intro hev
        obtain ⟨row, hr, hc⟩ := hb.event hev
        exact ⟨row, hstate.trans hr, hc⟩

theorem budgeted_init : Budgeted cfg Host.init where
  ending := ending_init
  accounts := ⟨rfl, fun r hr => by cases hr⟩
  within := by
    rintro ⟨row, hr, -⟩
    cases hr
  event := by
    intro hev
    cases hev

theorem budgeted_run (schedule : List Action) (hb : Budgeted cfg h) : Budgeted cfg (h.run cfg schedule) := by
  induction schedule generalizing h with
  | nil => exact hb
  | cons a rest ih => exact ih (budgeted_act hb)

end Host

/-- The budget bounds the invocation's whole life.  In every run, with any costs
and any pattern of crashes, deferrals and resumes: whenever an agent's turn is
asked for, the running total is the sum of the costs in all completed rows and is
below the budget; and an invocation whose row or whose events say that it
completed has a sum within the budget. -/
theorem budget_bounds_life (cfg : HostConfig) (schedule : List Action) :
    (∀ p next q, (Host.init.run cfg schedule).pc = .model p next q → (q = .intent ∨ ∃ id, q = .calling id) →
      (Host.init.run cfg schedule).spent = (Host.init.run cfg schedule).wal.totalCost ∧
        ∀ b, cfg.budget = some b → (Host.init.run cfg schedule).spent < b) ∧
    ((Host.init.run cfg schedule).wal.Completed ∨ .completed ∈ (Host.init.run cfg schedule).events →
      ∀ b, cfg.budget = some b → (Host.init.run cfg schedule).wal.totalCost ≤ b) := by
  have hb : Budgeted cfg (Host.init.run cfg schedule) := Host.budgeted_run schedule Host.budgeted_init
  refine ⟨?_, ?_⟩
  · intro p next q hpc hearly
    obtain ⟨hsum, hbelow, -⟩ := hb.at hpc
    have hspent : (Host.init.run cfg schedule).spent = (Host.init.run cfg schedule).wal.totalCost := by
      rw [hsum]
      rcases hearly with rfl | ⟨id, rfl⟩ <;> exact add_zero _
    exact ⟨hspent, hspent ▸ hbelow⟩
  · intro hdone
    exact hb.within (hdone.elim (fun hc => hc) hb.event)

end FactorQ.Reducer
