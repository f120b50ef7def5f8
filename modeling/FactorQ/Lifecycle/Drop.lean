/-
# `FactorQ.Lifecycle.Drop` — an operator's drop is final

Once the drop is applied the owner row is terminal and the worker row is closed.  What
could undo it is a write: to the owner row by classification or by the consumer, to
the worker row by an incarnation that is still there.

Classification looks at open rows only, the archive handler leaves a terminal owner
alone, and the upsert leaves a terminal worker row alone.  Two writes have no such
guard.  The handler of `invocation.ambiguous` overwrites the owner whatever it says;
and once an ack has deleted the worker row, the upsert has nothing left to compare
with and inserts the row afresh, open.  Without these two the drop is final.
-/
import FactorQ.Lib.Interleave
import FactorQ.Reducer.Ending
import FactorQ.Lifecycle.Life

namespace FactorQ.Lifecycle

open Lib Reducer Wal

variable {cfg : HostConfig} {h h' : Host} {w : Wal} {l : Life}

/-! ## The worker row -/

/-- No row without a terminal time. -/
def Shut (w : Wal) : Prop := ∀ row, w.state = some row → row.terminalAt.isSome = true

theorem shut_iff : Shut w ↔ w.state = none ∨ w.Ended := by
  unfold Shut Wal.Ended
  cases w.state with
  | none => simp
  | some row => simp

theorem Shut.of_state {w' : Wal} (hs : Shut w) (heq : w'.state = w.state) : Shut w' :=
  fun row hr => hs row (heq ▸ hr)

theorem shut_markOperatorTerminal (w : Wal) (phase : PhaseLabel) (now : Int) :
    Shut (w.markOperatorTerminal phase now) := by
  intro row hr
  obtain ⟨old, -, rfl⟩ := Option.map_eq_some_iff.mp hr
  by_cases hterm : old.terminalAt.isSome = true
  · rw [if_pos hterm]
    exact hterm
  · rw [if_neg hterm]
    rfl

theorem Shut.upsert (hs : Shut w) (hthere : w.state ≠ none) (row : StateRow) :
    Shut (w.upsertInvocationState row) := by
  have hended : w.Ended := (shut_iff.mp hs).resolve_left hthere
  rw [upsert_of_ended hended]
  exact hs

theorem Shut.ensureTerminal (hs : Shut w) (phase : PhaseLabel) (now : Int) :
    Shut (w.ensureTerminal phase now) := by
  rcases ensureTerminal_state (w := w) phase now with heq | ⟨row', heq, -, ht⟩
  · exact hs.of_state heq
  · intro row hr
    cases heq.symm.trans hr
    exact ht

theorem Shut.markDeferred (hs : Shut w) : Shut w.markDeferred := by
  unfold Wal.markDeferred
  split
  · exact hs
  · next row hr =>
    rw [if_pos (hs row hr)]
    exact hs

theorem Shut.setArchivePending (hs : Shut w) : Shut w.setArchivePending := by
  rcases shut_iff.mp hs with hnone | hended
  · refine hs.of_state ?_
    unfold Wal.setArchivePending
    rw [hnone]
    rfl
  · exact shut_iff.mpr (.inr (setArchivePending_ended.mpr hended))

/-- The loop stands before the write of a step. -/
def Pc.atBoundaryWrite : Pc → Bool
  | .noticing _ _ [] => true
  | _ => false

/-- A closed row stays closed, and no row comes back, unless the write of a step finds
none. -/
theorem shut_move {e : Env} (m : Host.Move cfg e h h') (hs : Shut h.wal)
    (hthere : Pc.atBoundaryWrite h.pc = true → h.wal.state ≠ none) : Shut h'.wal := by
  cases m with
  | reduced p carried out pc step performs =>
    exact hs.upsert (hthere (pc ▸ rfl)) _
  | putDown p pc => exact hs.markDeferred
  | ended p kind call pc => exact hs.ensureTerminal _ _
  | handedOff o pc => exact hs.setArchivePending
  | called p next pc m | replied p next r pc m | refused p next pc m | rateLimited p next id text pc m
  | broken p next id text pc m =>
    exact hs.of_state m.state
  | toolWent p next done req rest pc m | toolAborted p next done req rest r pc m
  | toolAnswered p next done req req' rest r pc m | roundDone p next done req r pc m =>
    exact hs.of_state m.state
  | stamped p id pc stamp => exact hs.of_state (markLlmDeferred_spec stamp).1.state
  | noticed p carried n pending pc _ _ insert =>
    rw [insertHostNotice_spec insert]
    exact hs.of_state rfl
  | overrun | drained | suspended | rejected | overspent | advanced | unstamped | announced | lost | failed
  | completed | archived | kept | idle =>
    exact hs

/-- Told to stop, the loop leaves before the write. -/
theorem step_suspended {e : Env} (hat : Pc.atBoundaryWrite h.pc = true) (hstop : e.suspend = true) :
    h.step cfg e = h.goto (.finished .suspended) := by
  cases hpc : h.pc with
  | noticing p carried pending =>
    cases pending with
    | nil =>
      unfold Host.step
      rw [hpc]
      exact if_pos hstop
    | cons =>
      rw [hpc] at hat
      cases hat
  | boundary | model | answered | deferring | stamped | announcing | tools | failing | completing | handingOff
  | finished =>
    rw [hpc] at hat
    cases hat

theorem Resumes.wal_eq (m : Host.Resumes cfg h h') : h'.wal = h.wal := by
  cases m <;> rfl

/-! ## The condition -/

/-- The incarnation is about to write the row. -/
def Life.writesRow (l : Life) (e : Env) : Bool :=
  match l.host.pc, l.held with
  | .stamped _, some _ => true
  | pc, _ => Pc.atBoundaryWrite pc && !(e.suspend || l.halt)

def Consumer.isMarking : Consumer → Bool
  | .marking => true
  | _ => false

/-- After a drop, no incarnation writes a row that has been deleted, and no ambiguous
event is applied. -/
def Respects (l : Life) : LifeAction → Prop
  | .work e => l.dropped = true → l.host.wal.state.isNone = true → l.writesRow e = false
  | .handle _ => l.dropped = true → l.consumer.isMarking = false
  | _ => True

instance : ∀ (l : Life) (a : LifeAction), Decidable (Respects l a)
  | l, .work e =>
    inferInstanceAs (Decidable (l.dropped = true → l.host.wal.state.isNone = true → l.writesRow e = false))
  | l, .handle _ => inferInstanceAs (Decidable (l.dropped = true → l.consumer.isMarking = false))
  | _, .crash | _, .abort | _, .resume | _, .inject _ | _, .reconcile _ | _, .classify _ _ | _, .report _ _
  | _, .sweep | _, .sweepFails | _, .deliver _ | _, .nak | _, .ack | _, .drop _ => .isTrue trivial

/-! ## The owner row -/

structure Final (l : Life) : Prop where
  /-- the drop writes the owner before it closes the row -/
  closing : ∀ phase, l.consumer = .closing phase → l.owner.any OwnerStatus.isTerminal = true
  /-- the consumer is not there before the daemon is up -/
  starting : l.daemon ≠ .up → ∀ phase, l.consumer ≠ .closing phase
  owner : l.dropped = true → l.owner.any OwnerStatus.isTerminal = true
  row : l.dropped = true → Shut l.host.wal

theorem isTerminal_archivedStatus (phase : PhaseLabel) : (archivedStatus phase).isTerminal = true := by
  cases phase <;> rfl

theorem isTerminal_recoveredStatus (phase : PhaseLabel) : (recoveredStatus phase).isTerminal = true := by
  cases phase <;> rfl

theorem Final.of_row {l' : Life} (hf : Final l) (hcons : l'.consumer = l.consumer ∨ ∀ ph, l'.consumer ≠ .closing ph)
    (hdaemon : l'.daemon = l.daemon) (howner : l'.owner = l.owner) (hdrop : l'.dropped = l.dropped)
    (hrow : l.dropped = true → Shut l.host.wal → Shut l'.host.wal) : Final l' where
  closing := fun phase hc => by
    rcases hcons with heq | hne
    · rw [howner]
      exact hf.closing phase (heq ▸ hc)
    · exact absurd hc (hne phase)
  starting := fun hd phase hc => by
    rcases hcons with heq | hne
    · exact hf.starting (hdaemon ▸ hd) phase (heq ▸ hc)
    · exact hne phase hc
  owner := fun hd => howner ▸ hf.owner (hdrop ▸ hd)
  row := fun hd => hrow (hdrop ▸ hd) (hf.row (hdrop ▸ hd))

theorem final_publishAmbiguousOnce (stamped published : Bool) (hf : Final l) :
    Final (l.publishAmbiguousOnce stamped published) := by
  unfold Life.publishAmbiguousOnce
  split
  · exact hf
  · dsimp only
    split <;> split <;> exact hf.of_row (.inl rfl) rfl rfl rfl fun _ hs => hs

theorem final_work {e : Env} (hok : Respects l (.work e)) (hf : Final l) : Final (l.work cfg e) := by
  have hthere : l.dropped = true → l.writesRow e = true → l.host.wal.state ≠ none := by
    intro hd hw hnone
    rw [hok hd (by rw [hnone]; rfl)] at hw
    cases hw
  unfold Life.work
  split
  · split
    · exact hf.of_row (.inl rfl) rfl rfl rfl fun _ hs => hs
    · exact hf.of_row (.inl rfl) rfl rfl rfl fun _ hs => hs
  · next p row hpc hheld =>
    refine hf.of_row (.inl rfl) rfl rfl rfl fun hd hs => ?_
    refine hs.upsert (hthere hd ?_) _
    unfold Life.writesRow
    rw [hpc, hheld]
  · next hne =>
    refine hf.of_row (.inl rfl) rfl rfl rfl fun hd hs => ?_
    show Shut (l.host.step cfg { e with suspend := e.suspend || l.halt }).wal
    by_cases hstop : Pc.atBoundaryWrite l.host.pc = true ∧ (e.suspend || l.halt) = true
    · rw [step_suspended hstop.1 hstop.2]
      exact hs
    · refine shut_move Host.step_move hs fun hat => hthere hd ?_
      have hgo : (e.suspend || l.halt) = false := Bool.eq_false_iff.mpr fun hsu => hstop ⟨hat, hsu⟩
      unfold Life.writesRow
      split
      · rfl
      · rw [hat, hgo]
        rfl

theorem final_handle {now : Int} (hup : l.daemon = .up) (hok : Respects l (.handle now)) (hf : Final l) :
    Final (l.handle now) := by
  unfold Life.handle
  split
  · exact hf
  · next hc =>
    have hlive : l.dropped = true → False := by
      intro hd
      have hm := hok hd
      rw [hc] at hm
      cases hm
    exact ⟨nofun, nofun, fun hd => (hlive hd).elim, hf.row⟩
  · exact hf.of_row (.inr nofun) rfl rfl rfl fun _ hs => hs
  · next phase current _ =>
    split
    · exact hf.of_row (.inr nofun) rfl rfl rfl fun _ hs => hs
    · exact ⟨nofun, nofun, fun _ => isTerminal_archivedStatus phase, hf.row⟩
  · exact hf.of_row (.inr nofun) rfl rfl rfl fun _ hs => hs
  · next phase _ =>
    exact ⟨fun _ _ => isTerminal_recoveredStatus phase, fun hne => absurd hup hne, fun _ => isTerminal_recoveredStatus phase, hf.row⟩
  · next phase hc =>
    exact ⟨nofun, nofun, fun _ => hf.closing phase hc, fun _ => shut_markOperatorTerminal _ _ _⟩

theorem openRow_eq_none (hs : Shut l.host.wal) : l.openRow = none := by
  refine Option.filter_eq_none_iff.mpr fun row hr => ?_
  rw [Bool.not_eq_true, Option.isNone_eq_false_iff]
  exact hs row hr

theorem final_reconcile (now : Int) (hf : Final l) : Final (l.reconcile now) := by
  unfold Life.reconcile
  split
  · split
    · exact hf.of_row (.inl rfl) rfl rfl rfl fun _ _ => shut_markOperatorTerminal _ _ _
    · exact hf
  · exact hf

/-- Classification sees a dropped invocation no more.  It runs before the consumer is
there. -/
theorem final_classify (stamped published : Bool) (hc : ∀ phase, l.consumer ≠ .closing phase) (hf : Final l) :
    Final (l.classify stamped published) := by
  unfold Life.classify
  split
  · exact hf
  · next row hrow =>
    split
    · exact final_publishAmbiguousOnce stamped published hf
    · have hlive : l.dropped = true → False := by
        intro hd
        cases hrow.symm.trans (openRow_eq_none (hf.row hd))
      exact ⟨fun phase h => absurd h (hc phase), fun _ => hc, fun hd => (hlive hd).elim, hf.row⟩

theorem final_sweep (hf : Final l) : Final l.sweep := by
  unfold Life.sweep
  split
  · split
    · split
      · exact hf.of_row (.inl rfl) rfl rfl rfl fun _ hs => hs
      · exact hf
    · exact hf
  · exact hf.of_row (.inl rfl) rfl rfl rfl fun _ hs => hs
  · exact hf.of_row (.inl rfl) rfl rfl rfl fun _ hs => hs.setArchivePending

theorem final_deliver {ev : Event} (hf : Final l) : Final (l.deliver ev) := by
  unfold Life.deliver
  split
  · exact hf.of_row (.inr nofun) rfl rfl rfl fun _ hs => hs
  · exact hf.of_row (.inr nofun) rfl rfl rfl fun _ hs => hs
  · exact hf.of_row (.inr nofun) rfl rfl rfl fun _ hs => hs
  · exact hf

theorem final_ack (hf : Final l) : Final l.ack := by
  unfold Life.ack
  split
  · exact hf
  · exact hf.of_row (.inl rfl) rfl rfl rfl fun _ _ => nofun

theorem final_drop {live : Bool} (hf : Final l) : Final (l.drop live) := by
  unfold Life.drop
  split
  · exact hf.of_row (.inl rfl) rfl rfl rfl fun _ hs => hs
  · split
    · exact hf.of_row (.inl rfl) rfl rfl rfl fun _ hs => hs
    · exact hf

theorem final_act {a : LifeAction} (hok : Respects l a) (hf : Final l) : Final (l.act cfg a) := by
  have hup : l.daemon = .up → Final (l.actUp cfg a) := by
    intro hdaemon
    cases a with
    | work e => exact final_work hok hf
    | abort => exact hf.of_row (.inl rfl) rfl rfl rfl fun _ hs => hs
    | resume =>
      refine hf.of_row (.inl rfl) rfl rfl rfl fun _ hs => ?_
      exact hs.of_state (congrArg Wal.state (Resumes.wal_eq Host.resume_resumes))
    | inject render =>
      refine hf.of_row (.inl rfl) rfl rfl rfl fun _ hs => ?_
      show Shut (l.host.inject render).wal
      rcases Host.inject_cases (h := l.host) render with heq | ⟨o, -, heq⟩
      · rw [heq]
        exact hs
      · rw [heq]
        exact hs.of_state (injectInterruptedResults_spec _ _).2
    | report stamped published =>
      dsimp only [Life.actUp]
      split
      · exact (final_publishAmbiguousOnce stamped published hf).of_row (.inl rfl) rfl rfl rfl fun _ hs => hs
      · exact hf
    | sweep => exact final_sweep hf
    | sweepFails => exact hf.of_row (.inl rfl) rfl rfl rfl fun _ hs => hs
    | deliver ev =>
      dsimp only [Life.actUp]
      split
      · exact final_deliver hf
      · exact hf
    | handle now => exact final_handle hdaemon hok hf
    | nak => exact hf.of_row (.inr nofun) rfl rfl rfl fun _ hs => hs
    | ack => exact final_ack hf
    | drop live => exact final_drop hf
    | crash | reconcile | classify => exact hf
  cases a with
  | crash => exact ⟨nofun, fun _ => nofun, hf.owner, hf.row⟩
  | reconcile now =>
    dsimp only [Life.act]
    split
    · next hstart =>
      have hrec := final_reconcile now hf
      have hc : (l.reconcile now).consumer = l.consumer := by
        unfold Life.reconcile
        split
        · split <;> rfl
        · rfl
      have hne : l.daemon ≠ .up := by simp [hstart]
      exact ⟨hrec.closing, fun _ phase h => hf.starting hne phase (hc ▸ h), hrec.owner, hrec.row⟩
    · exact hf
  | classify stamped published =>
    dsimp only [Life.act]
    split
    · next hstart =>
      have hne : l.daemon ≠ .up := by simp [hstart]
      have hcl := final_classify stamped published (hf.starting hne) hf
      exact ⟨hcl.closing, fun h => absurd rfl h, hcl.owner, hcl.row⟩
    · exact hf
  | work | abort | resume | inject | report | sweep | sweepFails | deliver | handle | nak | ack | drop =>
    dsimp only [Life.act]
    split
    · next hdaemon => exact hup hdaemon
    · exact hf

theorem final_init : Final Life.init := ⟨nofun, nofun, nofun, nofun⟩

/-! ## Every later state -/

theorem dropped_act {a : LifeAction} (hd : l.dropped = true) : (l.act cfg a).dropped = true := by
  have hpub : ∀ stamped published, (l.publishAmbiguousOnce stamped published).dropped = true := by
    intro stamped published
    unfold Life.publishAmbiguousOnce
    split
    · exact hd
    · dsimp only
      split <;> split <;> exact hd
  have hup : (l.actUp cfg a).dropped = true := by
    cases a with
    | work e =>
      dsimp only [Life.actUp]
      unfold Life.work
      split
      · split <;> exact hd
      · exact hd
      · exact hd
    | report stamped published =>
      dsimp only [Life.actUp]
      split
      · exact hpub stamped published
      · exact hd
    | sweep =>
      dsimp only [Life.actUp]
      unfold Life.sweep
      split
      · split
        · split <;> exact hd
        · exact hd
      · exact hd
      · exact hd
    | deliver ev =>
      dsimp only [Life.actUp]
      unfold Life.deliver
      split
      · split <;> exact hd
      · exact hd
    | handle now =>
      dsimp only [Life.actUp]
      unfold Life.handle
      split
      case h_4 => split <;> exact hd
      case h_7 => exact Bool.or_eq_true_iff.mpr (.inl hd)
      all_goals exact hd
    | ack =>
      dsimp only [Life.actUp]
      unfold Life.ack
      split <;> exact hd
    | drop live =>
      dsimp only [Life.actUp]
      unfold Life.drop
      split
      · exact hd
      · split <;> exact hd
    | abort | resume | inject | sweepFails | nak | crash | reconcile | classify => exact hd
  cases a with
  | crash => exact hd
  | reconcile now =>
    dsimp only [Life.act]
    split
    · show (l.reconcile now).dropped = true
      unfold Life.reconcile
      split
      · split <;> exact hd
      · exact hd
    · exact hd
  | classify stamped published =>
    dsimp only [Life.act]
    split
    · show (l.classify stamped published).dropped = true
      unfold Life.classify
      split
      · exact hd
      · split
        · exact hpub stamped published
        · exact hd
    · exact hd
  | work | abort | resume | inject | report | sweep | sweepFails | deliver | handle | nak | ack | drop =>
    dsimp only [Life.act]
    split
    · exact hup
    · exact hd

theorem dropped_run (schedule : List LifeAction) (hd : l.dropped = true) : (l.run cfg schedule).dropped = true := by
  induction schedule generalizing l with
  | nil => exact hd
  | cons a schedule ih => exact ih (dropped_act hd)

/-- The owner is neither in flight nor ambiguous, and no row is open. -/
def Life.Over (l : Life) : Prop :=
  (l.owner = some .completed ∨ l.owner = some .failed) ∧ Shut l.host.wal

/-- From the moment a drop has been applied, in every life in which no incarnation then
writes a deleted row and no ambiguous event is then applied, the owner is terminal and
there is no row without a terminal time. -/
theorem drop_is_final (cfg : HostConfig) (before after : List LifeAction)
    (hok : Permitted (Life.act cfg) Respects Life.init (before ++ after))
    (hd : (Life.init.run cfg before).dropped = true) : (Life.init.run cfg (before ++ after)).Over := by
  have hf : Final (Life.init.run cfg (before ++ after)) :=
    Permitted.inv (fun _ _ hok hf => final_act hok hf) hok final_init
  have hdl : (Life.init.run cfg (before ++ after)).dropped = true := by
    have hrun : Life.init.run cfg (before ++ after) = (Life.init.run cfg before).run cfg after := List.foldl_append
    rw [hrun]
    exact dropped_run after hd
  refine ⟨?_, hf.row hdl⟩
  obtain ⟨status, hs, hterm⟩ := (Option.any_eq_true _ _).mp (hf.owner hdl)
  cases status with
  | completed => exact .inl hs
  | failed => exact .inr hs
  | inFlight | ambiguous => cases hterm

/-- An invocation that stops at its first model call; the next process means to pick it
up, and before it does the operator drops it. -/
def droppedAtRestart : List LifeAction :=
  List.replicate 2 (LifeAction.work (sampleEnv [])) ++ [LifeAction.crash, LifeAction.reconcile 1, LifeAction.classify true true, LifeAction.drop false]

/-- The drop is applied. -/
def dropApplied : List LifeAction := [.deliver (.operatorRecovered .failed), .handle 2, .handle 2]

/-- The sweeper hands the dropped row over, and it is deleted. -/
def droppedRowDeleted : List LifeAction :=
  [.sweep, .sweep, .sweep, .deliver (.archived .failed), .handle 3, .handle 3, .handle 3, .ack]

theorem deleted_drop_is_final :
    (Life.init.run sampleConfig ((droppedAtRestart ++ dropApplied) ++ (.resume :: droppedRowDeleted))).Over :=
  drop_is_final sampleConfig (droppedAtRestart ++ dropApplied) (.resume :: droppedRowDeleted) (by decide +kernel)
    (by decide +kernel)

/-- The resume task finds the invocation dropped and reports that it failed; the report
makes the owner ambiguous. -/
def lateReport : Life :=
  Life.init.run sampleConfig (droppedAtRestart ++ dropApplied ++
    [.resume, .report true true, .deliver .ambiguous, .handle 3])

/-- The resume task starts before the drop is applied; the row is deleted under it, and
its next step writes the row anew. -/
def lateWrite : Life :=
  Life.init.run sampleConfig (droppedAtRestart ++ [.resume] ++ dropApplied ++ droppedRowDeleted ++
    List.replicate 2 (.work (sampleEnv [])))

/-- A drop that was applied is undone: the owner is ambiguous again, or there is an open
row again. -/
theorem drop_undone :
    (lateReport.dropped = true ∧ lateReport.owner = some .ambiguous) ∧
      lateWrite.dropped = true ∧ lateWrite.host.wal.state.any (fun row => row.terminalAt.isNone) = true :=
  ⟨⟨by decide +kernel, by decide +kernel⟩, by decide +kernel, by decide +kernel⟩

end FactorQ.Lifecycle
