/-
# `FactorQ.Dispatch.Wait` — from the start of a run to the end of its delivery

The dispatcher hands a trigger to a worker and waits for two things at once: for the signal
that the run has durably started, on which it marks the claim and acks the delivery, and for
the run to return.  The signal is a one-shot channel.  Its sender can also be dropped without
a signal, which resolves the receiver all the same.

The worker is a future, and nothing is known of it but what it does each time it is polled.
The select loop asks the receiver first, as long as the delivery is not acked, and polls the
worker only if the receiver is not ready.  A receiver that is polled after it has resolved
panics.

The guard of the receiver's branch says whether the delivery was acked, not whether the
receiver has resolved.  The two come apart if marking the claim fails, and if the sender is
dropped; then the loop comes round and polls a resolved receiver, unless the worker has
returned by then.
-/
import FactorQ.Lib.Reaches
import FactorQ.Llm.Errors

namespace FactorQ.Dispatch

open Lib

/-! ## What a run returns -/

inductive InvocationOutcome where
  | completed
  | budgetExceeded
  | suspended
  | deferred (resumeAfter : Llm.Duration)
deriving DecidableEq

inductive ExecutorError where
  | bus (message : String)
  | llm (err : Llm.LlmError)
  | workerStore (message : String)
  | resume (message : String)
  | workspace (message : String)
  | invocationFailed (message : String)
deriving DecidableEq

def ExecutorError.isTransient : ExecutorError → Bool
  | bus _ => true
  | workerStore _ => true
  | resume _ => false
  | llm err => err.isTransient
  | workspace _ => false
  | invocationFailed _ => false

abbrev RunResult := Except ExecutorError InvocationOutcome

/-! ## The fate of a trigger that did not start -/

def triggerMaxDeliver : Nat := 5

/-- In seconds. -/
def triggerRetrySchedule : List Nat := [30, 5, 30, 120]

def triggerRetryExhausted (deliveryAttempt : Nat) : Bool := triggerMaxDeliver ≤ deliveryAttempt

def triggerRetryBackoff (deliveryAttempt : Nat) : Nat :=
  triggerRetrySchedule.getD (min (deliveryAttempt - 1) (triggerRetrySchedule.length - 1)) 0

inductive TriggerFate where
  | retry (delay : Nat)
  | deadLetter
  | consume
deriving DecidableEq

def triggerFate (result : RunResult) (deliveryAttempt : Nat) : TriggerFate :=
  match result with
  | .error err =>
    if err.isTransient then
      if triggerRetryExhausted deliveryAttempt then .deadLetter else .retry (triggerRetryBackoff deliveryAttempt)
    else .consume
  | .ok _ => .consume

/-- What is done about the delivery. -/
inductive Deed where
  | ack (context : String)
  | nak (delay : Nat) (context : String)
  /-- the terminal `trigger_exhausted` event -/
  | deadLetter (err : ExecutorError)
deriving DecidableEq

def Deed.settles : Deed → Bool
  | ack _ => true
  | nak _ _ => true
  | deadLetter _ => false

/-- The deeds for a run that returned without a durable start. -/
def fateDeeds (result : RunResult) (deliveryAttempt : Nat) : List Deed :=
  match triggerFate result deliveryAttempt, result with
  | .deadLetter, .error err => [.deadLetter err, .ack "transient retry limit exhausted"]
  | .retry delay, _ => [.nak delay "transient failure before first WAL write"]
  | _, _ => [.ack "invocation returned before durable start (permanent)"]

/-! ## The signal -/

inductive Signal where
  | fires (invocation : Nat)
  | drops
deriving DecidableEq

inductive Channel where
  | open
  | fired (invocation : Nat)
  | closed
deriving DecidableEq

/-- The first signal counts; firing again does nothing. -/
def Channel.send : Channel → Option Signal → Channel
  | .open, some (.fires invocation) => .fired invocation
  | .open, some .drops => .closed
  | channel, _ => channel

/-- What the loop knows. -/
structure Wait where
  channel : Channel
  /-- the receiver has been seen to resolve -/
  resolved : Bool
  acked : Bool
  observed : Bool
deriving DecidableEq

def Wait.start : Wait := ⟨.open, false, false, false⟩

inductive Ready where
  | worker
  | fired (invocation : Nat)
  | dropped
  | panics
deriving DecidableEq

/-- Which branch of the select is taken: the receiver's if it is enabled and ready. -/
def Wait.ready (w : Wait) : Ready :=
  if w.acked then .worker
  else
    match w.channel with
    | .open => .worker
    | .fired invocation => if w.resolved then .panics else .fired invocation
    | .closed => if w.resolved then .panics else .dropped

/-! ## The loop -/

/-- One poll of the worker: what it does with the signal, and what it returns if it is
ready. -/
structure Poll where
  signal : Option Signal
  result : Option RunResult

/-- A worker that is polled some number of times and then returns. -/
structure WorkerRun where
  pending : List (Option Signal)
  last : Option Signal
  result : RunResult

def pollsOf (pending : List (Option Signal)) (last : Option Signal) (result : RunResult) : List Poll :=
  pending.map (fun signal => ⟨signal, none⟩) ++ [⟨last, some result⟩]

def WorkerRun.polls (worker : WorkerRun) : List Poll := pollsOf worker.pending worker.last worker.result

inductive Phase where
  | selecting
  | marking (invocation : Nat)
  | returned (result : RunResult)
  | settled
  | panicked
deriving DecidableEq

structure Handling where
  wait : Wait
  /-- what the worker will do -/
  polls : List Poll
  phase : Phase
  deeds : List Deed

def Handling.start (worker : WorkerRun) : Handling := ⟨.start, worker.polls, .selecting, []⟩

/-- `handle` from the select loop on.  `mark` is whether the claim store marks the claim. -/
def Handling.step (mark : Bool) (deliveryAttempt : Nat) (h : Handling) : Handling :=
  match h.phase with
  | .selecting =>
    match h.wait.ready with
    | .panics => { h with phase := .panicked }
    | .fired invocation =>
      { h with wait := { h.wait with resolved := true, observed := true }, phase := .marking invocation }
    | .dropped => { h with wait := { h.wait with resolved := true } }
    | .worker =>
      match h.polls with
      | [] => h
      | p :: polls =>
        { h with
          wait := { h.wait with channel := h.wait.channel.send p.signal }
          polls
          phase := p.result.elim .selecting .returned }
  | .marking _ =>
    if mark then
      { h with wait := { h.wait with acked := true }, phase := .selecting, deeds := h.deeds ++ [.ack "durably started"] }
    else { h with phase := .selecting }
  | .returned result =>
    if !h.wait.acked && !h.wait.observed then
      { h with phase := .settled, deeds := h.deeds ++ fateDeeds result deliveryAttempt }
    else { h with phase := .settled }
  | .settled => h
  | .panicked => h

/-! ## How the loop ends -/

section Runs

variable {mark : Bool} {attempt : Nat} {w : Wait} {pending : List (Option Signal)} {last : Option Signal}
  {result : RunResult} {deeds : List Deed}

/-- Once the delivery is acked the worker is run to its return. -/
theorem acked_reaches (hacked : w.acked = true) :
    ∃ h, Reaches (Handling.step mark attempt) ⟨w, pollsOf pending last result, .selecting, deeds⟩ h ∧
      h.phase = .settled ∧ h.polls = [] ∧ h.deeds = deeds := by
  have hready : ∀ channel, ({ w with channel } : Wait).ready = .worker := by
    intro channel
    simp [Wait.ready, hacked]
  induction pending generalizing w with
  | nil =>
    refine ⟨_, .step (.step (.refl _)), ?_⟩
    simp [Handling.step, pollsOf, hready w.channel, hacked]
  | cons signal pending ih =>
    obtain ⟨h, hreach, hend⟩ := ih (w := { w with channel := w.channel.send signal }) hacked hready
    refine ⟨h, .step ?_, hend⟩
    have hstep : Handling.step mark attempt ⟨w, pollsOf (signal :: pending) last result, .selecting, deeds⟩ =
        ⟨{ w with channel := w.channel.send signal }, pollsOf pending last result, .selecting, deeds⟩ := by
      simp [Handling.step, pollsOf, hready w.channel]
    rw [hstep]
    exact hreach

/-- What becomes of the delivery. -/
inductive Ending where
  | started
  | lost
  | returned

/-- By the first signal before the worker's last poll, and whether the mark succeeds. -/
def endingOf (mark : Bool) (pending : List (Option Signal)) : Ending :=
  match pending.findSome? id with
  | none => .returned
  | some (.fires _) => if mark then .started else .lost
  | some .drops => .lost

def Ending.Describes (h : Handling) (result : RunResult) (attempt : Nat) : Ending → Prop
  | .started => h.phase = .settled ∧ h.polls = [] ∧ h.deeds = [.ack "durably started"]
  | .lost => h.phase = .panicked ∧ h.deeds = []
  | .returned => h.phase = .settled ∧ h.polls = [] ∧ h.deeds = fateDeeds result attempt

/-- The loop from its start.  It comes round after each signal; if it has not acked by then,
it polls a receiver that has resolved. -/
theorem handling_ends :
    ∃ h, Reaches (Handling.step mark attempt) ⟨.start, pollsOf pending last result, .selecting, []⟩ h ∧
      (endingOf mark pending).Describes h result attempt := by
  induction pending with
  | nil =>
    refine ⟨_, .step (.step (.refl _)), ?_⟩
    simp [Handling.step, pollsOf, Wait.ready, Wait.start, endingOf, Ending.Describes]
  | cons signal pending ih =>
    cases signal with
    | none =>
      obtain ⟨h, hreach, hend⟩ := ih
      exact ⟨h, .step hreach, hend⟩
    | some signal =>
      cases signal with
      | drops =>
        refine ⟨_, .step (.step (.step (.refl _))), ?_⟩
        simp [Handling.step, pollsOf, Wait.ready, Wait.start, Channel.send, endingOf, Ending.Describes]
      | fires invocation =>
        cases mark with
        | false =>
          refine ⟨_, .step (.step (.step (.step (.refl _)))), ?_⟩
          simp [Handling.step, pollsOf, Wait.ready, Wait.start, Channel.send, endingOf, Ending.Describes]
        | true =>
          let w : Wait := ⟨.fired invocation, true, true, true⟩
          obtain ⟨h, hreach, hend⟩ : ∃ h, Reaches (Handling.step true attempt)
              ⟨w, pollsOf pending last result, .selecting, [.ack "durably started"]⟩ h ∧ _ := acked_reaches rfl
          exact ⟨h, .step (.step (.step hreach)), hend⟩

end Runs

/-- The signal, if it is sent before the worker's last poll, is a durable start and the mark
succeeds. -/
def Observed (worker : WorkerRun) (mark : Bool) : Prop :=
  ∀ signal ∈ worker.pending.findSome? id, (∃ invocation, signal = .fires invocation) ∧ mark = true

/-- What is to become of the delivery: acked on a durable start that was marked, left alone
if the mark failed, and else the fate of the trigger. -/
def intendedDeeds (worker : WorkerRun) (mark : Bool) (deliveryAttempt : Nat) : List Deed :=
  match worker.pending.findSome? id with
  | some (.fires _) => if mark then [.ack "durably started"] else []
  | _ => fateDeeds worker.result deliveryAttempt

section Settles

variable {mark : Bool} {attempt : Nat}

theorem rests_of_settled {h : Handling} (hphase : h.phase = .settled) : h.step mark attempt = h := by
  simp [Handling.step, hphase]

theorem rests_of_panicked {h : Handling} (hphase : h.phase = .panicked) : h.step mark attempt = h := by
  simp [Handling.step, hphase]

/-- Whether the signal was observed decides whether the loop settles or is lost. -/
theorem endingOf_cases (worker : WorkerRun) (mark : Bool) (attempt : Nat) :
    (Observed worker mark ∧
      ((endingOf mark worker.pending = .started ∧ intendedDeeds worker mark attempt = [.ack "durably started"]) ∨
        endingOf mark worker.pending = .returned ∧
          intendedDeeds worker mark attempt = fateDeeds worker.result attempt)) ∨
    (¬ Observed worker mark ∧ endingOf mark worker.pending = .lost) := by
  unfold Observed endingOf intendedDeeds
  cases worker.pending.findSome? id with
  | none => simp
  | some signal =>
    cases signal with
    | drops => simp
    | fires invocation => cases mark <;> simp

theorem fateDeeds_settles_once (result : RunResult) : (fateDeeds result attempt).countP Deed.settles = 1 := by
  unfold fateDeeds
  split <;> rfl

end Settles

/-- The loop runs the worker to its return and does about the delivery what was intended
exactly if the signal is observed, and then settles it once; if not, it panics with the
delivery unsettled. -/
theorem wait_loop_settles (worker : WorkerRun) (mark : Bool) (deliveryAttempt : Nat) :
    ((∃ h, Reaches (Handling.step mark deliveryAttempt) (.start worker) h ∧ h.phase = .settled ∧ h.polls = [] ∧
        h.deeds = intendedDeeds worker mark deliveryAttempt) ↔ Observed worker mark) ∧
    (Observed worker mark → (intendedDeeds worker mark deliveryAttempt).countP Deed.settles = 1) ∧
    (¬ Observed worker mark →
      ∃ h, Reaches (Handling.step mark deliveryAttempt) (.start worker) h ∧ h.phase = .panicked ∧ h.deeds = []) := by
  obtain ⟨h, hreach, hend⟩ : ∃ h, Reaches (Handling.step mark deliveryAttempt) (.start worker) h ∧
      (endingOf mark worker.pending).Describes h worker.result deliveryAttempt := handling_ends
  rcases endingOf_cases worker mark deliveryAttempt with
    ⟨hobserved, ⟨hending, hdeeds⟩ | ⟨hending, hdeeds⟩⟩ | ⟨hlost, hending⟩
  · rw [hending] at hend
    obtain ⟨hphase, hpolls, hdone⟩ := hend
    refine ⟨iff_of_true ⟨h, hreach, hphase, hpolls, hdone.trans hdeeds.symm⟩ hobserved, fun _ => ?_, absurd hobserved⟩
    rw [hdeeds]
    rfl
  · rw [hending] at hend
    obtain ⟨hphase, hpolls, hdone⟩ := hend
    refine ⟨iff_of_true ⟨h, hreach, hphase, hpolls, hdone.trans hdeeds.symm⟩ hobserved, fun _ => ?_, absurd hobserved⟩
    rw [hdeeds]
    exact fateDeeds_settles_once worker.result
  · rw [hending] at hend
    obtain ⟨hphase, hdone⟩ := hend
    refine ⟨iff_of_false ?_ hlost, fun hobserved => absurd hobserved hlost, fun _ => ⟨h, hreach, hphase, hdone⟩⟩
    rintro ⟨h', hreach', hsettled, -⟩
    have heq := hreach.unique (rests_of_panicked hphase) (rests_of_settled hsettled) hreach'
    rw [heq, hsettled] at hphase
    cases hphase

/-- The run starts durably, the claim store cannot mark the claim, and the run goes on for
one more poll.  The loop polls the receiver a second time: the task panics, with the run
dropped before its return and the delivery unsettled. -/
theorem unmarked_start_panics :
    ∃ h, Reaches (Handling.step false 1) (.start ⟨[some (.fires 7), none], none, .ok .completed⟩) h ∧
      h.phase = .panicked ∧ h.polls.length = 2 ∧ h.deeds = [] :=
  ⟨_, ⟨4, rfl⟩, by decide, by decide, by decide⟩

end FactorQ.Dispatch
