/-
# `FactorQ.Dispatch.Claims` — one message, many deliveries

The broker delivers a message as often as it likes, and every delivery is handled by a task
of its own.  The tasks are kept apart by the message's row in the claim store: it is inserted
by the first of them, deleted when a delivery is acked or naked before its invocation started,
and kept for good once the claim is marked as durably started.  A process that comes up
later runs under a fresh worker id and takes over a row that an earlier one left behind.

Each statement of the store is atomic and can land although it reports an error.  Between
two statements of one task anything can happen in the others.

A task is engaged from the statement that gave it the claim to the one that gives it back,
and after its first row in the write-ahead log for ever.  The invariant is that at most one
task is engaged and that the row then keeps all others out.  It rests on the task knowing
that its invocation has started.  The select loop asks the receiver before it polls the
worker, and not after: a worker that fires the signal and returns in the same poll has
started an invocation of which the task knows nothing, and the claim is given back.
-/
import FactorQ.Dispatch.Wait
import FactorQ.Lib.Interleave

namespace FactorQ.Dispatch

open Lib

/-! ## The claim store -/

inductive ClaimState where
  | claimed
  | durablyStarted (invocation : Nat)
deriving DecidableEq

structure ClaimRow where
  claimant : Nat
  state : ClaimState
deriving DecidableEq

inductive TriggerClaim where
  | held (claimant : Nat)
  | started (invocation : Nat)
deriving DecidableEq

/-- The insert of `claim_trigger`, and whether it inserted. -/
def insertClaim (row : Option ClaimRow) (worker : Nat) : Option ClaimRow × Bool :=
  match row with
  | none => (some ⟨worker, .claimed⟩, true)
  | some r => (some r, false)

/-- The select of `claim_trigger`; a row that has gone is an error. -/
def readClaim (row : Option ClaimRow) : Option TriggerClaim :=
  row.map fun r =>
    match r.state with
    | .durablyStarted invocation => .started invocation
    | .claimed => .held r.claimant

/-- `take_over_trigger_claim` -/
def takeOverTriggerClaim (row : Option ClaimRow) (claimant worker : Nat) : Option ClaimRow × Bool :=
  match row with
  | some ⟨holder, .claimed⟩ => if holder = claimant then (some ⟨worker, .claimed⟩, true) else (row, false)
  | _ => (row, false)

/-- `mark_trigger_started` -/
def markTriggerStarted (row : Option ClaimRow) (invocation : Nat) : Option ClaimRow :=
  row.map fun r => { r with state := .durablyStarted invocation }

/-- `release_trigger_claim` -/
def releaseTriggerClaim (row : Option ClaimRow) : Option ClaimRow :=
  row.filter fun r => r.state ≠ .claimed

/-! ## The tasks -/

/-- Where the handler of a delivery stands. -/
inductive Pc where
  /-- not delivered yet -/
  | absent
  | inserting
  | reading
  | adopting (claimant : Nat)
  /-- the claim is won; drain, routing, admission and parsing come next -/
  | admission
  /-- in the select loop -/
  | waiting (wait : Wait)
  /-- in `mark_durable_started` -/
  | marking (wait : Wait) (invocation : Nat)
  /-- in `ack` or `nak`; from the ack of a durable start the loop goes on -/
  | releasing (onward : Option Wait)
  | gone

structure Handler where
  pc : Pc
  /-- the first row of its invocation is in the write-ahead log -/
  wrote : Bool
  /-- its claim was marked -/
  marked : Bool

def Handler.absent : Handler := ⟨.absent, false, false⟩

/-- What the store says to a statement; an error may come after it has landed. -/
inductive Answer where
  | ok
  | err (landed : Bool)
deriving DecidableEq

def Answer.lands : Answer → Bool
  | ok => true
  | err landed => landed

inductive Admission where
  | runs
  /-- a drain, an interrupted hold or a requeue that failed: the delivery is left alone -/
  | leaves
  /-- no such agent, a poison payload, a requeue: acked without a run -/
  | acks

/-- The handler's statement on the store. -/
def Handler.store (worker : Nat) (row : Option ClaimRow) (answer : Answer) (h : Handler) :
    Option ClaimRow × Handler :=
  match h.pc with
  | .inserting =>
    let (row', won) := insertClaim row worker
    match answer with
    | .ok => (row', { h with pc := if won then .admission else .reading })
    | .err landed => (if landed then row' else row, { h with pc := .gone })
  | .reading =>
    match answer, readClaim row with
    | .ok, some (.held claimant) => (row, { h with pc := if claimant = worker then .gone else .adopting claimant })
    | _, _ => (row, { h with pc := .gone })
  | .adopting claimant =>
    let (row', won) := takeOverTriggerClaim row claimant worker
    match answer with
    | .ok => (row', { h with pc := if won then .admission else .gone })
    | .err landed => (if landed then row' else row, { h with pc := .gone })
  | .marking wait invocation =>
    match answer with
    | .ok =>
      (markTriggerStarted row invocation, { h with pc := .releasing (some { wait with acked := true }), marked := true })
    | .err landed => (if landed then markTriggerStarted row invocation else row, { h with pc := .waiting wait })
  | .releasing onward =>
    (if answer.lands then releaseTriggerClaim row else row, { h with pc := onward.elim .gone .waiting })
  | _ => (row, h)

def Handler.gate (admission : Admission) (h : Handler) : Handler :=
  match h.pc, admission with
  | .admission, .runs => { h with pc := .waiting .start }
  | .admission, .leaves => { h with pc := .gone }
  | .admission, .acks => { h with pc := .releasing none }
  | _, _ => h

/-- The worker's first row lands; the signal comes after it. -/
def Handler.write (h : Handler) : Handler :=
  match h.pc with
  | .waiting wait => if wait.channel = .open then { h with wrote := true } else h
  | _ => h

/-- The worker fires the signal only after its first row. -/
def Handler.CanSend (h : Handler) (signal : Option Signal) : Bool :=
  match signal with
  | some (.fires _) => h.wrote
  | _ => true

/-- One turn of the select loop; `poll` is what the worker does if it is polled. -/
def Handler.turn (poll : Poll) (h : Handler) : Handler :=
  match h.pc with
  | .waiting wait =>
    match wait.ready with
    | .panics => { h with pc := .gone }
    | .fired invocation => { h with pc := .marking { wait with resolved := true, observed := true } invocation }
    | .dropped => { h with pc := .waiting { wait with resolved := true } }
    | .worker =>
      if h.CanSend poll.signal then
        let wait := { wait with channel := wait.channel.send poll.signal }
        match poll.result with
        | none => { h with pc := .waiting wait }
        | some _ => { h with pc := if !wait.acked && !wait.observed then .releasing none else .gone }
      else h
  | _ => h

/-! ## The system -/

structure Deliveries where
  row : Option ClaimRow
  /-- the id of the live process -/
  worker : Nat
  handlers : Nat → Handler

def Deliveries.init : Deliveries := ⟨none, 0, fun _ => .absent⟩

inductive Act where
  /-- the broker delivers the message to handler `i` -/
  | deliver (i : Nat)
  | store (i : Nat) (answer : Answer)
  | gate (i : Nat) (admission : Admission)
  | write (i : Nat)
  | turn (i : Nat) (poll : Poll)
  /-- the process dies and another comes up -/
  | restart

def Deliveries.put (d : Deliveries) (i : Nat) (row : Option ClaimRow) (h : Handler) : Deliveries :=
  { d with row, handlers := Function.update d.handlers i h }

def Handler.deliver (h : Handler) : Handler :=
  match h.pc with
  | .absent => { h with pc := .inserting }
  | _ => h

def Handler.die (h : Handler) : Handler :=
  match h.pc with
  | .absent => h
  | _ => { h with pc := .gone }

def Deliveries.step (d : Deliveries) : Act → Deliveries
  | .deliver i => d.put i d.row (d.handlers i).deliver
  | .store i answer =>
    let (row, h) := (d.handlers i).store d.worker d.row answer
    d.put i row h
  | .gate i admission => d.put i d.row ((d.handlers i).gate admission)
  | .write i => d.put i d.row (d.handlers i).write
  | .turn i poll => d.put i d.row ((d.handlers i).turn poll)
  | .restart => { d with worker := d.worker + 1, handlers := fun i => (d.handlers i).die }

/-- No process dies between a first row and the successful marking of its claim. -/
def Survives (d : Deliveries) : Act → Prop
  | .restart => ∀ i, (d.handlers i).wrote = true → (d.handlers i).marked = true
  | _ => True

/-- A worker that has written its first row has given the signal in an earlier poll when it
returns. -/
def SignalsFirst (d : Deliveries) : Act → Prop
  | .turn i poll =>
    ∀ wait, (d.handlers i).pc = .waiting wait → poll.result.isSome = true → (d.handlers i).wrote = true →
      wait.channel ≠ .open
  | _ => True

/-! ## Engagement -/

section Engagement

variable {worker i : Nat} {row row' : Option ClaimRow} {h h' : Handler}

def Started (row : Option ClaimRow) : Prop := ∃ r, row = some r ∧ r.state ≠ .claimed

/-- The row lets no other delivery through: it is the dedupe record, or the live process
holds it. -/
def Sealed (worker : Nat) (row : Option ClaimRow) : Prop :=
  ∃ r, row = some r ∧ (r.state ≠ .claimed ∨ r.claimant = worker)

theorem Started.seals (hs : Started row) : Sealed worker row := by
  obtain ⟨r, hr, hstate⟩ := hs
  exact ⟨r, hr, .inl hstate⟩

/-- The handler holds the claim. -/
def Pc.Holds : Pc → Prop
  | .admission => True
  | .waiting wait => wait.acked = false
  | .marking _ _ => True
  | .releasing none => True
  | _ => False

def Handler.Engaged (h : Handler) : Prop := h.pc.Holds ∨ h.wrote = true

/-- What a handler can rely on where it stands. -/
def Pc.Relies (worker : Nat) (row : Option ClaimRow) (wrote : Bool) : Pc → Prop
  | .absent | .inserting | .reading | .admission => wrote = false
  | .adopting claimant => claimant ≠ worker ∧ wrote = false
  | .waiting wait => wait.acked = true → Started row ∧ wait.channel ≠ .open
  | .marking wait _ => wait.acked = false ∧ wait.channel ≠ .open
  | .releasing none => wrote = false
  | .releasing (some wait) => wait.acked = true ∧ wait.channel ≠ .open ∧ Started row
  | .gone => True

structure Handler.Sound (worker : Nat) (row : Option ClaimRow) (h : Handler) : Prop where
  relies : h.pc.Relies worker row h.wrote
  marked : h.marked = true → Started row

theorem Handler.Sound.mono (hs : h.Sound worker row) (hrow : Started row → Started row') : h.Sound worker row' := by
  obtain ⟨hrelies, hmarked⟩ := hs
  refine ⟨?_, fun hm => hrow (hmarked hm)⟩
  cases hpc : h.pc with
  | waiting wait =>
    rw [hpc] at hrelies
    exact fun hacked => ⟨hrow (hrelies hacked).1, (hrelies hacked).2⟩
  | releasing onward =>
    rw [hpc] at hrelies
    cases onward with
    | none => exact hrelies
    | some wait => exact ⟨hrelies.1, hrelies.2.1, hrow hrelies.2.2⟩
  | _ => rw [hpc] at hrelies; exact hrelies

/-- What a move of one handler does to the row and to its own engagement. -/
structure Moves (worker : Nat) (row row' : Option ClaimRow) (h h' : Handler) : Prop where
  /-- it gets engaged only if the row let it through -/
  engages : h'.Engaged → h.Engaged ∨ ¬ Sealed worker row
  /-- it opens the row only if it was engaged and is no longer -/
  opens : Sealed worker row → Sealed worker row' ∨ (h.Engaged ∧ ¬ h'.Engaged)
  seals : h'.Engaged → Sealed worker row'
  started : Started row → Started row'
  sound : h'.Sound worker row'

end Engagement

/-! ## The statements -/

section Statements

variable {worker claimant invocation : Nat} {row : Option ClaimRow}

theorem insertClaim_cases (row : Option ClaimRow) (worker : Nat) :
    (row = none ∧ insertClaim row worker = (some ⟨worker, .claimed⟩, true)) ∨
      insertClaim row worker = (row, false) := by
  cases row with
  | none => exact .inl ⟨rfl, rfl⟩
  | some r => exact .inr rfl

theorem takeOverTriggerClaim_cases (row : Option ClaimRow) (claimant worker : Nat) :
    (row = some ⟨claimant, .claimed⟩ ∧ takeOverTriggerClaim row claimant worker = (some ⟨worker, .claimed⟩, true)) ∨
      takeOverTriggerClaim row claimant worker = (row, false) := by
  unfold takeOverTriggerClaim
  split
  · split
    · next heq =>
      subst heq
      exact .inl ⟨rfl, rfl⟩
    · exact .inr rfl
  · exact .inr rfl

theorem not_sealed_none : ¬ Sealed worker none := by
  rintro ⟨r, hr, -⟩
  cases hr

theorem not_sealed_of_other (h : claimant ≠ worker) : ¬ Sealed worker (some ⟨claimant, .claimed⟩) := by
  rintro ⟨r, hr, hstate | hclaimant⟩
  · cases hr
    exact hstate rfl
  · cases hr
    exact h hclaimant

theorem started_mark (hrow : Sealed worker row) : Started (markTriggerStarted row invocation) := by
  obtain ⟨r, rfl, -⟩ := hrow
  exact ⟨_, rfl, by simp⟩

theorem release_of_started (hs : Started row) : releaseTriggerClaim row = row := by
  obtain ⟨r, rfl, hstate⟩ := hs
  simp [releaseTriggerClaim, Option.filter, hstate]

end Statements

/-! ## The moves of one handler -/

section HandlerMoves

variable {worker : Nat} {row : Option ClaimRow} {h h' : Handler}

theorem Wait.acked_of_ready {wait : Wait} (hready : wait.ready ≠ .worker) : wait.acked = false := by
  unfold Wait.ready at hready
  cases hacked : wait.acked with
  | false => rfl
  | true => simp [hacked] at hready

theorem Wait.channel_of_ready {wait : Wait} (hready : wait.ready ≠ .worker) : wait.channel ≠ .open := by
  intro hopen
  simp [Wait.ready, hopen] at hready

theorem Channel.send_ne_open {channel : Channel} (h : channel ≠ .open) (signal : Option Signal) :
    channel.send signal = channel := by
  cases channel with
  | «open» => exact absurd rfl h
  | _ => rfl

theorem Wait.open_of_ready {wait : Wait} (hready : wait.ready = .worker) (hacked : wait.acked = false) :
    wait.channel = .open := by
  unfold Wait.ready at hready
  rw [hacked] at hready
  cases hchannel : wait.channel with
  | «open» => rfl
  | _ => cases hresolved : wait.resolved <;> simp [hchannel, hresolved] at hready

theorem Moves.marks (hsealed : Sealed worker row) (invocation : Nat) {h' : Handler}
    (hengaged : h'.Engaged → h.Engaged)
    (hrelies : Started (markTriggerStarted row invocation) →
      h'.pc.Relies worker (markTriggerStarted row invocation) h'.wrote) :
    Moves worker row (markTriggerStarted row invocation) h h' := by
  have hstarted : Started (markTriggerStarted row invocation) := started_mark hsealed
  exact ⟨fun he => .inl (hengaged he), fun _ => .inl hstarted.seals, fun _ => hstarted.seals, fun _ => hstarted,
    hrelies hstarted, fun _ => hstarted⟩

variable (hs : h.Sound worker row)
include hs

theorem Moves.takes (hopen : ¬ Sealed worker row) (hwrote : h.wrote = false) {pc : Pc}
    (hpc : pc = .admission ∨ pc = .gone) : Moves worker row (some ⟨worker, .claimed⟩) h { h with pc } where
  engages := fun _ => .inr hopen
  opens := fun hsealed => absurd hsealed hopen
  seals := fun _ => ⟨_, rfl, .inr rfl⟩
  started := fun hstarted => absurd hstarted.seals hopen
  sound := by
    refine ⟨?_, fun hm => absurd (hs.marked hm).seals hopen⟩
    rcases hpc with rfl | rfl
    · exact hwrote
    · trivial

variable (hsealed : h.Engaged → Sealed worker row)
include hsealed

/-- A move that leaves the row alone and engages nobody. -/
theorem Moves.within (hengaged : h'.Engaged → h.Engaged)
    (hrelies : h'.pc.Relies worker row h'.wrote) (hmarked : h'.marked = h.marked) : Moves worker row row h h' where
  engages := fun he => .inl (hengaged he)
  opens := .inl
  seals := fun he => hsealed (hengaged he)
  started := id
  sound := ⟨hrelies, fun hm => hs.marked (hmarked ▸ hm)⟩

theorem Moves.leaves : Moves worker row row h { h with pc := .gone } := by
  refine Moves.within hs hsealed ?_ trivial rfl
  rintro (hholds | hwrote)
  · exact hholds.elim
  · exact .inr hwrote

theorem moves_deliver : Moves worker row row h h.deliver := by
  have hrelies := hs.relies
  unfold Handler.deliver
  split
  · next hpc =>
    rw [hpc] at hrelies
    refine Moves.within hs hsealed ?_ hrelies rfl
    rintro (hholds | hwrote)
    · exact hholds.elim
    · exact .inr hwrote
  · exact Moves.within hs hsealed id hrelies rfl

theorem moves_gate (admission : Admission) : Moves worker row row h (h.gate admission) := by
  have hrelies := hs.relies
  unfold Handler.gate
  split
  · next hpc => exact Moves.within hs hsealed (fun _ => .inl (hpc ▸ trivial)) (fun hacked => by cases hacked) rfl
  · exact Moves.leaves hs hsealed
  · next hpc =>
    rw [hpc] at hrelies
    exact Moves.within hs hsealed (fun _ => .inl (hpc ▸ trivial)) hrelies rfl
  · exact Moves.within hs hsealed id hrelies rfl

theorem moves_write : Moves worker row row h h.write := by
  have hrelies := hs.relies
  unfold Handler.write
  split
  · next wait hpc =>
    rw [hpc] at hrelies
    split
    · next hopen =>
      have hholds : h.pc.Holds := by
        rw [hpc]
        exact Bool.eq_false_iff.mpr fun hacked => (hrelies hacked).2 hopen
      refine Moves.within hs hsealed (fun _ => .inl hholds) ?_ rfl
      change h.pc.Relies worker row true
      rw [hpc]
      exact hrelies
    · exact Moves.within hs hsealed id hs.relies rfl
  · exact Moves.within hs hsealed id hrelies rfl

/-- A handler that is done with its worker gives the claim back only if the worker has not
written its first row. -/
theorem moves_turn (poll : Poll)
    (hfirst : ∀ wait, h.pc = .waiting wait → poll.result.isSome = true → h.wrote = true → wait.channel ≠ .open) :
    Moves worker row row h (h.turn poll) := by
  have hrelies := hs.relies
  unfold Handler.turn
  split
  · next wait hpc =>
    rw [hpc] at hrelies
    split
    · exact Moves.leaves hs hsealed
    · next invocation hready =>
      have hne : wait.ready ≠ .worker := by simp [hready]
      have hacked := Wait.acked_of_ready hne
      have hchannel := Wait.channel_of_ready hne
      exact Moves.within hs hsealed (fun _ => .inl (hpc ▸ hacked)) ⟨hacked, hchannel⟩ rfl
    · next hready =>
      have hne : wait.ready ≠ .worker := by simp [hready]
      have hacked := Wait.acked_of_ready hne
      exact Moves.within hs hsealed (fun _ => .inl (hpc ▸ hacked)) hrelies rfl
    · next hready =>
      split
      · split
        · refine Moves.within hs hsealed ?_ ?_ rfl
          · rintro (hholds | hwrote)
            · exact .inl (hpc ▸ hholds)
            · exact .inr hwrote
          · intro hacked
            obtain ⟨hstarted, hchannel⟩ := hrelies hacked
            refine ⟨hstarted, ?_⟩
            change wait.channel.send poll.signal ≠ .open
            rwa [Channel.send_ne_open hchannel]
        · next result hresult =>
          by_cases hunknown : (!wait.acked && !wait.observed) = true
          · have hacked : wait.acked = false := by
              cases hw : wait.acked <;> simp [hw] at hunknown ⊢
            -- the loop polled the worker with the delivery unacked, so no signal had been given
            have hwrote : h.wrote = false :=
              Bool.eq_false_iff.mpr fun hwrote =>
                hfirst wait hpc (by simp [hresult]) hwrote (Wait.open_of_ready hready hacked)
            simp only [hunknown, if_true]
            exact Moves.within hs hsealed (fun _ => .inl (hpc ▸ hacked)) hwrote rfl
          · simp only [hunknown, Bool.false_eq_true, if_false]
            exact Moves.leaves hs hsealed
      · exact Moves.within hs hsealed id hs.relies rfl
  · exact Moves.within hs hsealed id hrelies rfl

variable (answer : Answer)

theorem moves_inserting (hpc : h.pc = .inserting) :
    Moves worker row (h.store worker row answer).1 h (h.store worker row answer).2 := by
  have hwrote : h.wrote = false := by
    have hrelies := hs.relies
    rwa [hpc] at hrelies
  rcases insertClaim_cases row worker with ⟨rfl, hinsert⟩ | hinsert
  · cases answer with
    | ok =>
      simp only [Handler.store, hpc, hinsert, if_true]
      exact Moves.takes hs not_sealed_none hwrote (.inl rfl)
    | err landed =>
      cases landed with
      | true =>
        simp only [Handler.store, hpc, hinsert, if_true]
        exact Moves.takes hs not_sealed_none hwrote (.inr rfl)
      | false =>
        simp only [Handler.store, hpc, hinsert, Bool.false_eq_true, if_false]
        exact Moves.leaves hs hsealed
  · cases answer with
    | ok =>
      simp only [Handler.store, hpc, hinsert, Bool.false_eq_true, if_false]
      refine Moves.within hs hsealed ?_ hwrote rfl
      rintro (hholds | hw)
      · exact hholds.elim
      · exact .inr hw
    | err landed =>
      simp only [Handler.store, hpc, hinsert, ite_self]
      exact Moves.leaves hs hsealed

theorem moves_reading (hpc : h.pc = .reading) :
    Moves worker row (h.store worker row answer).1 h (h.store worker row answer).2 := by
  have hwrote : h.wrote = false := by
    have hrelies := hs.relies
    rwa [hpc] at hrelies
  unfold Handler.store
  rw [hpc]
  dsimp only
  split
  · next claimant _ =>
    by_cases hself : claimant = worker
    · simp only [hself, if_true]
      exact Moves.leaves hs hsealed
    · simp only [hself, if_false]
      refine Moves.within hs hsealed ?_ ⟨hself, hwrote⟩ rfl
      rintro (hholds | hw)
      · exact hholds.elim
      · exact .inr hw
  · exact Moves.leaves hs hsealed

theorem moves_adopting {claimant : Nat} (hpc : h.pc = .adopting claimant) :
    Moves worker row (h.store worker row answer).1 h (h.store worker row answer).2 := by
  obtain ⟨hother, hwrote⟩ : claimant ≠ worker ∧ h.wrote = false := by
    have hrelies := hs.relies
    rwa [hpc] at hrelies
  rcases takeOverTriggerClaim_cases row claimant worker with ⟨rfl, htake⟩ | htake
  · have hopen := not_sealed_of_other hother
    cases answer with
    | ok =>
      simp only [Handler.store, hpc, htake, if_true]
      exact Moves.takes hs hopen hwrote (.inl rfl)
    | err landed =>
      cases landed with
      | true =>
        simp only [Handler.store, hpc, htake, if_true]
        exact Moves.takes hs hopen hwrote (.inr rfl)
      | false =>
        simp only [Handler.store, hpc, htake, Bool.false_eq_true, if_false]
        exact Moves.leaves hs hsealed
  · cases answer with
    | ok =>
      simp only [Handler.store, hpc, htake, Bool.false_eq_true, if_false]
      exact Moves.leaves hs hsealed
    | err landed =>
      simp only [Handler.store, hpc, htake, ite_self]
      exact Moves.leaves hs hsealed

theorem moves_marking {wait : Wait} {invocation : Nat} (hpc : h.pc = .marking wait invocation) :
    Moves worker row (h.store worker row answer).1 h (h.store worker row answer).2 := by
  obtain ⟨hacked, hchannel⟩ : wait.acked = false ∧ wait.channel ≠ .open := by
    have hrelies := hs.relies
    rwa [hpc] at hrelies
  have hheld : h.Engaged := .inl (hpc ▸ trivial)
  have hwaiting : ∀ row', Pc.Relies worker row' h.wrote (.waiting wait) :=
    fun _ h => absurd (hacked.symm.trans h) (by simp)
  cases answer with
  | ok =>
    simp only [Handler.store, hpc]
    exact Moves.marks (hsealed hheld) invocation (fun _ => hheld) fun hstarted => ⟨rfl, hchannel, hstarted⟩
  | err landed =>
    cases landed with
    | true =>
      simp only [Handler.store, hpc, if_true]
      exact Moves.marks (hsealed hheld) invocation (fun _ => hheld) fun _ => hwaiting _
    | false =>
      simp only [Handler.store, hpc, Bool.false_eq_true, if_false]
      exact Moves.within hs hsealed (fun _ => hheld) (hwaiting _) rfl

/-- The claim of a delivery that did not start is given back; that of one that did is kept. -/
theorem moves_releasing {onward : Option Wait} (hpc : h.pc = .releasing onward) :
    Moves worker row (h.store worker row answer).1 h (h.store worker row answer).2 := by
  have hrelies := hs.relies
  rw [hpc] at hrelies
  simp only [Handler.store, hpc]
  cases onward with
  | none =>
    cases answer.lands with
    | false => exact Moves.leaves hs hsealed
    | true =>
      have hgone : ¬ ({ h with pc := Pc.gone } : Handler).Engaged := by
        rintro (hholds | hwrote)
        · exact hholds
        · exact absurd hwrote (Bool.eq_false_iff.mp hrelies)
      have hkeep : Started row → Started (releaseTriggerClaim row) := fun hst => by rwa [release_of_started hst]
      exact ⟨fun he => absurd he hgone, fun _ => .inr ⟨.inl (hpc ▸ trivial), hgone⟩, fun he => absurd he hgone, hkeep,
        trivial, fun hm => hkeep (hs.marked hm)⟩
  | some wait =>
    obtain ⟨hacked, hchannel, hstarted⟩ := hrelies
    rw [release_of_started hstarted, ite_self]
    refine Moves.within hs (fun _ => hstarted.seals) ?_ (fun _ => ⟨hstarted, hchannel⟩) rfl
    rintro (hholds | hwrote)
    · exact absurd (hacked.symm.trans hholds) (by simp)
    · exact .inr hwrote

theorem moves_store :
    Moves worker row (h.store worker row answer).1 h (h.store worker row answer).2 := by
  cases hpc : h.pc with
  | inserting => exact moves_inserting hs hsealed answer hpc
  | reading => exact moves_reading hs hsealed answer hpc
  | adopting claimant => exact moves_adopting hs hsealed answer hpc
  | marking wait invocation => exact moves_marking hs hsealed answer hpc
  | releasing onward => exact moves_releasing hs hsealed answer hpc
  | _ =>
    simp only [Handler.store, hpc]
    exact Moves.within hs hsealed id hs.relies rfl

end HandlerMoves

/-! ## At most one durable start -/

structure Deliveries.Inv (d : Deliveries) : Prop where
  sealed : ∀ i, (d.handlers i).Engaged → Sealed d.worker d.row
  alone : ∀ i j, (d.handlers i).Engaged → (d.handlers j).Engaged → i = j
  sound : ∀ i, (d.handlers i).Sound d.worker d.row

namespace Deliveries

theorem inv_init : init.Inv := by
  have hidle : ∀ i, ¬ (init.handlers i).Engaged := by
    rintro i (hholds | hwrote)
    · exact hholds
    · cases hwrote
  refine ⟨fun i he => absurd he (hidle i), fun i j he => absurd he (hidle i), fun i => ⟨rfl, fun hm => by cases hm⟩⟩

theorem Inv.put {d : Deliveries} (hinv : d.Inv) {i : Nat} {row : Option ClaimRow} {h : Handler}
    (hmoves : Moves d.worker d.row row (d.handlers i) h) : (d.put i row h).Inv := by
  have hself : (d.put i row h).handlers i = h := Function.update_self ..
  have hother : ∀ {j}, j ≠ i → (d.put i row h).handlers j = d.handlers j := fun hne => Function.update_of_ne hne ..
  -- another handler is engaged only if this one neither is nor becomes so
  have hquiet : ∀ {j}, j ≠ i → (d.handlers j).Engaged → ¬ h.Engaged := by
    intro j hne hj he
    rcases hmoves.engages he with hi | hopen
    · exact hne (hinv.alone j i hj hi)
    · exact hopen (hinv.sealed j hj)
  refine ⟨fun j hj => ?_, fun j k hj hk => ?_, fun j => ?_⟩
  · by_cases hne : j = i
    · subst hne
      rw [hself] at hj
      exact hmoves.seals hj
    · rw [hother hne] at hj
      rcases hmoves.opens (hinv.sealed j hj) with hsealed | ⟨hi, -⟩
      · exact hsealed
      · exact absurd (hinv.alone j i hj hi) hne
  · by_cases hji : j = i
    · by_cases hki : k = i
      · exact hji.trans hki.symm
      · subst hji
        rw [hself] at hj
        rw [hother hki] at hk
        exact absurd hj (hquiet hki hk)
    · by_cases hki : k = i
      · subst hki
        rw [hself] at hk
        rw [hother hji] at hj
        exact absurd hk (hquiet hji hj)
      · rw [hother hji] at hj
        rw [hother hki] at hk
        exact hinv.alone j k hj hk
  · by_cases hne : j = i
    · subst hne
      rw [hself]
      exact hmoves.sound
    · rw [hother hne]
      exact (hinv.sound j).mono hmoves.started

/-- The handlers of a process that has died hold nothing; a started invocation is in the
dedupe record. -/
theorem Inv.restart {d : Deliveries} (hinv : d.Inv)
    (hmarked : ∀ i, (d.handlers i).wrote = true → (d.handlers i).marked = true) : (d.step .restart).Inv := by
  have hdead : ∀ i, (d.handlers i).die.Engaged → (d.handlers i).wrote = true := by
    intro i he
    unfold Handler.die at he
    split at he
    · next hpc =>
      rcases he with hholds | hwrote
      · rw [hpc] at hholds
        exact hholds.elim
      · exact hwrote
    · exact he.elim False.elim id
  refine ⟨fun i he => ?_, fun i j hi hj => ?_, fun i => ?_⟩
  · exact ((hinv.sound i).marked (hmarked i (hdead i he))).seals
  · exact hinv.alone i j (.inr (hdead i hi)) (.inr (hdead j hj))
  · have hsound := hinv.sound i
    change ((d.handlers i).die).Sound (d.worker + 1) d.row
    unfold Handler.die
    split
    · next hpc =>
      refine ⟨?_, hsound.marked⟩
      have hrelies := hsound.relies
      rw [hpc] at hrelies ⊢
      exact hrelies
    · exact ⟨trivial, hsound.marked⟩

theorem inv_step (d : Deliveries) (a : Act) (hok : Survives d a ∧ SignalsFirst d a) (hinv : d.Inv) : (d.step a).Inv := by
  cases a with
  | deliver i => exact hinv.put (moves_deliver (hinv.sound i) (hinv.sealed i))
  | store i answer => exact hinv.put (moves_store (hinv.sound i) (hinv.sealed i) answer)
  | gate i admission => exact hinv.put (moves_gate (hinv.sound i) (hinv.sealed i) admission)
  | write i => exact hinv.put (moves_write (hinv.sound i) (hinv.sealed i))
  | turn i poll => exact hinv.put (moves_turn (hinv.sound i) (hinv.sealed i) poll hok.2)
  | restart => exact hinv.restart hok.1

theorem inv_run {acts : List Act} (hsurvives : Permitted step Survives init acts)
    (hfirst : Permitted step SignalsFirst init acts) : (acts.foldl step init).Inv :=
  Permitted.inv inv_step (hsurvives.and hfirst) inv_init

end Deliveries

/-- In every history of deliveries, redeliveries and restarts in which workers give the
signal before they return, at most one handler reaches the first row of its invocation. -/
theorem one_durable_start (acts : List Act) (hsurvives : Permitted Deliveries.step Survives .init acts)
    (hfirst : Permitted Deliveries.step SignalsFirst .init acts) :
    ∀ i j, ((acts.foldl Deliveries.step .init).handlers i).wrote = true →
      ((acts.foldl Deliveries.step .init).handlers j).wrote = true → i = j := by
  intro i j hi hj
  exact (Deliveries.inv_run hsurvives hfirst).alone i j (.inr hi) (.inr hj)

/-- The first process drains before it starts the run, the next one takes over its claim and
runs the invocation, and a third delivery is refused. -/
def takenOver : List Act :=
  [.deliver 0, .store 0 .ok, .gate 0 .leaves, .restart, .deliver 1, .store 1 .ok, .store 1 .ok, .store 1 .ok,
    .gate 1 .runs, .write 1, .turn 1 ⟨some (.fires 1), none⟩, .turn 1 ⟨none, none⟩, .store 1 .ok, .store 1 .ok,
    .deliver 2, .store 2 .ok, .store 2 .ok, .turn 1 ⟨none, some (.ok .completed)⟩]

theorem takenOver_started_once :
    ((takenOver.foldl Deliveries.step .init).handlers 1).wrote = true ∧
    ∀ i j, ((takenOver.foldl Deliveries.step .init).handlers i).wrote = true →
      ((takenOver.foldl Deliveries.step .init).handlers j).wrote = true → i = j := by
  refine ⟨rfl, one_durable_start takenOver ?_ ?_⟩
  · have hnone : ∀ i, (([.deliver 0, .store 0 .ok, .gate 0 .leaves].foldl Deliveries.step .init).handlers i).wrote = false := by
      intro i
      match i with
      | 0 => rfl
      | _ + 1 => rfl
    refine ⟨trivial, trivial, trivial, fun i hwrote => ?_, ?_⟩
    · exact absurd ((hnone i).symm.trans hwrote) (by simp)
    · simp [Permitted, Survives]
  · refine ⟨trivial, trivial, trivial, trivial, trivial, trivial, trivial, trivial, trivial, trivial, fun _ _ h => ?_,
      fun _ _ h => ?_, trivial, trivial, trivial, trivial, trivial, fun wait hpc _ _ => ?_, trivial⟩
    · cases h
    · cases h
    · cases hpc
      exact Channel.noConfusion

/-- The worker fires the signal, fails to publish and returns, all in one poll.  The handler
does not see the signal, naks the delivery and gives the claim back; the next delivery wins
it and starts the invocation a second time. -/
def firedAndReturned : List Act :=
  [.deliver 0, .store 0 .ok, .gate 0 .runs, .write 0, .turn 0 ⟨some (.fires 0), some (.error (.bus "closed"))⟩,
    .store 0 .ok, .deliver 1, .store 1 .ok, .gate 1 .runs, .write 1]

theorem firedAndReturned_started_twice :
    Permitted Deliveries.step Survives .init firedAndReturned ∧
    ((firedAndReturned.foldl Deliveries.step .init).handlers 0).wrote = true ∧
    ((firedAndReturned.foldl Deliveries.step .init).handlers 1).wrote = true := by
  refine ⟨?_, rfl, rfl⟩
  simp [firedAndReturned, Permitted, Survives]

end FactorQ.Dispatch
