/-
# `FactorQ.Dispatch.AgentCap` — how many invocations of an agent run at once

An agent may declare how many of its invocations run at once.  The daemon counts them in
memory: a trigger takes a slot if the count is below the cap, and a slot is given back by its
destructor, whoever happens to own it then.  The slot of an invocation that is put down because
its model is rate limited is not given back.  It moves into the timer that will wake the
invocation, from there into the queue of resumes that are due, and on to the task that resumes
it; that resume may put the invocation down again.

What a restart finds half done is resumed whether or not the cap has room.  So the count may
exceed the cap, but never the larger of the cap and what was recovered at the start.

A slot is a handle with the place its owner is at.  The count and the handles are moved by
separate code, and the invariant is that they agree.
-/
import FactorQ.Lib.Handles

namespace FactorQ.Dispatch.AgentCap

open Lib

/-! ## The counts -/

structure AgentState where
  inFlight : Nat
  held : Nat
  cap : Option Nat

namespace AgentState

def default : AgentState := ⟨0, 0, none⟩

def isQuiet (s : AgentState) : Bool := s.inFlight = 0 && s.held = 0

end AgentState

structure AgentConcurrency where
  agents : String → Option AgentState

namespace AgentConcurrency

def new : AgentConcurrency := ⟨fun _ => none⟩

/-- The agent's entry, made on demand, with something done to it. -/
def entry (c : AgentConcurrency) (agent : String) (f : AgentState → AgentState) : AgentConcurrency :=
  ⟨Function.update c.agents agent (some (f ((c.agents agent).getD .default)))⟩

def inFlight (c : AgentConcurrency) (agent : String) : Nat := ((c.agents agent).map AgentState.inFlight).getD 0

/-- Whether a slot was granted comes second. -/
def tryEnter (c : AgentConcurrency) (agent : String) (cap : Option Nat) : AgentConcurrency × Bool :=
  if cap.any fun cap => cap ≤ c.inFlight agent then (c.entry agent fun s => { s with cap }, false)
  else (c.entry agent fun s => { s with cap, inFlight := s.inFlight + 1 }, true)

def enter (c : AgentConcurrency) (agent : String) (cap : Option Nat) : AgentConcurrency :=
  c.entry agent fun s => { s with cap := cap.or s.cap, inFlight := s.inFlight + 1 }

def hold (c : AgentConcurrency) (agent : String) : AgentConcurrency := c.entry agent fun s => { s with held := s.held + 1 }

/-- An agent that goes quiet is forgotten. -/
def release (c : AgentConcurrency) (agent : String) (what : AgentState → AgentState) : AgentConcurrency :=
  match c.agents agent with
  | none => c
  | some state => ⟨Function.update c.agents agent (if (what state).isQuiet then none else some (what state))⟩

/-- `AgentSlot::drop`. -/
def dropSlot (c : AgentConcurrency) (agent : String) : AgentConcurrency :=
  c.release agent fun s => { s with inFlight := s.inFlight - 1 }

/-- `HeldTrigger::drop`. -/
def dropHeld (c : AgentConcurrency) (agent : String) : AgentConcurrency :=
  c.release agent fun s => { s with held := s.held - 1 }

theorem tryEnter_cases (c : AgentConcurrency) (agent : String) (cap : Option Nat) :
    ((∃ n, cap = some n ∧ n ≤ c.inFlight agent) ∧ c.tryEnter agent cap = (c.entry agent fun s => { s with cap }, false)) ∨
    ((∀ n, cap = some n → c.inFlight agent < n) ∧
      c.tryEnter agent cap = (c.entry agent fun s => { s with cap, inFlight := s.inFlight + 1 }, true)) := by
  unfold tryEnter
  cases cap with
  | none => exact .inr ⟨nofun, rfl⟩
  | some n =>
    by_cases hn : n ≤ c.inFlight agent
    · exact .inl ⟨⟨n, rfl, hn⟩, if_pos (decide_eq_true hn)⟩
    · refine .inr ⟨fun m hm => ?_, if_neg fun h => hn (of_decide_eq_true h)⟩
      cases hm
      exact Nat.lt_of_not_le hn

/-! ### Reading the counts back -/

/-- What is known about an agent, or would be on demand. -/
def state (c : AgentConcurrency) (agent : String) : AgentState := (c.agents agent).getD .default

variable {c : AgentConcurrency} {agent : String}

theorem inFlight_eq : c.inFlight agent = (c.state agent).inFlight := by
  unfold inFlight state
  cases c.agents agent <;> rfl

theorem state_entry (f : AgentState → AgentState) (agent' : String) :
    (c.entry agent f).state agent' = if agent' = agent then f (c.state agent) else c.state agent' := by
  unfold state entry
  by_cases h : agent' = agent
  · subst h
    simp
  · simp [h]

/-- Forgetting a quiet agent changes neither count. -/
theorem state_release {what : AgentState → AgentState} (hwhat : (what .default).isQuiet = true) (agent' : String) :
    let s := if agent' = agent then what (c.state agent) else c.state agent'
    ((c.release agent what).state agent').inFlight = s.inFlight ∧ ((c.release agent what).state agent').held = s.held := by
  have hquiet {s : AgentState} (h : s.isQuiet = true) : AgentState.default.inFlight = s.inFlight ∧ AgentState.default.held = s.held := by
    rw [AgentState.isQuiet, Bool.and_eq_true, decide_eq_true_eq, decide_eq_true_eq] at h
    exact ⟨h.1.symm, h.2.symm⟩
  unfold release state
  by_cases hagent : agent' = agent
  · subst hagent
    cases hentry : c.agents agent' with
    | none => simpa [hentry] using hquiet hwhat
    | some s =>
      simp only [Function.update_self, if_true, Option.getD_some]
      split
      · next h => exact hquiet h
      · exact ⟨rfl, rfl⟩
  · cases c.agents agent with
    | none => simp [hagent]
    | some s => simp [hagent]

end AgentConcurrency

/-! ## Slots and who owns them -/

/-- Where the value that owns a slot is. -/
inductive Place where
  /-- in `handle`, waiting for a worker permit -/
  | starting
  /-- in the task that drives the invocation -/
  | running
  /-- in the timer of `DeferralQueue::defer` -/
  | asleep
  /-- in the channel of due resumes -/
  | due
  /-- off the channel, waiting for a worker permit -/
  | collected
deriving DecidableEq

def Place.sleeping : Place → Bool
  | .starting => false
  | .running => false
  | _ => true

structure Slot where
  agent : String
  place : Place

structure Daemon where
  counts : AgentConcurrency
  slots : Handles Slot
  /-- the tickets of triggers that wait for a slot -/
  holds : Handles String
  /-- triggers are being dispatched: recovery is over -/
  dispatching : Bool
  /-- how many invocations of each agent were recovered -/
  recovered : String → Nat

namespace Daemon

def init : Daemon := ⟨.new, .empty, .empty, false, fun _ => 0⟩

inductive Event where
  /-- startup recovery resumes an invocation -/
  | recover (agent : String)
  /-- a trigger asks for a slot, for the first time or on a tick of its hold -/
  | trigger (agent : String)
  | hold (agent : String)
  | unhold (ticket : Nat)
  /-- the owner goes from one place to the next -/
  | move (slot : Nat) (target : Place)
  /-- the owner is destroyed: the invocation completes, fails, panics or is suspended, its
  agent is no longer loaded, its wait is interrupted, or the queue has no drain left -/
  | drop (slot : Nat)

/-- The ways a slot travels.  A resume may defer again, so they form a cycle. -/
def travels : Place → Place → Bool
  | .starting, .running => true
  | .running, .asleep => true
  | .asleep, .due => true
  | .due, .collected => true
  | .collected, .running => true
  | _, _ => false

/-- Each agent's cap is what the registry says, for the whole of the history. -/
def step (caps : String → Option Nat) (s : Daemon) : Event → Daemon
  | .recover agent =>
    if s.dispatching then s
    else
      { s with
        counts := s.counts.enter agent (caps agent)
        slots := s.slots.issue ⟨agent, .running⟩
        recovered := Function.update s.recovered agent (s.recovered agent + 1) }
  | .trigger agent =>
    match s.counts.tryEnter agent (caps agent) with
    | (counts, true) => { s with counts, slots := s.slots.issue ⟨agent, .starting⟩, dispatching := true }
    | (counts, false) => { s with counts, dispatching := true }
  | .hold agent => { s with counts := s.counts.hold agent, holds := s.holds.issue agent }
  | .unhold ticket =>
    match s.holds.get? ticket with
    | none => s
    | some agent => { s with counts := s.counts.dropHeld agent, holds := s.holds.surrender ticket }
  | .move slot target =>
    { s with slots := s.slots.update slot fun o => if travels o.place target then { o with place := target } else o }
  | .drop slot =>
    match s.slots.get? slot with
    | none => s
    | some owner => { s with counts := s.counts.dropSlot owner.agent, slots := s.slots.surrender slot }

def run (caps : String → Option Nat) (s : Daemon) (events : List Event) : Daemon := events.foldl (step caps) s

/-- The live slots of an agent; those whose invocation runs; those whose invocation sleeps. -/
def live (s : Daemon) (agent : String) : Nat := s.slots.held fun o => o.agent = agent

def running (s : Daemon) (agent : String) : Nat := s.slots.held fun o => o.agent = agent && !o.place.sleeping

def sleeping (s : Daemon) (agent : String) : Nat := s.slots.held fun o => o.agent = agent && o.place.sleeping

/-! ## The invariant -/

/-- The counts are those of the live slots and of the live tickets. -/
structure Agrees (counts : AgentConcurrency) (slots : Handles Slot) (holds : Handles String) : Prop where
  inFlight : ∀ agent, (counts.state agent).inFlight = slots.held fun o => o.agent = agent
  held : ∀ agent, (counts.state agent).held = holds.held (· = agent)

namespace Agrees

variable {counts counts' : AgentConcurrency} {slots : Handles Slot} {holds : Handles String}

section

variable (h : Agrees counts slots holds)
include h

theorem congr (hflight : ∀ a, (counts'.state a).inFlight = (counts.state a).inFlight)
    (hheld : ∀ a, (counts'.state a).held = (counts.state a).held) : Agrees counts' slots holds :=
  ⟨fun a => (hflight a).trans (h.inFlight a), fun a => (hheld a).trans (h.held a)⟩

theorem issue (agent : String) (place : Place) {f : AgentState → AgentState}
    (hflight : ∀ s, (f s).inFlight = s.inFlight + 1) (hheld : ∀ s, (f s).held = s.held) :
    Agrees (counts.entry agent f) (slots.issue ⟨agent, place⟩) holds := by
  refine ⟨fun a => ?_, fun a => ?_⟩
  · rw [AgentConcurrency.state_entry, Handles.held_issue]
    by_cases ha : a = agent
    · simp [ha, hflight, h.inFlight]
    · simp [ha, Ne.symm ha, h.inFlight]
  · rw [AgentConcurrency.state_entry, ← h.held a]
    split
    · next ha => rw [hheld, ha]
    · rfl

theorem hold (agent : String) : Agrees (counts.hold agent) slots (holds.issue agent) := by
  refine ⟨fun a => ?_, fun a => ?_⟩
  · rw [AgentConcurrency.hold, AgentConcurrency.state_entry, ← h.inFlight a]
    split
    · next ha => rw [ha]
    · rfl
  · rw [AgentConcurrency.hold, AgentConcurrency.state_entry, Handles.held_issue]
    by_cases ha : a = agent
    · simp [ha, h.held]
    · simp [ha, Ne.symm ha, h.held]

theorem dropSlot {slot : Nat} {owner : Slot} (hslot : slots.get? slot = some owner) :
    Agrees (counts.dropSlot owner.agent) (slots.surrender slot) holds := by
  refine ⟨fun a => ?_, fun a => ?_⟩
  · have hheld := Handles.held_surrender hslot fun o => o.agent = a
    rw [← h.inFlight a] at hheld
    rw [AgentConcurrency.dropSlot, (AgentConcurrency.state_release rfl a).1]
    by_cases ha : a = owner.agent
    · subst ha
      simp only [decide_true, if_true] at hheld ⊢
      omega
    · simpa [ha, Ne.symm ha] using hheld
  · rw [AgentConcurrency.dropSlot, (AgentConcurrency.state_release rfl a).2, ← h.held a]
    split
    · next ha => rw [ha]
    · rfl

theorem dropHeld {ticket : Nat} {agent : String} (hticket : holds.get? ticket = some agent) :
    Agrees (counts.dropHeld agent) slots (holds.surrender ticket) := by
  refine ⟨fun a => ?_, fun a => ?_⟩
  · rw [AgentConcurrency.dropHeld, (AgentConcurrency.state_release rfl a).1, ← h.inFlight a]
    split
    · next ha => rw [ha]
    · rfl
  · have hheld := Handles.held_surrender hticket (· = a)
    rw [← h.held a] at hheld
    rw [AgentConcurrency.dropHeld, (AgentConcurrency.state_release rfl a).2]
    by_cases ha : a = agent
    · subst ha
      simp only [decide_true, if_true] at hheld ⊢
      omega
    · simpa [ha, Ne.symm ha] using hheld

end

end Agrees

/-- Between events.  Until triggers are dispatched, all there is has been recovered. -/
structure Inv (caps : String → Option Nat) (s : Daemon) : Prop where
  agrees : Agrees s.counts s.slots s.holds
  early : s.dispatching = false → ∀ agent, s.live agent ≤ s.recovered agent
  bounded : ∀ agent cap, caps agent = some cap → s.live agent ≤ max cap (s.recovered agent)

variable {caps : String → Option Nat} {s : Daemon}

theorem Inv.counted (hinv : Inv caps s) (agent : String) : s.counts.inFlight agent = s.live agent :=
  AgentConcurrency.inFlight_eq.trans (hinv.agrees.inFlight agent)

theorem live_issue (slots : Handles Slot) (agent : String) (place : Place) (a : String) :
    (slots.issue ⟨agent, place⟩).held (fun o => o.agent = a) =
      slots.held (fun o => o.agent = a) + if a = agent then 1 else 0 := by
  rw [Handles.held_issue]
  simp [eq_comm]

theorem inv_init : Inv caps init :=
  ⟨⟨fun _ => rfl, fun _ => rfl⟩, fun _ _ => Nat.le_refl _, fun _ _ _ => Nat.zero_le _⟩

/-- What leaves no agent more slots, and changes nothing else the bounds speak of. -/
theorem Inv.shrink (hinv : Inv caps s) {counts : AgentConcurrency} {slots : Handles Slot} {holds : Handles String}
    (hagrees : Agrees counts slots holds)
    (hless : ∀ agent, (slots.held fun o => o.agent = agent) ≤ s.live agent) :
    Inv caps { s with counts, slots, holds } :=
  ⟨hagrees, fun hearly agent => (hless agent).trans (hinv.early hearly agent),
    fun agent cap hcap => (hless agent).trans (hinv.bounded agent cap hcap)⟩

theorem inv_recover (hinv : Inv caps s) (agent : String) : Inv caps (s.step caps (.recover agent)) := by
  simp only [step]
  split
  · exact hinv
  · next hearly =>
    have hle (a : String) : (s.slots.issue ⟨agent, .running⟩).held (fun o => o.agent = a) ≤
        Function.update s.recovered agent (s.recovered agent + 1) a := by
      have := hinv.early (eq_false_of_ne_true hearly) a
      rw [live_issue, Function.update_apply]
      split
      · next ha =>
        subst ha
        exact Nat.succ_le_succ this
      · exact this
    have hagrees : Agrees (s.counts.enter agent (caps agent)) (s.slots.issue ⟨agent, .running⟩) s.holds :=
      hinv.agrees.issue agent .running (fun _ => rfl) fun _ => rfl
    refine ⟨hagrees, fun _ a => hle a, fun a cap _ => ?_⟩
    exact (hle a).trans (Nat.le_max_right _ _)

theorem inv_trigger (hinv : Inv caps s) (agent : String) : Inv caps (s.step caps (.trigger agent)) := by
  rcases AgentConcurrency.tryEnter_cases s.counts agent (caps agent) with ⟨-, hrefused⟩ | ⟨hroom, hgranted⟩
  · simp only [step, hrefused]
    refine ⟨hinv.agrees.congr (fun a => ?_) (fun a => ?_), nofun, hinv.bounded⟩
    · rw [AgentConcurrency.state_entry]
      split
      · next ha => rw [ha]
      · rfl
    · rw [AgentConcurrency.state_entry]
      split
      · next ha => rw [ha]
      · rfl
  · simp only [step, hgranted]
    have hagrees := hinv.agrees.issue agent .starting
      (f := fun s => { s with cap := caps agent, inFlight := s.inFlight + 1 }) (fun _ => rfl) fun _ => rfl
    refine ⟨hagrees, nofun, fun a cap hcap => ?_⟩
    have hbefore := hinv.bounded a cap hcap
    dsimp only [live]
    rw [live_issue]
    split
    · next ha =>
      subst ha
      have hlt := hroom cap hcap
      rw [hinv.counted] at hlt
      exact (Nat.succ_le_of_lt hlt).trans (Nat.le_max_left _ _)
    · exact hbefore

theorem inv_step (hinv : Inv caps s) (e : Event) : Inv caps (s.step caps e) := by
  cases e with
  | recover agent => exact inv_recover hinv agent
  | trigger agent => exact inv_trigger hinv agent
  | hold agent => exact hinv.shrink (hinv.agrees.hold agent) fun _ => Nat.le_refl _
  | unhold ticket =>
    simp only [step]
    split
    · exact hinv
    · next agent hticket => exact hinv.shrink (hinv.agrees.dropHeld hticket) fun _ => Nat.le_refl _
  | move slot target =>
    have hsame (agent : String) := s.slots.held_update slot
      (f := fun o => if travels o.place target then { o with place := target } else o)
      (p := fun o => o.agent = agent) fun o => by split <;> rfl
    refine hinv.shrink ⟨fun agent => ?_, hinv.agrees.held⟩ fun agent => Nat.le_of_eq (hsame agent)
    rw [hsame]
    exact hinv.agrees.inFlight agent
  | drop slot =>
    simp only [step]
    split
    · exact hinv
    · next owner hslot =>
      refine hinv.shrink (hinv.agrees.dropSlot hslot) fun agent => ?_
      unfold live
      rw [Handles.held_surrender hslot]
      exact Nat.le_add_right _ _

theorem inv_run (events : List Event) (hinv : Inv caps s) : Inv caps (s.run caps events) := by
  induction events generalizing s with
  | nil => exact hinv
  | cons e events ih => exact ih (inv_step hinv e)

/-- After every history of the daemon, for an agent with a cap: the count is that of its live
slots, which is that of its running and its sleeping invocations; a trigger that comes while the
count is at the cap gets no slot; and the count exceeds neither the cap nor, if that is larger,
the number of invocations recovered at the start. -/
theorem agent_cap_holds (caps : String → Option Nat) (events : List Event) (agent : String) :
    (init.run caps events).counts.inFlight agent = (init.run caps events).live agent ∧
    (init.run caps events).live agent = (init.run caps events).running agent + (init.run caps events).sleeping agent ∧
    ∀ cap, caps agent = some cap →
      (cap ≤ (init.run caps events).counts.inFlight agent →
        ((init.run caps events).step caps (.trigger agent)).slots = (init.run caps events).slots) ∧
      (init.run caps events).counts.inFlight agent ≤ max cap ((init.run caps events).recovered agent) := by
  have hinv : Inv caps (init.run caps events) := inv_run events inv_init
  refine ⟨hinv.counted agent, ?_, fun cap hcap => ⟨fun hfull => ?_, ?_⟩⟩
  · rw [Nat.add_comm]
    exact Handles.held_split _ (fun o : Slot => o.agent = agent) fun o => o.place.sleeping
  · rcases AgentConcurrency.tryEnter_cases (init.run caps events).counts agent (caps agent) with
      ⟨-, hrefused⟩ | ⟨hroom, -⟩
    · simp only [step, hrefused]
    · exact absurd (hroom cap hcap) (Nat.not_lt_of_le hfull)
  · rw [hinv.counted]
    exact hinv.bounded agent cap hcap

end Daemon

end FactorQ.Dispatch.AgentCap
