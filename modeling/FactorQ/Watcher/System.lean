/-
# `FactorQ.Watcher.System` — watchers over one repository

The repository, the runtime behind it, and any number of watchers.  A watcher is two loops that
share nothing but the repository: the poll, which claims and triggers what is ready, reconciles
what is in progress and closes what is in review, and the reactor, which takes outcomes as they
are published.  Each action is one request of one loop with the answer it gets, one event
published or delivered, or time passing; nothing is assumed about their order.

What a loop is doing to an issue is its `move?`.  Everything a step can do to the labels is in
`step_advance`.
-/
import FactorQ.Watcher.Issues

namespace FactorQ.Watcher

open Lib

/-! ## The repository and the runtime -/

/-- A published trigger that the runtime has not recorded. -/
structure Pending where
  payload : TriggerPayload
  publishedAt : Nat

structure Hub where
  labels : Nat → Finset Status
  closed : Nat → Bool
  updatedAt : Nat → Nat
  now : Nat
  pending : List Pending
  -- invocations that run, and since when
  running : List (String × Nat)
  -- the retained events, in order
  history : List OutcomeEvent
  -- the issues triggers were published for, in order
  published : List Nat

namespace Hub

def issue (hub : Hub) (number : Nat) : Issue :=
  ⟨number, hub.labels number, hub.closed number, hub.updatedAt number⟩

/-- The open issues of a page that carry the label. -/
def listByLabel (hub : Hub) (label : Status) (page : List Nat) : List Issue :=
  (page.map hub.issue).filter fun issue => issue.hasLabel label && !issue.closed

def listByLabelAllStates (hub : Hub) (label : Status) (page : List Nat) : List Issue :=
  (page.map hub.issue).filter fun issue => issue.hasLabel label

/-- The repository takes one request of a move. -/
def relabel (hub : Hub) (move : Relabelling) (reply : Reply) : Hub × (Stage ⊕ Except RelabelError Unit) :=
  let answer := move.request reply (hub.labels move.issue)
  ({ hub with
      labels := Function.update hub.labels move.issue answer.1
      updatedAt :=
        if answer.1 = hub.labels move.issue then hub.updatedAt
        else Function.update hub.updatedAt move.issue hub.now }, answer.2)

/-- One request of a move: what is next is the next request, or what the move's outcome leads to. -/
def proceed {α : Type} (hub : Hub) (move : Relabelling) (reply : Reply) (resume : Stage → α)
    (finish : Except RelabelError Unit → α) : Hub × α :=
  let answered := hub.relabel move reply
  (answered.1, answered.2.elim resume finish)

def publish (hub : Hub) (trigger : PlannedTrigger) : Hub :=
  { hub with
    pending := hub.pending ++ [⟨trigger.payload, hub.now⟩]
    published := hub.published ++ [trigger.issue] }

end Hub

/-! ## The poll -/

/-- What a loop is told: a page of issue numbers, the reply to a request, whether the events could
be read, the open pull requests that close an issue, whether one has merged. -/
inductive Answer where
  | page (numbers : Option (List Nat))
  | reply (reply : Reply)
  | history (available : Bool)
  | prs (prs : Option (List Nat))
  | merged (merged : Option Bool)

def Answer.reply? : Answer → Option Reply
  | .reply r => some r
  | _ => none

/-- Where `pollOnce` stands. -/
inductive PollPc where
  | idle
  | claiming (trigger : PlannedTrigger) (stage : Stage) (rest : List PlannedTrigger)
  | publishing (trigger : PlannedTrigger) (rest : List PlannedTrigger)
  | reverting (trigger : PlannedTrigger) (stage : Stage) (rest : List PlannedTrigger)
  -- the reconciler, from its list of issues to each of them
  | reconciling
  | recalling (issues : List Issue)
  | checking (issue : Issue) (rest : List Issue) (runs : Option Runs)
  | moving (issue : Issue) (target : Target) (stage : Stage) (rest : List Issue) (runs : Option Runs)
  -- the sweep of what is in review
  | sweeping
  | asking (issue : Issue) (rest : List Issue)
  | closing (issue : Issue) (stage : Stage) (rest : List Issue)

namespace PollPc

/-- The move the poll is in the middle of. -/
def move? : PollPc → Option Relabelling
  | claiming trigger stage _ => some ⟨trigger.issue, .ready, .inProgress, stage⟩
  | reverting trigger stage _ => some ⟨trigger.issue, .inProgress, .ready, stage⟩
  | moving issue target stage _ _ => some ⟨issue.number, .inProgress, target.status, stage⟩
  | closing issue stage _ => some ⟨issue.number, .inReview, .done, stage⟩
  | _ => none

def nextTrigger : List PlannedTrigger → PollPc
  | [] => .reconciling
  | trigger :: rest => .claiming trigger .adding rest

def nextCheck (runs : Option Runs) : List Issue → PollPc
  | [] => .sweeping
  | issue :: rest => .checking issue rest runs

def nextReview : List Issue → PollPc
  | [] => .idle
  | issue :: rest => .asking issue rest

end PollPc

/-- One request of the poll. -/
def Hub.poll (cfg : Config) (hub : Hub) (pc : PollPc) (answer : Answer) : Hub × PollPc :=
  match pc, answer with
  | .idle, .page none => (hub, .idle)
  | .idle, .page (some page) => (hub, .nextTrigger (planTriggers (hub.listByLabel .ready page) cfg))
  | .claiming trigger stage rest, .reply reply =>
    hub.proceed ⟨trigger.issue, .ready, .inProgress, stage⟩ reply (.claiming trigger · rest) fun outcome =>
      match outcome with
      | .ok () => .publishing trigger rest
      | .error _ => .nextTrigger rest
  | .publishing trigger rest, .reply reply =>
    match reply with
    | .done => (hub.publish trigger, .nextTrigger rest)
    | .lost => (hub.publish trigger, .reverting trigger .adding rest)
    | .failed => (hub, .reverting trigger .adding rest)
  | .reverting trigger stage rest, .reply reply =>
    hub.proceed ⟨trigger.issue, .inProgress, .ready, stage⟩ reply (.reverting trigger · rest)
      fun _ => .nextTrigger rest
  | .reconciling, .page none => (hub, .sweeping)
  | .reconciling, .page (some page) =>
    match hub.listByLabel .inProgress page with
    | [] => (hub, .sweeping)
    | issue :: rest => (hub, .recalling (issue :: rest))
  | .recalling issues, .history available =>
    (hub, .nextCheck (if available then some (issueRuns hub.history) else none) issues)
  | .checking issue rest runs, .prs prs =>
    match reconcileIssue cfg hub.now issue (runs.map fun runs => runs.of issue.number) prs with
    | none => (hub, .nextCheck runs rest)
    | some target => (hub, .moving issue target .adding rest runs)
  | .moving issue target stage rest runs, .reply reply =>
    hub.proceed ⟨issue.number, .inProgress, target.status, stage⟩ reply (.moving issue target · rest runs)
      fun _ => .nextCheck runs rest
  | .sweeping, .page none => (hub, .idle)
  | .sweeping, .page (some page) =>
    (hub, .nextReview ((hub.listByLabelAllStates .inReview page).filter Issue.closed))
  | .asking issue rest, .merged merged =>
    if merged = some true then (hub, .closing issue .adding rest) else (hub, .nextReview rest)
  | .closing issue stage rest, .reply reply =>
    hub.proceed ⟨issue.number, .inReview, .done, stage⟩ reply (.closing issue · rest) fun _ => .nextReview rest
  | pc, _ => (hub, pc)

/-! ## The reactor -/

inductive ReactorPc where
  | idle
  -- a completed run, whose pull requests are asked for
  | verifying (issue : Nat) (invocation : String)
  | moving (issue : Nat) (target : Target) (stage : Stage) (invocation : String) (reset : Bool)

def ReactorPc.move? : ReactorPc → Option Relabelling
  | moving issue target stage _ _ => some ⟨issue, .inProgress, target.status, stage⟩
  | _ => none

structure Reactor where
  pc : ReactorPc
  binding : Table String Nat
  -- failures already reacted to
  attempts : Table Nat Nat
  -- how many events have been delivered to it, or missed it
  heard : Nat

namespace Reactor

def prior (r : Reactor) (issue : Nat) : Nat := (r.attempts.get? issue).getD 0

/-- Whether a failure of this kind is retried. -/
def retries (cfg : Config) (r : Reactor) (issue : Nat) (errorKind : String) : Bool :=
  errorKind ∉ terminalErrorKinds && r.prior issue < cfg.maxRetries

def reactFailed (cfg : Config) (r : Reactor) (issue : Nat) (errorKind invocation : String) : Reactor :=
  if r.retries cfg issue errorKind then
    { r with
      attempts := r.attempts.set issue (r.prior issue + 1)
      pc := .moving issue .ready .adding invocation false }
  else
    -- escalation spends the budget
    { r with
      attempts := r.attempts.erase issue
      pc := .moving issue .failed .adding invocation false }

/-- `React`, up to its first request. -/
def react (cfg : Config) (r : Reactor) (ev : OutcomeEvent) : Reactor :=
  match ev with
  | .triggered invocation issue =>
    if issue > 0 ∧ invocation ≠ "" then { r with binding := r.binding.set invocation issue } else r
  | .ended invocation outcome =>
    match r.binding.get? invocation with
    | none => r
    | some issue =>
      match outcome with
      | .completed taskStatus =>
        if declaresFailure taskStatus then r.reactFailed cfg issue ("task_" ++ taskStatus) invocation
        else { r with pc := .verifying issue invocation }
      | .failed errorKind => r.reactFailed cfg issue errorKind invocation
      | .ambiguous => { r with pc := .moving issue .failed .adding invocation true }

/-- The next event is behind it. -/
def hear (r : Reactor) : Reactor := { r with heard := r.heard + 1 }

/-- What is left of `React` after the move. -/
def finish (r : Reactor) (issue : Nat) (invocation : String) (reset : Bool) : Reactor :=
  { r with
    pc := .idle
    attempts := if reset then r.attempts.erase issue else r.attempts
    binding := r.binding.erase invocation }

end Reactor

/-- One request of the reactor. -/
def Hub.react (cfg : Config) (hub : Hub) (r : Reactor) (answer : Answer) : Hub × Reactor :=
  match r.pc, answer with
  | .verifying issue invocation, .prs prs =>
    match prs with
    | some [] => (hub, r.reactFailed cfg issue "no_pr" invocation)
    -- a lookup that fails is taken for a pull request
    | _ => (hub, { r with pc := .moving issue .inReview .adding invocation true })
  | .moving issue target stage invocation reset, .reply reply =>
    hub.proceed ⟨issue, .inProgress, target.status, stage⟩ reply
      (fun stage => { r with pc := .moving issue target stage invocation reset })
      fun _ => r.finish issue invocation reset
  | _, _ => (hub, r)

/-! ## The system -/

inductive Loop where
  | poll
  | reactor
deriving DecidableEq

instance : Fintype Loop := ⟨{Loop.poll, Loop.reactor}, fun l => by cases l <;> decide⟩

/-- A watcher's two loops. -/
structure Adapter where
  poll : PollPc
  reactor : Reactor

def Adapter.move? (w : Adapter) : Loop → Option Relabelling
  | .poll => w.poll.move?
  | .reactor => w.reactor.pc.move?

structure System (ι : Type) where
  hub : Hub
  watchers : ι → Adapter

inductive Act (ι : Type) where
  | poll (w : ι) (answer : Answer)
  | react (w : ι) (answer : Answer)
  -- the next event reaches the watcher, or misses it
  | deliver (w : ι)
  | miss (w : ι)
  -- the dispatcher records a trigger, and an invocation ends
  | record (k : Nat) (invocation : String)
  | finish (invocation : String) (outcome : Outcome)
  | tick (seconds : Nat)
  -- somebody comments on the issue, closes it or opens it again
  | touch (issue : Nat) (closed : Bool)

namespace System

variable {ι : Type} [DecidableEq ι]

def move? (s : System ι) (t : ι × Loop) : Option Relabelling := (s.watchers t.1).move? t.2

def setPoll (s : System ι) (w : ι) (moved : Hub × PollPc) : System ι :=
  ⟨moved.1, Function.update s.watchers w { s.watchers w with poll := moved.2 }⟩

def setReactor (s : System ι) (w : ι) (moved : Hub × Reactor) : System ι :=
  ⟨moved.1, Function.update s.watchers w { s.watchers w with reactor := moved.2 }⟩

def step (cfg : Config) (s : System ι) : Act ι → System ι
  | .poll w answer => s.setPoll w (s.hub.poll cfg (s.watchers w).poll answer)
  | .react w answer => s.setReactor w (s.hub.react cfg (s.watchers w).reactor answer)
  | .deliver w =>
    let r := (s.watchers w).reactor
    match r.pc, s.hub.history[r.heard]? with
    | .idle, some ev => s.setReactor w (s.hub, r.hear.react cfg ev)
    | _, _ => s
  | .miss w =>
    let r := (s.watchers w).reactor
    if r.heard < s.hub.history.length then s.setReactor w (s.hub, r.hear) else s
  | .record k invocation =>
    match s.hub.pending[k]? with
    | none => s
    | some trigger =>
      { s with hub := { s.hub with
        pending := s.hub.pending.eraseIdx k
        running := s.hub.running ++ [(invocation, s.hub.now)]
        history := s.hub.history ++ [.triggered invocation trigger.payload.issue] } }
  | .finish invocation outcome =>
    if invocation ∈ s.hub.running.map Prod.fst then
      { s with hub := { s.hub with
        running := s.hub.running.filter fun r => r.1 ≠ invocation
        history := s.hub.history ++ [.ended invocation outcome] } }
    else s
  | .tick seconds => { s with hub := { s.hub with now := s.hub.now + seconds } }
  | .touch issue closed =>
    { s with hub := { s.hub with
      closed := Function.update s.hub.closed issue closed
      updatedAt := Function.update s.hub.updatedAt issue s.hub.now } }

/-- Watchers that have just started, over a repository with these labels and nothing run yet. -/
def start (labels : Nat → Finset Status) (now : Nat) : System ι where
  hub := {
    labels, now
    closed := fun _ => false
    updatedAt := fun _ => now
    pending := []
    running := []
    history := []
    published := [] }
  watchers := fun _ => ⟨.idle, ⟨.idle, Table.empty, Table.empty, 0⟩⟩

/-- One issue, ready. -/
def oneReady : System ι := start (fun n => if n = 1 then {.ready} else ∅) 1

end System

/-! ## What a step does to the labels -/

/-- One loop's part in a step: it leaves the labels and is at most about to begin a move, or it makes
the next request of the move it is in. -/
inductive Advance (labels : Nat → Finset Status) (move? : Option Relabelling) (labels' : Nat → Finset Status)
    (move?' : Option Relabelling) : Option Reply → Prop
  | still {reply? : Option Reply} : labels' = labels →
      (∀ m, move?' = some m → m.stage = .adding ∨ move? = some m) →
      Advance labels move? labels' move?' reply?
  | request {m : Relabelling} {reply : Reply} : move? = some m →
      labels' = Function.update labels m.issue (m.request reply (labels m.issue)).1 →
      (∀ m', move?' = some m' → m'.stage = .adding ∨
        ∃ stage, (m.request reply (labels m.issue)).2 = .inl stage ∧ m' = { m with stage }) →
      Advance labels move? labels' move?' (some reply)

namespace PollPc

variable {m : Relabelling}

/-- What the poll turns to next is not in the middle of a move. -/
theorem nextTrigger_move? {rest : List PlannedTrigger} (h : (nextTrigger rest).move? = some m) :
    m.stage = .adding := by
  cases rest with
  | nil => exact nomatch h
  | cons trigger rest =>
    obtain rfl := Option.some.inj h
    rfl

theorem nextCheck_move? (runs : Option Runs) (rest : List Issue) : (nextCheck runs rest).move? = none := by
  cases rest <;> rfl

theorem nextReview_move? (rest : List Issue) : (nextReview rest).move? = none := by
  cases rest <;> rfl

end PollPc

theorem Hub.proceed_advance {α : Type} (move? : α → Option Relabelling) {hub : Hub} {reply : Reply}
    {resume : Stage → α} {finish : Except RelabelError Unit → α}
    (hresume : ∀ stage, move? (resume stage) = some { m with stage })
    (hfinish : ∀ outcome m', move? (finish outcome) = some m' → m'.stage = .adding) :
    Advance hub.labels (some m) (hub.proceed m reply resume finish).1.labels
      (move? (hub.proceed m reply resume finish).2) (some reply) := by
  refine .request rfl rfl fun m' hm' => ?_
  change move? ((m.request reply (hub.labels m.issue)).2.elim resume finish) = some m' at hm'
  cases hnext : (m.request reply (hub.labels m.issue)).2 with
  | inl stage =>
    rw [hnext] at hm'
    exact .inr ⟨stage, rfl, (Option.some.inj ((hresume stage).symm.trans hm')).symm⟩
  | inr outcome =>
    rw [hnext] at hm'
    exact .inl (hfinish outcome m' hm')

theorem Hub.poll_advance (cfg : Config) (hub : Hub) (pc : PollPc) (answer : Answer) :
    Advance hub.labels pc.move? (hub.poll cfg pc answer).1.labels (hub.poll cfg pc answer).2.move? answer.reply? := by
  unfold Hub.poll
  split
  next => exact .still rfl fun m h => nomatch h
  next => exact .still rfl fun m h => .inl (PollPc.nextTrigger_move? h)
  next trigger stage rest reply =>
    refine Hub.proceed_advance PollPc.move? ?_ ?_
    · exact fun _ => rfl
    intro outcome m' h
    cases outcome with
    | ok => exact nomatch h
    | error => exact PollPc.nextTrigger_move? h
  next trigger rest reply =>
    cases reply with
    | done => exact .still rfl fun m h => .inl (PollPc.nextTrigger_move? h)
    | lost => exact .still rfl fun m h => .inl (by obtain rfl := Option.some.inj h; rfl)
    | failed => exact .still rfl fun m h => .inl (by obtain rfl := Option.some.inj h; rfl)
  next =>
    refine Hub.proceed_advance PollPc.move? ?_ ?_
    · exact fun _ => rfl
    · exact fun _ m' h => PollPc.nextTrigger_move? h
  next => exact .still rfl fun m h => nomatch h
  next =>
    split
    next => exact .still rfl fun m h => nomatch h
    next => exact .still rfl fun m h => nomatch h
  next => exact .still rfl fun m h => nomatch (PollPc.nextCheck_move? ..).symm.trans h
  next =>
    split
    next => exact .still rfl fun m h => nomatch (PollPc.nextCheck_move? ..).symm.trans h
    next => exact .still rfl fun m h => .inl (by obtain rfl := Option.some.inj h; rfl)
  next =>
    refine Hub.proceed_advance PollPc.move? ?_ ?_
    · exact fun _ => rfl
    · exact fun _ m' h => nomatch (PollPc.nextCheck_move? ..).symm.trans h
  next => exact .still rfl fun m h => nomatch h
  next => exact .still rfl fun m h => nomatch (PollPc.nextReview_move? _).symm.trans h
  next =>
    split
    next => exact .still rfl fun m h => .inl (by obtain rfl := Option.some.inj h; rfl)
    next => exact .still rfl fun m h => nomatch (PollPc.nextReview_move? _).symm.trans h
  next =>
    refine Hub.proceed_advance PollPc.move? ?_ ?_
    · exact fun _ => rfl
    · exact fun _ m' h => nomatch (PollPc.nextReview_move? _).symm.trans h
  next => exact .still rfl fun m h => .inr h

theorem Reactor.reactFailed_move? (cfg : Config) (r : Reactor) (issue : Nat) (errorKind invocation : String)
    (h : (r.reactFailed cfg issue errorKind invocation).pc.move? = some m) : m.stage = .adding := by
  unfold Reactor.reactFailed at h
  split at h
  next => obtain rfl := Option.some.inj h; rfl
  next => obtain rfl := Option.some.inj h; rfl

theorem Hub.react_advance (cfg : Config) (hub : Hub) (r : Reactor) (answer : Answer) :
    Advance hub.labels r.pc.move? (hub.react cfg r answer).1.labels (hub.react cfg r answer).2.pc.move?
      answer.reply? := by
  unfold Hub.react
  split
  next =>
    split
    next => exact .still rfl fun m h => .inl (Reactor.reactFailed_move? _ _ _ _ _ h)
    next => exact .still rfl fun m h => .inl (by obtain rfl := Option.some.inj h; rfl)
  next hpc =>
    rw [hpc]
    refine Hub.proceed_advance (fun r : Reactor => r.pc.move?) ?_ ?_
    · exact fun _ => rfl
    · exact fun _ m' h => nomatch h
  next => exact .still rfl fun m h => .inr h

/-- An event that reaches an idle reactor begins at most a move. -/
theorem Reactor.react_move? (cfg : Config) {r : Reactor} (hr : r.pc.move? = none) (ev : OutcomeEvent)
    (h : (r.react cfg ev).pc.move? = some m) : m.stage = .adding := by
  unfold Reactor.react at h
  split at h
  next =>
    split at h
    next => exact nomatch hr.symm.trans h
    next => exact nomatch hr.symm.trans h
  next =>
    split at h
    next => exact nomatch hr.symm.trans h
    next =>
      split at h
      next =>
        split at h
        next => exact Reactor.reactFailed_move? _ _ _ _ _ h
        next => exact nomatch h
      next => exact Reactor.reactFailed_move? _ _ _ _ _ h
      next => obtain rfl := Option.some.inj h; rfl

/-- The loop that makes a request, and the reply to it. -/
def Act.request? {ι : Type} : Act ι → Option ((ι × Loop) × Reply)
  | .poll w (.reply reply) => some ((w, .poll), reply)
  | .react w (.reply reply) => some ((w, .reactor), reply)
  | _ => none

namespace System

variable {ι : Type} [DecidableEq ι]

theorem setPoll_move? (s : System ι) (w : ι) (moved : Hub × PollPc) (t : ι × Loop) :
    (s.setPoll w moved).move? t = if t = (w, .poll) then moved.2.move? else s.move? t := by
  obtain ⟨w', l⟩ := t
  by_cases hw : w' = w
  · subst hw
    cases l <;> simp [move?, setPoll, Adapter.move?]
  · simp [move?, setPoll, hw]

theorem setReactor_move? (s : System ι) (w : ι) (moved : Hub × Reactor) (t : ι × Loop) :
    (s.setReactor w moved).move? t = if t = (w, .reactor) then moved.2.pc.move? else s.move? t := by
  obtain ⟨w', l⟩ := t
  by_cases hw : w' = w
  · subst hw
    cases l <;> simp [move?, setReactor, Adapter.move?]
  · simp [move?, setReactor, hw]

/-- No label changes and every move past its first request was there before, or one loop makes the
next request of its move and the other moves stay. -/
inductive Advances (s s' : System ι) (request? : Option ((ι × Loop) × Reply)) : Prop
  | still : s'.hub.labels = s.hub.labels →
      (∀ t m, s'.move? t = some m → m.stage = .adding ∨ s.move? t = some m) → Advances s s' request?
  | request {t : ι × Loop} {reply : Reply} {m : Relabelling} : request? = some (t, reply) → s.move? t = some m →
      s'.hub.labels = Function.update s.hub.labels m.issue (m.request reply (s.hub.labels m.issue)).1 →
      (∀ t' m', s'.move? t' = some m' → m'.stage = .adding ∨ (t' ≠ t ∧ s.move? t' = some m') ∨
        ∃ stage, (m.request reply (s.hub.labels m.issue)).2 = .inl stage ∧ m' = { m with stage }) →
      Advances s s' request?

variable {request? : Option ((ι × Loop) × Reply)}

omit [DecidableEq ι] in
theorem Advances.of_eq {s s' : System ι} (hlabels : s'.hub.labels = s.hub.labels)
    (hmoves : ∀ t, s'.move? t = s.move? t) : Advances s s' request? :=
  .still hlabels fun t _ h => .inr ((hmoves t).symm.trans h)

theorem Advances.of_loop {s s' : System ι} {t : ι × Loop} {move?' : Option Relabelling} {reply? : Option Reply}
    (hmoves : ∀ t', s'.move? t' = if t' = t then move?' else s.move? t')
    (h : Advance s.hub.labels (s.move? t) s'.hub.labels move?' reply?)
    (hrequest : ∀ reply, reply? = some reply → request? = some (t, reply)) : Advances s s' request? := by
  cases h with
  | still hlabels hmove =>
    refine .still hlabels fun t' m hm => ?_
    rw [hmoves] at hm
    split at hm
    next ht =>
      subst ht
      exact hmove m hm
    next => exact .inr hm
  | request hmove hlabels hnext =>
    refine .request (hrequest _ rfl) hmove hlabels fun t' m' hm' => ?_
    rw [hmoves] at hm'
    split at hm'
    next => exact (hnext m' hm').imp_right .inr
    next ht => exact .inr (.inl ⟨ht, hm'⟩)

/-- **What a step does to the labels.** -/
theorem step_advance (cfg : Config) (s : System ι) (a : Act ι) : Advances s (s.step cfg a) a.request? := by
  cases a with
  | poll w answer =>
    refine .of_loop (s.setPoll_move? w _) (s.hub.poll_advance cfg (s.watchers w).poll answer) fun reply h => ?_
    cases answer with
    | reply r => obtain rfl := Option.some.inj h; rfl
    | page _ | history _ | prs _ | merged _ => exact nomatch h
  | react w answer =>
    refine .of_loop (s.setReactor_move? w _) (s.hub.react_advance cfg (s.watchers w).reactor answer) fun reply h => ?_
    cases answer with
    | reply r => obtain rfl := Option.some.inj h; rfl
    | page _ | history _ | prs _ | merged _ => exact nomatch h
  | deliver w =>
    unfold step
    dsimp only
    split
    next ev hpc _ =>
      have hheard : (s.watchers w).reactor.hear.pc.move? = none := congrArg ReactorPc.move? hpc
      refine .of_loop (s.setReactor_move? w _) (show Advance _ _ _ _ none from .still rfl fun m hm => .inl ?_)
        fun _ h => nomatch h
      exact Reactor.react_move? cfg hheard ev hm
    next => exact .of_eq rfl fun _ => rfl
  | miss w =>
    unfold step
    dsimp only
    split
    next =>
      exact .of_loop (s.setReactor_move? w _) (show Advance _ _ _ _ none from .still rfl fun m hm => .inr hm)
        fun _ h => nomatch h
    next => exact .of_eq rfl fun _ => rfl
  | record k invocation =>
    unfold step
    dsimp only
    split
    next => exact .of_eq rfl fun _ => rfl
    next => exact .of_eq rfl fun _ => rfl
  | finish invocation outcome =>
    unfold step
    dsimp only
    split
    next => exact .of_eq rfl fun _ => rfl
    next => exact .of_eq rfl fun _ => rfl
  | tick seconds => exact .of_eq rfl fun _ => rfl
  | touch issue closed => exact .of_eq rfl fun _ => rfl

end System

end FactorQ.Watcher
