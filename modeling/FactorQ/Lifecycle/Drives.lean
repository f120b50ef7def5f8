/-
# `FactorQ.Lifecycle.Drives` — who drives an invocation

An invocation can be driven by the run that created it, by the task that startup recovery
spawns for it, by a task that falls due for it after a deferral, and by any number of tasks
spawned at the request of an operator.  Nothing but the registry of live invocations keeps
them apart.  An entry of the registry is made by the task itself, when it is first polled,
and removed when it ends; it is set and not tested.

A request asks the registry long before its task is there to be found in it: it then reads
the log, closes the interrupted calls in one transaction, publishes, and spawns.  Every one
of these calls is a step of its own here.  What the step loop writes to the log is left
open; the drives are told apart by nothing but where they stand.

Two requests that both ask before either has spawned both find nobody, and both spawn.  The
second transaction closes no call, which nothing checks.
-/
import FactorQ.Lifecycle.Life
import FactorQ.Lib.Interleave

namespace FactorQ.Lifecycle

open Lib Reducer

/-! ## Recovery categories -/

inductive RecoveryCategory where
  | safeResume
  | safeReplay
  | ambiguous
deriving DecidableEq

def ToolsHave (tools : Table ToolCallId ToolRow) (status : DispatchStatus) : Bool :=
  tools.rows.any fun r => r.2.status = status

def LlmsHave (llms : Table Nat LlmRow) (status : DispatchStatus) : Bool :=
  llms.rows.any fun r => r.2.status = status

def categorise (tools : Table ToolCallId ToolRow) (llms : Table Nat LlmRow) : RecoveryCategory :=
  if ToolsHave tools .dispatched || LlmsHave llms .dispatched then .ambiguous
  else if ToolsHave tools .intent || LlmsHave llms .intent then .safeResume
  else if ToolsHave tools .completed || LlmsHave llms .completed then .safeReplay
  else .safeResume

/-! ## Requests -/

structure ResumeResponse where
  ok : Bool
  message : String
  completedCallIds : List ToolCallId

def rejected (message : String) : ResumeResponse := ⟨false, message, []⟩

/-- An answer of the store, the bus or the agent registry. -/
inductive Reply where
  | ok
  | err (message : String)

/-- What does not change about the invocation. -/
structure Subject where
  id : String
  agent : String
  /-- the stored ids parse -/
  valid : Bool
  /-- how a time is written out -/
  render : Int → String

/-- Where `handle_resume_request` stands: the call it makes next. -/
inductive Request where
  | absent
  | state
  /-- there is no row; the owner decides the message -/
  | missing
  | owner
  | liveness
  | tools
  | llms (read : Option (Table ToolCallId ToolRow))
  /-- the log is not ambiguous; the owner decides the message -/
  | refusing
  | inject
  | publish (ids : List ToolCallId)
  | spawn (ids : List ToolCallId)
  | answered (response : ResumeResponse)

/-- What a request reads. -/
structure Sight where
  wal : Wal
  owner : Option OwnerStatus
  active : Bool

def Reply.read {α : Type} (reply : Reply) (value : Option α) : Option α :=
  match reply with
  | .ok => value
  | .err _ => none

/-- The next call of a request: what it leaves in the log, where it stands then, and whether
it has spawned its task. -/
def Request.step (subject : Subject) (sight : Sight) (reply : Reply) : Request → Wal × Request × Bool
  | .state =>
    let id := subject.id
    match reply, sight.wal.state with
    | .err e, _ => (sight.wal, .answered (rejected s!"failed to inspect invocation: {e}"), false)
    | .ok, none => (sight.wal, .missing, false)
    | .ok, some row =>
      if row.terminalAt.isSome then
        (sight.wal, .answered (rejected s!"invocation {id} is terminal and cannot be resumed"), false)
      else (sight.wal, .owner, false)
  | .missing =>
    let id := subject.id
    if (reply.read sight.owner).any OwnerStatus.isTerminal then
      (sight.wal, .answered (rejected s!"invocation {id} is terminal and cannot be resumed"), false)
    else (sight.wal, .answered (rejected s!"unknown invocation {id}"), false)
  | .owner =>
    let id := subject.id
    if (reply.read sight.owner).any OwnerStatus.isTerminal then
      (sight.wal, .answered (rejected
        s!"invocation {id} is terminal (completed, failed, or operator-dropped) and cannot be resumed"), false)
    else (sight.wal, .liveness, false)
  | .liveness =>
    let id := subject.id
    if sight.active then
      (sight.wal, .answered (rejected (s!"invocation {id} is executing on this daemon right now — resume " ++
        "is for crashed invocations; drain or wait for it instead")), false)
    else (sight.wal, .tools, false)
  | .tools => (sight.wal, .llms (reply.read (some sight.wal.tools)), false)
  | .llms read =>
    let id := subject.id
    match read, reply with
    | some rows, .ok =>
      if LlmsHave sight.wal.llms .dispatched then
        (sight.wal, .answered (rejected (s!"invocation {id} is ambiguous in an LLM dispatch; " ++
          "interrupted-result injection applies only to tool calls")), false)
      else if categorise rows sight.wal.llms = .ambiguous then (sight.wal, .inject, false)
      else (sight.wal, .refusing, false)
    | _, _ => (sight.wal, .answered (rejected "failed to inspect invocation WAL"), false)
  | .refusing =>
    let id := subject.id
    if reply.read sight.owner = some .inFlight then
      (sight.wal, .answered (rejected s!"invocation {id} is live; only Ambiguous invocations can be resumed"), false)
    else
      (sight.wal, .answered (rejected s!"invocation {id} is not Ambiguous (it may already have been resumed)"), false)
  | .inject =>
    match reply with
    | .err e => (sight.wal, .answered (rejected s!"failed to inject interrupted result: {e}"), false)
    | .ok =>
      let ids := sight.wal.interruptedCalls.map Prod.fst
      (sight.wal.injectInterruptedResults subject.render,
        if subject.valid then .publish ids else .answered ⟨false, "stored invocation identity is invalid", ids⟩, false)
  -- the audit event is best-effort
  | .publish ids => (sight.wal, .spawn ids, false)
  | .spawn ids =>
    let agent := subject.agent
    match reply with
    | .err _ => (sight.wal, .answered ⟨false, s!"agent {agent} is not loaded", ids⟩, false)
    | .ok => (sight.wal, .answered ⟨true, "resume accepted", ids⟩, true)
  | request => (sight.wal, request, false)

/-! ## Drives -/

/-- Where a run or a resume stands: the call it makes next. -/
inductive Task where
  | absent
  /-- spawned and not yet polled -/
  | spawned
  | state
  | tools
  | llms (read : Table ToolCallId ToolRow)
  /-- notices, replay, workspace, sandbox, setup -/
  | preparing
  /-- in the step loop -/
  | stepping
  | ended

/-- `resume` up to its step loop: the entry in the registry, and where the task stands then.
The entry goes with the task. -/
def Task.step (wal : Wal) (active : Bool) (reply : Reply) : Task → Bool × Task
  | .spawned => (true, .state)
  | .state =>
    match reply, wal.state with
    | .ok, some row => if row.terminalAt.isSome then (false, .ended) else (active, .tools)
    | _, _ => (false, .ended)
  | .tools =>
    match reply with
    | .ok => (active, .llms wal.tools)
    | .err _ => (false, .ended)
  | .llms read =>
    match reply with
    | .ok =>
      if ToolsHave read .dispatched || LlmsHave wal.llms .dispatched then (false, .ended) else (active, .preparing)
    | .err _ => (false, .ended)
  | .preparing =>
    match reply with
    | .ok => (active, .stepping)
    | .err _ => (false, .ended)
  | task => (active, task)

inductive TaskId where
  /-- the run that created the invocation, or the task of startup recovery -/
  | first
  | operator (request : Nat)
  | due (n : Nat)
deriving DecidableEq

structure Drives where
  wal : Wal
  owner : Option OwnerStatus
  active : Bool
  /-- deferrals of the invocation that are not due yet -/
  queued : Nat
  requests : Nat → Request
  tasks : TaskId → Task

inductive DriveAct where
  | arrive (i : Nat)
  | request (i : Nat) (reply : Reply)
  | task (t : TaskId) (reply : Reply)
  /-- the step loop of a task writes to the log -/
  | work (t : TaskId) (wal : Wal)
  /-- a step loop ends -/
  | finish (t : TaskId)
  /-- a step loop ends with a deferral -/
  | defer (t : TaskId)
  /-- a deferral falls due; its agent may be gone -/
  | due (n : Nat) (loaded : Bool)
  /-- the coordination consumer writes the owner row -/
  | own (owner : Option OwnerStatus)

def Drives.setTask (d : Drives) (t : TaskId) (task : Task) : Drives :=
  { d with tasks := Function.update d.tasks t task }

def Drives.setRequest (d : Drives) (i : Nat) (request : Request) : Drives :=
  { d with requests := Function.update d.requests i request }

def Drives.sight (d : Drives) : Sight := ⟨d.wal, d.owner, d.active⟩

def Drives.step (subject : Subject) (d : Drives) : DriveAct → Drives
  | .arrive i =>
    match d.requests i with
    | .absent => d.setRequest i .state
    | _ => d
  | .request i reply =>
    let (wal, request, spawns) := (d.requests i).step subject d.sight reply
    let d := { d with wal }.setRequest i request
    if spawns then d.setTask (.operator i) .spawned else d
  | .task t reply =>
    let (active, task) := (d.tasks t).step d.wal d.active reply
    { d with active }.setTask t task
  | .work t wal =>
    match d.tasks t with
    | .stepping => { d with wal }
    | _ => d
  | .finish t =>
    match d.tasks t with
    | .stepping => { d with active := false }.setTask t .ended
    | _ => d
  -- a turn is put down after its model call was closed, and no tool is running then
  | .defer t =>
    match d.tasks t with
    | .stepping =>
      if d.wal.isAmbiguous then d else { d with active := false, queued := d.queued + 1 }.setTask t .ended
    | _ => d
  | .due n loaded =>
    match d.queued with
    | 0 => d
    | queued + 1 =>
      let d := { d with queued }
      if loaded then d.setTask (.due n) .spawned else d
  | .own owner => { d with owner }

/-- How the process comes by the invocation. -/
inductive Origin where
  /-- a trigger has just been handed to a run -/
  | fresh
  /-- startup recovery has spawned a task for it -/
  | recovered
  /-- it was found ambiguous at startup -/
  | orphaned

def Origin.task : Origin → Task
  | fresh => .stepping
  | recovered => .spawned
  | orphaned => .absent

def Origin.active : Origin → Bool
  | fresh => true
  | recovered | orphaned => false

def Drives.start (origin : Origin) (wal : Wal) (owner : Option OwnerStatus) : Drives where
  wal := wal
  owner := owner
  active := origin.active
  queued := 0
  requests := fun _ => .absent
  tasks := Function.update (fun _ => .absent) .first origin.task

/-! ## The window of a request -/

/-- The request has found nobody in the registry and may still spawn a task. -/
def Request.Pending : Request → Prop
  | .tools | .llms _ | .inject | .publish _ | .spawn _ => True
  | _ => False

/-- It has found the log ambiguous. -/
def Request.Committed : Request → Prop
  | .inject | .publish _ | .spawn _ => True
  | _ => False

/-- The task may still come to the step loop or is in it. -/
def Task.Live : Task → Prop
  | .absent | .ended => False
  | _ => True

/-- When a request asks the registry and finds nobody, no other request is pending and no
task is spawned and not yet registered; and no deferral falls due while a request is
pending. -/
def Serial (d : Drives) : DriveAct → Prop
  | .request i _ =>
    (d.requests i matches .liveness) = true → d.active = false →
      (∀ j, j ≠ i → ¬ (d.requests j).Pending) ∧ ∀ t, d.tasks t ≠ .spawned
  | .due _ _ => ∀ j, ¬ (d.requests j).Pending
  | _ => True

/-! ## What one call can do -/

section Calls

variable {subject : Subject} {sight : Sight}

/-- The calls of a request, by what they are to the others. -/
inductive Request.Moves (subject : Subject) (sight : Sight) : Request → Wal × Request × Bool → Prop
  /-- it stays out of the window or leaves it -/
  | idle {r r' : Request} (h : ¬ r'.Pending) : Moves subject sight r (sight.wal, r', false)
  | asks (h : sight.active = false) : Moves subject sight .liveness (sight.wal, .tools, false)
  | reads {read : Option (Table ToolCallId ToolRow)} (h : ∀ tools, read = some tools → tools = sight.wal.tools) :
      Moves subject sight .tools (sight.wal, .llms read, false)
  | commits {tools : Table ToolCallId ToolRow} (h : ToolsHave tools .dispatched = true) :
      Moves subject sight (.llms (some tools)) (sight.wal, .inject, false)
  | injects {r' : Request} {wal : Wal} (h : (∃ ids, r' = .publish ids) ∨ ¬ r'.Pending) :
      Moves subject sight .inject (wal, r', false)
  | publishes {ids : List ToolCallId} : Moves subject sight (.publish ids) (sight.wal, .spawn ids, false)
  | spawns {ids : List ToolCallId} {response : ResumeResponse} :
      Moves subject sight (.spawn ids) (sight.wal, .answered response, true)

theorem Request.step_moves (subject : Subject) (sight : Sight) (reply : Reply) (r : Request) :
    Request.Moves subject sight r (r.step subject sight reply) := by
  cases r with
  | absent => exact .idle id
  | state =>
    unfold Request.step
    dsimp only
    split
    · exact .idle id
    · exact .idle id
    · split <;> exact .idle id
  | missing =>
    unfold Request.step
    dsimp only
    split <;> exact .idle id
  | owner =>
    unfold Request.step
    dsimp only
    split <;> exact .idle id
  | liveness =>
    unfold Request.step
    dsimp only
    split
    · exact .idle id
    · next h => exact .asks (Bool.eq_false_iff.mpr h)
  | tools =>
    refine .reads fun tools hread => ?_
    cases reply with
    | ok => exact (Option.some.inj hread).symm
    | err e => cases hread
  | llms read =>
    unfold Request.step
    dsimp only
    split
    · next tools =>
      split
      · exact .idle id
      · next hllms =>
        split
        · next hcategory =>
          refine .commits (Bool.not_eq_false _ |>.mp fun htools => ?_)
          simp only [categorise, htools, hllms, Bool.or_false, Bool.false_eq_true, if_false] at hcategory
          split at hcategory
          · cases hcategory
          · split at hcategory <;> cases hcategory
        · exact .idle id
    · exact .idle id
  | refusing =>
    unfold Request.step
    dsimp only
    split <;> exact .idle id
  | inject =>
    unfold Request.step
    cases reply with
    | ok =>
      refine .injects ?_
      split
      · exact .inl ⟨_, rfl⟩
      · exact .inr id
    | err e => exact .injects (.inr id)
  | publish ids => exact .publishes
  | spawn ids =>
    cases reply with
    | ok => exact .spawns
    | err e => exact .idle id
  | answered response => exact .idle id

/-- The calls of a task, by what they are to the registry. -/
inductive Task.Moves (active : Bool) : Task → Bool × Task → Prop
  | registers : Moves active .spawned (true, .state)
  | proceeds {t t' : Task} (hlive : t.Live) (hin : t ≠ .spawned) (hlive' : t'.Live) : Moves active t (active, t')
  | ends {t : Task} (hlive : t.Live) (hin : t ≠ .spawned) : Moves active t (false, .ended)
  | rests {t : Task} : Moves active t (active, t)

theorem Task.step_moves (wal : Wal) (active : Bool) (reply : Reply) (t : Task) :
    Task.Moves active t (t.step wal active reply) := by
  cases t with
  | absent => exact .rests
  | spawned => exact .registers
  | state =>
    unfold Task.step
    dsimp only
    split
    · split
      · exact .ends trivial Task.noConfusion
      · exact .proceeds trivial Task.noConfusion trivial
    · exact .ends trivial Task.noConfusion
  | tools =>
    cases reply with
    | ok => exact .proceeds trivial Task.noConfusion trivial
    | err e => exact .ends trivial Task.noConfusion
  | llms read =>
    cases reply with
    | ok =>
      unfold Task.step
      dsimp only
      split
      · exact .ends trivial Task.noConfusion
      · exact .proceeds trivial Task.noConfusion trivial
    | err e => exact .ends trivial Task.noConfusion
  | preparing =>
    cases reply with
    | ok => exact .proceeds trivial Task.noConfusion trivial
    | err e => exact .ends trivial Task.noConfusion
  | stepping => exact .rests
  | ended => exact .rests

end Calls

/-! ## The invariant -/

structure Drives.Inv (d : Drives) : Prop where
  one : ∀ t u, (d.tasks t).Live → (d.tasks u).Live → t = u
  registered : ∀ t, (d.tasks t).Live → d.tasks t ≠ .spawned → d.active = true
  alone : ∀ i j, (d.requests i).Pending → (d.requests j).Pending → i = j
  apart : ∀ i t, (d.requests i).Pending → ¬ (d.tasks t).Live
  read : ∀ i tools, d.requests i = .llms (some tools) → tools = d.wal.tools
  /-- a deferral waits with nobody driving and nothing open in the log -/
  queued : 0 < d.queued → d.queued = 1 ∧ (∀ t, ¬ (d.tasks t).Live) ∧ d.wal.isAmbiguous = false
  committed : ∀ i, (d.requests i).Committed → d.queued = 0

namespace Drives

variable {d : Drives} {subject : Subject}

theorem inv_start (origin : Origin) (wal : Wal) (owner : Option OwnerStatus) : (start origin wal owner).Inv := by
  have hfirst : ∀ t, ((start origin wal owner).tasks t).Live → t = .first := by
    intro t hlive
    by_contra hne
    simp only [start, Function.update_of_ne hne] at hlive
    exact hlive
  refine ⟨fun t u ht hu => (hfirst t ht).trans (hfirst u hu).symm, fun t hlive hin => ?_, fun _ _ h => False.elim h,
    fun _ _ h => False.elim h, fun _ _ h => (by cases h), fun h => absurd h (Nat.lt_irrefl 0), fun _ h => False.elim h⟩
  obtain rfl := hfirst t hlive
  cases origin with
  | fresh => rfl
  | recovered =>
    simp only [start, Function.update_self] at hin
    exact absurd rfl hin
  | orphaned =>
    simp only [start, Function.update_self] at hlive
    exact hlive.elim

theorem Inv.setRequest (hinv : d.Inv) (i : Nat) {r : Request}
    (hpending : r.Pending → (∀ j, j ≠ i → ¬ (d.requests j).Pending) ∧ ∀ t, ¬ (d.tasks t).Live)
    (hread : ∀ tools, r = .llms (some tools) → tools = d.wal.tools) (hcommitted : r.Committed → d.queued = 0) :
    (d.setRequest i r).Inv := by
  have hself : (d.setRequest i r).requests i = r := Function.update_self ..
  have hother : ∀ {j}, j ≠ i → (d.setRequest i r).requests j = d.requests j := fun hne => Function.update_of_ne hne ..
  refine ⟨hinv.one, hinv.registered, fun j k hj hk => ?_, fun j t hj => ?_, fun j tools hj => ?_, hinv.queued,
    fun j hj => ?_⟩
  · by_cases hji : j = i
    · by_cases hki : k = i
      · exact hji.trans hki.symm
      · rw [hji, hself] at hj
        rw [hother hki] at hk
        exact absurd hk ((hpending hj).1 k hki)
    · by_cases hki : k = i
      · rw [hki, hself] at hk
        rw [hother hji] at hj
        exact absurd hj ((hpending hk).1 j hji)
      · rw [hother hji] at hj
        rw [hother hki] at hk
        exact hinv.alone j k hj hk
  · by_cases hji : j = i
    · rw [hji, hself] at hj
      exact (hpending hj).2 t
    · rw [hother hji] at hj
      exact hinv.apart j t hj
  · by_cases hji : j = i
    · rw [hji, hself] at hj
      exact hread tools hj
    · rw [hother hji] at hj
      exact hinv.read j tools hj
  · by_cases hji : j = i
    · rw [hji, hself] at hj
      exact hcommitted hj
    · rw [hother hji] at hj
      exact hinv.committed j hj

/-- The log is written while no request relies on what it has read and no deferral waits. -/
theorem Inv.setWal (hinv : d.Inv) (wal : Wal) (hread : ∀ i tools, d.requests i ≠ .llms (some tools))
    (hqueued : d.queued = 0) : Inv { d with wal } where
  one := hinv.one
  registered := hinv.registered
  alone := hinv.alone
  apart := hinv.apart
  read := fun i tools h => absurd h (hread i tools)
  queued := fun h => absurd hqueued (Nat.ne_of_gt h)
  committed := hinv.committed

theorem Inv.setTask (hinv : d.Inv) (t : TaskId) {task : Task} {active : Bool}
    (hlive : task.Live → (∀ u, u ≠ t → ¬ (d.tasks u).Live) ∧ (∀ i, ¬ (d.requests i).Pending) ∧ d.queued = 0)
    (hself : task.Live → task ≠ .spawned → active = true)
    (hothers : ∀ u, u ≠ t → (d.tasks u).Live → d.tasks u ≠ .spawned → active = true) :
    Inv ({ d with active }.setTask t task) := by
  let d' : Drives := { d with active }.setTask t task
  have hown : d'.tasks t = task := Function.update_self ..
  have hother : ∀ {u}, u ≠ t → d'.tasks u = d.tasks u := fun hne => Function.update_of_ne hne ..
  refine ⟨fun u v hu hv => ?_, fun u hu hin => ?_, hinv.alone, fun i u hi hu => ?_, hinv.read, fun hq => ?_, hinv.committed⟩
  · by_cases hut : u = t
    · by_cases hvt : v = t
      · exact hut.trans hvt.symm
      · rw [hut] at hu
        exact absurd (hother hvt ▸ hv) ((hlive (hown ▸ hu)).1 v hvt)
    · by_cases hvt : v = t
      · rw [hvt] at hv
        exact absurd (hother hut ▸ hu) ((hlive (hown ▸ hv)).1 u hut)
      · exact hinv.one u v (hother hut ▸ hu) (hother hvt ▸ hv)
  · by_cases hut : u = t
    · rw [hut] at hu hin
      exact hself (hown ▸ hu) (hown ▸ hin)
    · exact hothers u hut (hother hut ▸ hu) (hother hut ▸ hin)
  · by_cases hut : u = t
    · rw [hut] at hu
      exact (hlive (hown ▸ hu)).2.1 i hi
    · exact hinv.apart i u hi (hother hut ▸ hu)
  · obtain ⟨hone, hnone, hclear⟩ := hinv.queued hq
    refine ⟨hone, fun u hu => ?_, hclear⟩
    by_cases hut : u = t
    · rw [hut] at hu
      exact absurd (hlive (hown ▸ hu)).2.2 (Nat.ne_of_gt hq)
    · exact hnone u (hother hut ▸ hu)

/-! ## Steps and runs -/

theorem Request.Committed.pending {r : Request} (h : r.Committed) : r.Pending := by
  cases r <;> trivial

theorem Request.ne_llms {r : Request} (h : ¬ r.Pending) (read : Option (Table ToolCallId ToolRow)) : r ≠ .llms read := by
  rintro rfl
  exact h trivial

theorem Inv.goesOn (hinv : d.Inv) {i : Nat} {r : Request} (hr : (d.requests i).Pending)
    (hread : ∀ tools, r = .llms (some tools) → tools = d.wal.tools) (hcommitted : r.Committed → d.queued = 0) :
    (d.setRequest i r).Inv := by
  refine hinv.setRequest i (fun _ => ⟨fun j hne hj => hne (hinv.alone j i hj hr), fun t => hinv.apart i t hr⟩) hread
    hcommitted

theorem Inv.nothingElse (hinv : d.Inv) {t : TaskId} (ht : (d.tasks t).Live) :
    (∀ u, u ≠ t → ¬ (d.tasks u).Live) ∧ (∀ i, ¬ (d.requests i).Pending) ∧ d.queued = 0 := by
  refine ⟨fun u hne hu => hne (hinv.one u t hu ht), fun i hi => hinv.apart i t hi ht, ?_⟩
  by_contra hq
  exact (hinv.queued (Nat.pos_of_ne_zero hq)).2.1 t ht

theorem isAmbiguous_of_toolsHave {wal : Wal} (h : ToolsHave wal.tools .dispatched = true) : wal.isAmbiguous = true := by
  unfold Wal.isAmbiguous
  unfold ToolsHave at h
  rw [h, Bool.true_or]

theorem inv_request (hinv : d.Inv) (i : Nat) (reply : Reply) (hserial : Serial d (.request i reply)) :
    (d.step subject (.request i reply)).Inv := by
  have hmoves := Request.step_moves subject d.sight reply (d.requests i)
  simp only [step]
  generalize hr : d.requests i = r at hmoves hserial ⊢
  generalize hstep : r.step subject d.sight reply = result at hmoves ⊢
  have hpending : r.Pending → (d.requests i).Pending := fun h => hr ▸ h
  cases hmoves with
  | idle hout =>
    have hleft : (d.setRequest i _).Inv := hinv.setRequest i (fun h => absurd h hout)
      (fun tools heq => absurd heq (Request.ne_llms hout _)) (fun h => absurd (Request.Committed.pending h) hout)
    exact hleft
  | asks hactive =>
    obtain ⟨hothers, hspawned⟩ : (∀ j, j ≠ i → ¬ (d.requests j).Pending) ∧ ∀ t, d.tasks t ≠ .spawned := by
      refine hserial ?_ hactive
      rw [hr]
    refine hinv.setRequest i (fun _ => ⟨hothers, fun t hlive => ?_⟩) (fun _ h => nomatch h) False.elim
    exact absurd (hinv.registered t hlive (hspawned t)) (Bool.eq_false_iff.mp hactive)
  | reads hread =>
    exact hinv.goesOn (hpending trivial) (fun tools heq => hread tools (Request.llms.inj heq)) False.elim
  | commits htools =>
    refine hinv.goesOn (hpending trivial) (fun _ h => nomatch h) fun _ => ?_
    rw [hinv.read i _ hr] at htools
    by_contra hq
    exact absurd (isAmbiguous_of_toolsHave htools) (Bool.eq_false_iff.mp (hinv.queued (Nat.pos_of_ne_zero hq)).2.2)
  | @injects r' wal hnext =>
    have hqueued : d.queued = 0 := hinv.committed i (hr ▸ trivial)
    have hwal := hinv.setWal wal (fun j tools hj => ?_) hqueued
    · rcases hnext with ⟨ids, rfl⟩ | hout
      · exact hwal.goesOn (i := i) (hpending trivial) (fun _ h => nomatch h) fun _ => hqueued
      · exact hwal.setRequest i (fun h => absurd h hout) (fun tools heq => absurd heq (Request.ne_llms hout _))
          (fun h => absurd (Request.Committed.pending h) hout)
    · have hji : j = i := hinv.alone j i (hj ▸ trivial) (hpending trivial)
      rw [hji, hr] at hj
      cases hj
  | publishes =>
    exact hinv.goesOn (hpending trivial) (fun _ h => nomatch h) fun _ => hinv.committed i (hr ▸ trivial)
  | @spawns ids response =>
    have hqueued : d.queued = 0 := hinv.committed i (hr ▸ trivial)
    have hnone : ∀ t, ¬ (d.tasks t).Live := fun t => hinv.apart i t (hpending trivial)
    have hanswered := hinv.setRequest i (r := .answered response) False.elim (fun _ h => nomatch h) False.elim
    refine hanswered.setTask (.operator i) (fun _ => ⟨fun u _ => hnone u, fun j hj => ?_, hqueued⟩)
      (fun _ h => absurd rfl h) (fun u _ hu => absurd hu (hnone u))
    by_cases hji : j = i
    · rw [hji] at hj
      simp only [Drives.setRequest, Function.update_self] at hj
      exact hj
    · have hj' : (d.requests j).Pending := by
        simpa only [Drives.setRequest, Function.update_of_ne hji] using hj
      exact hji (hinv.alone j i hj' (hpending trivial))

theorem inv_task (hinv : d.Inv) (t : TaskId) (reply : Reply) : (d.step subject (.task t reply)).Inv := by
  have hmoves := Task.step_moves d.wal d.active reply (d.tasks t)
  simp only [step]
  generalize htask : d.tasks t = task at hmoves ⊢
  generalize task.step d.wal d.active reply = result at hmoves ⊢
  have hlive : task.Live → _ := fun h => hinv.nothingElse (t := t) (htask ▸ h)
  cases hmoves with
  | registers =>
    exact hinv.setTask t (fun _ => hlive trivial) (fun _ _ => rfl) (fun _ _ _ _ => rfl)
  | proceeds hl hin hl' =>
    have hactive : d.active = true := hinv.registered t (htask ▸ hl) (htask ▸ hin)
    exact hinv.setTask t (fun _ => hlive hl) (fun _ _ => hactive) (fun _ _ _ _ => hactive)
  | ends hl hin => exact hinv.setTask t False.elim False.elim (fun u hne hu => absurd hu ((hlive hl).1 u hne))
  | rests =>
    exact hinv.setTask t hlive (fun hl hin => hinv.registered t (htask ▸ hl) (htask ▸ hin))
      (fun u _ => hinv.registered u)

theorem Inv.ends (hinv : d.Inv) {t : TaskId} (ht : (d.tasks t).Live) :
    Inv ({ d with active := false }.setTask t .ended) :=
  hinv.setTask t False.elim False.elim fun u hne hu => absurd hu ((hinv.nothingElse ht).1 u hne)

theorem inv_defer (hinv : d.Inv) (t : TaskId) : (d.step subject (.defer t)).Inv := by
  simp only [step]
  split
  · next htask =>
    have hlive : (d.tasks t).Live := htask ▸ trivial
    obtain ⟨hothers, hpending, hqueued⟩ := hinv.nothingElse hlive
    split
    · exact hinv
    · next hclear =>
      obtain ⟨hone, hregistered, halone, hapart, hread, -, -⟩ := hinv.ends hlive
      refine ⟨hone, hregistered, halone, hapart, hread, fun _ => ⟨?_, fun u hu => ?_, ?_⟩, fun i hi => ?_⟩
      · change d.queued + 1 = 1
        rw [hqueued]
      · by_cases hut : u = t
        · simp only [setTask, hut, Function.update_self] at hu
          exact hu
        · simp only [setTask, Function.update_of_ne hut] at hu
          exact hothers u hut hu
      · exact Bool.eq_false_iff.mpr hclear
      · exact absurd (Request.Committed.pending hi) (hpending i)
  · exact hinv

theorem inv_due (hinv : d.Inv) (n : Nat) (loaded : Bool) (hserial : Serial d (.due n loaded)) :
    (d.step subject (.due n loaded)).Inv := by
  simp only [step]
  split
  · exact hinv
  · next queued hq =>
    obtain ⟨hone, hnone, -⟩ := hinv.queued (hq ▸ Nat.succ_pos queued)
    have hzero : queued = 0 := Nat.succ.inj (hq.symm.trans hone)
    have htaken : Inv { d with queued } :=
      ⟨hinv.one, hinv.registered, hinv.alone, hinv.apart, hinv.read, fun h => absurd hzero (Nat.ne_of_gt h),
        fun _ _ => hzero⟩
    cases loaded with
    | false => exact htaken
    | true =>
      exact htaken.setTask (.due n) (fun _ => ⟨fun u _ => hnone u, hserial, hzero⟩) (fun _ h => absurd rfl h)
        (fun u _ hu => absurd hu (hnone u))

theorem inv_step (d : Drives) (a : DriveAct) (hserial : Serial d a) (hinv : d.Inv) : (d.step subject a).Inv := by
  cases a with
  | arrive i =>
    simp only [step]
    split
    · exact hinv.setRequest i False.elim (fun _ h => nomatch h) False.elim
    · exact hinv
  | request i reply => exact inv_request hinv i reply hserial
  | task t reply => exact inv_task hinv t reply
  | work t wal =>
    simp only [step]
    split
    · next htask =>
      obtain ⟨-, hpending, hqueued⟩ := hinv.nothingElse (t := t) (htask ▸ trivial)
      exact hinv.setWal wal (fun i tools h => hpending i (h ▸ trivial)) hqueued
    · exact hinv
  | finish t =>
    simp only [step]
    split
    · next htask => exact hinv.ends (htask ▸ trivial)
    · exact hinv
  | defer t => exact inv_defer hinv t
  | due n loaded => exact inv_due hinv n loaded hserial
  | own owner =>
    exact ⟨hinv.one, hinv.registered, hinv.alone, hinv.apart, hinv.read, hinv.queued, hinv.committed⟩

theorem inv_run {origin : Origin} {wal : Wal} {owner : Option OwnerStatus} {acts : List DriveAct}
    (hserial : Permitted (step subject) Serial (start origin wal owner) acts) :
    (acts.foldl (step subject) (start origin wal owner)).Inv :=
  Permitted.inv inv_step hserial (inv_start origin wal owner)

end Drives

/-- In every interleaving of requests, of the first run or recovery task and of due
deferrals in which the windows of requests do not overlap, at most one task is in the step
loop, at every time. -/
theorem one_drive (subject : Subject) (origin : Origin) (wal : Wal) (owner : Option OwnerStatus) (acts : List DriveAct)
    (hserial : Permitted (Drives.step subject) Serial (.start origin wal owner) acts) :
    ∀ t u, (acts.foldl (Drives.step subject) (.start origin wal owner)).tasks t = .stepping →
      (acts.foldl (Drives.step subject) (.start origin wal owner)).tasks u = .stepping → t = u := by
  intro t u ht hu
  exact (Drives.inv_run hserial).one t u (ht ▸ trivial) (hu ▸ trivial)

/-- The log of an invocation whose process died in a tool call. -/
def interruptedWal : Wal where
  state := some ⟨.dispatchingTools, ⟨.dispatchingTools, [], 1, 0⟩, 1, none, false⟩
  tools := ⟨[("c1", ⟨"exec", .null, .dispatched, some 5, none, none, none, none⟩)], by decide⟩
  llms := Table.empty
  notices := []

def anInvocation : Subject := ⟨"0197", "builder", true, toString⟩

/-- A request and its task, step by step. -/
def resumedAlone : List DriveAct :=
  DriveAct.arrive 0 :: List.replicate 8 (DriveAct.request 0 .ok) ++ List.replicate 5 (DriveAct.task (.operator 0) .ok)

theorem resumedAlone_drives :
    (resumedAlone.foldl (Drives.step anInvocation) (.start .orphaned interruptedWal none)).tasks (.operator 0) = .stepping ∧
    ∀ t u, (resumedAlone.foldl (Drives.step anInvocation) (.start .orphaned interruptedWal none)).tasks t = .stepping →
      (resumedAlone.foldl (Drives.step anInvocation) (.start .orphaned interruptedWal none)).tasks u = .stepping →
      t = u := by
  refine ⟨rfl, one_drive anInvocation .orphaned interruptedWal none resumedAlone ?_⟩
  refine ⟨trivial, fun h => ?_, fun h => ?_, fun _ _ => ⟨fun j hne hp => ?_, fun t h => ?_⟩, fun h => ?_, fun h => ?_,
    fun h => ?_, fun h => ?_, fun h => ?_, trivial, trivial, trivial, trivial, trivial, trivial⟩
  case refine_3 =>
    match j, hne, hp with
    | 0, hne, _ => exact hne rfl
    | _ + 1, _, hp => exact hp
  case refine_4 => cases t <;> cases h
  all_goals cases h

/-- Two requests, call by call in turn, and then their tasks. -/
def resumedTwice : List DriveAct :=
  [DriveAct.arrive 0, DriveAct.arrive 1] ++ (List.replicate 8 [DriveAct.request 0 .ok, DriveAct.request 1 .ok]).flatten ++
    List.replicate 5 (DriveAct.task (.operator 0) .ok) ++ List.replicate 5 (DriveAct.task (.operator 1) .ok)

/-- Both find the invocation ambiguous and nobody driving it; the second closes no call, and
both are told that their resume is accepted. -/
theorem resumedTwice_drives :
    (resumedTwice.foldl (Drives.step anInvocation) (.start .orphaned interruptedWal none)).tasks (.operator 0) = .stepping ∧
    (resumedTwice.foldl (Drives.step anInvocation) (.start .orphaned interruptedWal none)).tasks (.operator 1) = .stepping ∧
    (resumedTwice.foldl (Drives.step anInvocation) (.start .orphaned interruptedWal none)).requests 1 =
      .answered ⟨true, "resume accepted", []⟩ :=
  ⟨rfl, rfl, rfl⟩

end FactorQ.Lifecycle
