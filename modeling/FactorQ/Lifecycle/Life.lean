/-
# `FactorQ.Lifecycle.Life` — the life of one invocation in the daemon

Around the loop that drives an invocation stand the actors that end it: the
sweeper that hands terminal rows to the archive, the coordination consumer that
applies the events of the stream to the owner row, the consumer that deletes the
worker row on an archive ack, the operator, and startup recovery.  Each store
call and each publish is a move of its own, so they interleave in any way the
processes allow.

The stream delivers an event as often as it likes and in any order.  The
consumer handles one event at a time; a handler that fails leaves the event to be
delivered again.  The archive table is written by the handlers and read by none
of the code here, so it is left out.
-/
import FactorQ.Reducer.Moves

namespace FactorQ.Lifecycle

open Reducer

/-! ## The control plane's row -/

inductive OwnerStatus where
  | inFlight
  | completed
  | failed
  | ambiguous
deriving DecidableEq

def OwnerStatus.isTerminal : OwnerStatus → Bool
  | completed | failed => true
  | _ => false

/-- The label a terminal status leaves on the worker row. -/
def OwnerStatus.phase : OwnerStatus → PhaseLabel
  | completed => .completed
  | _ => .failed

/-- The status `invocation.archived` leads to. -/
def archivedStatus : PhaseLabel → OwnerStatus
  | .failed => .failed
  | _ => .completed

/-- The status `invocation.operator_recovered` leads to. -/
def recoveredStatus : PhaseLabel → OwnerStatus
  | .completed => .completed
  | _ => .failed

/-! ## Another write to the worker row -/

/-- `delete_invocation_state`. -/
def deleteInvocationState (w : Wal) : Wal := { w with state := none }

/-! ## The actors -/

inductive Daemon where
  /-- before `reconcile_terminal_owners` -/
  | starting
  /-- before `classify_in_flight` -/
  | reconciled
  | up
deriving DecidableEq

/-- Where the coordination consumer stands. -/
inductive Consumer where
  | idle
  /-- `handle_invocation_ambiguous` -/
  | marking
  /-- `handle_invocation_archived`, before the owner is read -/
  | archiving (phase : PhaseLabel)
  | deciding (phase : PhaseLabel) (current : Option OwnerStatus)
  | acking
  /-- `handle_invocation_operator_recovered`, before the owner is written -/
  | recovering (phase : PhaseLabel)
  /-- before the worker row is closed -/
  | closing (phase : PhaseLabel)

/-- Where the archive retry sweeper stands. -/
inductive Sweeper where
  | idle
  | publishing (phase : PhaseLabel)
  | marking

structure Life where
  host : Host
  /-- the row as `mark_deferred` has read it, to be written back -/
  held : Option StateRow
  daemon : Daemon
  owner : Option OwnerStatus
  consumer : Consumer
  sweeper : Sweeper
  /-- acks published and not yet delivered -/
  acks : Nat
  /-- the `ambiguous_reported_at` stamp of the worker row -/
  reported : Bool
  /-- an operator has asked the incarnation to halt -/
  halt : Bool
  /-- the resume task of this start has not been heard of yet -/
  task : Bool
  /-- the row was deleted on an ack -/
  deleted : Bool
  /-- an operator's drop has been applied -/
  dropped : Bool

def Life.init : Life := ⟨Host.init, none, .up, none, .idle, .idle, 0, false, false, false, false, false⟩

inductive LifeAction where
  /-- a move of the incarnation -/
  | work (e : Env)
  /-- a publish or a store call of the incarnation fails -/
  | abort
  /-- an incarnation is started: at startup, for a due deferral, or for the operator -/
  | resume
  | inject (render : Int → String)
  /-- the process stops -/
  | crash
  | reconcile (now : Int)
  /-- classification; `stamped` and `published` say whether the store call and the
  publish of a report go through -/
  | classify (stamped published : Bool)
  /-- the resume task of this start failed and says so -/
  | report (stamped published : Bool)
  /-- one move of the sweeper -/
  | sweep
  /-- the sweeper gives up its pass -/
  | sweepFails
  /-- an event of the stream is delivered -/
  | deliver (ev : Event)
  /-- one store call of the handler -/
  | handle (now : Int)
  /-- the handler fails -/
  | nak
  /-- an ack is delivered -/
  | ack
  /-- the operator drops the invocation; `live` allows to stop an incarnation in progress -/
  | drop (live : Bool)

def Pc.isFinished : Pc → Bool
  | .finished _ => true
  | _ => false

/-- An incarnation that came back with an error. -/
def Pc.isError : Pc → Bool
  | .finished .crashed | .finished .failed => true
  | _ => false

namespace Life

/-- The worker row, if it is there and not terminal. -/
def openRow (l : Life) : Option StateRow := l.host.wal.state.filter fun row => row.terminalAt.isNone

def emit (l : Life) (ev : Event) : Life := { l with host := l.host.emit ev }

def store (l : Life) (w : Wal) : Life := { l with host := l.host.store w }

/-- The incarnation moved; a halt does not outlive it. -/
def drive (l : Life) (h : Host) : Life :=
  { l with host := h, halt := l.halt && !Pc.isFinished h.pc }

/-- A move of the incarnation.  `mark_deferred` reads the row in one call and writes
it back in another; so does `ensure_terminal`, but what it writes is terminal anyway. -/
def work (cfg : HostConfig) (l : Life) (e : Env) : Life :=
  match l.host.pc, l.held with
  | .stamped p, none =>
    match l.openRow with
    | some row => { l with held := some row }
    | none => l.drive (l.host.goto (.announcing p))
  | .stamped p, some row =>
    let w := l.host.wal.upsertInvocationState { row with phase := .deferred }
    { l.drive ((l.host.store w).goto (.announcing p)) with held := none }
  | _, _ => l.drive (l.host.step cfg { e with suspend := e.suspend || l.halt })

/-- Take the one-shot right to report the invocation, and use it.  Where the store
does not answer, the report is made all the same. -/
def publishAmbiguousOnce (l : Life) (stamped published : Bool) : Life :=
  if stamped && (l.host.wal.state.isNone || l.reported) then l
  else
    let l := if stamped then { l with reported := true } else l
    if published then l.emit .ambiguous else l

def reconcile (l : Life) (now : Int) : Life :=
  match l.openRow, l.owner with
  | some _, some status =>
    if status.isTerminal then l.store (l.host.wal.markOperatorTerminal status.phase now) else l
  | _, _ => l

def classify (l : Life) (stamped published : Bool) : Life :=
  match l.openRow with
  | none => l
  | some _ =>
    if l.host.wal.isAmbiguous then l.publishAmbiguousOnce stamped published
    else { l with owner := some .inFlight, task := true }

/-- One move of the sweeper: read the row, publish it, mark it. -/
def sweep (l : Life) : Life :=
  match l.sweeper with
  | .idle =>
    match l.host.wal.state with
    | some row => if row.terminalAt.isSome then { l with sweeper := .publishing row.phase } else l
    | none => l
  | .publishing phase => { l.emit (.archived phase) with sweeper := .marking }
  | .marking => { l.store l.host.wal.setArchivePending with sweeper := .idle }

/-- The consumer takes up an event. -/
def deliver (l : Life) (ev : Event) : Life :=
  match l.consumer, ev with
  | .idle, .ambiguous => { l with consumer := .marking }
  | .idle, .archived phase => { l with consumer := .archiving phase }
  | .idle, .operatorRecovered phase => { l with consumer := .recovering phase }
  | _, _ => l

/-- One store call of the handler, or its ack. -/
def handle (l : Life) (now : Int) : Life :=
  match l.consumer with
  | .idle => l
  | .marking => { l with owner := some .ambiguous, consumer := .idle }
  | .archiving phase => { l with consumer := .deciding phase l.owner }
  | .deciding phase current =>
    -- the operator's decision sticks
    if current.any OwnerStatus.isTerminal then { l with consumer := .acking }
    else { l with owner := some (archivedStatus phase), consumer := .acking }
  | .acking => { l with acks := l.acks + 1, consumer := .idle }
  | .recovering phase => { l with owner := some (recoveredStatus phase), consumer := .closing phase }
  | .closing phase =>
    { l.store (l.host.wal.markOperatorTerminal phase now) with
      consumer := .idle
      dropped := l.dropped || recoveredStatus phase = .failed }

/-- The ack consumer deletes the row. -/
def ack (l : Life) : Life :=
  match l.acks with
  | 0 => l
  | n + 1 =>
    { l.store (deleteInvocationState l.host.wal) with
      acks := n
      reported := false
      deleted := l.deleted || l.host.wal.state.isSome }

/-- `invocation.drop`: refused while the invocation is driven, unless the operator
says `live`; then the incarnation is asked to halt first. -/
def drop (l : Life) (live : Bool) : Life :=
  if Pc.isFinished l.host.pc then l.emit (.operatorRecovered .failed)
  else if live then { l.emit (.operatorRecovered .failed) with halt := true }
  else l

/-- Everything in memory is gone, and so are the acks on their way. -/
def crash (l : Life) : Life :=
  { l with
    host := l.host.crash
    held := none
    daemon := .starting
    consumer := .idle
    sweeper := .idle
    acks := 0
    halt := false
    task := false }

/-- What the daemon does once it is up. -/
def actUp (cfg : HostConfig) (l : Life) : LifeAction → Life
  | .work e => l.work cfg e
  | .abort => { l.drive l.host.crash with held := none }
  | .resume => l.drive (l.host.resume cfg)
  | .inject render => l.drive (l.host.inject render)
  | .report stamped published =>
    if l.task && Pc.isError l.host.pc then { l.publishAmbiguousOnce stamped published with task := false } else l
  | .sweep => l.sweep
  | .sweepFails => { l with sweeper := .idle }
  | .deliver ev => if ev ∈ l.host.events then l.deliver ev else l
  | .handle now => l.handle now
  | .nak => { l with consumer := .idle }
  | .ack => l.ack
  | .drop live => l.drop live
  | _ => l

/-- One action.  Startup runs reconciliation, then classification, and only then
are the other actors there. -/
def act (cfg : HostConfig) (l : Life) : LifeAction → Life
  | .crash => l.crash
  | .reconcile now => if l.daemon = .starting then { l.reconcile now with daemon := .reconciled } else l
  | .classify stamped published => if l.daemon = .reconciled then { l.classify stamped published with daemon := .up } else l
  | a => if l.daemon = .up then l.actUp cfg a else l

def run (cfg : HostConfig) (l : Life) (schedule : List LifeAction) : Life := schedule.foldl (act cfg) l

end Life

end FactorQ.Lifecycle
