/-
# `FactorQ.Projection.Restart` — starts that crash, and what the durable delivers

Before the projection reads, a start brings its file to the current schema and, when the file is
new or was rebuilt, resets the durable consumer to the replay floor.  Files and broker are
written in separate steps, and a start may die between any two of them; the next one has only
the notes in the file and the durable itself to go by:

    consumer_reset_pending   the durable is still to be reset
    replay_floor             what the floor step found, until the reset folds it into
    rebuild                  the record of the last rebuild, with the floor it replays from

A world is a file, a durable and where the running start stands; a run is any list of single
steps and crashes.  Wanted of every start that completes is a durable that delivers whatever
this build reads and the file lacks, and of a durable created after a reset, or on a new file,
that it delivers nothing below the floor.

Two windows fail.  A new file is stamped before its reset note is written, and a start that
dies in between leaves a file that looks current: an old durable keeps its position, and with
none a new one begins at the beginning.  And a new file that found no durable to delete keeps
no record, so that once the notes are cleared the floor is known to the dying start alone.
`CrashOk` excludes the two where they do harm, and nothing else; `RestartSafety` has the proof.

The stream does not change.  Timestamps of the record and columns added to a current file are
left out.
-/
import FactorQ.Lib.Interleave
import FactorQ.Projection.Floor

namespace FactorQ.Projection

/-- A stream, with the messages no row is kept of. -/
structure EventStream extends Stream where
  transient : Nat → Bool

namespace EventStream

/-- The message is one this build reads and keeps a row of. -/
def Projects (stream : EventStream) (m : Nat) : Prop := stream.Supported m ∧ stream.transient m = false

def floor (stream : EventStream) : Nat := stream.toStream.replayFloor.1.floor

def Holds (stream : EventStream) (m : Nat) : Prop := (stream.message m).isSome

/-- From the position on, every message lies at or above the floor. -/
def Above (stream : EventStream) (position : Nat) : Prop :=
  ∀ m, stream.Holds m → position ≤ m → stream.floor ≤ m

end EventStream

/-! ## The file -/

def projectionSchemaVersion : Nat := 4

/-- What the statements of the schema create, in order. -/
def schemaSql : List String :=
  ["events", "idx_events_agent_time", "idx_events_invocation", "idx_events_type_time", "idx_events_time",
    "invocation_summary",
    "triggers", "idx_triggers_agent_time", "idx_triggers_time", "idx_triggers_seq",
    "operator_signals", "idx_operator_signals_time", "idx_operator_signals_severity_time",
    "idx_operator_signals_source_time", "idx_operator_signals_recoveries"]

def triggerRequeueIndex : String := "idx_triggers_requeued_from"

def schemaStatements : List String := schemaSql ++ [triggerRequeueIndex]

/-- A row of `events`: which message it is of, and what the steps below read of it. -/
structure FileRow where
  message : Nat
  seq : Option Nat
  costBearing : Bool

structure PendingFloor where
  floorSeq : Nat
  carriedBelowFloor : Nat

structure RebuildRecord where
  reason : String
  fromVersion : Option Nat
  schemaVersion : Nat
  targetSeq : Option Nat
  floorSeq : Option Nat
  carriedBelowFloor : Nat

structure File where
  objects : List String
  userVersion : Nat
  -- every row projected into these tables, also one that retention has swept since
  rows : List FileRow
  resetPending : Option String
  replayFloor : Option PendingFloor
  rebuild : Option RebuildRecord

inductive Compatibility where
  | freshInstall
  | current
  | needsUpgrade (version : Nat)
  | binaryTooOld (version : Nat)

def checkCompatibility (recorded : Option Nat) (binary : Nat) : Compatibility :=
  match recorded with
  | none => .freshInstall
  | some v => if v = binary then .current else if v < binary then .needsUpgrade v else .binaryTooOld v

def freshFileReason : String := "the projection file was created"

def schemaUpgradeReason (version : Nat) : String :=
  s!"schema version {version} -> {projectionSchemaVersion}: the projection schema changed and history is " ++
    "re-derived from the event stream"

namespace File

def fresh : File := ⟨[], 0, [], none, none, none⟩

/-- Nothing for a file without the tables; a file never stamped reads 0. -/
def recordedVersion (f : File) : Option Nat := if "events" ∈ f.objects then some f.userVersion else none

def create (f : File) (name : String) : File := { f with objects := f.objects.insert name }

def writeUserVersion (f : File) : File := { f with userVersion := projectionSchemaVersion }

def requestConsumerReset (f : File) (reason : String) : File := { f with resetPending := some reason }

def evictTransients (stream : EventStream) (f : File) : File :=
  { f with rows := f.rows.filter fun r => !stream.transient r.message }

/-- One transaction: every row is carried into the new tables and the reset noted. -/
def rebuildTables (stream : EventStream) (f : File) (version : Nat) : File :=
  { objects := schemaStatements
    userVersion := projectionSchemaVersion
    rows := f.rows.filter fun r => !stream.transient r.message
    resetPending := some (schemaUpgradeReason version)
    replayFloor := none
    rebuild := some ⟨schemaUpgradeReason version, some version, projectionSchemaVersion, none, none, 0⟩ }

/-- One transaction: what the replay derives again goes, and the floor is noted. -/
def applyReplayFloor (f : File) (floor : Nat) : File :=
  let rows := f.rows.filter fun r => !(r.seq.any (floor ≤ ·) && !r.costBearing)
  { f with rows, replayFloor := some ⟨floor, rows.countP fun r => r.seq.all (· < floor)⟩ }

/-- The record a completed reset writes, if it writes one. -/
def completedRecord (f : File) (targetSeq : Nat) (deletedDurable : Bool) : Option RebuildRecord :=
  let floorSeq := f.replayFloor.map PendingFloor.floorSeq
  let carriedBelowFloor := (f.replayFloor.map PendingFloor.carriedBelowFloor).getD 0
  match f.rebuild with
  | some record =>
    if record.targetSeq.isNone then some { record with targetSeq := some targetSeq, floorSeq, carriedBelowFloor }
    else none
  | none =>
    if deletedDurable then
      some ⟨f.resetPending.getD freshFileReason, none, projectionSchemaVersion, some targetSeq, floorSeq,
        carriedBelowFloor⟩
    else none

def writeRebuildRecord (f : File) (targetSeq : Nat) (deletedDurable : Bool) : File :=
  { f with rebuild := (f.completedRecord targetSeq deletedDurable).or f.rebuild }

def clearNotes (f : File) : File := { f with resetPending := none, replayFloor := none }

/-- The file has no row of a message it is to have one of. -/
def Lacks (stream : EventStream) (f : File) (m : Nat) : Prop :=
  stream.Projects m ∧ ∀ r ∈ f.rows, r.message ≠ m

end File

/-! ## A start -/

inductive DeliverFrom where
  | beginning
  | sequence (start : Nat)

namespace DeliverFrom

def fromFloor (floor : Nat) : DeliverFrom := if floor = 0 then .beginning else .sequence floor

/-- The first sequence a durable created there delivers. -/
def position : DeliverFrom → Nat
  | beginning => 0
  | sequence start => start

end DeliverFrom

/-- Where a start without a reset creates a durable that is missing. -/
def File.deliverFrom (f : File) : DeliverFrom := (f.rebuild.bind RebuildRecord.floorSeq).elim .beginning .fromFloor

/-- It delivers the messages from its position on. -/
structure Durable where
  position : Nat
  /-- It was created after a reset or on a new file. -/
  afterReset : Bool

/-- The step a start takes next. -/
inductive Pc where
  | opening
  | creating (left : List String)
  | noting
  | bringing (left : List String)
  | rebuilding (version : Nat)
  | attaching
  | flooring
  | deletingDurable (floor : Nat)
  | recording (floor : Nat) (deleted : Bool)
  | clearing (floor : Nat)
  | creatingDurable (deliverFrom : DeliverFrom)
  | running
  | refused (version : Nat)

structure World where
  file : File
  durable : Option Durable
  /-- A durable was reset, or the file was new. -/
  reset : Bool
  pc : Pc

namespace World

def advance (stream : EventStream) (w : World) : World :=
  match w.pc with
  | .opening =>
    match checkCompatibility w.file.recordedVersion projectionSchemaVersion with
    | .freshInstall => { w with reset := true, pc := .creating schemaStatements }
    | .current => { w with pc := .bringing schemaStatements }
    | .needsUpgrade version => { w with pc := .rebuilding version }
    | .binaryTooOld version => { w with pc := .refused version }
  | .creating (name :: left) => { w with file := w.file.create name, pc := .creating left }
  | .creating [] => { w with file := w.file.writeUserVersion, pc := .noting }
  | .noting => { w with file := w.file.requestConsumerReset freshFileReason, pc := .attaching }
  | .bringing (name :: left) => { w with file := w.file.create name, pc := .bringing left }
  | .bringing [] => { w with file := w.file.evictTransients stream, pc := .attaching }
  | .rebuilding version => { w with file := w.file.rebuildTables stream version, pc := .attaching }
  | .attaching =>
    match w.file.resetPending with
    | some _ => { w with pc := .flooring }
    | none => { w with pc := .creatingDurable w.file.deliverFrom }
  | .flooring => { w with file := w.file.applyReplayFloor stream.floor, pc := .deletingDurable stream.floor }
  | .deletingDurable floor => { w with durable := none, reset := true, pc := .recording floor w.durable.isSome }
  | .recording floor deleted =>
    { w with file := w.file.writeRebuildRecord stream.lastSequence deleted, pc := .clearing floor }
  | .clearing floor => { w with file := w.file.clearNotes, pc := .creatingDurable (.fromFloor floor) }
  -- a durable that exists keeps its position
  | .creatingDurable deliverFrom =>
    { w with durable := some (w.durable.getD ⟨deliverFrom.position, w.reset⟩), pc := .running }
  | .running => w
  | .refused _ => w

inductive Action where
  | advance
  | crash

def step (stream : EventStream) (w : World) : Action → World
  | .advance => w.advance stream
  | .crash => { w with pc := .opening }

/-- The files the first start may find: a new one, one of an older version, a current one that
owes nothing below where its durable resumes, or one whose reset was interrupted, with a record, if
it has one that is due, of this stream's floor. -/
inductive StartingFile (stream : EventStream) (durable : Option Durable) : File → Prop
  | fresh : StartingFile stream durable .fresh
  | older {f : File} {version : Nat} (hversion : f.recordedVersion = some version)
      (hold : version < projectionSchemaVersion) : StartingFile stream durable f
  | current {f : File} (hversion : f.recordedVersion = some projectionSchemaVersion) (hnote : f.resetPending = none)
      (howes : ∀ m, f.Lacks stream m → (durable.elim f.deliverFrom.position Durable.position) ≤ m) :
      StartingFile stream durable f
  | interrupted {f : File} (hversion : f.recordedVersion = some projectionSchemaVersion)
      (hnote : f.resetPending.isSome)
      (hrecord : ∀ r, f.rebuild = some r → r.targetSeq = none ∨ r.floorSeq = some stream.floor) :
      StartingFile stream durable f

structure Starting (stream : EventStream) (w : World) : Prop where
  file : StartingFile stream w.durable w.file
  durable : ∀ d, w.durable = some d → d.afterReset = false
  reset : w.reset = false
  pc : w.pc = .opening

/-- A crash here loses nothing the next start needs. -/
def CrashOk (stream : EventStream) (w : World) : Prop :=
  match w.pc with
  -- the version is stamped and the reset not yet noted
  | .noting =>
    match w.durable with
    | some d => ∀ m, stream.Projects m → d.position ≤ m
    | none => ∀ m, stream.Holds m → stream.floor ≤ m
  -- the notes are cleared, and no record keeps the floor
  | .creatingDurable _ =>
    w.reset = true → w.durable = none → w.file.rebuild = none → ∀ m, stream.Holds m → stream.floor ≤ m
  | _ => True

def StepOk (stream : EventStream) (w : World) : Action → Prop
  | .advance => True
  | .crash => w.CrashOk stream

end World

end FactorQ.Projection
