/-
# `FactorQ.Store.Audit` — the reachability audit

One audit reconciles the refcounts a snapshot shows to be too high, runs a
collection pass, unlinks the files a second snapshot has no row for, and ends
with the oracle.  What it decides, it decides from snapshots and listings; by
the time it acts on an entry the store may have moved on, so each call it makes
is a state of its own.  Only the oracle's last reads, which change nothing, are
taken in one step.
-/
import FactorQ.Store.Collector
import FactorQ.Store.Verify

namespace FactorQ.Store

open Lib

/-- What one audit did. -/
structure AuditReport (Cid : Type) where
  reclaimed : Reclaimed
  orphanBlocks : Nat
  orphanObjects : Nat
  orphanTemps : Nat
  orphanTempBytes : Nat
  reconciled : Nat
  alarms : List (Violation Cid)
deriving DecidableEq

/-- The report of an audit that found nothing to do. -/
def AuditReport.clean {Cid : Type} : AuditReport Cid := ⟨⟨0, 0⟩, 0, 0, 0, 0, 0, []⟩

/-- The locals of an audit in progress. -/
structure AuditLocals (Cid : Type) where
  grace : Nat
  cutoff : Int
  now : Nat
  rowedBlocks : List (Cid × Nat)
  rowedObjects : List Cid
  report : AuditReport Cid
deriving DecidableEq

/-- The points of an audit. -/
inductive Audit (Cid : Type) where
  | readClock (l : AuditLocals Cid)
  | snapshot (l : AuditLocals Cid)
  | reconcileBlock (l : AuditLocals Cid) (key : Cid × Nat) (want : Nat)
      (rest : List ((Cid × Nat) × Nat)) (objects : List (Cid × Nat))
  | reconcileObject (l : AuditLocals Cid) (cid : Cid) (want : Nat) (rest : List (Cid × Nat))
  | collect (l : AuditLocals Cid) (gc : Gc Cid)
  | readNow (l : AuditLocals Cid)
  | snapshotRows (l : AuditLocals Cid)
  | listBlocks (l : AuditLocals Cid)
  | removeBlock (l : AuditLocals Cid) (key : Cid × Nat) (rest : List (Cid × Nat))
  | listObjects (l : AuditLocals Cid)
  | removeObject (l : AuditLocals Cid) (cid : Cid) (rest : List Cid)
  | reapStaging (l : AuditLocals Cid)
  | oracle (l : AuditLocals Cid)
deriving DecidableEq

namespace Audit

variable {Cid : Type}

/-- `ReachabilityAuditor::audit` up to its first call. -/
def start (grace : Nat) : Audit Cid := readClock ⟨grace, 0, 0, [], [], AuditReport.clean⟩

/-- Whether `mtime` is at least `grace` before `now`; a file from the future is
not aged. -/
def aged (now mtime grace : Nat) : Bool := mtime ≤ now && grace ≤ now - mtime

/-- The object loop of the reconcile phase; the collection pass follows. -/
def nextObject (l : AuditLocals Cid) (objects : List (Cid × Nat)) : Audit Cid :=
  match objects with
  | [] => collect l .claimableObjects
  | (cid, want) :: rest => reconcileObject l cid want rest

/-- The block loop of the reconcile phase; the object loop follows. -/
def nextBlock (l : AuditLocals Cid) (blocks : List ((Cid × Nat) × Nat))
    (objects : List (Cid × Nat)) : Audit Cid :=
  match blocks with
  | [] => nextObject l objects
  | (key, want) :: rest => reconcileBlock l key want rest objects

/-- The loop over orphan block files. -/
def nextOrphanBlock (l : AuditLocals Cid) : List (Cid × Nat) → Audit Cid
  | [] => listObjects l
  | key :: rest => removeBlock l key rest

/-- The loop over orphan manifests. -/
def nextOrphanObject (l : AuditLocals Cid) : List Cid → Audit Cid
  | [] => reapStaging l
  | cid :: rest => removeObject l cid rest

/-- One more refcount corrected, if the reconcile fired. -/
def countReconciled (l : AuditLocals Cid) (fired : Bool) : AuditLocals Cid :=
  if fired then { l with report := { l.report with reconciled := l.report.reconciled + 1 } } else l

variable [DecidableEq Cid]

/-- The blocks the snapshot shows above the references of live objects. -/
def driftedBlocks (snap : IndexSnapshot Cid) : List ((Cid × Nat) × Nat) :=
  (snap.blocks.filter fun b => (snap.liveRefs b.1 : Int) < b.2.refcount).map fun b =>
    (b.1, snap.liveRefs b.1)

/-- The objects the snapshot shows above their name count. -/
def driftedObjects (snap : IndexSnapshot Cid) : List (Cid × Nat) :=
  (snap.objects.filter fun o => (snap.nameCount o.1 : Int) < o.2).map fun o => (o.1, snap.nameCount o.1)

/-- One call of the audit, and on to the next. -/
def step (s : State Cid) : Audit Cid → State Cid × (Audit Cid ⊕ AuditReport Cid)
  | readClock l => (s, .inl (snapshot { l with cutoff := (s.clock : Int) - l.grace }))
  | snapshot l =>
    let snap := s.index.snapshot
    (s, .inl (nextBlock l (driftedBlocks snap) (driftedObjects snap)))
  | reconcileBlock l key want rest objects =>
    let (fired, index) := s.index.reconcileBlock key want l.cutoff
    ({ s with index }, .inl (nextBlock (countReconciled l fired) rest objects))
  | reconcileObject l cid want rest =>
    let (fired, index) := s.index.reconcileObject cid want l.cutoff
    ({ s with index }, .inl (nextObject (countReconciled l fired) rest))
  | collect l gc =>
    let (s, next) := gc.step s
    (s, .inl (match next with
      | .inl gc => collect l gc
      | .inr reclaimed => readNow { l with report := { l.report with reclaimed } }))
  | readNow l => (s, .inl (snapshotRows { l with now := s.clock }))
  | snapshotRows l =>
    let snap := s.index.snapshot
    (s, .inl (listBlocks { l with
      rowedBlocks := snap.blocks.map Prod.fst
      rowedObjects := snap.objects.map Prod.fst }))
  | listBlocks l =>
    (s, .inl (nextOrphanBlock l ((s.disk.listStoredBlocks.filter fun f =>
      decide (f.1 ∉ l.rowedBlocks) && aged l.now f.2 l.grace).map Prod.fst)))
  | removeBlock l key rest =>
    ({ s with disk := s.disk.removeBlock key }, .inl (nextOrphanBlock
      { l with report := { l.report with orphanBlocks := l.report.orphanBlocks + 1 } } rest))
  | listObjects l =>
    (s, .inl (nextOrphanObject l ((s.disk.listStoredObjects.filter fun f =>
      decide (f.1 ∉ l.rowedObjects) && aged l.now f.2 l.grace).map Prod.fst)))
  | removeObject l cid rest =>
    ({ s with disk := s.disk.remove cid }, .inl (nextOrphanObject
      { l with report := { l.report with orphanObjects := l.report.orphanObjects + 1 } } rest))
  | reapStaging l =>
    let ((temps, bytes), disk) := s.disk.reapStagingFiles ((l.now : Int) - l.grace)
    ({ s with disk }, .inl (oracle
      { l with report := { l.report with orphanTemps := temps, orphanTempBytes := bytes } }))
  | oracle l => (s, .inr { l.report with alarms := Verify.checkInFlight s.index.snapshot s.disk })

end Audit

end FactorQ.Store
