/-
# `FactorQ.Store.Verify` — the invariant oracle

The runnable checks the audit ends with.  The source collects rows into hash
maps whose iteration order is unspecified; here they are lists in row order, so
the violations come in one of the orders the source may report them in.
-/
import FactorQ.Store.Index

namespace FactorQ.Store

open Lib

/-- A violated invariant. -/
inductive Violation (Cid : Type) where
  | lostLiveBlock (name : Name) (object : Cid)
  | objectRefcountDrift (object : Cid) (stored : Int) (nameRefs : Nat)
  | blockRefcountTooLow (block : Cid) (stored : Int) (liveRefs : Nat)
  | liveBlockReclaimable (object block : Cid) (refcount : Int)
  | negativeRefcount (kind : String) (cid : Cid) (refcount : Int)
  | multipleAvailableGenerations (hash : Cid) (available : Nat)
  | claimedBlockHasRefs (hash : Cid) (generation : Nat) (refcount : Int)
deriving DecidableEq

/-- At rest an object's refcount equals its name count; with calls in flight it
need only dominate it. -/
inductive CheckMode where
  | atRest
  | inFlight
deriving DecidableEq

variable {Cid : Type} [DecidableEq Cid]

namespace IndexSnapshot

def objectRc (snap : IndexSnapshot Cid) (cid : Cid) : Int := (snap.objects.lookup cid).getD 0

def nameCount (snap : IndexSnapshot Cid) (cid : Cid) : Nat := (snap.nameRefs.lookup cid).getD 0

def blockRc (snap : IndexSnapshot Cid) (key : Cid × Nat) : Int :=
  ((snap.blocks.find? fun b => b.1 = key).map fun b => b.2.refcount).getD 0

/-- The edges of objects with a positive refcount. -/
def liveEdges (snap : IndexSnapshot Cid) : List (Cid × (Cid × Nat)) :=
  snap.objectBlocks.filter fun e => snap.objectRc e.1 > 0

/-- How many live objects reference the generation: `derived_refcounts`, and the
oracle's own count of live references. -/
def liveRefs (snap : IndexSnapshot Cid) (key : Cid × Nat) : Nat :=
  occ (snap.liveEdges.map Prod.snd) key

end IndexSnapshot

namespace Verify

variable (snap : IndexSnapshot Cid)

omit [DecidableEq Cid] in
def negativeRefcounts : List (Violation Cid) :=
  (snap.objects.filter fun o => o.2 < 0).map (fun o => .negativeRefcount "object" o.1 o.2) ++
  (snap.blocks.filter fun b => b.2.refcount < 0).map
    fun b => .negativeRefcount "block" b.1.1 b.2.refcount

def objectDrift (mode : CheckMode) : List (Violation Cid) :=
  (snap.objects.filter fun o =>
    match mode with
    | .atRest => o.2 ≠ snap.nameCount o.1
    | .inFlight => o.2 < snap.nameCount o.1).map
      fun o => .objectRefcountDrift o.1 o.2 (snap.nameCount o.1)

def countsTooLow : List (Violation Cid) :=
  ((snap.liveEdges.map Prod.snd).dedup.filter fun k => snap.blockRc k < snap.liveRefs k).map
    fun k => .blockRefcountTooLow k.1 (snap.blockRc k) (snap.liveRefs k)

def reclaimableLive : List (Violation Cid) :=
  (snap.liveEdges.filter fun e => snap.blockRc e.2 < 1).map
    fun e => .liveBlockReclaimable e.1 e.2.1 (snap.blockRc e.2)

def manyAvailable : List (Violation Cid) :=
  let hashes := (snap.blocks.filter fun b => b.2.available).map fun b => b.1.1
  (hashes.dedup.filter fun h => occ hashes h > 1).map
    fun h => .multipleAvailableGenerations h (occ hashes h)

omit [DecidableEq Cid] in
def claimedWithRefs : List (Violation Cid) :=
  (snap.blocks.filter fun b => !b.2.available && b.2.refcount ≠ 0).map
    fun b => .claimedBlockHasRefs b.1.1 b.1.2 b.2.refcount

/-- The manifest of the object or the file of one of its edges is gone. -/
def lost (disk : Disk Cid) (cid : Cid) : Bool :=
  !disk.has cid || snap.objectBlocks.any fun e => decide (e.1 = cid) && !disk.hasBlock e.2

def lostLiveBlocks (disk : Disk Cid) : List (Violation Cid) :=
  (snap.currentNames.filter fun n => lost snap disk n.2).map fun n => .lostLiveBlock n.1 n.2

/-- Every violation in the snapshot and the files. -/
def checkWithMode (disk : Disk Cid) (mode : CheckMode) : List (Violation Cid) :=
  negativeRefcounts snap ++ objectDrift snap mode ++ countsTooLow snap ++ reclaimableLive snap ++
    manyAvailable snap ++ claimedWithRefs snap ++ lostLiveBlocks snap disk

def checkInFlight (disk : Disk Cid) : List (Violation Cid) := checkWithMode snap disk .inFlight

end Verify

end FactorQ.Store
