/-
# `FactorQ.Store.Index` — the name index and its two-level reference counts

The index is one SQLite database behind one connection, so each call is one
transaction.  It holds four tables:

    name_versions   (name, seq) ↦ cid             every version a name has had
    objects         cid ↦ refcount, available     counted by name-versions
    object_blocks   (object, block) ↦ generation  the edges of live objects
    blocks          (hash, generation) ↦ refcount, available

A call is a function on the whole index.  The counting calls of the two levels
are the same statements on two tables; they come from `Lib.RefTable` and keep
their own names here.
-/
import FactorQ.Lib.RefTable
import FactorQ.Store.Content

namespace FactorQ.Store

open Lib

/-- The four tables. -/
structure Index (Cid : Type) where
  nameVersions : Table (Name × Nat) Cid
  objects : RefTable Cid
  objectBlocks : Table (Cid × Cid) Nat
  blocks : RefTable (Cid × Nat)

/-- The reference-counting state at one moment, as the oracle and the audit
read it. -/
structure IndexSnapshot (Cid : Type) where
  objects : List (Cid × Int)
  blocks : List ((Cid × Nat) × RefRow)
  objectBlocks : List (Cid × (Cid × Nat))
  nameRefs : List (Cid × Nat)
  currentNames : List (Name × Cid)

variable {Cid : Type}

namespace Index

def empty : Index Cid := ⟨Table.empty, Table.empty, Table.empty, Table.empty⟩

/-! ## Names -/

/-- The versions of `name` as `(seq, cid)`. -/
def versions (ix : Index Cid) (name : Name) : List (Nat × Cid) :=
  (ix.nameVersions.rows.filter fun r => r.1.1 = name).map fun r => (r.1.2, r.2)

/-- The bound CIDs of `name`, newest first. -/
def history (ix : Index Cid) (name : Name) : List Cid :=
  ((ix.versions name).insertionSort fun a b => b.1 ≤ a.1).map Prod.snd

/-- The current CID of `name`. -/
def resolve (ix : Index Cid) (name : Name) : Option Cid := (ix.history name).head?

/-- `COALESCE(MAX(seq) + 1, 0)` over the versions of `name`. -/
def nextSeq (ix : Index Cid) (name : Name) : Nat :=
  ((ix.versions name).map fun v => v.1 + 1).foldr max 0

variable [DecidableEq Cid]

/-- How many name-version rows reference `cid`. -/
def nameRefs (ix : Index Cid) (cid : Cid) : Nat :=
  ix.nameVersions.count fun _ c => c = cid

/-- How many edges pin the block generation `key`. -/
def edgeRefs (ix : Index Cid) (key : Cid × Nat) : Nat :=
  ix.objectBlocks.count fun e g => (e.2, g) = key

/-- The block generations the edges of `cid` pin. -/
def edgesOf (ix : Index Cid) (cid : Cid) : List (Cid × Nat) :=
  (ix.objectBlocks.rows.filter fun e => e.1.1 = cid).map fun e => (e.1.2, e.2)

/-- Record the edges of `cid`; an edge to the same block already there stays. -/
def addEdges (edges : Table (Cid × Cid) Nat) (cid : Cid) (reserved : List (Cid × Nat)) :
    Table (Cid × Cid) Nat :=
  reserved.foldl (fun t b => t.insertNew (cid, b.1) b.2) edges

/-- Make `cid` the current version of `name`.  The caller holds a reservation on
the object, made when its refcount was `prevRc`, and one on each of `reserved`. -/
def bind (ix : Index Cid) (name : Name) (cid : Cid) (reserved : List (Cid × Nat))
    (prevRc : Int) : Index Cid :=
  if ix.resolve name = some cid then
    -- re-binding the current version: both reservations are redundant
    { ix with
      objects := ix.objects.release cid
      blocks := ix.blocks.releaseAll reserved }
  else
    let nameVersions := ix.nameVersions.insertNew (name, ix.nextSeq name) cid
    if prevRc = 0 then
      -- the object goes live: the block reservations become its edges
      { ix with
        nameVersions
        objectBlocks := addEdges ix.objectBlocks cid reserved }
    else
      -- an alias: the object's blocks are held already
      { ix with
        nameVersions
        blocks := ix.blocks.releaseAll reserved }

/-- A dead object gives back the blocks its edges pin and loses the edges. -/
def dropEdges (ix : Index Cid) (cid : Cid) : Index Cid :=
  { ix with
    blocks := ix.blocks.releaseAll (ix.edgesOf cid)
    objectBlocks := ix.objectBlocks.delete fun e _ => e.1 = cid }

/-- Take `m` references off `cid`; `none` if the object has no row. -/
def unbindRef (ix : Index Cid) (ref : Cid × Nat) : Option (Index Cid) :=
  match ix.objects.get? ref.1 with
  | none => none
  | some row =>
    let ix := { ix with objects := ix.objects.modify ref.1 (RefRow.drop ref.2) }
    if row.refcount - ref.2 = 0 then some (ix.dropEdges ref.1) else some ix

/-- The references of `name` per object, with multiplicity. -/
def refsOf (ix : Index Cid) (name : Name) : List (Cid × Nat) :=
  let cids := (ix.versions name).map Prod.snd
  cids.dedup.map fun c => (c, cids.count c)

/-- Remove `name` with its history; `none` is the database error of a version
whose object has no row. -/
def unbind (ix : Index Cid) (name : Name) : Option (Index Cid) :=
  (ix.refsOf name).foldlM unbindRef
    { ix with nameVersions := ix.nameVersions.delete fun k _ => k.1 = name }

/-! ## Blocks -/

/-- Reserve the available generation of `hash`, if there is one. -/
def reserveBlock (ix : Index Cid) (hash : Cid) (now : Nat) : Option Nat × Index Cid :=
  let hit := fun (k : Cid × Nat) (r : RefRow) => decide (k.1 = hash) && r.available
  ((ix.blocks.rows.find? fun r => hit r.1 r.2).map fun r => r.1.2,
    { ix with blocks := ix.blocks.update hit (RefRow.reserve now) })

/-- Whether some generation of `hash` is available. -/
def hasAvailable (ix : Index Cid) (hash : Cid) : Bool :=
  ix.blocks.rows.any fun r => decide (r.1.1 = hash) && r.2.available

/-- Insert a fresh generation unless one is available or the generation is
taken; the flag says whether it was inserted. -/
def mintBlock (ix : Index Cid) (key : Cid × Nat) (now : Nat) : Bool × Index Cid :=
  if ix.hasAvailable key.1 ∨ (ix.blocks.get? key).isSome then (false, ix)
  else (true, { ix with blocks := ix.blocks.insertNew key (RefRow.fresh now) })

/-- The generations of `hash` that have a row. -/
def generations (ix : Index Cid) (hash : Cid) : List Nat :=
  (ix.blocks.rows.filter fun r => r.1.1 = hash).map fun r => r.1.2

/-- The smallest generation of `hash` without a row. -/
def nextGeneration (ix : Index Cid) (hash : Cid) : Nat :=
  let used := ix.generations hash
  ((List.range (used.length + 1)).find? fun g => g ∉ used).getD 0

/-- A generation is cast to a `u32`, which is exact while a block has fewer than 2^32 rows. -/
theorem nextGeneration_le (ix : Index Cid) (hash : Cid) : ix.nextGeneration hash ≤ (ix.generations hash).length := by
  unfold nextGeneration
  dsimp only
  cases h : (List.range ((ix.generations hash).length + 1)).find? fun g => g ∉ ix.generations hash with
  | none => exact Nat.zero_le _
  | some g => exact Nat.le_of_lt_succ (List.mem_range.mp (List.mem_of_find?_eq_some h))

def claimBlock (ix : Index Cid) (key : Cid × Nat) : Bool × Index Cid :=
  let (claimed, blocks) := ix.blocks.claim key
  (claimed, { ix with blocks })

def releaseBlock (ix : Index Cid) (key : Cid × Nat) : Index Cid :=
  { ix with blocks := ix.blocks.release key }

def reconcileBlock (ix : Index Cid) (key : Cid × Nat) (target before : Int) :
    Bool × Index Cid :=
  let (fired, blocks) := ix.blocks.reconcile key target before
  (fired, { ix with blocks })

omit [DecidableEq Cid] in
def claimableBlocks (ix : Index Cid) : List ((Cid × Nat) × Bool) := RefTable.claimable ix.blocks

def deleteBlock (ix : Index Cid) (key : Cid × Nat) : Index Cid :=
  { ix with blocks := ix.blocks.deleteClaimed key }

/-! ## Objects -/

/-- Reserve `cid` and return its refcount before; `none` if it is claimed, or
absent and not to be created. -/
def reserveObject (ix : Index Cid) (cid : Cid) (createIfAbsent : Bool) (now : Nat) :
    Option Int × Index Cid :=
  match ix.objects.get? cid with
  | some row =>
    if row.available then
      (some row.refcount, { ix with objects := ix.objects.modify cid (RefRow.reserve now) })
    else (none, ix)
  | none =>
    if createIfAbsent then
      (some 0, { ix with objects := ix.objects.insertNew cid (RefRow.fresh now) })
    else (none, ix)

def releaseObject (ix : Index Cid) (cid : Cid) : Index Cid :=
  { ix with objects := ix.objects.release cid }

def reconcileObject (ix : Index Cid) (cid : Cid) (target before : Int) : Bool × Index Cid :=
  let (fired, objects) := ix.objects.reconcile cid target before
  (fired, { ix with objects })

def claimObject (ix : Index Cid) (cid : Cid) : Bool × Index Cid :=
  let (claimed, objects) := ix.objects.claim cid
  (claimed, { ix with objects })

omit [DecidableEq Cid] in
def claimableObjects (ix : Index Cid) : List (Cid × Bool) := RefTable.claimable ix.objects

/-- Delete a claimed, dead object with its edges. -/
def deleteObject (ix : Index Cid) (cid : Cid) : Index Cid :=
  if ix.objects.deletable cid then
    { ix with
      objectBlocks := ix.objectBlocks.delete fun e _ => e.1 = cid
      objects := ix.objects.erase cid }
  else ix

/-! ## Reading everything -/

def snapshot (ix : Index Cid) : IndexSnapshot Cid where
  objects := ix.objects.rows.map fun r => (r.1, r.2.refcount)
  blocks := ix.blocks.rows
  objectBlocks := ix.objectBlocks.rows.map fun e => (e.1.1, (e.1.2, e.2))
  nameRefs :=
    let cids := ix.nameVersions.rows.map Prod.snd
    cids.dedup.map fun c => (c, cids.count c)
  currentNames :=
    (ix.nameVersions.rows.filter fun r => r.1.2 + 1 = ix.nextSeq r.1.1).map fun r => (r.1.1, r.2)

end Index

end FactorQ.Store
