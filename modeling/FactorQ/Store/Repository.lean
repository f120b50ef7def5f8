/-
# `FactorQ.Store.Repository` — the writers: put, alias bind, unbind

`Repository` composes the content store with the index.  Its calls are not
transactions: other processes act between any two index or content calls they
make.  A call in progress is therefore a machine.  Each state of the machine
stands right before one index or content call and carries the locals the source
has at that point; `step` makes that call and runs on to the next one, `fail`
is the same point when the call returns an error instead.

A failure before the object is reserved propagates by `?` and leaves whatever
was reserved behind.  Past the object's reserve every failure goes through the
cleanup, which releases the object, then the blocks, and ignores errors of its
own.
-/
import Mathlib.Data.List.Destutter
import FactorQ.Store.Index

namespace FactorQ.Store

open Lib

/-- The files, the index, and the wall clock stamps are taken from. -/
structure State (Cid : Type) where
  index : Index Cid
  disk : Disk Cid
  clock : Nat

def State.init {Cid : Type} : State Cid := ⟨Index.empty, Disk.empty, 0⟩

/-- The points of the `reserve_or_materialize` loop. -/
inductive Materialize where
  | reserve
  | nextGeneration
  | writeBlock (generation : Nat)
  | mint (generation : Nat)
deriving DecidableEq

/-- The points of a writer's call. -/
inductive Writer (Cid : Type) where
  | putBlock (name : Name) (content : Bytes) (chunk : Chunk Cid) (rest : List (Chunk Cid))
      (reserved : List (Cid × Nat)) (point : Materialize)
  | putReserveObject (name : Name) (content : Bytes) (reserved : List (Cid × Nat)) (attempt : Nat)
  | putWriteObject (name : Name) (content : Bytes) (reserved : List (Cid × Nat)) (prevRc : Int)
  | putBind (name : Name) (content : Bytes) (reserved : List (Cid × Nat)) (prevRc : Int)
  | aliasRead (name : Name) (cid : Cid)
  | aliasReserve (name : Name) (cid hash : Cid) (rest : List Cid) (reserved : List (Cid × Nat))
  | aliasReserveObject (name : Name) (cid : Cid) (reserved : List (Cid × Nat))
  | aliasHas (name : Name) (cid : Cid) (reserved : List (Cid × Nat)) (prevRc : Int)
  | aliasBind (name : Name) (cid : Cid) (reserved : List (Cid × Nat)) (prevRc : Int)
  | releaseObject (cid : Cid) (prevRc : Int) (reserved : List (Cid × Nat)) (error : StoreError Cid)
  | releaseBlock (key : Cid × Nat) (rest : List (Cid × Nat)) (error : StoreError Cid)
  | unbind (name : Name)
deriving DecidableEq

/-- What a finished call returned: `put` its CID, the others nothing. -/
abbrev Returned (Cid : Type) := Except (StoreError Cid) (Option Cid)

variable {Cid : Type}

namespace Materialize

variable [DecidableEq Cid]

/-- One call of the loop; a generation ends it. -/
def step (s : State Cid) (hash : Cid) (bytes : Bytes) :
    Materialize → State Cid × (Materialize ⊕ Nat)
  | reserve =>
    let (found, index) := s.index.reserveBlock hash s.clock
    ({ s with index }, match found with
      | some generation => .inr generation
      | none => .inl nextGeneration)
  | nextGeneration => (s, .inl (writeBlock (s.index.nextGeneration hash)))
  | writeBlock generation =>
    ({ s with disk := s.disk.writeBlock (hash, generation) bytes s.clock }, .inl (mint generation))
  | mint generation =>
    let (minted, index) := s.index.mintBlock (hash, generation) s.clock
    ({ s with index }, if minted then .inr generation else .inl reserve)

end Materialize

namespace Writer

/-- `MAX_RESERVE_ATTEMPTS`. -/
def maxReserveAttempts : Nat := 128

/-- `release_reservations`, then return the error. -/
def releasing (reserved : List (Cid × Nat)) (error : StoreError Cid) :
    Writer Cid ⊕ Returned Cid :=
  match reserved with
  | [] => .inr (.error error)
  | key :: rest => .inl (releaseBlock key rest error)

/-- The alias loop over the object's distinct blocks. -/
def aliasNext (name : Name) (cid : Cid) (hashes : List Cid) (reserved : List (Cid × Nat)) :
    Writer Cid :=
  match hashes with
  | [] => aliasReserveObject name cid reserved
  | hash :: rest => aliasReserve name cid hash rest reserved

section Put

variable [DecidableEq Cid]

/-- The put loop over the chunks; a block reserved before is skipped. -/
def putNext (name : Name) (content : Bytes) (chunks : List (Chunk Cid))
    (reserved : List (Cid × Nat)) : Writer Cid :=
  match chunks.dropWhile fun c => c.hash ∈ reserved.map Prod.fst with
  | [] => putReserveObject name content reserved 0
  | chunk :: rest => putBlock name content chunk rest reserved .reserve

/-- `Repository::put` up to its first call. -/
def put (H : Hasher Cid) (name : Name) (content : Bytes) : Writer Cid :=
  putNext name content (H.chunk content) []

/-- The manifest of a put: every chunk at the generation it landed on. -/
def putManifest (H : Hasher Cid) (content : Bytes) (reserved : List (Cid × Nat)) :
    Manifest Cid where
  size := content.length
  blocks := (H.chunk content).map fun c =>
    { hash := c.hash, len := c.len, generation := (reserved.lookup c.hash).getD 0 }

end Put

variable [LinearOrder Cid]

/-- `sort_by_key` followed by `dedup`: the distinct blocks in byte order. -/
def sortDedup (hashes : List Cid) : List Cid :=
  (hashes.insertionSort (· ≤ ·)).destutter (· ≠ ·)

/-- One index or content call of a writer, and on to the next. -/
def step (H : Hasher Cid) (s : State Cid) : Writer Cid → State Cid × (Writer Cid ⊕ Returned Cid)
  | putBlock name content chunk rest reserved point =>
    let (s, next) := point.step s chunk.hash (chunk.bytes content)
    (s, .inl (match next with
      | .inl point => putBlock name content chunk rest reserved point
      | .inr generation => putNext name content rest (reserved ++ [(chunk.hash, generation)])))
  | putReserveObject name content reserved attempt =>
    let (found, index) := s.index.reserveObject (H.of content) true s.clock
    ({ s with index }, match found with
      | some prevRc => .inl (putWriteObject name content reserved prevRc)
      | none =>
        if attempt + 1 ≥ maxReserveAttempts then
          releasing reserved (.conflict
            s!"cannot put {name}: object {H.toHex (H.of content)} is being collected")
        else .inl (putReserveObject name content reserved (attempt + 1)))
  | putWriteObject name content reserved prevRc =>
    ({ s with disk := s.disk.writeObject (H.of content) (putManifest H content reserved) s.clock },
      .inl (putBind name content reserved prevRc))
  | putBind name content reserved prevRc =>
    ({ s with index := s.index.bind name (H.of content) reserved prevRc },
      .inr (.ok (some (H.of content))))
  | aliasRead name cid =>
    (s, match s.disk.blocks cid with
      | .ok hashes => .inl (aliasNext name cid (sortDedup hashes) [])
      | .error e => .inr (.error e))
  | aliasReserve name cid hash rest reserved =>
    let (found, index) := s.index.reserveBlock hash s.clock
    ({ s with index }, match found with
      | some generation => .inl (aliasNext name cid rest (reserved ++ [(hash, generation)]))
      | none => .inr (.error (.conflict (s!"cannot alias block {H.toHex hash}: " ++
          "no available generation (collected concurrently)"))))
  | aliasReserveObject name cid reserved =>
    let (found, index) := s.index.reserveObject cid false s.clock
    ({ s with index }, match found with
      | some prevRc => .inl (aliasHas name cid reserved prevRc)
      | none => releasing reserved (.conflict (s!"cannot alias {H.toHex cid}: " ++
          "object is gone or being collected; retry or re-put")))
  | aliasHas name cid reserved prevRc =>
    (s, if s.disk.has cid then .inl (aliasBind name cid reserved prevRc)
      else .inl (releaseObject cid prevRc reserved (.conflict
        (s!"cannot alias {H.toHex cid}: " ++
          "manifest was replaced concurrently; retry or re-put"))))
  | aliasBind name cid reserved prevRc =>
    ({ s with index := s.index.bind name cid reserved prevRc }, .inr (.ok none))
  | releaseObject cid _ reserved error =>
    ({ s with index := s.index.releaseObject cid }, releasing reserved error)
  | releaseBlock key rest error =>
    ({ s with index := s.index.releaseBlock key }, releasing rest error)
  | unbind name =>
    match s.index.unbind name with
    | some index => ({ s with index }, .inr (.ok none))
    | none => (s, .inr (.error .index))

/-- The call returns the error `e` and has no effect. -/
def fail (H : Hasher Cid) (e : StoreError Cid) : Writer Cid → Writer Cid ⊕ Returned Cid
  | putBlock .. | putReserveObject .. => .inr (.error e)
  | putWriteObject _ content reserved prevRc | putBind _ content reserved prevRc =>
    .inl (releaseObject (H.of content) prevRc reserved e)
  | aliasRead .. | aliasReserve .. | aliasReserveObject .. => .inr (.error e)
  | aliasHas _ cid reserved prevRc | aliasBind _ cid reserved prevRc =>
    .inl (releaseObject cid prevRc reserved e)
  -- errors of the cleanup itself are ignored; the first error is returned
  | releaseObject _ _ reserved error => releasing reserved error
  | releaseBlock _ rest error => releasing rest error
  | unbind _ => .inr (.error e)

end Writer

end FactorQ.Store
