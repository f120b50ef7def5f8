/-
# `FactorQ.Store.Content` — the content-addressed layer

`fq-store` keeps two kinds of file.  A block file holds the bytes of one
content-defined block under `(hash, generation)`; a manifest holds, for one
object, its size and the ordered blocks it is made of.  Everything above this
layer — the index, the writers, the collector, the audit — speaks about these
files only through the handful of calls defined here, each of them one atomic
step: an existence test, a write by temp file and rename, an unlink.

Two things come from outside the repository and are parameters, collected in
`Hasher`: the BLAKE3 hash that names content, and the FastCDC cut points.  The
store relies on two facts about them and on nothing else: distinct content has
distinct identifiers, and the cut points tile the content.

A `Cid` is 32 bytes in the source, where collisions exist and are merely out of
reach.  The identifiers are an abstract ordered type here so that "hashes do
not collide" is a satisfiable assumption and not a contradiction.
-/
import FactorQ.Lib.Table

namespace FactorQ.Store

open Lib

abbrev Bytes := List UInt8

/-- A dotted name such as `research.papers.doc1`. -/
abbrev Name := String

/-- The bytes of the span `[offset, offset + len)`. -/
def slice (content : Bytes) (offset len : Nat) : Bytes :=
  (content.drop offset).take len

/-- The spans run from `start` to `stop` without gap or overlap. -/
def Tiles : Nat → List (Nat × Nat) → Nat → Prop
  | start, [], stop => start = stop
  | start, (offset, len) :: rest, stop => offset = start ∧ Tiles (start + len) rest stop

/-- What the store takes from outside: the content hash with its hex form, and
the content-defined cut points. -/
structure Hasher (Cid : Type) where
  of : Bytes → Cid
  of_injective : Function.Injective of
  toHex : Cid → String
  cut : Bytes → List (Nat × Nat)
  cut_tiles : ∀ content, content ≠ [] → Tiles 0 (cut content) content.length

/-- A content-defined block within an object: its id and its byte span. -/
structure Chunk (Cid : Type) where
  hash : Cid
  offset : Nat
  len : Nat
deriving DecidableEq

/-- One block of a manifest, with the generation the object references. -/
structure BlockRef (Cid : Type) where
  hash : Cid
  len : Nat
  generation : Nat
deriving DecidableEq

/-- The block file a manifest entry reads. -/
def BlockRef.key {Cid : Type} (b : BlockRef Cid) : Cid × Nat := (b.hash, b.generation)

structure Manifest (Cid : Type) where
  size : Nat
  blocks : List (BlockRef Cid)
deriving DecidableEq

inductive StoreError (Cid : Type) where
  | notFound (cid : Cid)
  | io
  | corrupt (message : String)
  | index
  | conflict (message : String)
  | nameNotFound (name : Name)
deriving DecidableEq

variable {Cid : Type}

/-! ## Chunking -/

/-- Split content into its blocks; empty content has none. -/
def Hasher.chunk (H : Hasher Cid) (content : Bytes) : List (Chunk Cid) :=
  if content = [] then []
  else (H.cut content).map fun (offset, len) =>
    { hash := H.of (slice content offset len), offset, len }

/-- The bytes a chunk spans. -/
def Chunk.bytes (c : Chunk Cid) (content : Bytes) : Bytes :=
  slice content c.offset c.len

/-- Tiling spans put back together are the content they tile. -/
theorem tiles_flatten (content : Bytes) :
    ∀ (start : Nat) (spans : List (Nat × Nat)), Tiles start spans content.length →
      (spans.map fun s => slice content s.1 s.2).flatten = content.drop start
  | start, [], h => by
    simp only [Tiles] at h
    simp [h]
  | start, (o, l) :: rest, h => by
    obtain ⟨rfl, h⟩ := h
    rw [List.map_cons, List.flatten_cons, tiles_flatten content (o + l) rest h]
    simp only [slice]
    rw [← List.drop_drop, List.take_append_drop]

/-- The blocks of an object, in order, are its content. -/
theorem Hasher.chunk_bytes (H : Hasher Cid) (content : Bytes) :
    ((H.chunk content).map fun c => c.bytes content).flatten = content := by
  unfold Hasher.chunk
  split
  · next h => simp [h]
  · next h =>
    rw [List.map_map]
    exact tiles_flatten content 0 _ (H.cut_tiles content h)

/-! ## An instance

The two assumptions are met together by reading the bytes as a numeral with
digits `1..256` and leaving every content in one piece. -/

/-- The numeral of the bytes. -/
def numeral : Bytes → ℕ
  | [] => 0
  | b :: bs => numeral bs * 256 + b.toNat + 1

theorem numeral_injective : Function.Injective numeral := by
  intro xs
  induction xs with
  | nil =>
    intro ys h
    cases ys with
    | nil => rfl
    | cons c cs =>
      simp only [numeral] at h
      omega
  | cons b bs ih =>
    intro ys h
    cases ys with
    | nil =>
      simp only [numeral] at h
      omega
    | cons c cs =>
      simp only [numeral] at h
      have hb := b.toNat_lt
      have hc := c.toNat_lt
      have hbc : b = c := UInt8.toNat_inj.mp (by omega)
      have hrest : numeral bs = numeral cs := by omega
      rw [hbc, ih hrest]

/-- Numerals as identifiers, one block per content. -/
def Hasher.numerals : Hasher ℕ where
  of := numeral
  of_injective := numeral_injective
  toHex n := String.ofList (Nat.toDigits 16 n)
  cut content := [(0, content.length)]
  cut_tiles content _ := ⟨rfl, by simp [Tiles]⟩

/-! ## The files -/

/-- The files under the store's root.  `staging` holds the `.tmp.*` files a
write leaves behind when it dies before its rename, as `(mtime, length)`. -/
structure Disk (Cid : Type) where
  blockFiles : Table (Cid × Nat) (Bytes × Nat)
  manifests : Table Cid (Manifest Cid × Nat)
  staging : List (Nat × Nat)

namespace Disk

def empty : Disk Cid := ⟨Table.empty, Table.empty, []⟩

variable [DecidableEq Cid]

/-- Whether the manifest of `cid` is present. -/
def has (d : Disk Cid) (cid : Cid) : Bool := (d.manifests.get? cid).isSome

/-- Whether the file of `(hash, generation)` is present. -/
def hasBlock (d : Disk Cid) (key : Cid × Nat) : Bool := (d.blockFiles.get? key).isSome

/-- The manifest of `cid`, or `NotFound`. -/
def readManifest (d : Disk Cid) (cid : Cid) : Except (StoreError Cid) (Manifest Cid) :=
  match d.manifests.get? cid with
  | some (manifest, _) => .ok manifest
  | none => .error (.notFound cid)

/-- The object's block ids in order, repeats included. -/
def blocks (d : Disk Cid) (cid : Cid) : Except (StoreError Cid) (List Cid) := do
  let manifest ← d.readManifest cid
  return manifest.blocks.map (·.hash)

/-- An extant file is left as it is: content-addressed, so it already holds
these bytes. -/
def writeBlock (d : Disk Cid) (key : Cid × Nat) (bytes : Bytes) (now : Nat) : Disk Cid :=
  { d with blockFiles := d.blockFiles.insertNew key (bytes, now) }

/-- The manifest is written unconditionally, replacing an extant one. -/
def writeObject (d : Disk Cid) (cid : Cid) (manifest : Manifest Cid) (now : Nat) : Disk Cid :=
  { d with manifests := d.manifests.set cid (manifest, now) }

def remove (d : Disk Cid) (cid : Cid) : Disk Cid :=
  { d with manifests := d.manifests.erase cid }

def removeBlock (d : Disk Cid) (key : Cid × Nat) : Disk Cid :=
  { d with blockFiles := d.blockFiles.erase key }

/-- One block of an object, read from its file. -/
def readBlock (H : Hasher Cid) (d : Disk Cid) (cid : Cid) (block : BlockRef Cid) :
    Except (StoreError Cid) Bytes :=
  match d.blockFiles.get? block.key with
  | some (bytes, _) => .ok bytes
  | none => .error (.corrupt s!"object {H.toHex cid}: missing block {H.toHex block.hash}")

/-- The full content of `cid`. -/
def get (H : Hasher Cid) (d : Disk Cid) (cid : Cid) : Except (StoreError Cid) Bytes := do
  let manifest ← d.readManifest cid
  let parts ← manifest.blocks.mapM (readBlock H d cid)
  return parts.flatten

omit [DecidableEq Cid] in
/-- Every block file, as `(hash, generation, mtime)`. -/
def listStoredBlocks (d : Disk Cid) : List ((Cid × Nat) × Nat) :=
  d.blockFiles.rows.map fun r => (r.1, r.2.2)

omit [DecidableEq Cid] in
/-- Every manifest, as `(cid, mtime)`. -/
def listStoredObjects (d : Disk Cid) : List (Cid × Nat) :=
  d.manifests.rows.map fun r => (r.1, r.2.2)

omit [DecidableEq Cid] in
/-- Staging files last modified at or before `cutoff` are unlinked; the count
and the bytes they held are returned. -/
def reapStagingFiles (d : Disk Cid) (cutoff : Int) : (Nat × Nat) × Disk Cid :=
  let aged := d.staging.filter fun f => (f.1 : Int) ≤ cutoff
  ((aged.length, (aged.map Prod.snd).sum),
    { d with staging := d.staging.filter fun f => !decide ((f.1 : Int) ≤ cutoff) })

/-! ## What a file operation leaves behind -/

theorem hasBlock_writeBlock (d : Disk Cid) (key k : Cid × Nat) (bytes : Bytes) (now : Nat) :
    (d.writeBlock key bytes now).hasBlock k = (d.hasBlock k || decide (k = key)) := by
  simp only [hasBlock, writeBlock, Table.get?_insertNew]
  by_cases h : k = key <;> simp [h]

theorem hasBlock_removeBlock (d : Disk Cid) (key k : Cid × Nat) :
    (d.removeBlock key).hasBlock k = (d.hasBlock k && !decide (k = key)) := by
  simp only [hasBlock, removeBlock, Table.get?_erase]
  by_cases h : k = key <;> simp [h]

theorem get?_manifests_writeObject (d : Disk Cid) (cid c : Cid) (m : Manifest Cid) (now : Nat) :
    (d.writeObject cid m now).manifests.get? c
      = if c = cid then some (m, now) else d.manifests.get? c :=
  Table.get?_set _ _ _ _

theorem get?_manifests_remove (d : Disk Cid) (cid c : Cid) :
    (d.remove cid).manifests.get? c = if c = cid then none else d.manifests.get? c :=
  Table.get?_erase _ _ _

end Disk

end FactorQ.Store
