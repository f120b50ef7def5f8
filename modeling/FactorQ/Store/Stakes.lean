/-
# `FactorQ.Store.Stakes` — what a process in progress relies on

The invariants of the store are about counts, and a call in progress enters
them through what it holds: reservations on an object and on blocks, a file it
is about to mint a row for, a manifest it wrote or saw, an entry the collector
has claimed.  `Proc.stakes` reads these off a process's state; everything else
about the process is irrelevant to the rest of the world.
-/
import FactorQ.Store.World

namespace FactorQ.Store

open Lib

/-- What a process can have a stake in. -/
inductive Stake (Cid : Type) where
  /-- a reservation on the object -/
  | object (cid : Cid)
  /-- a reservation on the object made when nobody else referenced it -/
  | first (cid : Cid)
  /-- the manifest was there, and the object has been reserved since before -/
  | present (cid : Cid)
  /-- the process wrote the manifest itself -/
  | written (cid : Cid)
  /-- a reservation on the block generation -/
  | block (key : Cid × Nat)
  /-- a row is about to be minted for the file -/
  | mint (key : Cid × Nat)
  /-- the object is claimed, and about to be unlinked and deleted -/
  | reapObject (cid : Cid)
  /-- the block generation is claimed, and about to be unlinked and deleted -/
  | reapBlock (key : Cid × Nat)
  /-- a collection pass is running -/
  | collecting
deriving DecidableEq

variable {Cid : Type}

namespace Materialize

/-- The file a row is about to be minted for. -/
def minting (hash : Cid) : Materialize → Option (Cid × Nat)
  | mint generation => some (hash, generation)
  | _ => none

end Materialize

namespace Writer

/-- The block reservations held. -/
def reserved : Writer Cid → List (Cid × Nat)
  | putBlock _ _ _ _ reserved _ | putReserveObject _ _ reserved _
  | putWriteObject _ _ reserved _ | putBind _ _ reserved _ => reserved
  | aliasRead .. => []
  | aliasReserve _ _ _ _ reserved | aliasReserveObject _ _ reserved
  | aliasHas _ _ reserved _ | aliasBind _ _ reserved _ | releaseObject _ _ reserved _ => reserved
  | releaseBlock key rest _ => key :: rest
  | unbind _ => []

/-- The object reservation held, with the refcount it was made at. -/
def holds (H : Hasher Cid) : Writer Cid → Option (Cid × Int)
  | putWriteObject _ content _ prevRc | putBind _ content _ prevRc => some (H.of content, prevRc)
  | aliasHas _ cid _ prevRc | aliasBind _ cid _ prevRc | releaseObject cid prevRc _ _ =>
    some (cid, prevRc)
  | _ => none

/-- The manifest written. -/
def wrote (H : Hasher Cid) : Writer Cid → Option Cid
  | putBind _ content _ _ => some (H.of content)
  | _ => none

/-- The manifest written or seen. -/
def sees (H : Hasher Cid) : Writer Cid → Option Cid
  | putBind _ content _ _ => some (H.of content)
  | aliasBind _ cid _ _ => some cid
  | _ => none

/-- The file a row is about to be minted for. -/
def minting : Writer Cid → Option (Cid × Nat)
  | putBlock _ _ chunk _ _ point => point.minting chunk.hash
  | _ => none

end Writer

/-- The entries listed as orphaned claims. -/
def orphaned {κ : Type} (todo : List (κ × Bool)) : List κ :=
  (todo.filter fun e => !e.2).map Prod.fst

namespace Gc

/-- The objects the pass owns: the one in hand and the orphans still listed. -/
def ownedObjects : Gc Cid → List Cid
  | claimObject _ rest _ => orphaned rest
  | remove cid rest _ | deleteObject cid rest _ => cid :: orphaned rest
  | _ => []

/-- The blocks the pass owns. -/
def ownedBlocks : Gc Cid → List (Cid × Nat)
  | claimBlock _ rest _ => orphaned rest
  | removeBlock key rest _ | deleteBlock key rest _ => key :: orphaned rest
  | _ => []

/-- The objects still to be looked at. -/
def todoObjects : Gc Cid → List Cid
  | claimObject cid rest _ | remove cid rest _ | deleteObject cid rest _ =>
    cid :: rest.map Prod.fst
  | _ => []

/-- The blocks still to be looked at. -/
def todoBlocks : Gc Cid → List (Cid × Nat)
  | claimBlock key rest _ | removeBlock key rest _ | deleteBlock key rest _ =>
    key :: rest.map Prod.fst
  | _ => []

/-- A listing names each entry once. -/
def Distinct (pc : Gc Cid) : Prop := pc.todoObjects.Nodup ∧ pc.todoBlocks.Nodup

end Gc

variable [DecidableEq Cid]

/-- One if `o` is `some a`. -/
def one {α : Type} [DecidableEq α] (o : Option α) (a : α) : ℕ := if o = some a then 1 else 0

section One

variable {α : Type} [DecidableEq α]

@[simp] theorem one_none (a : α) : one none a = 0 := rfl

@[simp] theorem one_some (b a : α) : one (some b) a = if a = b then 1 else 0 := by
  by_cases h : a = b
  · simp [one, h]
  · simp [one, h, Ne.symm h]

end One

/-- The stake of the loop itself. -/
def Materialize.stakes (hash : Cid) (point : Materialize) : Stake Cid → ℕ
  | .mint key => one (point.minting hash) key
  | _ => 0

def Writer.stakes (H : Hasher Cid) (pc : Writer Cid) : Stake Cid → ℕ
  | .object cid => one ((pc.holds H).map Prod.fst) cid
  | .first cid => one (pc.holds H) (cid, 0)
  | .present cid => one (pc.sees H) cid
  | .written cid => one (pc.wrote H) cid
  | .block key => occ pc.reserved key
  | .mint key => one pc.minting key
  | _ => 0

def Gc.stakes (pc : Gc Cid) : Stake Cid → ℕ
  | .reapObject cid => occ pc.ownedObjects cid
  | .reapBlock key => occ pc.ownedBlocks key
  | .collecting => 1
  | _ => 0

/-- The stakes after a call of a pass. -/
def Gc.after : Gc Cid ⊕ Reclaimed → Stake Cid → ℕ
  | .inl pc => pc.stakes
  | .inr _ => fun _ => 0

/-- An audit counts as a collection pass, also around the one it contains. -/
def Audit.stakes : Audit Cid → Stake Cid → ℕ
  | .collect _ gc => gc.stakes
  | _ => fun t => match t with
    | .collecting => 1
    | _ => 0

namespace Proc

def stakes (H : Hasher Cid) : Proc Cid → Stake Cid → ℕ
  | writer pc => pc.stakes H
  | gc pc => pc.stakes
  | audit pc => pc.stakes
  | idle _ => fun _ => 0
  | crashed => fun _ => 0

theorem stakes_ofGc (H : Hasher Cid) (x : Gc Cid ⊕ Reclaimed) :
    (ofGc x).stakes H = Gc.after x := by
  cases x <;> rfl

theorem present_le_object (H : Hasher Cid) (p : Proc Cid) (cid : Cid) :
    p.stakes H (.present cid) ≤ p.stakes H (.object cid) := by
  cases p with
  | writer pc => cases pc <;> simp [stakes, Writer.stakes, Writer.sees, Writer.holds]
  | gc pc => exact le_rfl
  | audit pc => cases pc <;> exact le_rfl
  | idle _ => exact le_rfl
  | crashed => exact le_rfl

theorem reap_pos_collecting {H : Hasher Cid} {p : Proc Cid} {t : Stake Cid}
    (ht : (∃ c, t = .reapObject c) ∨ ∃ k, t = .reapBlock k) (h : 0 < p.stakes H t) :
    p.stakes H .collecting = 1 := by
  cases p with
  | writer pc => rcases ht with ⟨c, rfl⟩ | ⟨k, rfl⟩ <;> exact absurd h (Nat.lt_irrefl 0)
  | gc pc => rfl
  | audit pc => cases pc <;> rfl
  | idle _ => exact absurd h (Nat.lt_irrefl 0)
  | crashed => exact absurd h (Nat.lt_irrefl 0)

end Proc

/-! ## The states a call moves on to -/

section Next

variable {H : Hasher Cid}

namespace Writer

theorem putNext_cases (name : Name) (content : Bytes) (chunks : List (Chunk Cid))
    (r : List (Cid × Nat)) :
    putNext name content chunks r = putReserveObject name content r 0 ∨
      ∃ chunk rest, putNext name content chunks r = putBlock name content chunk rest r .reserve := by
  unfold putNext
  split
  · exact .inl rfl
  · exact .inr ⟨_, _, rfl⟩

/-- The stakes of a writer that holds block reservations and nothing else. -/
def blockStakes (r : List (Cid × Nat)) : Stake Cid → ℕ
  | .block key => occ r key
  | _ => 0

theorem stakes_putBlock (name : Name) (content : Bytes) (chunk : Chunk Cid)
    (rest : List (Chunk Cid)) (r : List (Cid × Nat)) (point : Materialize) :
    (putBlock name content chunk rest r point).stakes H
      = fun t => blockStakes r t + point.stakes chunk.hash t := by
  funext t
  cases t <;> simp [Writer.stakes, blockStakes, Materialize.stakes, holds, sees, wrote, reserved,
    minting]

theorem stakes_putNext (name : Name) (content : Bytes) (chunks : List (Chunk Cid))
    (r : List (Cid × Nat)) : (putNext name content chunks r).stakes H = blockStakes r := by
  funext t
  rcases putNext_cases name content chunks r with h | ⟨chunk, rest, h⟩ <;> rw [h] <;> cases t <;> rfl

theorem stakes_aliasNext (name : Name) (cid : Cid) (hashes : List Cid) (r : List (Cid × Nat)) :
    (aliasNext name cid hashes r).stakes H = blockStakes r := by
  funext t
  cases hashes <;> cases t <;> rfl

theorem stakes_releasing (r : List (Cid × Nat)) (e : StoreError Cid) :
    (Proc.ofWriter (releasing r e)).stakes H = blockStakes r := by
  funext t
  cases r <;> cases t <;> rfl

end Writer

namespace Gc

omit [DecidableEq Cid] in
theorem ownedObjects_nextObject (todo : List (Cid × Bool)) (r : Reclaimed) :
    (nextObject todo r).ownedObjects = orphaned todo := by
  rcases todo with _ | ⟨⟨c, _ | _⟩, rest⟩ <;> rfl

omit [DecidableEq Cid] in
theorem todoObjects_nextObject (todo : List (Cid × Bool)) (r : Reclaimed) :
    (nextObject todo r).todoObjects = todo.map Prod.fst := by
  rcases todo with _ | ⟨⟨c, _ | _⟩, rest⟩ <;> rfl

omit [DecidableEq Cid] in
theorem nextObject_blocks (todo : List (Cid × Bool)) (r : Reclaimed) :
    (nextObject todo r).ownedBlocks = [] ∧ (nextObject todo r).todoBlocks = [] := by
  rcases todo with _ | ⟨⟨c, _ | _⟩, rest⟩ <;> exact ⟨rfl, rfl⟩

omit [DecidableEq Cid] in
theorem nextBlock_inl {todo : List ((Cid × Nat) × Bool)} {r : Reclaimed} {pc : Gc Cid}
    (h : nextBlock todo r = .inl pc) :
    pc.ownedBlocks = orphaned todo ∧ pc.todoBlocks = todo.map Prod.fst ∧ pc.ownedObjects = [] ∧
      pc.todoObjects = [] := by
  rcases todo with _ | ⟨⟨k, _ | _⟩, rest⟩
  · cases h
  · cases h
    exact ⟨rfl, rfl, rfl, rfl⟩
  · cases h
    exact ⟨rfl, rfl, rfl, rfl⟩

end Gc

omit [DecidableEq Cid] in
theorem mem_orphaned {κ : Type} {todo : List (κ × Bool)} {k : κ} :
    k ∈ orphaned todo ↔ (k, false) ∈ todo := by
  simp [orphaned]

end Next

/-! ## Processes and the rest of the crew -/

namespace Proc

/-- A process in a collection pass, alone or inside an audit. -/
def collects : Proc Cid → Bool
  | gc _ | audit _ => true
  | _ => false

/-- A process giving the reservation of an object back after an error. -/
def releasesObject : Proc Cid → Bool
  | writer (.releaseObject ..) => true
  | _ => false

/-- What is true of a process on its own: its listings have no repeats. -/
def Distinct : Proc Cid → Prop
  | gc pc => pc.Distinct
  | audit (.collect _ pc) => pc.Distinct
  | _ => True

theorem stakes_collecting (H : Hasher Cid) (p : Proc Cid) :
    p.stakes H .collecting = if p.collects then 1 else 0 := by
  cases p with
  | audit pc => cases pc <;> rfl
  | _ => rfl

end Proc

section Others

variable {ι : Type} [DecidableEq ι] [Fintype ι] {H : Hasher Cid} {w : World Cid ι} {i : ι}

theorem others_reap_eq_zero (h : w.others (Proc.stakes H) i .collecting = 0) {t : Stake Cid}
    (ht : (∃ c, t = .reapObject c) ∨ ∃ k, t = .reapBlock k) :
    w.others (Proc.stakes H) i t = 0 := by
  rw [Crew.others_eq_zero] at h ⊢
  intro j hj
  by_contra hne
  have := Proc.reap_pos_collecting ht (Nat.pos_of_ne_zero hne)
  have := h j hj
  omega

end Others

end FactorQ.Store
