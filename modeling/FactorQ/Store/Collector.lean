/-
# `FactorQ.Store.Collector` — the reference collector

One pass lists the objects without references, then claims, unlinks and deletes
them one by one, and does the same with the blocks.  An entry listed as
unavailable is an orphaned claim, which the pass adopts without claiming it.
As with the writers, each state stands right before one index or content call;
an error of any call ends the pass.
-/
import FactorQ.Store.Repository

namespace FactorQ.Store

open Lib

/-- What a collection pass reclaimed. -/
structure Reclaimed where
  objects : Nat
  blocks : Nat
deriving DecidableEq

/-- The points of a collection pass. -/
inductive Gc (Cid : Type) where
  | claimableObjects
  | claimObject (cid : Cid) (rest : List (Cid × Bool)) (reclaimed : Reclaimed)
  | remove (cid : Cid) (rest : List (Cid × Bool)) (reclaimed : Reclaimed)
  | deleteObject (cid : Cid) (rest : List (Cid × Bool)) (reclaimed : Reclaimed)
  | claimableBlocks (reclaimed : Reclaimed)
  | claimBlock (key : Cid × Nat) (rest : List ((Cid × Nat) × Bool)) (reclaimed : Reclaimed)
  | removeBlock (key : Cid × Nat) (rest : List ((Cid × Nat) × Bool)) (reclaimed : Reclaimed)
  | deleteBlock (key : Cid × Nat) (rest : List ((Cid × Nat) × Bool)) (reclaimed : Reclaimed)
deriving DecidableEq

namespace Gc

variable {Cid : Type}

/-- The next listed object: claimed first if it is still available. -/
def nextObject (todo : List (Cid × Bool)) (reclaimed : Reclaimed) : Gc Cid :=
  match todo with
  | [] => claimableBlocks reclaimed
  | (cid, true) :: rest => claimObject cid rest reclaimed
  | (cid, false) :: rest => remove cid rest reclaimed

/-- The next listed block; the pass ends with the last one. -/
def nextBlock (todo : List ((Cid × Nat) × Bool)) (reclaimed : Reclaimed) : Gc Cid ⊕ Reclaimed :=
  match todo with
  | [] => .inr reclaimed
  | (key, true) :: rest => .inl (claimBlock key rest reclaimed)
  | (key, false) :: rest => .inl (removeBlock key rest reclaimed)

variable [DecidableEq Cid]

/-- One index or content call of the pass, and on to the next. -/
def step (s : State Cid) : Gc Cid → State Cid × (Gc Cid ⊕ Reclaimed)
  | claimableObjects => (s, .inl (nextObject s.index.claimableObjects ⟨0, 0⟩))
  | claimObject cid rest reclaimed =>
    let (claimed, index) := s.index.claimObject cid
    ({ s with index },
      .inl (if claimed then remove cid rest reclaimed else nextObject rest reclaimed))
  | remove cid rest reclaimed =>
    ({ s with disk := s.disk.remove cid }, .inl (deleteObject cid rest reclaimed))
  | deleteObject cid rest reclaimed =>
    ({ s with index := s.index.deleteObject cid },
      .inl (nextObject rest { reclaimed with objects := reclaimed.objects + 1 }))
  | claimableBlocks reclaimed => (s, nextBlock s.index.claimableBlocks reclaimed)
  | claimBlock key rest reclaimed =>
    let (claimed, index) := s.index.claimBlock key
    ({ s with index },
      if claimed then .inl (removeBlock key rest reclaimed) else nextBlock rest reclaimed)
  | removeBlock key rest reclaimed =>
    ({ s with disk := s.disk.removeBlock key }, .inl (deleteBlock key rest reclaimed))
  | deleteBlock key rest reclaimed =>
    ({ s with index := s.index.deleteBlock key },
      nextBlock rest { reclaimed with blocks := reclaimed.blocks + 1 })

end Gc

end FactorQ.Store
