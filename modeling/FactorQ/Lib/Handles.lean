/-
# `Lib.Handles` — values that are handed out, and given back once

A guard object gives a resource back when it is destroyed, and it can be destroyed only once.
The live ones are rows of a table, each under a number never used before, so that giving one
back twice does nothing and two holders are never taken for one.

A counter that goes up with every `issue` and down with every `surrender` is then right if it
agrees with `held`.
-/
import FactorQ.Lib.Table

namespace Lib

structure Handles (α : Type) where
  live : Table Nat α
  next : Nat
  fresh : ∀ id, next ≤ id → live.get? id = none

namespace Handles

variable {α : Type}

def empty : Handles α := ⟨.empty, 0, fun _ _ => rfl⟩

def get? (h : Handles α) (id : Nat) : Option α := h.live.get? id

def issue (h : Handles α) (a : α) : Handles α where
  live := h.live.insertNew h.next a
  next := h.next + 1
  fresh := by
    intro id hid
    rw [Table.get?_insertNew, if_neg (by omega), h.fresh id (by omega)]

def surrender (h : Handles α) (id : Nat) : Handles α where
  live := h.live.erase id
  next := h.next
  fresh := by
    intro id' hid
    rw [Table.get?_erase]
    split
    · rfl
    · exact h.fresh id' hid

/-- The holder of a handle makes something else of it. -/
def update (h : Handles α) (id : Nat) (f : α → α) : Handles α where
  live := h.live.modify id f
  next := h.next
  fresh := by
    intro id' hid
    rw [Table.get?_modify, h.fresh id' hid]
    split
    · next heq => rw [← heq, h.fresh id' hid, Option.map_none]
    · rfl

/-- How many of the live handles `p` picks. -/
def held (h : Handles α) (p : α → Bool) : Nat := h.live.count fun _ a => p a

theorem held_issue (h : Handles α) (a : α) (p : α → Bool) :
    (h.issue a).held p = h.held p + if p a then 1 else 0 := by
  have hfresh : h.live.get? h.next = none := h.fresh _ (Nat.le_refl _)
  simp [held, issue, Table.count_insertNew, hfresh]

theorem held_surrender {h : Handles α} {id : Nat} {a : α} (hid : h.get? id = some a) (p : α → Bool) :
    h.held p = (h.surrender id).held p + if p a then 1 else 0 :=
  Table.count_erase_of_get? hid fun _ a => p a

theorem held_update (h : Handles α) (id : Nat) {f : α → α} {p : α → Bool} (hf : ∀ a, p (f a) = p a) :
    (h.update id f).held p = h.held p := by
  have hcount := Table.count_update h.live (fun k _ => k = id) (fun _ a => p a) f
  refine hcount.trans ?_
  refine Table.count_congr fun k a _ => ?_
  split
  · exact hf a
  · rfl

theorem held_split (h : Handles α) (p q : α → Bool) :
    h.held p = h.held (fun a => p a && q a) + h.held fun a => p a && !q a :=
  Table.count_split h.live (fun _ a => q a) fun _ a => p a

end Handles

end Lib
