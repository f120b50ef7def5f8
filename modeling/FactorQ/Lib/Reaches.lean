/-
# `Lib.Reaches` — running a deterministic step

`Reaches f x y`: iterating `f` from `x` passes through `y`.  A run is put
together from its phases by `trans`, and where a run comes to rest is unique.
-/
import Mathlib.Logic.Function.Iterate

namespace Lib

variable {α : Type} {f : α → α} {x y z : α}

/-- Some number of steps of `f` takes `x` to `y`. -/
def Reaches (f : α → α) (x y : α) : Prop := ∃ n, f^[n] x = y

namespace Reaches

theorem refl (x : α) : Reaches f x x := ⟨0, rfl⟩

theorem step (h : Reaches f (f x) y) : Reaches f x y := by
  obtain ⟨n, hn⟩ := h
  exact ⟨n + 1, hn⟩

/-- A run comes to rest in one place. -/
theorem unique (hy : f y = y) (hz : f z = z) (h₁ : Reaches f x y) (h₂ : Reaches f x z) : y = z := by
  obtain ⟨n, rfl⟩ := h₁
  obtain ⟨m, rfl⟩ := h₂
  calc f^[n] x = f^[m] (f^[n] x) := (Function.iterate_fixed hy m).symm
    _ = f^[n] (f^[m] x) := by rw [← Function.iterate_add_apply, Nat.add_comm, Function.iterate_add_apply]
    _ = f^[m] x := Function.iterate_fixed hz n

end Reaches

end Lib
