/-
# `Lib.Interleave` — processes interleaved over shared state

A crew is a shared state and one local state per process.  A schedule is a list
of actions, each of which moves the shared state and one process; nothing is
assumed about which process moves when.

Invariants of such systems speak about the processes in two ways.  Some facts
are local to one process and need nothing from the others.  The rest speak
about how many processes stand in some relation to a part of the shared state:
how many hold this lock, how many rely on that row.  `stakes p t` is the stake
process `p` has in `t`, and `total` adds the stakes up.  Both kinds are put
together in `Sound`, and `Sound.put` says what one process has to show for its
own move: the rest of the crew enters as a fixed sum and nothing else.
-/
import Mathlib.Tactic

namespace Lib

/-! ## Schedules -/

section Schedules

variable {σ α : Type} {step : σ → α → σ} {ok : σ → α → Prop} {Inv : σ → Prop}

/-- Every action of the schedule is permitted in the state it is taken in. -/
def Permitted (step : σ → α → σ) (ok : σ → α → Prop) : σ → List α → Prop
  | _, [] => True
  | s, a :: as => ok s a ∧ Permitted step ok (step s a) as

instance decPermitted [∀ s a, Decidable (ok s a)] :
    ∀ (s : σ) (as : List α), Decidable (Permitted step ok s as)
  | _, [] => .isTrue trivial
  | s, a :: as =>
    have : Decidable (Permitted step ok (step s a) as) := decPermitted (step s a) as
    inferInstanceAs (Decidable (ok s a ∧ Permitted step ok (step s a) as))

/-- What every permitted action keeps, every permitted schedule keeps. -/
theorem Permitted.inv (hstep : ∀ s a, ok s a → Inv s → Inv (step s a)) :
    ∀ {as : List α} {s : σ}, Permitted step ok s as → Inv s → Inv (as.foldl step s) := by
  intro as
  induction as with
  | nil => exact fun _ hs => hs
  | cons a as ih => exact fun h hs => ih h.2 (hstep _ a h.1 hs)

theorem Permitted.and {ok' : σ → α → Prop} :
    ∀ {as : List α} {s : σ}, Permitted step ok s as → Permitted step ok' s as →
      Permitted step (fun s a => ok s a ∧ ok' s a) s as := by
  intro as
  induction as with
  | nil => exact fun _ _ => trivial
  | cons a as ih => exact fun h h' => ⟨⟨h.1, h'.1⟩, ih h.2 h'.2⟩

end Schedules

/-! ## Crews -/

/-- A shared state and the local state of every process. -/
structure Crew (σ ρ ι : Type) where
  shared : σ
  procs : ι → ρ

namespace Crew

variable {σ ρ ι τ : Type} [DecidableEq ι]

/-- Process `i` moves: it leaves the shared state `s` and is at `p`. -/
def put (w : Crew σ ρ ι) (i : ι) (s : σ) (p : ρ) : Crew σ ρ ι :=
  ⟨s, Function.update w.procs i p⟩

@[simp] theorem put_procs_self (w : Crew σ ρ ι) (i : ι) (s : σ) (p : ρ) :
    (w.put i s p).procs i = p := Function.update_self _ _ _

variable {w : Crew σ ρ ι}

theorem put_procs_of_ne {i j : ι} (h : j ≠ i) (s : σ) (p : ρ) :
    (w.put i s p).procs j = w.procs j := Function.update_of_ne h _ _

variable [Fintype ι] {stakes : ρ → τ → ℕ}

/-- The stakes of the whole crew in `t`. -/
def total (stakes : ρ → τ → ℕ) (w : Crew σ ρ ι) (t : τ) : ℕ :=
  ∑ j, stakes (w.procs j) t

/-- The stakes in `t` of every process but `i`. -/
def others (stakes : ρ → τ → ℕ) (w : Crew σ ρ ι) (i : ι) (t : τ) : ℕ :=
  ∑ j ∈ Finset.univ.erase i, stakes (w.procs j) t

theorem total_eq (w : Crew σ ρ ι) (i : ι) (t : τ) :
    w.total stakes t = w.others stakes i t + stakes (w.procs i) t :=
  (Finset.sum_erase_add _ _ (Finset.mem_univ i)).symm

theorem others_put (w : Crew σ ρ ι) (i : ι) (s : σ) (p : ρ) (t : τ) :
    (w.put i s p).others stakes i t = w.others stakes i t := by
  refine Finset.sum_congr rfl fun j hj => ?_
  rw [put_procs_of_ne (Finset.ne_of_mem_erase hj)]

theorem total_put (w : Crew σ ρ ι) (i : ι) (s : σ) (p : ρ) (t : τ) :
    (w.put i s p).total stakes t = w.others stakes i t + stakes p t := by
  rw [total_eq _ i, others_put, put_procs_self]

theorem stakes_le_total (w : Crew σ ρ ι) (i : ι) (t : τ) :
    stakes (w.procs i) t ≤ w.total stakes t := by
  rw [total_eq w i]
  exact Nat.le_add_left _ _

omit [DecidableEq ι] in
/-- Some process has the stake the crew has. -/
theorem exists_of_total_pos {t : τ} (h : 0 < w.total stakes t) : ∃ i, 0 < stakes (w.procs i) t := by
  obtain ⟨i, -, hi⟩ := Finset.exists_ne_zero_of_sum_ne_zero (Nat.ne_of_gt h)
  exact ⟨i, Nat.pos_of_ne_zero hi⟩

theorem others_le {t u : τ} (h : ∀ p, stakes p t ≤ stakes p u) (w : Crew σ ρ ι) (i : ι) :
    w.others stakes i t ≤ w.others stakes i u :=
  Finset.sum_le_sum fun j _ => h (w.procs j)

theorem others_eq_zero {i : ι} {t : τ} :
    w.others stakes i t = 0 ↔ ∀ j, j ≠ i → stakes (w.procs j) t = 0 := by
  rw [others, Finset.sum_eq_zero_iff]
  exact ⟨fun h j hj => h j (Finset.mem_erase.mpr ⟨hj, Finset.mem_univ j⟩),
    fun h j hj => h j (Finset.ne_of_mem_erase hj)⟩

omit [DecidableEq ι] in
theorem total_eq_zero {t : τ} : w.total stakes t = 0 ↔ ∀ j, stakes (w.procs j) t = 0 := by
  rw [total, Finset.sum_eq_zero_iff]
  exact ⟨fun h j => h j (Finset.mem_univ j), fun h j _ => h j⟩

/-- An invariant of the shared state and the crew's stakes in it, and a fact
about each process alone. -/
structure Sound (stakes : ρ → τ → ℕ) (Shared : σ → (τ → ℕ) → Prop) (Local : ρ → Prop)
    (w : Crew σ ρ ι) : Prop where
  shared : Shared w.shared (w.total stakes)
  procs : ∀ i, Local (w.procs i)

variable {Shared : σ → (τ → ℕ) → Prop} {Local : ρ → Prop}

/-- A move keeps soundness if the mover keeps it against the rest of the crew. -/
theorem Sound.put (h : w.Sound stakes Shared Local) {i : ι} {s : σ} {p : ρ}
    (hs : Shared w.shared (fun t => w.others stakes i t + stakes (w.procs i) t) → Local (w.procs i) → Shared s (fun t => w.others stakes i t + stakes p t) ∧ Local p) :
    (w.put i s p).Sound stakes Shared Local := by
  have hi : Shared w.shared (fun t => w.others stakes i t + stakes (w.procs i) t) := by
    have heq : w.total stakes = fun t => w.others stakes i t + stakes (w.procs i) t :=
      funext (total_eq w i)
    rw [← heq]
    exact h.shared
  obtain ⟨hs, hp⟩ := hs hi (h.procs i)
  refine ⟨?_, fun j => ?_⟩
  · have heq : (w.put i s p).total stakes = fun t => w.others stakes i t + stakes p t :=
      funext (total_put w i s p)
    rw [heq]
    exact hs
  · by_cases e : j = i
    · subst e
      rw [put_procs_self]
      exact hp
    · rw [put_procs_of_ne e]
      exact h.procs j

end Crew

end Lib
