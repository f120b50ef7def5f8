/-
# `Lib.Numbered` — entries in the order of their numbers

Entries carry distinct numbers.  Whatever order they are stored in, sorting them
by number gives the one list in which the numbers increase.
-/
import Mathlib.Data.List.Sort
import Mathlib.Data.List.Perm.Basic

namespace Lib

variable {α : Type} (key : α → ℕ)

/-- The numbers increase along the list. -/
def Numbered (l : List α) : Prop := l.Pairwise fun a b => key a < key b

variable {key} {l L : List α}

theorem Numbered.inj (h : Numbered key L) {a b : α} (ha : a ∈ L) (hb : b ∈ L) (he : key a = key b) :
    a = b := by
  have hnd : (L.map key).Nodup := List.Pairwise.map _ (fun _ _ hlt => Nat.ne_of_lt hlt) h
  exact List.inj_on_of_nodup_map hnd ha hb he

/-- Sorting by number restores the order. -/
theorem Numbered.insertionSort_eq (h : Numbered key L) (hp : l.Perm L) :
    l.insertionSort (fun a b => key a ≤ key b) = L := by
  have htotal : Std.Total fun a b : α => key a ≤ key b := ⟨fun a b => Nat.le_total _ _⟩
  have htrans : IsTrans α fun a b => key a ≤ key b := ⟨fun a b c => Nat.le_trans⟩
  have hperm : (l.insertionSort fun a b => key a ≤ key b).Perm L :=
    (List.perm_insertionSort _ l).trans hp
  refine List.Perm.eq_of_pairwise ?_ (List.pairwise_insertionSort _ l) (h.imp Nat.le_of_lt) hperm
  intro a b ha hb hab hba
  exact h.inj (hperm.subset ha) hb (Nat.le_antisymm hab hba)

/-- An entry with a number above all others goes to the end. -/
theorem Numbered.concat (h : Numbered key L) {a : α} (hlt : ∀ b ∈ L, key b < key a) :
    Numbered key (L ++ [a]) := by
  refine List.pairwise_append.mpr ⟨h, List.pairwise_singleton _ _, ?_⟩
  intro b hb c hc
  rw [List.mem_singleton.mp hc]
  exact hlt b hb

theorem Numbered.of_concat {a : α} (h : Numbered key (L ++ [a])) : Numbered key L :=
  (List.pairwise_append.mp h).1

/-! ## Numbered entries and what they hold -/

variable {es es' : List (ℕ × α)} {xs : List α}

/-- In the order of their numbers, the entries hold `xs`. -/
def InOrder (es : List (ℕ × α)) (xs : List α) : Prop :=
  ∃ L, Numbered Prod.fst L ∧ es.Perm L ∧ L.map Prod.snd = xs

namespace InOrder

theorem nil : InOrder ([] : List (ℕ × α)) [] := ⟨[], List.Pairwise.nil, List.Perm.refl _, rfl⟩

theorem perm (h : InOrder es xs) (hp : es'.Perm es) : InOrder es' xs := by
  obtain ⟨L, hnum, hL, hxs⟩ := h
  exact ⟨L, hnum, hp.trans hL, hxs⟩

theorem mem_iff (h : InOrder es xs) {x : α} : x ∈ xs ↔ ∃ n, (n, x) ∈ es := by
  obtain ⟨L, -, hL, rfl⟩ := h
  constructor
  · intro hx
    obtain ⟨e, he, rfl⟩ := List.mem_map.mp hx
    exact ⟨e.1, hL.mem_iff.mpr he⟩
  · rintro ⟨n, hn⟩
    exact List.mem_map.mpr ⟨(n, x), hL.mem_iff.mp hn, rfl⟩

/-- What the entries hold, whatever their order. -/
theorem map_snd_perm (h : InOrder es xs) : (es.map Prod.snd).Perm xs := by
  obtain ⟨L, -, hL, rfl⟩ := h
  exact hL.map _

theorem snoc (h : InOrder es xs) {n : ℕ} {x : α} (hn : ∀ e ∈ es, e.1 < n)
    (hp : es'.Perm ((n, x) :: es)) : InOrder es' (xs ++ [x]) := by
  obtain ⟨L, hnum, hL, rfl⟩ := h
  refine ⟨L ++ [(n, x)], hnum.concat fun e he => hn e (hL.mem_iff.mpr he), ?_, by simp⟩
  exact hp.trans ((hL.cons _).trans (List.perm_append_singleton _ _).symm)

theorem unsnoc {x : α} (h : InOrder es (xs ++ [x])) {e : ℕ × α} (hlast : ∀ n, (n, x) ∈ es → (n, x) = e)
    (hp : es.Perm (e :: es')) : InOrder es' xs := by
  obtain ⟨L, hnum, hL, hxs⟩ := h
  rcases List.eq_nil_or_concat L with rfl | ⟨init, d, rfl⟩
  · simp at hxs
  · rw [List.concat_eq_append] at hnum hL hxs
    rw [List.map_append, List.map_singleton] at hxs
    obtain ⟨hinit, hd⟩ := List.append_inj' hxs rfl
    have hdx : d.2 = x := by simpa using hd
    have hde : d = e := by
      refine (congrArg (Prod.mk d.1) hdx).trans (hlast d.1 ?_)
      rw [← hdx]
      exact hL.mem_iff.mpr (by simp)
    refine ⟨init, hnum.of_concat, ?_, hinit⟩
    have hcons : (e :: es').Perm (e :: init) := by
      refine hp.symm.trans (hL.trans ?_)
      rw [hde]
      exact List.perm_append_singleton _ _
    exact hcons.cons_inv

end InOrder

end Lib
