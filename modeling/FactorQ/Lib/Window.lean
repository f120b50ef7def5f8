/-
# `Lib.Window` — instants counted in a sliding window

A window of width `w` that ends at `t` holds the instants in `(t - w, t]`.  A rate limit of
`n` says that no window holds more than `n` of the instants at which something happened.

Two questions a limiter asks are answered here.  May one more thing happen at `c`?  It may,
when the instants after `c - w` are fewer than `n` (`length_window_concat_le`).  And when a
window is full, when is there room again?  When the instant `n` places from the end has left
it (`isLeast_reopening`).

A limiter that keeps one ledger for each key instead of one list loses nothing by that:
`perm_flatMap_filter`.
-/
import Mathlib.Tactic

namespace Lib

section Since

variable {α : Type*} [LinearOrder α]

/-- The instants of `l` after `c`. -/
def since (c : α) (l : List α) : List α := l.filter fun a => c < a

@[simp] theorem since_append (c : α) (l l' : List α) : since c (l ++ l') = since c l ++ since c l' :=
  List.filter_append ..

theorem since_since {c d : α} (h : c ≤ d) (l : List α) : since d (since c l) = since d l := by
  rw [since, since, since, List.filter_filter]
  refine List.filter_congr fun a _ => ?_
  by_cases ha : d < a
  · simp [ha, h.trans_lt ha]
  · simp [ha]

theorem length_since_le {c d : α} (h : c ≤ d) (l : List α) : (since d l).length ≤ (since c l).length := by
  rw [← since_since h]
  exact List.length_filter_le _ _

/-- In an ordered list the instant at `i` and all before it go together. -/
theorem length_since_getElem_le {l : List α} (hl : l.Pairwise (· ≤ ·)) {i : ℕ} (hi : i < l.length) :
    (since l[i] l).length ≤ l.length - (i + 1) := by
  have htake : since l[i] (l.take (i + 1)) = [] := by
    refine List.filter_eq_nil_iff.2 fun a ha => ?_
    obtain ⟨j, hj, rfl⟩ := List.getElem_of_mem ha
    have hji : j ≤ i := by
      rw [List.length_take] at hj
      omega
    rw [List.getElem_take]
    simpa using hl.rel_get_of_le (a := ⟨j, hji.trans_lt hi⟩) (b := ⟨i, hi⟩) hji
  calc (since l[i] l).length
      = (since l[i] (l.take (i + 1) ++ l.drop (i + 1))).length := by rw [List.take_append_drop]
    _ = (since l[i] (l.drop (i + 1))).length := by rw [since_append, htake, List.nil_append]
    _ ≤ (l.drop (i + 1)).length := List.length_filter_le _ _
    _ = l.length - (i + 1) := List.length_drop

/-- Until the instant at `i` has gone, those behind it are all there. -/
theorem le_length_since {l : List α} (hl : l.Pairwise (· ≤ ·)) {i : ℕ} (hi : i < l.length) {c : α}
    (hc : c < l[i]) : l.length - i ≤ (since c l).length := by
  have hdrop : since c (l.drop i) = l.drop i := by
    refine List.filter_eq_self.2 fun a ha => ?_
    obtain ⟨j, hj, rfl⟩ := List.getElem_of_mem ha
    rw [List.length_drop] at hj
    rw [List.getElem_drop]
    have hij : l[i] ≤ l[i + j] :=
      hl.rel_get_of_le (a := ⟨i, hi⟩) (b := ⟨i + j, by omega⟩) (Nat.le_add_right i j)
    simpa using hc.trans_le hij
  calc l.length - i
      = (since c (l.drop i)).length := by rw [hdrop, List.length_drop]
    _ ≤ (since c (l.take i) ++ since c (l.drop i)).length := by simp
    _ = (since c l).length := by rw [← since_append, List.take_append_drop]

/-- In an ordered list the instants after `c` come last. -/
theorem exists_append_since {l : List α} (hl : l.Pairwise (· ≤ ·)) (c : α) :
    ∃ old, l = old ++ since c l ∧ ∀ a ∈ old, a ≤ c := by
  induction l with
  | nil => exact ⟨[], rfl, fun a ha => absurd ha List.not_mem_nil⟩
  | cons a l ih =>
    obtain ⟨hle, hl⟩ := List.pairwise_cons.1 hl
    by_cases ha : c < a
    · have hall : since c (a :: l) = a :: l := by
        refine List.filter_eq_self.2 fun b hb => ?_
        rcases List.mem_cons.1 hb with rfl | hb
        · simpa using ha
        · simpa using ha.trans_le (hle b hb)
      exact ⟨[], by rw [hall, List.nil_append], fun b hb => absurd hb List.not_mem_nil⟩
    · obtain ⟨old, hold, hc⟩ := ih hl
      refine ⟨a :: old, ?_, fun b hb => ?_⟩
      · rw [since, List.filter_cons_of_neg (by simpa using ha), List.cons_append]
        exact congrArg (a :: ·) hold
      · rcases List.mem_cons.1 hb with rfl | hb
        · exact not_lt.1 ha
        · exact hc b hb

/-- More instants in an ordered list, each with `n` of the others at or after it, leave the last
`n` as they are. -/
theorem drop_eq_of_perm {l full extra : List α} {n : ℕ} (hl : l.Pairwise (· ≤ ·)) (hfull : full.Pairwise (· ≤ ·))
    (hperm : full.Perm (extra ++ l)) (hextra : ∀ a ∈ extra, n ≤ (l.filter fun b => a ≤ b).length) (hn : n ≤ l.length) :
    full.drop (full.length - n) = l.drop (l.length - n) := by
  rcases Nat.eq_zero_or_pos n with rfl | hpos
  · simp
  have hi : l.length - n < l.length := by omega
  -- with `n` instants at or after it, `a` is not after the first of the last `n`
  have hbelow : ∀ a ∈ extra, a ≤ l[l.length - n] := by
    intro a ha
    by_contra hgt
    have hcount : (l.filter fun b => a ≤ b).length ≤ (since l[l.length - n] l).length := by
      rw [since, ← List.countP_eq_length_filter, ← List.countP_eq_length_filter]
      refine List.countP_mono_left fun b _ hb => ?_
      simp only [decide_eq_true_eq] at hb ⊢
      exact (not_le.1 hgt).trans_le hb
    have hlast := length_since_getElem_le hl hi
    have hmany := hextra a ha
    omega
  have hsorted : ((extra ++ l.take (l.length - n)).insertionSort (· ≤ ·) ++ l.drop (l.length - n)).Pairwise (· ≤ ·) := by
    refine List.pairwise_append.2 ⟨List.pairwise_insertionSort _ _, hl.sublist (List.drop_sublist _ _), ?_⟩
    intro a ha b hb
    have hfirst : l[l.length - n] ≤ b := by
      obtain ⟨j, hj, rfl⟩ := List.getElem_of_mem hb
      rw [List.getElem_drop]
      rw [List.length_drop] at hj
      exact hl.rel_get_of_le (a := ⟨l.length - n, hi⟩) (b := ⟨l.length - n + j, by omega⟩) (Nat.le_add_right _ _)
    rcases List.mem_append.1 ((List.mem_insertionSort _).1 ha) with ha | ha
    · exact (hbelow a ha).trans hfirst
    · have hsplit := hl
      rw [← List.take_append_drop (l.length - n) l] at hsplit
      exact (List.pairwise_append.1 hsplit).2.2 a ha b hb
  have hsame : ((extra ++ l.take (l.length - n)).insertionSort (· ≤ ·) ++ l.drop (l.length - n)).Perm full := by
    refine ((List.perm_insertionSort _ _).append_right _).trans ?_
    rw [List.append_assoc, List.take_append_drop]
    exact hperm.symm
  have heq := hsame.eq_of_pairwise (fun a b _ _ => le_antisymm) hsorted hfull
  have hlen : full.length - n = ((extra ++ l.take (l.length - n)).insertionSort (· ≤ ·)).length := by
    have hlength := hperm.length_eq
    rw [List.length_insertionSort, List.length_append, List.length_take]
    rw [List.length_append] at hlength
    omega
  rw [hlen, ← heq, List.drop_left]

end Since

section Window

variable {α : Type*} [AddCommGroup α] [LinearOrder α]

/-- The instants of `l` in `(t - w, t]`. -/
def window (w t : α) (l : List α) : List α := l.filter fun a => t - w < a ∧ a ≤ t

/-- A window that ends when all is over cuts the past off and nothing else. -/
theorem window_eq_since {w t : α} {l : List α} (h : ∀ a ∈ l, a ≤ t) : window w t l = since (t - w) l :=
  List.filter_congr fun a ha => by simp [h a ha]

theorem length_window_le (w t : α) (l : List α) : (window w t l).length ≤ (since (t - w) l).length := by
  rw [window, since, ← List.countP_eq_length_filter, ← List.countP_eq_length_filter]
  refine List.countP_mono_left fun a _ ha => ?_
  simp only [decide_eq_true_eq] at ha ⊢
  exact ha.1

variable [IsOrderedAddMonoid α]

/-- One more instant keeps the limit when the window behind it has room for it. -/
theorem length_window_concat_le {w c : α} {l : List α} {n : ℕ} (h : ∀ t, (window w t l).length ≤ n)
    (hroom : (since (c - w) l).length < n) (t : α) : (window w t (l ++ [c])).length ≤ n := by
  rcases lt_or_ge t c with ht | ht
  · -- a window that ends before `c` does not see it
    have hc : window w t [c] = [] := List.filter_eq_nil_iff.2 fun a ha => by
      simp [List.mem_singleton.1 ha, ht.not_ge]
    rw [window, List.filter_append]
    change (window w t l ++ window w t [c]).length ≤ n
    rw [hc, List.append_nil]
    exact h t
  · have hold : (since (t - w) l).length ≤ (since (c - w) l).length :=
      length_since_le (sub_le_sub_right ht w) l
    have hnew : (since (t - w) [c]).length ≤ 1 := List.length_filter_le _ _
    calc (window w t (l ++ [c])).length
        ≤ (since (t - w) (l ++ [c])).length := length_window_le w t _
      _ = (since (t - w) l).length + (since (t - w) [c]).length := by
          rw [since_append, List.length_append]
      _ ≤ n := by omega

/-- `full` is the window at `now`, oldest first.  With nothing new, there is room again when
the instant `n` places from its end has left. -/
theorem isLeast_reopening {w now : α} {l full : List α} {n : ℕ} (hn : 0 < n) (hl : ∀ a ∈ l, a ≤ now)
    (hfull : full.Perm (window w now l)) (hs : full.Pairwise (· ≤ ·)) (hlen : n ≤ full.length) :
    IsLeast {t | now ≤ t ∧ (window w t l).length < n} (full[full.length - n] + w) := by
  have hi : full.length - n < full.length := by omega
  -- from `now` on a window holds what it cuts out of `full`
  have hcount : ∀ t, now ≤ t → (window w t l).length = (since (t - w) full).length := by
    intro t ht
    have hcut : (since (t - w) full).Perm (since (t - w) (window w now l)) := hfull.filter _
    rw [hcut.length_eq, window_eq_since hl, since_since (sub_le_sub_right ht w),
      window_eq_since fun a ha => (hl a ha).trans ht]
  have hmem : now - w < full[full.length - n] := by
    have hx := hfull.subset (List.getElem_mem hi)
    rw [window, List.mem_filter] at hx
    exact (of_decide_eq_true hx.2).1
  have hnow : now ≤ full[full.length - n] + w := (sub_lt_iff_lt_add.1 hmem).le
  constructor
  · refine ⟨hnow, ?_⟩
    rw [hcount _ hnow, add_sub_cancel_right]
    have := length_since_getElem_le hs hi
    omega
  · rintro t ⟨ht, hroom⟩
    by_contra hlt
    rw [hcount t ht] at hroom
    have := le_length_since hs hi (c := t - w) (sub_lt_iff_lt_add.2 (not_le.1 hlt))
    omega

end Window

/-- Entries sorted into one list for each key are the entries again. -/
theorem perm_flatMap_filter {β κ : Type*} [DecidableEq κ] (key : β → κ) :
    ∀ {ks : List κ}, ks.Nodup → ∀ {l : List β}, (∀ b ∈ l, key b ∈ ks) →
      (ks.flatMap fun k => l.filter fun b => key b = k).Perm l := by
  intro ks
  induction ks with
  | nil =>
    intro _ l h
    cases l with
    | nil => exact .refl _
    | cons b l => exact absurd (h b (List.mem_cons_self ..)) (List.not_mem_nil)
  | cons k ks ih =>
    intro hk l h
    obtain ⟨hkn, hks⟩ := List.nodup_cons.1 hk
    -- the other keys never see the entries of `k`
    have hrest : (ks.flatMap fun k' => l.filter fun b => key b = k')
        = ks.flatMap fun k' => (l.filter fun b => !decide (key b = k)).filter fun b => key b = k' := by
      refine List.flatMap_congr fun k' hk' => ?_
      rw [List.filter_filter]
      refine List.filter_congr fun b _ => ?_
      by_cases hb : key b = k'
      · have : key b ≠ k := by
          rintro rfl
          exact hkn (hb ▸ hk')
        simp [hb, hb ▸ this]
      · simp [hb]
    rw [List.flatMap_cons, hrest]
    refine ((ih hks fun b hb => ?_).append_left _).trans (List.filter_append_perm _ l)
    obtain ⟨hb, hne⟩ := List.mem_filter.1 hb
    rcases List.mem_cons.1 (h b hb) with h | h
    · simp [h] at hne
    · exact h

end Lib
