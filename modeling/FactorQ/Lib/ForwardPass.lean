/-
# `Lib.ForwardPass` — what stands on what came before

Some keys stand by themselves, others stand only on an earlier key that stands and
carries them.  `Stands` is the least such relation.  Since every key rests on earlier
ones, it is also the only one: whatever satisfies the defining equation is `Stands`,
so two computations that both satisfy it agree.

The computation is one pass in key order which keeps what it has found to stand.  The
pass sees only earlier elements when it decides about one, and what it decides about
later ones does not change the answer; `mem_forwardPass` says so.
-/
import Mathlib.Tactic

namespace Lib

/-! ## Standing -/

section Stands

variable {κ : Type} [Preorder κ] {root root' : κ → Prop} {carries carries' : κ → κ → Prop} {k : κ}

/-- A root stands, and so does what an earlier standing key carries. -/
inductive Stands (root : κ → Prop) (carries : κ → κ → Prop) : κ → Prop
  | root {k : κ} (hroot : root k) : Stands root carries k
  | carried {j k : κ} (hlt : j < k) (hj : Stands root carries j) (hc : carries j k) : Stands root carries k

theorem stands_iff : Stands root carries k ↔ root k ∨ ∃ j, j < k ∧ Stands root carries j ∧ carries j k := by
  constructor
  · intro h
    cases h with
    | root hroot => exact .inl hroot
    | carried hlt hj hc => exact .inr ⟨_, hlt, hj, hc⟩
  · rintro (hroot | ⟨j, hlt, hj, hc⟩)
    · exact .root hroot
    · exact .carried hlt hj hc

theorem Stands.mono (hroot : ∀ k, root k → root' k) (hc : ∀ j k, carries j k → carries' j k)
    (h : Stands root carries k) : Stands root' carries' k := by
  induction h with
  | root hr => exact .root (hroot _ hr)
  | carried hlt _ hcar ih => exact .carried hlt ih (hc _ _ hcar)

/-- The defining equation has one solution. -/
theorem stands_unique [WellFoundedLT κ] {S : κ → Prop}
    (hS : ∀ k, S k ↔ root k ∨ ∃ j, j < k ∧ S j ∧ carries j k) (k : κ) : S k ↔ Stands root carries k := by
  induction k using WellFoundedLT.induction with
  | ind k ih =>
    rw [hS k, stands_iff]
    refine or_congr_right (exists_congr fun j => and_congr_right fun hlt => ?_)
    rw [ih j hlt]

end Stands

/-! ## The pass -/

section Pass

variable {α κ : Type} {ok : List α → α → Bool} {as : List α} {a : α}

/-- Go through `as` and keep what `ok` accepts on the strength of what was kept so far. -/
def forwardPass (ok : List α → α → Bool) (as : List α) : List α :=
  as.foldl (fun kept a => if ok kept a then kept ++ [a] else kept) []

theorem forwardPass_concat (as : List α) (a : α) :
    forwardPass ok (as ++ [a]) =
      if ok (forwardPass ok as) a then forwardPass ok as ++ [a] else forwardPass ok as := by
  unfold forwardPass
  rw [List.foldl_append]
  rfl

theorem forwardPass_sublist (as : List α) : (forwardPass ok as).Sublist as := by
  induction as using List.reverseRecOn with
  | nil => exact List.Sublist.refl _
  | append_singleton as a ih =>
    rw [forwardPass_concat]
    split
    · exact ih.append (List.Sublist.refl _)
    · exact ih.trans (List.sublist_append_left _ _)

/-- An element is kept exactly if it is accepted on the strength of the kept elements
before it. -/
theorem mem_forwardPass [LinearOrder κ] {key : α → κ} (hs : as.Pairwise fun a b => key a < key b) :
    a ∈ forwardPass ok as ↔ a ∈ as ∧ ok ((forwardPass ok as).filter fun b => key b < key a) a = true := by
  induction as using List.reverseRecOn with
  | nil => simp [forwardPass]
  | append_singleton as b ih =>
    obtain ⟨hs, -, hlt⟩ := List.pairwise_append.mp hs
    have hbefore : ∀ c ∈ as, key c < key b := fun c hc => hlt c hc b (List.mem_singleton_self b)
    have hkept : ∀ c ∈ forwardPass ok as, key c < key b := fun c hc =>
      hbefore c ((forwardPass_sublist as).subset hc)
    -- what the pass has kept after `b`, seen from a key that is at most `b`'s
    have hfilter : ∀ c, key c ≤ key b → (forwardPass ok (as ++ [b])).filter (fun d => key d < key c) =
        (forwardPass ok as).filter fun d => key d < key c := by
      intro c hc
      rw [forwardPass_concat]
      split
      · rw [List.filter_append, List.filter_cons_of_neg (by simpa using hc), List.filter_nil, List.append_nil]
      · rfl
    have hmem : a ∈ forwardPass ok (as ++ [b]) ↔
        a ∈ forwardPass ok as ∨ a = b ∧ ok (forwardPass ok as) b = true := by
      rw [forwardPass_concat]
      split
      · next hok => simp [hok]
      · next hok => simp [hok]
    rw [hmem, List.mem_append, List.mem_singleton]
    by_cases hab : a = b
    · subst hab
      have hall : (forwardPass ok as).filter (fun d => key d < key a) = forwardPass ok as :=
        List.filter_eq_self.mpr fun c hc => by simpa using hkept c hc
      rw [hfilter a le_rfl, hall]
      have hnot : a ∉ forwardPass ok as := fun h => lt_irrefl _ (hkept a h)
      simp [hnot]
    · have hle : a ∈ as → key a ≤ key b := fun h => (hbefore a h).le
      constructor
      · rintro (h | ⟨rfl, -⟩)
        · obtain ⟨hin, hok⟩ := (ih hs).mp h
          exact ⟨.inl hin, by rw [hfilter a (hle hin)]; exact hok⟩
        · exact absurd rfl hab
      · rintro ⟨hin | rfl, hok⟩
        · rw [hfilter a (hle hin)] at hok
          exact .inl ((ih hs).mpr ⟨hin, hok⟩)
        · exact absurd rfl hab

end Pass

end Lib
