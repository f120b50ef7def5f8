/-
# `Lib.Derived` — a table derived from a log, with rows deleted from it

A projection keeps a table whose rows are computed from the entries of a log: the row of a key
is `f` of the entry with that key, or there is none.  An entry may be applied again, which
writes the same row, and rows may be deleted, but not those that `keep` picks.

What a row says beyond `f`, such as where the entry was found, is cut off by `g`.

Whatever the order of applications and deletions, the kept rows are those of the entries ever
applied (`get?_kept`, `kept_perm`), so two tables derived from the same entries agree on them.
-/
import FactorQ.Lib.Table

namespace Lib

variable {κ ν μ : Type} [DecidableEq κ]

structure Derived (g : ν → μ) (f : κ → Option μ) (keep : μ → Bool) (log : List κ) (t : Table κ ν) : Prop where
  sound : ∀ k v, t.get? k = some v → k ∈ log ∧ f k = some (g v)
  kept : ∀ k m, k ∈ log → f k = some m → keep m = true → ∃ v, t.get? k = some v

namespace Derived

variable {g : ν → μ} {f : κ → Option μ} {keep : μ → Bool} {log : List κ} {t : Table κ ν}

theorem empty : Derived g f keep [] (Table.empty : Table κ ν) :=
  ⟨nofun, nofun⟩

section

variable (h : Derived g f keep log t)
include h

theorem write {k : κ} {v : ν} (hv : f k = some (g v)) : Derived g f keep (log ++ [k]) (t.set k v) := by
  refine ⟨fun k' v' h' => ?_, fun k' m hk' hm hkeep => ?_⟩
  · rw [Table.get?_set] at h'
    split at h'
    · next heq =>
      subst heq
      cases h'
      exact ⟨List.mem_append_right _ List.mem_cons_self, hv⟩
    · obtain ⟨hlog, hf⟩ := h.sound k' v' h'
      exact ⟨List.mem_append_left _ hlog, hf⟩
  · rw [Table.get?_set]
    split
    · exact ⟨v, rfl⟩
    · next hne =>
      have hlog : k' ∈ log := (List.mem_append.mp hk').resolve_right fun hmem => hne (List.mem_singleton.mp hmem)
      exact h.kept k' m hlog hm hkeep

theorem skip {k : κ} (hk : f k = none) : Derived g f keep (log ++ [k]) t := by
  refine ⟨fun k' v' h' => ?_, fun k' m hk' hm hkeep => ?_⟩
  · obtain ⟨hlog, hf⟩ := h.sound k' v' h'
    exact ⟨List.mem_append_left _ hlog, hf⟩
  · rcases List.mem_append.mp hk' with hlog | hmem
    · exact h.kept k' m hlog hm hkeep
    · rw [List.mem_singleton.mp hmem, hk] at hm
      cases hm

theorem delete {p : κ → ν → Bool} (hp : ∀ k v, f k = some (g v) → p k v = true → keep (g v) = false) :
    Derived g f keep log (t.delete p) := by
  refine ⟨fun k v hv => ?_, fun k m hk hm hkeep => ?_⟩
  · rw [Table.get?_delete] at hv
    exact h.sound k v (Option.filter_eq_some_iff.mp hv).1
  · obtain ⟨v, hv⟩ := h.kept k m hk hm hkeep
    have hf := (h.sound k v hv).2
    refine ⟨v, ?_⟩
    rw [Table.get?_delete, hv, Option.filter_some_pos]
    cases hdel : p k v with
    | false => rfl
    | true =>
      cases hm.symm.trans hf
      cases hkeep.symm.trans (hp k v hf hdel)

/-- The kept row of a key, whatever happened to the table. -/
theorem get?_kept (k : κ) :
    ((t.get? k).map g).filter keep = if k ∈ log then (f k).filter keep else none := by
  cases hget : t.get? k with
  | some v =>
    obtain ⟨hlog, hf⟩ := h.sound k v hget
    rw [if_pos hlog, hf, Option.map_some]
  | none =>
    rw [Option.map_none, Option.filter_none]
    split
    · next hlog =>
      cases hf : f k with
      | none => rfl
      | some m =>
        rw [Option.filter_some_neg]
        refine eq_false_of_ne_true fun hkeep => ?_
        obtain ⟨v, hv⟩ := h.kept k m hlog hf hkeep
        cases hget.symm.trans hv
    · rfl

/-- The kept rows, as a list, of a log whose distinct keys are `ks`. -/
theorem kept_perm {ks : List κ} (hks : ks.Nodup) (hmem : ∀ k, k ∈ ks ↔ k ∈ log) :
    ((t.rows.map fun r => (r.1, g r.2)).filter fun r => keep r.2).Perm
      (ks.filterMap fun k => ((f k).filter keep).map fun m => (k, m)) := by
  have hleft : ((t.rows.map fun r => (r.1, g r.2)).filter fun r => keep r.2).Nodup := by
    refine List.Nodup.filter _ (List.Nodup.of_map Prod.fst ?_)
    rw [List.map_map]
    exact t.nodup
  have hright : (ks.filterMap fun k => ((f k).filter keep).map fun m => (k, m)).Nodup := by
    refine hks.filterMap fun k k' r hr hr' => ?_
    obtain ⟨m, -, rfl⟩ := Option.map_eq_some_iff.mp hr
    obtain ⟨m', -, heq⟩ := Option.map_eq_some_iff.mp hr'
    exact (congrArg Prod.fst heq).symm
  refine (List.perm_ext_iff_of_nodup hleft hright).mpr fun ⟨k, m⟩ => ?_
  have hread : (k, m) ∈ (t.rows.map fun r => (r.1, g r.2)).filter (fun r => keep r.2) ↔
      ((t.get? k).map g).filter keep = some m := by
    simp only [List.mem_filter, List.mem_map, Prod.exists, Prod.mk.injEq, Table.mem_rows, Option.filter_eq_some_iff,
      Option.map_eq_some_iff]
    constructor
    · rintro ⟨⟨k', v, hget, rfl, rfl⟩, hkeep⟩
      exact ⟨⟨v, hget, rfl⟩, hkeep⟩
    · rintro ⟨⟨v, hget, rfl⟩, hkeep⟩
      exact ⟨⟨k, v, hget, rfl, rfl⟩, hkeep⟩
  rw [hread, h.get?_kept k]
  simp only [List.mem_filterMap, Option.map_eq_some_iff, Prod.mk.injEq]
  constructor
  · intro hif
    split at hif
    · next hlog => exact ⟨k, (hmem k).mpr hlog, m, hif, rfl, rfl⟩
    · cases hif
  · rintro ⟨k', hk', m', hm', rfl, rfl⟩
    rw [if_pos ((hmem k').mp hk')]
    exact hm'

end

end Derived

end Lib
