/-
# `Lib.Table` — a relational table with a primary key

A table is a list of rows, each a key and a value, in which no key occurs
twice.  The key constraint is a field, so a table that breaks it cannot be
written down and no later proof has to carry it.

The four statements a table answers to are the ones a relational store has:

    insertNew   INSERT … ON CONFLICT DO NOTHING
    set         INSERT … ON CONFLICT DO UPDATE
    update      UPDATE … WHERE p
    delete      DELETE … WHERE p

Each comes with two facts, and everything downstream is derived from those:
what a point lookup sees afterwards (`get?_…`), and what counting the rows
that satisfy a predicate gives afterwards (`count_…`).
-/
import Mathlib.Tactic

namespace Lib

/-- Rows keyed by `κ`; the key occurs at most once. -/
structure Table (κ ν : Type) where
  rows : List (κ × ν)
  nodup : (rows.map Prod.fst).Nodup

namespace Table

variable {κ ν : Type}

/-! ## The statements -/

def empty : Table κ ν := ⟨[], List.nodup_nil⟩

/-- `UPDATE … SET value = f value WHERE p`: rows keep their place. -/
def update (t : Table κ ν) (p : κ → ν → Bool) (f : ν → ν) : Table κ ν where
  rows := t.rows.map fun r => (r.1, if p r.1 r.2 then f r.2 else r.2)
  nodup := by
    rw [List.map_map]
    exact t.nodup

/-- `DELETE … WHERE p`. -/
def delete (t : Table κ ν) (p : κ → ν → Bool) : Table κ ν where
  rows := t.rows.filter fun r => !p r.1 r.2
  nodup := t.nodup.sublist (List.filter_sublist.map _)

/-- `SELECT COUNT(*) … WHERE p`. -/
def count (t : Table κ ν) (p : κ → ν → Bool) : Nat :=
  t.rows.countP fun r => p r.1 r.2

/-- `SELECT key, f value`, for the rows where `f` says something. -/
def filterMap {μ : Type} (t : Table κ ν) (f : κ → ν → Option μ) : Table κ μ where
  rows := t.rows.filterMap fun r => (f r.1 r.2).map fun m => (r.1, m)
  nodup := by
    refine t.nodup.sublist ?_
    induction t.rows with
    | nil => exact .slnil
    | cons r rows ih =>
      cases h : f r.1 r.2 with
      | none => simpa [h] using ih.cons r.1
      | some m => simpa [h] using ih.cons_cons r.1

variable [DecidableEq κ]

/-- The value stored under a key. -/
def get? (t : Table κ ν) (k : κ) : Option ν :=
  (t.rows.find? fun r => r.1 = k).map Prod.snd

/-- `INSERT … ON CONFLICT DO NOTHING`: a fresh key is appended, a taken one is
left as it is. -/
def insertNew (t : Table κ ν) (k : κ) (v : ν) : Table κ ν :=
  if h : k ∈ t.rows.map Prod.fst then t
  else
    { rows := t.rows ++ [(k, v)]
      nodup := by
        rw [List.map_append]
        exact List.nodup_append.mpr ⟨t.nodup, List.nodup_singleton _, fun a ha b hb => by
          rw [List.map_singleton, List.mem_singleton] at hb
          rintro rfl
          rw [hb] at ha
          exact h ha⟩ }

/-- `INSERT … ON CONFLICT DO UPDATE`: the value under `k` is `v` afterwards. -/
def set (t : Table κ ν) (k : κ) (v : ν) : Table κ ν :=
  (t.insertNew k v).update (fun k' _ => k' = k) (fun _ => v)

/-- `UPDATE … WHERE key = k`. -/
def modify (t : Table κ ν) (k : κ) (f : ν → ν) : Table κ ν :=
  t.update (fun k' _ => k' = k) f

/-- `DELETE … WHERE key = k`. -/
def erase (t : Table κ ν) (k : κ) : Table κ ν :=
  t.delete fun k' _ => k' = k

/-! ## Point lookups -/

variable {k : κ} {v : ν}

theorem mem_rows {t : Table κ ν} : (k, v) ∈ t.rows ↔ t.get? k = some v := by
  obtain ⟨rows, hnd⟩ := t
  simp only [get?]
  induction rows with
  | nil => simp
  | cons r rows ih =>
    simp only [List.map_cons, List.nodup_cons] at hnd
    by_cases hk : r.1 = k
    · rw [List.find?_cons_of_pos (by simpa using hk)]
      have hnot : (k, v) ∉ rows := fun hm =>
        hnd.1 (hk ▸ List.mem_map_of_mem (f := Prod.fst) hm)
      simp only [List.mem_cons, hnot, or_false, Option.map_some, Option.some.injEq]
      constructor
      · rintro rfl; rfl
      · rintro rfl; rw [← hk]
    · rw [List.find?_cons_of_neg (by simpa using hk)]
      rw [List.mem_cons, ih hnd.2, or_iff_right]
      rintro rfl
      exact hk rfl

theorem get?_eq_none {t : Table κ ν} : t.get? k = none ↔ k ∉ t.rows.map Prod.fst := by
  constructor
  · intro h hm
    obtain ⟨⟨k', v⟩, hr, rfl⟩ := List.mem_map.mp hm
    rw [mem_rows.mp hr] at h
    exact Option.some_ne_none _ h
  · intro h
    rcases hg : t.get? k with _ | v
    · rfl
    · exact absurd (List.mem_map_of_mem (f := Prod.fst) (mem_rows.mpr hg)) h

@[simp] theorem get?_empty (k : κ) : (empty : Table κ ν).get? k = none := rfl

theorem get?_update (t : Table κ ν) (p : κ → ν → Bool) (f : ν → ν) (k : κ) :
    (t.update p f).get? k = (t.get? k).map fun v => if p k v then f v else v := by
  rcases hg : t.get? k with _ | v
  · rw [Option.map_none, get?_eq_none]
    have h := get?_eq_none.mp hg
    simpa [update, List.map_map] using h
  · rw [Option.map_some, ← mem_rows]
    exact List.mem_map.mpr ⟨(k, v), mem_rows.mpr hg, rfl⟩

variable {p : κ → ν → Bool}

omit [DecidableEq κ] in
theorem update_eq_self {t : Table κ ν} {f : ν → ν} (h : ∀ r ∈ t.rows, p r.1 r.2 = false) : t.update p f = t := by
  obtain ⟨rows, hnd⟩ := t
  simp only [update, mk.injEq]
  refine (List.map_congr_left fun r hr => ?_).trans (List.map_id _)
  rw [h r hr]
  rfl

theorem get?_delete (t : Table κ ν) (p : κ → ν → Bool) (k : κ) :
    (t.delete p).get? k = (t.get? k).filter fun v => !p k v := by
  rcases hg : t.get? k with _ | v
  · rw [Option.filter_none, get?_eq_none]
    have h := get?_eq_none.mp hg
    intro hm
    exact h ((List.filter_sublist.map _).subset hm)
  · have hm := mem_rows.mpr hg
    by_cases hp : p k v
    · rw [Option.filter_some_neg (by simpa using hp), get?_eq_none]
      intro hk
      obtain ⟨⟨k', v'⟩, hr, rfl⟩ := List.mem_map.mp hk
      obtain ⟨hr, hp'⟩ := List.mem_filter.mp hr
      rw [mem_rows, hg] at hr
      cases hr
      simp [hp] at hp'
    · rw [Option.filter_some_pos (by simpa using hp), ← mem_rows]
      exact List.mem_filter.mpr ⟨hm, by simpa using hp⟩

omit [DecidableEq κ] in
theorem delete_eq_self {t : Table κ ν} (h : ∀ r ∈ t.rows, p r.1 r.2 = false) : t.delete p = t := by
  obtain ⟨rows, hnd⟩ := t
  simp only [delete, mk.injEq]
  refine List.filter_eq_self.mpr fun r hr => ?_
  rw [h r hr]
  rfl

omit [DecidableEq κ] in
theorem delete_delete (t : Table κ ν) {p q r : κ → ν → Bool} (h : ∀ k v, r k v = (p k v || q k v)) :
    (t.delete p).delete q = t.delete r := by
  simp only [delete, mk.injEq, List.filter_filter]
  refine List.filter_congr fun row _ => ?_
  rw [h, Bool.not_or, Bool.and_comm]

theorem get?_insertNew (t : Table κ ν) (k : κ) (v : ν) (k' : κ) :
    (t.insertNew k v).get? k' = if k' = k then some ((t.get? k).getD v) else t.get? k' := by
  by_cases hk : k ∈ t.rows.map Prod.fst
  · rw [insertNew, dif_pos hk]
    split
    · next h =>
      subst h
      rcases hg : t.get? k' with _ | w
      · exact absurd hk (get?_eq_none.mp hg)
      · rfl
    · rfl
  · have hn := get?_eq_none.mpr hk
    simp only [insertNew, dif_neg hk, get?, List.find?_append]
    split
    · next h =>
      subst h
      rw [get?] at hn
      rw [Option.map_eq_none_iff] at hn
      simp [hn]
    · next h =>
      have hs : List.find? (fun r : κ × ν => decide (r.1 = k')) [(k, v)] = none := by
        simp [Ne.symm h]
      rw [hs, Option.or_none]

/-- `INSERT … ON CONFLICT DO NOTHING … SELECT`, where no key is taken. -/
theorem get?_foldl_insertNew {l : List (κ × ν)} {t : Table κ ν} (hl : (l.map Prod.fst).Nodup)
    (hfresh : ∀ r ∈ l, t.get? r.1 = none) :
    (l.foldl (fun t r => t.insertNew r.1 r.2) t).get? k = some v ↔ t.get? k = some v ∨ (k, v) ∈ l := by
  induction l generalizing t with
  | nil => simp
  | cons r l ih =>
    rw [List.map_cons, List.nodup_cons] at hl
    have hr : t.get? r.1 = none := hfresh r List.mem_cons_self
    have hstill : ∀ r' ∈ l, (t.insertNew r.1 r.2).get? r'.1 = none := by
      intro r' hr'
      have hne : r'.1 ≠ r.1 := fun he => hl.1 (he ▸ List.mem_map_of_mem hr')
      rw [get?_insertNew, if_neg hne]
      exact hfresh r' (List.mem_cons_of_mem r hr')
    rw [List.foldl_cons, ih hl.2 hstill, get?_insertNew, hr, List.mem_cons]
    by_cases hk : k = r.1
    · subst hk
      have hnot : (r.1, v) ∉ l := fun hm => hl.1 (List.mem_map.mpr ⟨_, hm, rfl⟩)
      rw [if_pos rfl, hr]
      simp [hnot, Prod.ext_iff, eq_comm]
    · rw [if_neg hk]
      have hne : (k, v) ≠ r := fun he => hk (congrArg Prod.fst he)
      simp [hne]

theorem get?_set (t : Table κ ν) (k : κ) (v : ν) (k' : κ) :
    (t.set k v).get? k' = if k' = k then some v else t.get? k' := by
  rw [set, get?_update, get?_insertNew]
  by_cases h : k' = k <;> simp [h]

theorem get?_modify (t : Table κ ν) (k : κ) (f : ν → ν) (k' : κ) :
    (t.modify k f).get? k' = if k' = k then (t.get? k).map f else t.get? k' := by
  rw [modify, get?_update]
  by_cases h : k' = k
  · subst h; simp
  · simp [h]

theorem get?_erase (t : Table κ ν) (k k' : κ) :
    (t.erase k).get? k' = if k' = k then none else t.get? k' := by
  rw [erase, get?_delete]
  by_cases h : k' = k
  · subst h; cases t.get? k' <;> simp
  · cases t.get? k' <;> simp [h]

/-! ## Rows up to order -/

theorem rows_perm_cons {t : Table κ ν} (h : t.get? k = some v) :
    t.rows.Perm ((k, v) :: (t.erase k).rows) := by
  have hm := mem_rows.mpr h
  obtain ⟨rows, hnd⟩ := t
  simp only [erase, delete] at hm ⊢
  clear h
  induction rows with
  | nil => cases hm
  | cons r rest ih =>
    rw [List.map_cons, List.nodup_cons] at hnd
    by_cases hr : r.1 = k
    · have hrest : (k, v) ∉ rest := by
        intro hmem
        exact hnd.1 (hr ▸ List.mem_map_of_mem hmem)
      obtain rfl := (List.mem_cons.mp hm).resolve_right hrest
      have hkeep : rest.filter (fun x => !decide (x.1 = k)) = rest := by
        refine List.filter_eq_self.mpr fun x hx => ?_
        have hne : x.1 ≠ k := by
          intro he
          exact hnd.1 (List.mem_map.mpr ⟨x, hx, he⟩)
        simp [hne]
      rw [List.filter_cons_of_neg (by simp), hkeep]
    · have hmem : (k, v) ∈ rest := by
        rcases List.mem_cons.mp hm with he | hmem
        · exact absurd (congrArg Prod.fst he).symm hr
        · exact hmem
      rw [List.filter_cons_of_pos (by simp [hr])]
      exact ((ih hnd.2 hmem).cons r).trans (List.Perm.swap _ _ _)

theorem erase_eq_self {t : Table κ ν} (h : t.get? k = none) : t.erase k = t := by
  refine delete_eq_self fun r hr => ?_
  have hne : r.1 ≠ k := by
    intro he
    exact get?_eq_none.mp h (he ▸ List.mem_map_of_mem hr)
  simp [hne]

theorem get?_replace (t : Table κ ν) (k : κ) (v : ν) (k' : κ) :
    ((t.erase k).insertNew k v).get? k' = if k' = k then some v else t.get? k' := by
  rw [get?_insertNew, get?_erase, if_pos rfl, get?_erase]
  by_cases h : k' = k <;> simp [h]

/-! A write to the row of `k` leaves `erase k` as it was. -/

theorem erase_modify (t : Table κ ν) (k : κ) (f : ν → ν) : (t.modify k f).erase k = t.erase k := by
  obtain ⟨rows, hnd⟩ := t
  simp only [erase, delete, modify, update, mk.injEq]
  clear hnd
  induction rows with
  | nil => rfl
  | cons r rest ih =>
    by_cases hr : r.1 = k
    · simpa [hr] using ih
    · simpa [hr] using ih

theorem erase_replace (t : Table κ ν) (k : κ) (v : ν) :
    ((t.erase k).insertNew k v).erase k = t.erase k := by
  have hfree : k ∉ (t.erase k).rows.map Prod.fst := by
    refine get?_eq_none.mp ?_
    rw [get?_erase, if_pos rfl]
  have hrows : ((t.erase k).insertNew k v).rows = (t.erase k).rows ++ [(k, v)] := by
    rw [insertNew, dif_neg hfree]
  obtain ⟨rows, hnd⟩ := t
  simp only [erase, delete, mk.injEq] at hrows ⊢
  rw [hrows]
  simp

/-- What is read off the rows is what is read off one of them and off the others. -/
theorem filterMap_perm_erase {β : Type} (t : Table κ ν) (k : κ) (g : κ × ν → Option β) :
    (t.rows.filterMap g).Perm
      (((t.get? k).bind fun v => g (k, v)).toList ++ (t.erase k).rows.filterMap g) := by
  cases hk : t.get? k with
  | none =>
    rw [erase_eq_self hk]
    exact List.Perm.refl _
  | some v =>
    refine ((rows_perm_cons hk).filterMap g).trans (List.Perm.of_eq ?_)
    rw [List.filterMap_cons, Option.bind_some]
    cases g (k, v) <;> rfl

theorem get?_of_erase {t t' : Table κ ν} {k k' : κ} (h : t'.erase k = t.erase k) (hne : k' ≠ k) :
    t'.get? k' = t.get? k' := by
  have hg := congrArg (fun u => u.get? k') h
  simpa [get?_erase, hne] using hg

/-! ## Facts about every row -/

/-- `P` of every row. -/
def All (t : Table κ ν) (P : κ → ν → Prop) : Prop := ∀ k v, t.get? k = some v → P k v

variable {t t' : Table κ ν} {P : κ → ν → Prop}

theorem All.empty : (Table.empty : Table κ ν).All P := by
  intro k v hg
  cases hg

/-- A write to one row has to establish `P` there only. -/
theorem All.write (h : t.All P) (he : t'.erase k = t.erase k) (hk : ∀ v, t'.get? k = some v → P k v) : t'.All P := by
  intro k' v' hg
  by_cases hkk : k' = k
  · subst hkk
    exact hk v' hg
  · rw [get?_of_erase he hkk] at hg
    exact h k' v' hg

/-! ## Counting -/

theorem count_congr {t : Table κ ν} {p q : κ → ν → Bool}
    (h : ∀ k v, t.get? k = some v → p k v = q k v) : t.count p = t.count q :=
  List.countP_congr fun r hr => by rw [h r.1 r.2 (mem_rows.mp hr)]

theorem count_pos {t : Table κ ν} : 0 < t.count p ↔ ∃ k v, t.get? k = some v ∧ p k v = true := by
  rw [count, List.countP_pos_iff]
  constructor
  · rintro ⟨⟨k, v⟩, hr, hp⟩
    exact ⟨k, v, mem_rows.mp hr, hp⟩
  · rintro ⟨k, v, hr, hp⟩
    exact ⟨(k, v), mem_rows.mpr hr, hp⟩

omit [DecidableEq κ] in
theorem count_update (t : Table κ ν) (p q : κ → ν → Bool) (f : ν → ν) :
    (t.update p f).count q = t.count fun k v => q k (if p k v then f v else v) := by
  simp only [count, update, List.countP_map]
  rfl

omit [DecidableEq κ] in
theorem count_delete (t : Table κ ν) (p q : κ → ν → Bool) :
    (t.delete p).count q = t.count fun k v => q k v && !p k v := by
  simp only [count, delete, List.countP_filter]

omit [DecidableEq κ] in
theorem count_split (t : Table κ ν) (p q : κ → ν → Bool) :
    t.count q = (t.count fun k v => q k v && p k v) + t.count fun k v => q k v && !p k v := by
  simp only [count]
  induction t.rows with
  | nil => rfl
  | cons r rows ih =>
    simp only [List.countP_cons, ih]
    cases q r.1 r.2 <;> cases p r.1 r.2 <;> simp <;> omega

theorem count_insertNew (t : Table κ ν) (k : κ) (v : ν) (p : κ → ν → Bool) :
    (t.insertNew k v).count p
      = t.count p + if t.get? k = none ∧ p k v = true then 1 else 0 := by
  by_cases hk : k ∈ t.rows.map Prod.fst
  · have hn : ¬ t.get? k = none := fun h => get?_eq_none.mp h hk
    simp [insertNew, hk, hn]
  · have hn := get?_eq_none.mpr hk
    simp [insertNew, hk, hn, count, List.countP_append, List.countP_cons]

theorem count_erase_of_get? {t : Table κ ν} (h : t.get? k = some v) (p : κ → ν → Bool) :
    t.count p = (t.erase k).count p + if p k v then 1 else 0 := by
  have hone : (t.count fun k' v' => p k' v' && decide (k' = k)) = if p k v then 1 else 0 := by
    obtain ⟨l₁, l₂, hl⟩ := List.append_of_mem (mem_rows.mpr h)
    have hnd := t.nodup
    rw [hl, List.map_append, List.map_cons] at hnd
    obtain ⟨-, h₂, hdis⟩ := List.nodup_append.mp hnd
    have z₁ : l₁.countP (fun r => p r.1 r.2 && decide (r.1 = k)) = 0 := by
      rw [List.countP_eq_zero]
      intro r hr
      have : r.1 ≠ k := hdis r.1 (List.mem_map_of_mem hr) k List.mem_cons_self
      simp [this]
    have z₂ : l₂.countP (fun r => p r.1 r.2 && decide (r.1 = k)) = 0 := by
      rw [List.countP_eq_zero]
      intro r hr
      have hk : r.1 ∈ l₂.map Prod.fst := List.mem_map_of_mem hr
      have : r.1 ≠ k := fun e => (List.nodup_cons.mp h₂).1 (e ▸ hk)
      simp [this]
    simp [count, hl, List.countP_append, List.countP_cons, z₁, z₂]
  rw [erase, count_delete, ← hone, Nat.add_comm]
  exact count_split t (fun k' _ => k' = k) p

/-! ## Reading all rows -/

theorem get?_filterMap {μ : Type} (t : Table κ ν) (f : κ → ν → Option μ) (k : κ) :
    (t.filterMap f).get? k = (t.get? k).bind (f k) := by
  refine Option.ext fun m => ?_
  rw [← mem_rows, Option.bind_eq_some_iff]
  change (k, m) ∈ t.rows.filterMap _ ↔ _
  rw [List.mem_filterMap]
  constructor
  · rintro ⟨⟨k', v⟩, hr, hm⟩
    obtain ⟨m', hf, hkm⟩ := Option.map_eq_some_iff.1 hm
    obtain ⟨rfl, rfl⟩ := Prod.mk.inj hkm
    exact ⟨v, mem_rows.1 hr, hf⟩
  · rintro ⟨v, hv, hf⟩
    exact ⟨(k, v), mem_rows.2 hv, by rw [hf]; rfl⟩

/-- Setting every row of another table gives its values and keeps the rest. -/
theorem get?_foldl_set (l : List (κ × ν)) (hl : (l.map Prod.fst).Nodup) (k : κ) : ∀ t : Table κ ν,
    (l.foldl (fun t r => t.set r.1 r.2) t).get? k = ((l.find? fun r => r.1 = k).map Prod.snd).or (t.get? k) := by
  induction l with
  | nil => exact fun _ => rfl
  | cons r l ih =>
    intro t
    obtain ⟨hr, hl⟩ := List.nodup_cons.1 hl
    rw [List.foldl_cons, ih hl, get?_set]
    by_cases hk : r.1 = k
    · subst hk
      have hnone : l.find? (fun r' => r'.1 = r.1) = none := by
        refine List.find?_eq_none.2 fun r' hr' hk' => hr ?_
        have hk' : r'.1 = r.1 := by simpa using hk'
        exact hk' ▸ List.mem_map_of_mem hr'
      rw [hnone]
      simp
    · rw [List.find?_cons_of_neg (by simpa using hk), if_neg (Ne.symm hk)]

/-- Looking every key up is reading the table. -/
theorem flatMap_rows_perm {β : Type} {t : Table κ ν} {ks : List κ} (hks : ks.Nodup)
    (h : ∀ k v, t.get? k = some v → k ∈ ks) (g : ν → List β) :
    (t.rows.flatMap fun r => g r.2).Perm (ks.flatMap fun k => (t.get? k).toList.flatMap g) := by
  have hrows : t.rows.Perm (ks.flatMap fun k => (t.get? k).toList.map fun v => (k, v)) := by
    refine (List.perm_ext_iff_of_nodup t.nodup.of_map ?_).2 fun ⟨k, v⟩ => ?_
    · refine List.nodup_flatMap.2 ⟨fun k _ => ?_, hks.imp fun {k k'} hne r hr hr' => ?_⟩
      · cases t.get? k <;> simp
      · obtain ⟨_, _, rfl⟩ := List.mem_map.1 hr
        obtain ⟨_, _, hr'⟩ := List.mem_map.1 hr'
        exact hne (Prod.mk.inj hr').1.symm
    · simp only [mem_rows, List.mem_flatMap, List.mem_map, Option.mem_toList]
      constructor
      · exact fun hv => ⟨k, h k v hv, v, hv, rfl⟩
      · rintro ⟨k', _, v', hv, hkv⟩
        obtain ⟨rfl, rfl⟩ := Prod.mk.inj hkv
        exact hv
  refine (hrows.flatMap_right _).trans ?_
  rw [List.flatMap_assoc]
  simp only [List.flatMap_map]
  exact .refl _

/-! ## Deleting in batches -/

section Batches

/-- The list without the first `n` of its members that `q` picks. -/
def dropFirst {α : Type} (q : α → Bool) : Nat → List α → List α
  | _, [] => []
  | 0, a :: l => a :: l
  | n + 1, a :: l => if q a then dropFirst q n l else a :: dropFirst q (n + 1) l

variable {α : Type} {q : α → Bool}

theorem dropFirst_sublist (n : Nat) (l : List α) : (dropFirst q n l).Sublist l := by
  fun_induction dropFirst q n l with
  | case1 => exact .slnil
  | case2 => exact .refl _
  | case3 n a l _ ih => exact ih.cons a
  | case4 n a l _ ih => exact ih.cons_cons a

theorem countP_dropFirst (n : Nat) (l : List α) : (dropFirst q n l).countP q = l.countP q - n := by
  fun_induction dropFirst q n l with
  | case1 => simp
  | case2 => simp
  | case3 n a l ha ih => simp [ih, ha]
  | case4 n a l ha ih => simp [ih, ha]

/-- What `q` does not pick stays. -/
theorem filter_dropFirst (n : Nat) (l : List α) :
    (dropFirst q n l).filter (fun a => !q a) = l.filter fun a => !q a := by
  fun_induction dropFirst q n l with
  | case1 => rfl
  | case2 => rfl
  | case3 n a l ha ih => simp [ih, ha]
  | case4 n a l ha ih => simp [ih, ha]

/-- `DELETE … WHERE rowid IN (SELECT rowid … WHERE p LIMIT n)`. -/
def deleteLimit (t : Table κ ν) (p : κ → ν → Bool) (n : Nat) : Table κ ν where
  rows := dropFirst (fun r => p r.1 r.2) n t.rows
  nodup := t.nodup.sublist ((dropFirst_sublist n t.rows).map _)

omit [DecidableEq κ] in
theorem count_deleteLimit (t : Table κ ν) (p : κ → ν → Bool) (n : Nat) :
    (t.deleteLimit p n).count p = t.count p - n :=
  countP_dropFirst n t.rows

/-- Batch after batch, until one finds fewer rows than it may delete. -/
def deleteBatched (t : Table κ ν) (p : κ → ν → Bool) (batch : Nat) (hbatch : 0 < batch) : Table κ ν :=
  if hfew : t.count p < batch then t.deleteLimit p batch
  else
    have : (t.deleteLimit p batch).count p < t.count p := by
      rw [count_deleteLimit]
      omega
    (t.deleteLimit p batch).deleteBatched p batch hbatch
termination_by t.count p

omit [DecidableEq κ] in
/-- The batches together delete what one statement would. -/
theorem deleteBatched_eq (t : Table κ ν) (p : κ → ν → Bool) (batch : Nat) (hbatch : 0 < batch) :
    t.deleteBatched p batch hbatch = t.delete p := by
  have hdelete (t : Table κ ν) : (t.deleteLimit p batch).delete p = t.delete p := by
    have hrows : (dropFirst (fun r => p r.1 r.2) batch t.rows).filter (fun r => !p r.1 r.2) =
        t.rows.filter fun r => !p r.1 r.2 :=
      filter_dropFirst batch t.rows
    simp only [delete, deleteLimit, hrows]
  fun_induction deleteBatched t p batch hbatch with
  | case1 t hfew =>
    -- nothing that `p` picks is left, so deleting once more changes nothing
    have hzero : (t.deleteLimit p batch).count p = 0 := by
      rw [count_deleteLimit]
      omega
    rw [← hdelete]
    have hall : (t.deleteLimit p batch).rows.filter (fun r => !p r.1 r.2) = (t.deleteLimit p batch).rows :=
      List.filter_eq_self.mpr fun r hr => by simpa using List.countP_eq_zero.mp hzero r hr
    simp only [delete, hall]
  | case2 t hmany _ ih => rw [ih, hdelete]

end Batches

end Table

end Lib
