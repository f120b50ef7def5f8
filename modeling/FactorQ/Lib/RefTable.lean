/-
# `Lib.RefTable` — reference counts with a claim flag

A table whose rows carry a count of references and a flag that says whether
the row may still be referenced.  Users of the row count themselves in and out;
a reclaimer may take the flag away only from a row nobody counts on, and may
delete only a row whose flag is gone.  This is the compare-and-swap pair of
every reserve-before-use scheme:

    reserve    refcount + 1          (guarded by the caller's own condition)
    release    refcount - 1
    claim      available := false    if refcount = 0 and available
    delete     drop the row          if refcount = 0 and not available

`Counts t n` says that the stored count of every row is exactly `n`, the number
of users somebody else accounts for, and that a claimed row has none.  Each
operation has one lemma, which says how `n` changes; `n` itself stays abstract.
-/
import FactorQ.Lib.Table

namespace Lib

structure RefRow where
  refcount : Int
  available : Bool
  touchedAt : Nat
deriving DecidableEq

/-- Rows keyed by `κ` that count their references. -/
abbrev RefTable (κ : Type) := Table κ RefRow

namespace RefRow

/-- The row of a fresh entry with its first reference. -/
def fresh (now : Nat) : RefRow := ⟨1, true, now⟩

/-- One more reference, stamped. -/
def reserve (now : Nat) (r : RefRow) : RefRow :=
  { r with refcount := r.refcount + 1, touchedAt := now }

/-- `m` references fewer. -/
def drop (m : Nat) (r : RefRow) : RefRow := { r with refcount := r.refcount - m }

def dead (r : RefRow) : Bool := r.refcount = 0

@[simp] theorem reserve_available (now : Nat) (r : RefRow) :
    (r.reserve now).available = r.available := rfl

@[simp] theorem reserve_refcount (now : Nat) (r : RefRow) :
    (r.reserve now).refcount = r.refcount + 1 := rfl

@[simp] theorem drop_available (m : Nat) (r : RefRow) : (r.drop m).available = r.available := rfl

@[simp] theorem drop_refcount (m : Nat) (r : RefRow) :
    (r.drop m).refcount = r.refcount - m := rfl

end RefRow

/-- How often `k` occurs in a list, by decidable equality. -/
def occ {κ : Type} [DecidableEq κ] (ks : List κ) (k : κ) : ℕ := ks.countP fun x => x = k

section Occ

variable {κ : Type} [DecidableEq κ]

@[simp] theorem occ_nil (k : κ) : occ [] k = 0 := rfl

theorem occ_cons (x : κ) (ks : List κ) (k : κ) :
    occ (x :: ks) k = occ ks k + if k = x then 1 else 0 := by
  simp only [occ, List.countP_cons, decide_eq_true_eq]
  by_cases h : k = x
  · rw [if_pos h, if_pos h.symm]
  · rw [if_neg h, if_neg (Ne.symm h)]

theorem occ_append (ks ls : List κ) (k : κ) : occ (ks ++ ls) k = occ ks k + occ ls k :=
  List.countP_append

theorem occ_pos {ks : List κ} {k : κ} : 0 < occ ks k ↔ k ∈ ks := by
  simp [occ, List.countP_pos_iff]

end Occ

namespace RefTable

variable {κ : Type} [DecidableEq κ]

/-! ## The operations -/

def release (t : RefTable κ) (k : κ) : RefTable κ := t.modify k (RefRow.drop 1)

/-- Release one reference for each entry of the list, repeats included. -/
def releaseAll (t : RefTable κ) (ks : List κ) : RefTable κ := ks.foldl release t

/-- Lower the count to `target` if it is above and the row has been at rest since
`before`; the flag says whether it fired. -/
def reconcile (t : RefTable κ) (k : κ) (target before : Int) : Bool × RefTable κ :=
  match t.get? k with
  | some r =>
    if r.refcount > target ∧ (r.touchedAt : Int) ≤ before then
      (true, t.modify k fun r => { r with refcount := target })
    else (false, t)
  | none => (false, t)

/-- Take the flag away from an available row with no references. -/
def claim (t : RefTable κ) (k : κ) : Bool × RefTable κ :=
  match t.get? k with
  | some r =>
    if r.refcount = 0 ∧ r.available then
      (true, t.modify k fun r => { r with available := false })
    else (false, t)
  | none => (false, t)

omit [DecidableEq κ] in
/-- The rows with no references, each with its flag. -/
def claimable (t : RefTable κ) : List (κ × Bool) :=
  (t.rows.filter fun r => r.2.dead).map fun r => (r.1, r.2.available)

/-- Whether a row is claimed and has no references. -/
def deletable (t : RefTable κ) (k : κ) : Bool :=
  match t.get? k with
  | some r => r.dead && !r.available
  | none => false

/-- Delete a claimed row with no references. -/
def deleteClaimed (t : RefTable κ) (k : κ) : RefTable κ :=
  if t.deletable k then t.erase k else t

/-! ## Lookups afterwards -/

theorem get?_release (t : RefTable κ) (k k' : κ) :
    (t.release k).get? k' = if k' = k then (t.get? k).map (RefRow.drop 1) else t.get? k' :=
  Table.get?_modify _ _ _ _

theorem get?_releaseAll (ks : List κ) (k : κ) : ∀ (t : RefTable κ),
    (t.releaseAll ks).get? k = (t.get? k).map (RefRow.drop (occ ks k)) := by
  induction ks with
  | nil =>
    intro t
    have h : RefRow.drop 0 = id := by
      funext r
      simp [RefRow.drop]
    simp [releaseAll, h]
  | cons k₀ ks ih =>
    intro t
    change ((t.release k₀).releaseAll ks).get? k = _
    rw [ih, get?_release, occ_cons]
    by_cases h : k = k₀
    · subst h
      rw [if_pos rfl, if_pos rfl, Option.map_map]
      congr 1
      funext r
      simp only [Function.comp, RefRow.drop, RefRow.mk.injEq, and_true]
      push_cast
      omega
    · rw [if_neg h, if_neg h, Nat.add_zero]

theorem deletable_iff {t : RefTable κ} {k : κ} :
    t.deletable k = true ↔ ∃ r, t.get? k = some r ∧ r.refcount = 0 ∧ r.available = false := by
  unfold deletable
  rcases t.get? k with _ | r
  · simp
  · simp [RefRow.dead]

theorem get?_deleteClaimed (t : RefTable κ) (k k' : κ) :
    (t.deleteClaimed k).get? k'
      = if k' = k ∧ t.deletable k = true then none else t.get? k' := by
  unfold deleteClaimed
  by_cases h : t.deletable k = true
  · simp only [h, if_true, and_true]
    exact Table.get?_erase _ _ _
  · simp [h]

theorem mem_claimable {t : RefTable κ} {k : κ} {a : Bool} :
    (k, a) ∈ t.claimable ↔ ∃ r, t.get? k = some r ∧ r.refcount = 0 ∧ r.available = a := by
  unfold claimable
  rw [List.mem_map]
  constructor
  · rintro ⟨⟨k', r⟩, hm, he⟩
    obtain ⟨hm, hd⟩ := List.mem_filter.mp hm
    simp only [Prod.mk.injEq] at he
    obtain ⟨rfl, rfl⟩ := he
    exact ⟨r, Table.mem_rows.mp hm, by simpa [RefRow.dead] using hd, rfl⟩
  · rintro ⟨r, hg, h0, rfl⟩
    exact ⟨(k, r), List.mem_filter.mpr ⟨Table.mem_rows.mpr hg, by simpa [RefRow.dead] using h0⟩, rfl⟩

omit [DecidableEq κ] in
theorem claimable_nodup (t : RefTable κ) : (t.claimable.map Prod.fst).Nodup := by
  unfold claimable
  rw [List.map_map]
  exact t.nodup.sublist (List.filter_sublist.map _)

/-- What a claim does: it fires on a dead available row, and then only the flag
of that row changes. -/
theorem claim_cases (t : RefTable κ) (k : κ) :
    (t.claim k = (false, t) ∧ ∀ r, t.get? k = some r → ¬(r.refcount = 0 ∧ r.available = true)) ∨
    (∃ r, t.get? k = some r ∧ r.refcount = 0 ∧ r.available = true ∧ (t.claim k).1 = true ∧
      ∀ k', (t.claim k).2.get? k'
        = if k' = k then some { r with available := false } else t.get? k') := by
  unfold claim
  rcases hg : t.get? k with _ | r
  · exact .inl ⟨rfl, by simp⟩
  · by_cases h : r.refcount = 0 ∧ r.available = true
    · dsimp only
      rw [if_pos h]
      refine .inr ⟨r, rfl, h.1, h.2, rfl, fun k' => ?_⟩
      rw [Table.get?_modify, hg]
      rfl
    · exact .inl ⟨if_neg h, fun r' hr' => by cases hr'; exact h⟩

/-- What a reconcile does: it fires on a row above `target` at rest since `before`,
and then only the count of that row changes. -/
theorem reconcile_cases (t : RefTable κ) (k : κ) (target before : Int) :
    (t.reconcile k target before = (false, t) ∧
      ∀ r, t.get? k = some r → ¬(r.refcount > target ∧ (r.touchedAt : Int) ≤ before)) ∨
    (∃ r, t.get? k = some r ∧ r.refcount > target ∧ (r.touchedAt : Int) ≤ before ∧
      (t.reconcile k target before).1 = true ∧
      ∀ k', (t.reconcile k target before).2.get? k'
        = if k' = k then some { r with refcount := target } else t.get? k') := by
  unfold reconcile
  rcases hg : t.get? k with _ | r
  · exact .inl ⟨rfl, by simp⟩
  · by_cases h : r.refcount > target ∧ (r.touchedAt : Int) ≤ before
    · dsimp only
      rw [if_pos h]
      refine .inr ⟨r, rfl, h.1, h.2, rfl, fun k' => ?_⟩
      rw [Table.get?_modify, hg]
      rfl
    · exact .inl ⟨if_neg h, fun r' hr' => by cases hr'; exact h⟩

/-! ## Flags

What a reclaimer decides depends on the flags alone, so they get a view of
their own: `none` where there is no row. -/

def flag (t : RefTable κ) (k : κ) : Option Bool := (t.get? k).map RefRow.available

theorem flag_eq_some {t : RefTable κ} {k : κ} {a : Bool} :
    t.flag k = some a ↔ ∃ r, t.get? k = some r ∧ r.available = a := by
  simp [flag]

theorem flag_eq_none {t : RefTable κ} {k : κ} : t.flag k = none ↔ t.get? k = none := by
  simp [flag]

@[simp] theorem flag_empty (k : κ) : flag (Table.empty : RefTable κ) k = none := rfl

/-- An update that leaves the flags of the rows it touches leaves all flags. -/
theorem flag_update {t : RefTable κ} {p : κ → RefRow → Bool} {f : RefRow → RefRow}
    (hf : ∀ r, (f r).available = r.available) (k : κ) : flag (t.update p f) k = flag t k := by
  rw [flag, Table.get?_update, flag, Option.map_map]
  congr 1
  funext r
  simp only [Function.comp]
  split
  · exact hf r
  · rfl

@[simp] theorem flag_release (t : RefTable κ) (k k' : κ) :
    (t.release k).flag k' = t.flag k' := flag_update (RefRow.drop_available 1) k'

@[simp] theorem flag_releaseAll (t : RefTable κ) (ks : List κ) (k : κ) :
    (t.releaseAll ks).flag k = t.flag k := by
  rw [flag, get?_releaseAll, flag, Option.map_map]
  rfl

theorem flag_insertNew (t : RefTable κ) (k : κ) (r : RefRow) (k' : κ) :
    flag (t.insertNew k r) k' = if k' = k then some ((t.flag k).getD r.available) else t.flag k' := by
  simp only [flag, Table.get?_insertNew]
  split
  · cases t.get? k <;> rfl
  · rfl

theorem flag_deleteClaimed (t : RefTable κ) (k k' : κ) :
    (t.deleteClaimed k).flag k'
      = if k' = k ∧ t.deletable k = true then none else t.flag k' := by
  rw [flag, get?_deleteClaimed]
  split <;> rfl

theorem flag_claim (t : RefTable κ) (k k' : κ) :
    (t.claim k).2.flag k' = t.flag k' ∨
      (k' = k ∧ t.flag k = some true ∧ (t.claim k).2.flag k = some false ∧ (t.claim k).1 = true) := by
  rcases claim_cases t k with ⟨he, -⟩ | ⟨r, hg, -, ha, hfire, hget⟩
  · rw [he]
    exact .inl rfl
  · by_cases e : k' = k
    · subst e
      refine .inr ⟨rfl, flag_eq_some.mpr ⟨r, hg, ha⟩, ?_, hfire⟩
      rw [flag, hget, if_pos rfl]
      rfl
    · refine .inl ?_
      rw [flag, hget, if_neg e, flag]

theorem flag_of_claim {t : RefTable κ} {k : κ} (h : (t.claim k).1 = true) :
    (t.claim k).2.flag k = some false := by
  rcases claim_cases t k with ⟨he, -⟩ | ⟨r, -, -, -, -, hget⟩
  · rw [he] at h
    cases h
  · rw [flag, hget, if_pos rfl]
    rfl

@[simp] theorem flag_reconcile (t : RefTable κ) (k : κ) (target before : Int) (k' : κ) :
    (t.reconcile k target before).2.flag k' = t.flag k' := by
  rcases reconcile_cases t k target before with ⟨he, -⟩ | ⟨r, hg, -, -, -, hget⟩
  · rw [he]
  · rw [flag, hget, flag]
    split
    · next e => subst e; rw [hg]; rfl
    · rfl

/-! ## Counting users -/

/-- Every row counts exactly the `n` users of its key, a claimed row has none,
and a key without a row has none. -/
def Counts (t : RefTable κ) (n : κ → ℕ) : Prop :=
  ∀ k, match t.get? k with
    | some r => r.refcount = n k ∧ (r.available = false → n k = 0)
    | none => n k = 0

variable {t t' : RefTable κ} {n n' : κ → ℕ} {k : κ} {r : RefRow}

section

variable (h : Counts t n)
include h

theorem Counts.refcount (hg : t.get? k = some r) : r.refcount = n k := by
  have := h k
  rw [hg] at this
  exact this.1

theorem Counts.claimed (hg : t.get? k = some r) (ha : r.available = false) : n k = 0 := by
  have := h k
  rw [hg] at this
  exact this.2 ha

theorem Counts.absent (hg : t.get? k = none) : n k = 0 := by
  have := h k
  rwa [hg] at this

/-- A key somebody uses has an available row. -/
theorem Counts.live (hn : 0 < n k) :
    ∃ r, t.get? k = some r ∧ r.available = true ∧ r.refcount = n k := by
  rcases hg : t.get? k with _ | r
  · have := h.absent hg
    omega
  · refine ⟨r, rfl, ?_, h.refcount hg⟩
    by_contra ha
    have := h.claimed hg (by simpa using ha)
    omega

theorem Counts.flag_of_pos (hn : 0 < n k) : t.flag k = some true := by
  obtain ⟨r, hg, ha, -⟩ := h.live hn
  exact flag_eq_some.mpr ⟨r, hg, ha⟩

theorem Counts.zero_of_flag (hf : t.flag k ≠ some true) : n k = 0 := by
  by_contra hn
  exact hf (h.flag_of_pos (Nat.pos_of_ne_zero hn))

/-- A claim fires only where there are no users. -/
theorem Counts.zero_of_claim (hc : (RefTable.claim t k).1 = true) : n k = 0 := by
  rcases claim_cases t k with ⟨he, -⟩ | ⟨r, hg, h0, -⟩
  · rw [he] at hc
    cases hc
  · have := h.refcount hg
    omega

end

theorem counts_empty : Counts (Table.empty : RefTable κ) n ↔ ∀ k, n k = 0 := Iff.rfl

section

variable (h : Counts t n)
include h

/-- The general step: wherever the lookup or the number of users changes, the
new row is right. -/
theorem Counts.step
    (hk : ∀ k, (t'.get? k = t.get? k ∧ n' k = n k) ∨ (∃ r, t'.get? k = some r ∧ r.refcount = n' k ∧ (r.available = false → n' k = 0)) ∨ (t'.get? k = none ∧ n' k = 0)) :
    Counts t' n' := by
  intro k
  rcases hk k with ⟨hg, hn⟩ | ⟨r, hg, hr⟩ | ⟨hg, hn⟩
  · have := h k
    rw [hg, hn]
    exact this
  · rw [hg]
    exact hr
  · rw [hg]
    exact hn

theorem Counts.congr (hn : ∀ k, n' k = n k) : Counts t n' :=
  h.step fun k => .inl ⟨rfl, hn k⟩

theorem Counts.release (hn : ∀ x, n x = n' x + if x = k then 1 else 0) :
    Counts (RefTable.release t k) n' := by
  refine h.step fun x => ?_
  have hx := hn x
  rw [get?_release]
  by_cases e : x = k
  · subst e
    rw [if_pos rfl] at hx ⊢
    obtain ⟨r, hg, ha, hr⟩ := h.live (show 0 < n x by omega)
    refine .inr (.inl ⟨r.drop 1, by rw [hg]; rfl, ?_, fun hf => ?_⟩)
    · rw [RefRow.drop_refcount, hr, hx]
      push_cast
      omega
    · rw [RefRow.drop_available, ha] at hf
      cases hf
  · rw [if_neg e] at hx ⊢
    exact .inl ⟨rfl, by omega⟩

theorem Counts.releaseAll {ks : List κ} (hn : ∀ x, n x = n' x + occ ks x) :
    Counts (RefTable.releaseAll t ks) n' := by
  refine h.step fun x => ?_
  have hx := hn x
  rw [get?_releaseAll]
  rcases hg : t.get? x with _ | r
  · have := h.absent hg
    exact .inr (.inr ⟨rfl, by omega⟩)
  · have hr := h.refcount hg
    refine .inr (.inl ⟨r.drop (occ ks x), rfl, ?_, fun hf => ?_⟩)
    · rw [RefRow.drop_refcount, hr, hx]
      push_cast
      omega
    · have := h.claimed hg hf
      omega

theorem Counts.claim (k : κ) : Counts (RefTable.claim t k).2 n := by
  rcases claim_cases t k with ⟨he, -⟩ | ⟨r, hg, h0, -, -, hget⟩
  · rw [he]
    exact h
  · refine h.step fun x => ?_
    rw [hget]
    by_cases e : x = k
    · subst e
      have hr := h.refcount hg
      rw [if_pos rfl]
      exact .inr (.inl ⟨_, rfl, hr, fun _ => by omega⟩)
    · rw [if_neg e]
      exact .inl ⟨rfl, rfl⟩

theorem Counts.deleteClaimed (k : κ) : Counts (RefTable.deleteClaimed t k) n := by
  refine h.step fun x => ?_
  rw [get?_deleteClaimed]
  by_cases e : x = k ∧ t.deletable k = true
  · rw [if_pos e]
    obtain ⟨rfl, hd⟩ := e
    obtain ⟨r, hg, -, ha⟩ := deletable_iff.mp hd
    exact .inr (.inr ⟨rfl, h.claimed hg ha⟩)
  · rw [if_neg e]
    exact .inl ⟨rfl, rfl⟩

/-- Where a reconcile fires, its target is the new number of users. -/
theorem Counts.reconcile (k : κ) (target : ℕ) (before : Int)
    (hn : ∀ x, n' x = if x = k ∧ (t.reconcile k target before).1 = true then target else n x) :
    Counts (t.reconcile k target before).2 n' := by
  rcases reconcile_cases t k target before with ⟨he, -⟩ | ⟨r, hg, hgt, -, hfire, hget⟩
  · rw [he] at hn ⊢
    exact h.congr fun x => by simp [hn]
  · refine h.step fun x => ?_
    have hx := hn x
    rw [hget]
    by_cases e : x = k
    · rw [if_pos ⟨e, hfire⟩] at hx
      rw [if_pos e]
      refine .inr (.inl ⟨_, rfl, by rw [hx], fun ha => ?_⟩)
      -- a claimed row has no users, so it is not above any target
      have h0 := h.claimed hg ha
      have hr := h.refcount hg
      omega
    · rw [if_neg fun hc => e hc.1] at hx
      rw [if_neg e]
      exact .inl ⟨rfl, hx⟩

theorem Counts.insert (hg : t.get? k = none) (now : Nat) (hn : ∀ x, n' x = n x + if x = k then 1 else 0) :
    Counts (t.insertNew k (RefRow.fresh now)) n' := by
  refine h.step fun x => ?_
  have hx := hn x
  rw [Table.get?_insertNew]
  by_cases e : x = k
  · subst e
    rw [if_pos rfl] at hx ⊢
    have := h.absent hg
    refine .inr (.inl ⟨RefRow.fresh now, by rw [hg]; rfl, ?_, fun hf => by cases hf⟩)
    simp only [RefRow.fresh]
    omega
  · rw [if_neg e] at hx ⊢
    exact .inl ⟨rfl, by omega⟩

/-- One more user of an available row, whatever else the update is guarded by. -/
theorem Counts.reserve (now : Nat)
    (hget : ∀ x, t'.get? x = if x = k then (t.get? k).map (RefRow.reserve now) else t.get? x)
    (hg : t.get? k = some r) (ha : r.available = true) (hn : ∀ x, n' x = n x + if x = k then 1 else 0) :
    Counts t' n' := by
  refine h.step fun x => ?_
  have hx := hn x
  rw [hget]
  by_cases e : x = k
  · subst e
    rw [if_pos rfl] at hx ⊢
    have hr := h.refcount hg
    refine .inr (.inl ⟨r.reserve now, by rw [hg]; rfl, ?_, fun hf => ?_⟩)
    · rw [RefRow.reserve_refcount, hr, hx]
      push_cast
      rfl
    · rw [RefRow.reserve_available, ha] at hf
      cases hf
  · rw [if_neg e] at hx ⊢
    exact .inl ⟨rfl, by omega⟩

end

end RefTable

end Lib
