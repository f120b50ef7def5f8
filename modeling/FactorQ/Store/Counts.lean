/-
# `FactorQ.Store.Counts` — what each index call does to the counts

One lemma per call, in the terms every later proof uses: the number of
name-versions of an object (`nameRefs`), the number of edges to a block
generation (`edgeRefs`), the edges themselves, the claim flags, and
`RefTable.Counts` for the stored refcounts.  Nothing above this module unfolds
a call.
-/
import FactorQ.Store.Index

namespace FactorQ.Store

open Lib

variable {Cid : Type}

/-- At most one generation of each hash is available to writers. -/
def OneAvailable [DecidableEq Cid] (blocks : RefTable (Cid × Nat)) : Prop :=
  ∀ hash g g', blocks.flag (hash, g) = some true → blocks.flag (hash, g') = some true → g = g'

section Available

variable [DecidableEq Cid] {blocks : RefTable (Cid × Nat)}

theorem OneAvailable.mint (h : OneAvailable blocks) {key : Cid × Nat} {row : RefRow}
    (hna : ∀ g, blocks.flag (key.1, g) ≠ some true) : OneAvailable (blocks.insertNew key row) := by
  intro hash a b ha hb
  simp only [RefTable.flag_insertNew] at ha hb
  -- a generation that was available before cannot be of the hash that was minted
  by_cases ea : (hash, a) = key <;> by_cases eb : (hash, b) = key
  · exact (Prod.mk.inj (ea.trans eb.symm)).2
  · rw [if_neg eb] at hb
    exact absurd hb (by rw [show hash = key.1 from congrArg Prod.fst ea]; exact hna b)
  · rw [if_neg ea] at ha
    exact absurd ha (by rw [show hash = key.1 from congrArg Prod.fst eb]; exact hna a)
  · rw [if_neg ea] at ha
    rw [if_neg eb] at hb
    exact h hash a b ha hb

theorem OneAvailable.mono {blocks' : RefTable (Cid × Nat)} (h : OneAvailable blocks)
    (hf : ∀ k, blocks'.flag k = some true → blocks.flag k = some true) : OneAvailable blocks' :=
  fun hash a b ha hb => h hash a b (hf _ ha) (hf _ hb)

end Available

namespace Index

variable {ix : Index Cid} {name : Name} {cid : Cid}

/-! ## Names -/

theorem mem_versions {seq : Nat} :
    (seq, cid) ∈ ix.versions name ↔ ix.nameVersions.get? (name, seq) = some cid := by
  rw [versions, List.mem_map, ← Table.mem_rows]
  constructor
  · rintro ⟨⟨⟨n, s⟩, c⟩, hm, he⟩
    obtain ⟨hm, hn⟩ := List.mem_filter.mp hm
    simp only [decide_eq_true_eq] at hn
    simp only [Prod.mk.injEq] at he
    obtain ⟨rfl, rfl⟩ := he
    rwa [← hn]
  · intro h
    exact ⟨((name, seq), cid), List.mem_filter.mpr ⟨h, by simp⟩, rfl⟩

theorem mem_history : cid ∈ ix.history name ↔ ∃ seq, (seq, cid) ∈ ix.versions name := by
  simp only [history, List.mem_map, List.mem_insertionSort]
  constructor
  · rintro ⟨⟨seq, c⟩, h, rfl⟩
    exact ⟨seq, h⟩
  · rintro ⟨seq, h⟩
    exact ⟨(seq, cid), h, rfl⟩

theorem lt_nextSeq {v : Nat × Cid} (h : v ∈ ix.versions name) : v.1 < ix.nextSeq name := by
  unfold nextSeq
  generalize ix.versions name = vs at h ⊢
  induction vs with
  | nil => exact absurd h List.not_mem_nil
  | cons w vs ih =>
    rw [List.map_cons, List.foldr_cons]
    rcases List.mem_cons.mp h with rfl | h
    · omega
    · have := ih h
      omega

theorem get?_nextSeq (ix : Index Cid) (name : Name) :
    ix.nameVersions.get? (name, ix.nextSeq name) = none := by
  rcases h : ix.nameVersions.get? (name, ix.nextSeq name) with _ | c
  · rfl
  · have := lt_nextSeq (mem_versions.mpr h)
    simp at this

variable [DecidableEq Cid]

theorem nameRefs_pos : 0 < ix.nameRefs cid ↔ ∃ name seq, (seq, cid) ∈ ix.versions name := by
  rw [nameRefs, Table.count_pos]
  constructor
  · rintro ⟨⟨name, seq⟩, c, hg, hc⟩
    simp only [decide_eq_true_eq] at hc
    subst hc
    exact ⟨name, seq, mem_versions.mpr hg⟩
  · rintro ⟨name, seq, h⟩
    exact ⟨(name, seq), cid, mem_versions.mp h, by simp⟩

theorem nameRefs_pos_of_resolve (h : ix.resolve name = some cid) : 0 < ix.nameRefs cid := by
  obtain ⟨seq, hm⟩ := mem_history.mp (List.mem_of_mem_head? h)
  exact nameRefs_pos.mpr ⟨name, seq, hm⟩

/-- Appending a version to `name`. -/
def appendVersion (ix : Index Cid) (name : Name) (cid : Cid) : Table (Name × Nat) Cid :=
  ix.nameVersions.insertNew (name, ix.nextSeq name) cid

theorem count_appendVersion (ix : Index Cid) (name : Name) (cid c : Cid) :
    ((ix.appendVersion name cid).count fun _ c' => c' = c)
      = ix.nameRefs c + if c = cid then 1 else 0 := by
  rw [appendVersion, Table.count_insertNew, nameRefs]
  have := get?_nextSeq ix name
  by_cases h : c = cid
  · simp [h, this]
  · simp [h, Ne.symm h]

/-! ## Edges -/

theorem get?_addEdges (edges : Table (Cid × Cid) Nat) (cid c h : Cid)
    (reserved : List (Cid × Nat)) :
    (addEdges edges cid reserved).get? (c, h)
      = if c = cid then (edges.get? (cid, h)).or (reserved.lookup h) else edges.get? (c, h) := by
  unfold addEdges
  induction reserved generalizing edges with
  | nil =>
    by_cases e : c = cid
    · simp [e]
    · simp [e]
  | cons b bs ih =>
    obtain ⟨h₀, g₀⟩ := b
    rw [List.foldl_cons, ih]
    simp only [Table.get?_insertNew]
    by_cases e : c = cid
    · rw [if_pos e, if_pos e, List.lookup_cons]
      by_cases eh : h = h₀
      · subst eh
        simp only [if_true, beq_self_eq_true]
        cases edges.get? (cid, h) <;> simp
      · have hb : (h == h₀) = false := beq_eq_false_iff_ne.mpr eh
        simp [eh, hb]
    · rw [if_neg e, if_neg e, if_neg (by simp [e])]

/-- The edges pin no more than was reserved for them, whichever of them are
counted. -/
theorem count_addEdges_le (edges : Table (Cid × Cid) Nat) (cid : Cid)
    (reserved : List (Cid × Nat)) (key : Cid × Nat) {p : Cid × Cid → Nat → Bool}
    (hp : ∀ e g, p e g = true → (e.2, g) = key) :
    (addEdges edges cid reserved).count p ≤ edges.count p + occ reserved key := by
  unfold addEdges
  induction reserved generalizing edges with
  | nil => simp
  | cons b bs ih =>
    rw [List.foldl_cons, occ_cons]
    refine (ih _).trans ?_
    rw [Table.count_insertNew]
    have hb : (if edges.get? (cid, b.1) = none ∧ p (cid, b.1) b.2 = true then 1 else 0)
        ≤ if key = b then 1 else 0 := by
      split
      · next h => rw [if_pos (hp _ _ h.2).symm]
      · exact Nat.zero_le _
    omega

theorem count_edgesOf (ix : Index Cid) (cid : Cid) (key : Cid × Nat) :
    occ (ix.edgesOf cid) key
      = ix.objectBlocks.count fun e g => decide ((e.2, g) = key) && decide (e.1 = cid) := by
  rw [edgesOf, Table.count, occ, List.countP_map, List.countP_filter]
  refine List.countP_congr fun r _ => ?_
  simp

theorem edgeRefs_split (ix : Index Cid) (cid : Cid) (key : Cid × Nat) :
    ix.edgeRefs key
      = ((ix.objectBlocks.delete fun e _ => e.1 = cid).count fun e g => (e.2, g) = key)
        + occ (ix.edgesOf cid) key := by
  rw [count_edgesOf, Table.count_delete, edgeRefs,
    Table.count_split _ (fun e _ => decide (e.1 = cid)), Nat.add_comm]

theorem get?_deleteEdges (edges : Table (Cid × Cid) Nat) (cid c h : Cid) :
    (edges.delete fun e _ => e.1 = cid).get? (c, h)
      = if c = cid then none else edges.get? (c, h) := by
  rw [Table.get?_delete]
  by_cases e : c = cid
  · cases edges.get? (c, h) <;> simp [e]
  · cases edges.get? (c, h) <;> simp [e]

theorem edgeRefs_pos {key : Cid × Nat} :
    0 < ix.edgeRefs key ↔ ∃ c, ix.objectBlocks.get? (c, key.1) = some key.2 := by
  rw [edgeRefs, Table.count_pos]
  constructor
  · rintro ⟨⟨c, h⟩, g, hg, he⟩
    simp only [decide_eq_true_eq] at he
    subst he
    exact ⟨c, hg⟩
  · rintro ⟨c, hg⟩
    exact ⟨(c, key.1), key.2, hg, by simp⟩

/-! ## `bind` -/

/-- The three outcomes of `bind`. -/
theorem bind_cases (ix : Index Cid) (name : Name) (cid : Cid) (reserved : List (Cid × Nat))
    (prevRc : Int) :
    (ix.resolve name = some cid ∧ ix.bind name cid reserved prevRc =
      { ix with
        objects := ix.objects.release cid
        blocks := ix.blocks.releaseAll reserved }) ∨
    (ix.resolve name ≠ some cid ∧ prevRc = 0 ∧ ix.bind name cid reserved prevRc =
      { ix with
        nameVersions := ix.appendVersion name cid
        objectBlocks := addEdges ix.objectBlocks cid reserved }) ∨
    (ix.resolve name ≠ some cid ∧ prevRc ≠ 0 ∧ ix.bind name cid reserved prevRc =
      { ix with
        nameVersions := ix.appendVersion name cid
        blocks := ix.blocks.releaseAll reserved }) := by
  unfold bind
  by_cases h : ix.resolve name = some cid
  · exact .inl ⟨h, if_pos h⟩
  · rw [if_neg h]
    by_cases hp : prevRc = 0
    · exact .inr (.inl ⟨h, hp, if_pos hp⟩)
    · exact .inr (.inr ⟨h, hp, if_neg hp⟩)

/-! ## `unbind` -/

/-- What taking references off some objects does, when `n` are left. -/
structure Dropped (ix ix' : Index Cid) (n : Cid → ℕ) : Prop where
  names : ix'.nameVersions = ix.nameVersions
  objects : RefTable.Counts ix'.objects n
  objectFlags : ∀ c, ix'.objects.flag c = ix.objects.flag c
  blocks : ∀ b : Cid × Nat → ℕ, RefTable.Counts ix.blocks (fun k => ix.edgeRefs k + b k) →
    RefTable.Counts ix'.blocks (fun k => ix'.edgeRefs k + b k)
  blockFlags : ∀ k, ix'.blocks.flag k = ix.blocks.flag k
  edges : ∀ c h, ix'.objectBlocks.get? (c, h) = ix.objectBlocks.get? (c, h) ∨
    (ix'.objectBlocks.get? (c, h) = none ∧ n c = 0)

theorem dropEdges_blocks (ix : Index Cid) (cid : Cid) {b : Cid × Nat → ℕ}
    (h : RefTable.Counts ix.blocks fun k => ix.edgeRefs k + b k) :
    RefTable.Counts (ix.dropEdges cid).blocks fun k => (ix.dropEdges cid).edgeRefs k + b k := by
  refine h.releaseAll fun k => ?_
  have := edgeRefs_split ix cid k
  have he : (ix.dropEdges cid).edgeRefs k
      = (ix.objectBlocks.delete fun e _ => e.1 = cid).count fun e g => (e.2, g) = k := rfl
  omega

theorem unbindRef_dropped {ix : Index Cid} {ref : Cid × Nat} {n : Cid → ℕ} (hpos : 0 < ref.2)
    (h : RefTable.Counts ix.objects fun c => n c + if c = ref.1 then ref.2 else 0) :
    ∃ ix', ix.unbindRef ref = some ix' ∧ Dropped ix ix' n := by
  obtain ⟨c, m⟩ := ref
  dsimp only at hpos h ⊢
  obtain ⟨row, hg, ha, hrc⟩ := h.live (k := c) (by rw [if_pos rfl]; omega)
  rw [if_pos rfl] at hrc
  have hobj : RefTable.Counts (ix.objects.modify c (RefRow.drop m)) n := by
    refine h.step fun x => ?_
    rw [Table.get?_modify]
    by_cases e : x = c
    · subst e
      rw [if_pos rfl, hg]
      refine .inr (.inl ⟨row.drop m, rfl, ?_, fun hf => ?_⟩)
      · rw [RefRow.drop_refcount, hrc]
        push_cast
        omega
      · rw [RefRow.drop_available, ha] at hf
        cases hf
    · rw [if_neg e, if_neg e]
      exact .inl ⟨rfl, rfl⟩
  have hflag : ∀ x, RefTable.flag (ix.objects.modify c (RefRow.drop m)) x = ix.objects.flag x :=
    RefTable.flag_update (RefRow.drop_available m)
  simp only [unbindRef, hg]
  by_cases h0 : row.refcount - m = 0
  · have hn : n c = 0 := by
      rw [hrc] at h0
      push_cast at h0
      omega
    rw [if_pos h0]
    refine ⟨_, rfl, rfl, hobj, hflag, fun b hb => ?_, fun k => ?_, fun x b => ?_⟩
    · exact dropEdges_blocks { ix with objects := ix.objects.modify c (RefRow.drop m) } c hb
    · exact RefTable.flag_releaseAll _ _ _
    · simp only [dropEdges, get?_deleteEdges]
      by_cases e : x = c
      · subst e
        exact .inr ⟨if_pos rfl, hn⟩
      · exact .inl (if_neg e)
  · rw [if_neg h0]
    exact ⟨_, rfl, rfl, hobj, hflag, fun b hb => hb, fun k => rfl, fun x b => .inl rfl⟩

/-- The references a list of `(cid, m)` takes off `c`. -/
def refMult (refs : List (Cid × Nat)) (c : Cid) : ℕ :=
  (refs.map fun r => if c = r.1 then r.2 else 0).sum

theorem unbindRefs_dropped (refs : List (Cid × Nat)) (hpos : ∀ r ∈ refs, 0 < r.2) :
    ∀ (ix : Index Cid) (n : Cid → ℕ),
      RefTable.Counts ix.objects (fun c => n c + refMult refs c) →
      ∃ ix', refs.foldlM unbindRef ix = some ix' ∧ Dropped ix ix' n := by
  induction refs with
  | nil =>
    intro ix n h
    exact ⟨ix, rfl, rfl, h.congr fun c => by simp [refMult], fun _ => rfl, fun _ hb => hb,
      fun _ => rfl, fun _ _ => .inl rfl⟩
  | cons r refs ih =>
    intro ix n h
    obtain ⟨ix₁, he₁, h₁⟩ :=
      unbindRef_dropped (n := fun c => n c + refMult refs c) (hpos r List.mem_cons_self)
        (h.congr fun c => by simp only [refMult, List.map_cons, List.sum_cons]; omega)
    obtain ⟨ix', he, h'⟩ := ih (fun s hs => hpos s (List.mem_cons_of_mem _ hs)) ix₁ n h₁.objects
    refine ⟨ix', ?_, ⟨h'.names.trans h₁.names, h'.objects,
      fun c => (h'.objectFlags c).trans (h₁.objectFlags c),
      fun b hb => h'.blocks b (h₁.blocks b hb),
      fun k => (h'.blockFlags k).trans (h₁.blockFlags k), fun c b => ?_⟩⟩
    · rw [List.foldlM_cons, he₁]
      exact he
    · rcases h'.edges c b with e | ⟨e, hn⟩
      · rcases h₁.edges c b with e₁ | ⟨e₁, hn₁⟩
        · exact .inl (e.trans e₁)
        · exact .inr ⟨e.trans e₁, by omega⟩
      · exact .inr ⟨e, hn⟩

theorem refMult_refsOf (ix : Index Cid) (name : Name) (c : Cid) :
    refMult (ix.refsOf name) c = occ ((ix.versions name).map Prod.snd) c := by
  simp only [refMult, refsOf, List.map_map, Function.comp_def]
  generalize (ix.versions name).map Prod.snd = cids
  have hocc : occ cids c = cids.count c := List.countP_congr fun x _ => by simp
  rw [hocc]
  by_cases h : c ∈ cids
  · have hone : (cids.dedup.map fun x => if c = x then cids.count x else 0).sum
        = cids.dedup.count c * cids.count c := by
      generalize cids.dedup = l
      induction l with
      | nil => simp
      | cons x l ih =>
        rw [List.map_cons, List.sum_cons, ih, List.count_cons]
        by_cases e : c = x
        · subst e
          simp [Nat.add_mul, Nat.add_comm]
        · simp [e, Ne.symm e]
    rw [hone, List.count_dedup, if_pos h, Nat.one_mul]
  · rw [List.count_eq_zero.mpr h]
    refine List.sum_eq_zero fun x hx => ?_
    obtain ⟨y, hy, rfl⟩ := List.mem_map.mp hx
    refine if_neg ?_
    rintro rfl
    exact h (List.mem_dedup.mp hy)

/-- The versions `unbind` deletes and the ones it leaves. -/
theorem nameRefs_split (ix : Index Cid) (name : Name) (c : Cid) :
    ix.nameRefs c = ((ix.nameVersions.delete fun k _ => k.1 = name).count fun _ c' => c' = c)
      + occ ((ix.versions name).map Prod.snd) c := by
  have hv : occ ((ix.versions name).map Prod.snd) c
      = ix.nameVersions.count fun k c' => decide (c' = c) && decide (k.1 = name) := by
    rw [versions, List.map_map, Table.count, occ, List.countP_map, List.countP_filter]
    refine List.countP_congr fun r _ => ?_
    simp
  rw [hv, Table.count_delete, nameRefs,
    Table.count_split _ (fun k _ => decide (k.1 = name)), Nat.add_comm]

theorem Dropped.nameRefs_le {ix ix' : Index Cid} {name : Name} {n : Cid → ℕ}
    (h : Dropped { ix with nameVersions := ix.nameVersions.delete fun k _ => k.1 = name } ix' n) (c : Cid) :
    ix'.nameRefs c ≤ ix.nameRefs c := by
  have := nameRefs_split ix name c
  rw [nameRefs, h.names]
  dsimp only
  omega

/-- `unbind` succeeds and leaves every count right.  `r` stands for whatever
else the objects are counted for. -/
theorem unbind_dropped {ix : Index Cid} {r : Cid → ℕ} (name : Name)
    (h : RefTable.Counts ix.objects fun c => ix.nameRefs c + r c) :
    ∃ ix', ix.unbind name = some ix' ∧
      Dropped { ix with nameVersions := ix.nameVersions.delete fun k _ => k.1 = name } ix'
        (fun c => ix'.nameRefs c + r c) := by
  set ix₀ : Index Cid := { ix with nameVersions := ix.nameVersions.delete fun k _ => k.1 = name }
    with hix₀
  have hcnt : RefTable.Counts ix₀.objects
      (fun c => (ix₀.nameRefs c + r c) + refMult (ix.refsOf name) c) := by
    refine RefTable.Counts.congr h fun c => ?_
    have := nameRefs_split ix name c
    have hn : ix₀.nameRefs c
        = (ix.nameVersions.delete fun k _ => k.1 = name).count fun _ c' => c' = c := rfl
    rw [refMult_refsOf]
    omega
  have hpos : ∀ s ∈ ix.refsOf name, 0 < s.2 := by
    intro s hs
    obtain ⟨c, hc, rfl⟩ := List.mem_map.mp hs
    exact List.count_pos_iff.mpr (List.mem_dedup.mp hc)
  obtain ⟨ix', he, hd⟩ := unbindRefs_dropped _ hpos ix₀ _ hcnt
  have hn : ∀ c, ix'.nameRefs c = ix₀.nameRefs c := fun c => by rw [nameRefs, hd.names, nameRefs]
  refine ⟨ix', he, ?_⟩
  simp only [hn]
  exact hd

/-! ## Reserving and minting blocks -/

theorem flag_of_hit {blocks : RefTable (Cid × Nat)} {hash : Cid} {r : (Cid × Nat) × RefRow}
    (hr : r ∈ blocks.rows) (hit : (decide (r.1.1 = hash) && r.2.available) = true) :
    r.1 = (hash, r.1.2) ∧ blocks.flag (hash, r.1.2) = some true := by
  obtain ⟨⟨h, g⟩, row⟩ := r
  simp only [Bool.and_eq_true, decide_eq_true_eq] at hit
  obtain ⟨rfl, ha⟩ := hit
  exact ⟨rfl, RefTable.flag_eq_some.mpr ⟨row, Table.mem_rows.mp hr, ha⟩⟩

theorem hit_of_flag {blocks : RefTable (Cid × Nat)} {hash : Cid} {g : Nat}
    (h : blocks.flag (hash, g) = some true) :
    ∃ r ∈ blocks.rows, (decide (r.1.1 = hash) && r.2.available) = true := by
  obtain ⟨row, hg, ha⟩ := RefTable.flag_eq_some.mp h
  exact ⟨((hash, g), row), Table.mem_rows.mpr hg, by simp [ha]⟩

/-- With one available generation per hash, `reserve_block` bumps that one. -/
theorem reserveBlock_cases {ix : Index Cid} (h1 : OneAvailable ix.blocks) (hash : Cid) (now : Nat) :
    (∃ g, (ix.reserveBlock hash now).1 = some g ∧ ix.blocks.flag (hash, g) = some true ∧
      ∀ k, (ix.reserveBlock hash now).2.blocks.get? k
        = if k = (hash, g) then (ix.blocks.get? (hash, g)).map (RefRow.reserve now)
          else ix.blocks.get? k) ∨
    (ix.reserveBlock hash now = (none, ix) ∧ ∀ g, ix.blocks.flag (hash, g) ≠ some true) := by
  unfold reserveBlock
  dsimp only
  rcases hf : ix.blocks.rows.find? fun r => decide (r.1.1 = hash) && r.2.available with _ | r
  · have hmiss := List.find?_eq_none.mp hf
    refine .inr ⟨?_, fun g hg => ?_⟩
    · rw [hf, Option.map_none, Table.update_eq_self fun r hr => by simpa using hmiss r hr]
    · obtain ⟨r, hr, hit⟩ := hit_of_flag hg
      exact hmiss r hr hit
  · have hr := List.mem_of_find?_eq_some hf
    have hhit : (decide (r.1.1 = hash) && r.2.available) = true :=
      List.find?_some (p := fun r : (Cid × Nat) × RefRow => decide (r.1.1 = hash) && r.2.available) hf
    obtain ⟨-, hflag⟩ := flag_of_hit hr hhit
    refine .inl ⟨r.1.2, by rw [hf]; rfl, hflag, fun k => ?_⟩
    rw [Table.get?_update]
    obtain ⟨row, hrow, ha⟩ := RefTable.flag_eq_some.mp hflag
    by_cases e : k = (hash, r.1.2)
    · subst e
      rw [if_pos rfl, hrow]
      simp [ha]
    · rw [if_neg e]
      rcases hk : ix.blocks.get? k with _ | row'
      · rfl
      · -- a second row that matched would be a second available generation
        have hmiss : (decide (k.1 = hash) && row'.available) = false := by
          by_contra hc
          obtain ⟨hk', hflag'⟩ :=
            flag_of_hit (Table.mem_rows.mpr hk) (by simpa using hc)
          exact e (hk'.trans (by rw [h1 hash _ _ hflag' hflag]))
        rw [Option.map_some, hmiss]
        rfl

theorem hasAvailable_iff {ix : Index Cid} {hash : Cid} :
    ix.hasAvailable hash = true ↔ ∃ g, ix.blocks.flag (hash, g) = some true := by
  rw [hasAvailable, List.any_eq_true]
  constructor
  · rintro ⟨r, hr, hit⟩
    exact ⟨_, (flag_of_hit hr hit).2⟩
  · rintro ⟨g, hg⟩
    exact hit_of_flag hg

theorem mintBlock_cases (ix : Index Cid) (key : Cid × Nat) (now : Nat) :
    (ix.mintBlock key now = (false, ix) ∧
      ((∃ g, ix.blocks.flag (key.1, g) = some true) ∨ ∃ r, ix.blocks.get? key = some r)) ∨
    (ix.blocks.get? key = none ∧ (∀ g, ix.blocks.flag (key.1, g) ≠ some true) ∧
      ix.mintBlock key now =
        (true, { ix with blocks := ix.blocks.insertNew key (RefRow.fresh now) })) := by
  unfold mintBlock
  by_cases h : ix.hasAvailable key.1 = true ∨ (ix.blocks.get? key).isSome = true
  · refine .inl ⟨if_pos h, ?_⟩
    rcases h with h | h
    · exact .inl (hasAvailable_iff.mp h)
    · exact .inr (Option.isSome_iff_exists.mp h)
  · obtain ⟨ha, hs⟩ := not_or.mp h
    exact .inr ⟨by simpa using hs, fun g hg => ha (hasAvailable_iff.mpr ⟨g, hg⟩), if_neg h⟩

theorem mem_generations {ix : Index Cid} {hash : Cid} {g : Nat} :
    g ∈ ix.generations hash ↔ ∃ r, ix.blocks.get? (hash, g) = some r := by
  rw [generations, List.mem_map]
  constructor
  · rintro ⟨⟨⟨h, g'⟩, row⟩, hm, rfl⟩
    obtain ⟨hm, hh⟩ := List.mem_filter.mp hm
    simp only [decide_eq_true_eq] at hh
    exact ⟨row, Table.mem_rows.mp (by rwa [← hh])⟩
  · rintro ⟨row, hg⟩
    exact ⟨((hash, g), row), List.mem_filter.mpr ⟨Table.mem_rows.mpr hg, by simp⟩, rfl⟩

/-- There is a free generation among the first `used + 1`, so the one
`next_generation` returns has no row. -/
theorem get?_nextGeneration (ix : Index Cid) (hash : Cid) :
    ix.blocks.get? (hash, ix.nextGeneration hash) = none := by
  rcases hg : ix.blocks.get? (hash, ix.nextGeneration hash) with _ | r
  · rfl
  · exfalso
    have hmem := mem_generations.mpr ⟨r, hg⟩
    unfold nextGeneration at hmem
    dsimp only at hmem
    rcases hf : (List.range ((ix.generations hash).length + 1)).find?
      (fun g => decide (g ∉ ix.generations hash)) with _ | g
    · rw [List.find?_eq_none] at hf
      have hsub : List.range ((ix.generations hash).length + 1) ⊆ ix.generations hash :=
        fun x hx => by simpa using hf x hx
      have := (List.nodup_range.subperm hsub).length_le
      rw [List.length_range] at this
      omega
    · rw [hf, Option.getD_some] at hmem
      have := List.find?_some hf
      simp [hmem] at this

/-! ## Reserving and deleting objects -/

theorem reserveObject_cases (ix : Index Cid) (cid : Cid) (create : Bool) (now : Nat) :
    (∃ row, ix.objects.get? cid = some row ∧ row.available = true ∧
      ix.reserveObject cid create now =
        (some row.refcount, { ix with objects := ix.objects.modify cid (RefRow.reserve now) })) ∨
    (ix.objects.get? cid = none ∧ create = true ∧ ix.reserveObject cid create now =
      (some 0, { ix with objects := ix.objects.insertNew cid (RefRow.fresh now) })) ∨
    (ix.reserveObject cid create now = (none, ix) ∧
      (ix.objects.flag cid = some false ∨ (ix.objects.get? cid = none ∧ create = false))) := by
  unfold reserveObject
  rcases hg : ix.objects.get? cid with _ | row
  · cases create
    · exact .inr (.inr ⟨rfl, .inr ⟨rfl, rfl⟩⟩)
    · exact .inr (.inl ⟨rfl, rfl, rfl⟩)
  · rcases ha : row.available with _ | _
    · refine .inr (.inr ⟨?_, .inl (RefTable.flag_eq_some.mpr ⟨row, hg, ha⟩)⟩)
      simp [ha]
    · refine .inl ⟨row, rfl, ha, ?_⟩
      simp [ha]

theorem deleteObject_objects (ix : Index Cid) (cid : Cid) :
    (ix.deleteObject cid).objects = ix.objects.deleteClaimed cid := by
  unfold deleteObject RefTable.deleteClaimed
  split <;> rfl

theorem deleteObject_nameVersions (ix : Index Cid) (cid : Cid) :
    (ix.deleteObject cid).nameVersions = ix.nameVersions := by
  unfold deleteObject
  split <;> rfl

theorem deleteObject_blocks (ix : Index Cid) (cid : Cid) :
    (ix.deleteObject cid).blocks = ix.blocks := by
  unfold deleteObject
  split <;> rfl

theorem get?_deleteObject_edges (ix : Index Cid) (cid c h : Cid) :
    (ix.deleteObject cid).objectBlocks.get? (c, h)
      = if c = cid ∧ ix.objects.deletable cid = true then none
        else ix.objectBlocks.get? (c, h) := by
  unfold deleteObject
  by_cases hd : ix.objects.deletable cid = true
  · simp only [hd, if_true, and_true]
    exact get?_deleteEdges _ _ _ _
  · simp [hd]

theorem edgeRefs_deleteObject_le (ix : Index Cid) (cid : Cid) (key : Cid × Nat) :
    (ix.deleteObject cid).edgeRefs key ≤ ix.edgeRefs key := by
  unfold deleteObject
  split
  · have := edgeRefs_split ix cid key
    have he : edgeRefs { ix with
          objectBlocks := ix.objectBlocks.delete fun e _ => e.1 = cid
          objects := ix.objects.erase cid } key
        = (ix.objectBlocks.delete fun e _ => e.1 = cid).count fun e g => (e.2, g) = key := rfl
    omega
  · exact le_rfl

end Index

end FactorQ.Store
