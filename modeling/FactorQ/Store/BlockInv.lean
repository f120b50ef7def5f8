/-
# `FactorQ.Store.BlockInv` — the block level

The block level has the same accounting as the object level, with edges in the
place of name-versions: a generation's refcount is its edges, plus the
reservations in progress, plus what was `lost`.  On top of it stand three facts
about generations: at most one of a hash is available, an available one has its
file, and a file somebody is about to mint a row for is there unless a row is.

Two steps of a collection pass can break the last two, and only under a
condition on the state they are taken in: unlinking a file whose row is not
claimed, and deleting a row while a writer is about to mint it again over the
file that is gone.  Those conditions are hypotheses here; who can meet them is
for the modules above.
-/
import FactorQ.Store.ObjectSafety

namespace FactorQ.Store

open Lib

variable {Cid : Type}

section Generations

variable [DecidableEq Cid]

/-- The block rows count their users, and a hash has one available generation. -/
structure Generations (blocks : RefTable (Cid × Nat)) (u : Cid × Nat → ℕ) : Prop where
  counts : RefTable.Counts blocks u
  oneAvailable : OneAvailable blocks

variable {blocks blocks' : RefTable (Cid × Nat)} {ix : Index Cid} {u u' : Cid × Nat → ℕ}
  {key : Cid × Nat}

theorem Generations.step (h : Generations blocks u) (hc : RefTable.Counts blocks' u')
    (hf : ∀ k, blocks'.flag k = some true → blocks.flag k = some true) : Generations blocks' u' :=
  ⟨hc, h.oneAvailable.mono hf⟩

theorem Generations.reserve (h : Generations ix.blocks u) {hash : Cid} {now g : Nat}
    (hr : (ix.reserveBlock hash now).1 = some g)
    (hu : ∀ k, u' k = u k + if k = (hash, g) then 1 else 0) :
    Generations (ix.reserveBlock hash now).2.blocks u' := by
  rcases Index.reserveBlock_cases h.oneAvailable hash now with ⟨g', hg', hflag, hget⟩ | ⟨he, -⟩
  · obtain rfl : g' = g := Option.some.inj (hg'.symm.trans hr)
    obtain ⟨row, hrow, ha⟩ := RefTable.flag_eq_some.mp hflag
    refine h.step (h.counts.reserve now hget hrow ha hu) fun k hk => ?_
    exact (RefTable.flag_update (RefRow.reserve_available now) k).symm.trans hk
  · rw [he] at hr
    cases hr

theorem Generations.mint (h : Generations blocks u) (hnone : blocks.get? key = none)
    (hna : ∀ g, blocks.flag (key.1, g) ≠ some true) (now : Nat)
    (hu : ∀ k, u' k = u k + if k = key then 1 else 0) :
    Generations (blocks.insertNew key (RefRow.fresh now)) u' :=
  ⟨h.counts.insert hnone now hu, h.oneAvailable.mint hna⟩

end Generations

section Invariant

variable [DecidableEq Cid]

structure BlockInv (lost : Cid × Nat → ℕ) (s : State Cid) (n : Stake Cid → ℕ) : Prop extends
    Generations s.index.blocks fun k => s.index.edgeRefs k + n (.block k) + lost k where
  files : ∀ k, s.index.blocks.flag k = some true → s.disk.hasBlock k = true
  minting : ∀ k, 0 < n (.mint k) → s.index.blocks.flag k = none → s.disk.hasBlock k = true

variable {lost lost' : Cid × Nat → ℕ} {s s' : State Cid} {n n' : Stake Cid → ℕ} {key : Cid × Nat}

theorem blockInv_init (h0 : ∀ t, n t = 0) : BlockInv (fun _ => 0) State.init n where
  counts := RefTable.counts_empty.mpr fun k => by
    rw [h0]
    rfl
  oneAvailable := by rintro hash g g' ⟨⟩
  files := by rintro k ⟨⟩
  minting k hk := by
    rw [h0] at hk
    exact absurd hk (Nat.lt_irrefl 0)

section

variable (h : BlockInv lost s n)
include h

theorem BlockInv.keep
    (hc : RefTable.Counts s'.index.blocks fun k => s'.index.edgeRefs k + n' (.block k) + lost' k)
    (hf : ∀ k, s'.index.blocks.flag k = s.index.blocks.flag k)
    (hd : ∀ k, s.disk.hasBlock k = true → s'.disk.hasBlock k = true) (hm : ∀ k, n' (.mint k) ≤ n (.mint k)) :
    BlockInv lost' s' n' where
  toGenerations := h.toGenerations.step hc fun k hk => (hf k).symm.trans hk
  files k hk := hd k (h.files k ((hf k).symm.trans hk))
  minting k hp hk := hd k (h.minting k (Nat.lt_of_lt_of_le hp (hm k)) ((hf k).symm.trans hk))

/-- A step away from blocks, edges and block files. -/
theorem BlockInv.frame (hb : s'.index.blocks = s.index.blocks)
    (he : s'.index.objectBlocks = s.index.objectBlocks) (hd : s'.disk.blockFiles = s.disk.blockFiles)
    (hblk : ∀ k, n' (.block k) = n (.block k)) (hm : ∀ k, n' (.mint k) ≤ n (.mint k)) : BlockInv lost s' n' := by
  refine h.keep ?_ (fun k => by rw [hb]) (fun k hk => ?_) hm
  · rw [hb]
    refine h.counts.congr fun k => ?_
    rw [Index.edgeRefs, he, hblk, Index.edgeRefs]
  · rw [Disk.hasBlock, hd]
    exact hk

theorem BlockInv.reserve {hash : Cid} {now g : Nat} (hr : (s.index.reserveBlock hash now).1 = some g)
    (hblk : ∀ k, n' (.block k) = n (.block k) + if k = (hash, g) then 1 else 0)
    (hm : ∀ k, n' (.mint k) ≤ n (.mint k)) :
    BlockInv lost { s with index := (s.index.reserveBlock hash now).2 } n' := by
  refine h.keep (h.toGenerations.reserve hr fun k => ?_).counts
    (fun k => RefTable.flag_update (RefRow.reserve_available now) k) (fun k hk => hk) hm
  have : (s.index.reserveBlock hash now).2.edgeRefs k = s.index.edgeRefs k := rfl
  simp only [this, hblk]
  omega

theorem BlockInv.reserve_none {hash : Cid} {now : Nat} (hr : (s.index.reserveBlock hash now).1 = none) :
    (s.index.reserveBlock hash now).2 = s.index := by
  rcases Index.reserveBlock_cases h.oneAvailable hash now with ⟨g, hg, -⟩ | ⟨he, -⟩
  · rw [hg] at hr
    cases hr
  · rw [he]

/-- A file is written, or found, before its row is minted. -/
theorem BlockInv.write {bytes : Bytes} {now : Nat} (hblk : ∀ k, n' (.block k) = n (.block k))
    (hm : ∀ k, n' (.mint k) ≤ n (.mint k) + if k = key then 1 else 0) :
    BlockInv lost { s with disk := s.disk.writeBlock key bytes now } n' where
  toGenerations := h.toGenerations.step (h.counts.congr fun k => by rw [hblk]) fun _ hk => hk
  files k hk := by
    rw [Disk.hasBlock_writeBlock, h.files k hk, Bool.true_or]
  minting k hp hk := by
    rw [Disk.hasBlock_writeBlock]
    by_cases e : k = key
    · simp [e]
    · have := hm k
      rw [if_neg e] at this
      rw [h.minting k (by omega) hk, Bool.true_or]

theorem BlockInv.mint {now : Nat} (hp : 0 < n (.mint key))
    (hblk : ∀ k, n' (.block k) = n (.block k) + if (s.index.mintBlock key now).1 = true ∧ k = key then 1 else 0)
    (hm : ∀ k, n' (.mint k) ≤ n (.mint k)) :
    BlockInv lost { s with index := (s.index.mintBlock key now).2 } n' := by
  rcases s.index.mintBlock_cases key now with ⟨he, -⟩ | ⟨hnone, hna, he⟩
  · rw [he] at hblk ⊢
    exact h.frame rfl rfl rfl (fun k => by simp [hblk]) hm
  · have hfile : s.disk.hasBlock key = true := h.minting key hp (RefTable.flag_eq_none.mpr hnone)
    have hflag : ∀ k, RefTable.flag (s.index.blocks.insertNew key (RefRow.fresh now)) k
        = if k = key then some true else s.index.blocks.flag k := fun k => by
      rw [RefTable.flag_insertNew, RefTable.flag_eq_none.mpr hnone]
      rfl
    rw [he] at hblk ⊢
    refine ⟨h.toGenerations.mint hnone hna now fun k => ?_, fun k hk => ?_, fun k hpk hk => ?_⟩
    · have : Index.edgeRefs { s.index with
        blocks := s.index.blocks.insertNew key (RefRow.fresh now) } k = s.index.edgeRefs k := rfl
      simp only [this, hblk, true_and]
      omega
    · simp only [hflag] at hk
      by_cases e : k = key
      · rw [e]
        exact hfile
      · rw [if_neg e] at hk
        exact h.files k hk
    · simp only [hflag] at hk
      by_cases e : k = key
      · rw [if_pos e] at hk
        cases hk
      · rw [if_neg e] at hk
        exact h.minting k (Nat.lt_of_lt_of_le hpk (hm k)) hk

theorem BlockInv.releaseAll {ix : Index Cid} {reserved : List (Cid × Nat)}
    (hb : ix.blocks = s.index.blocks.releaseAll reserved) (he : ix.objectBlocks = s.index.objectBlocks)
    (hblk : ∀ k, n (.block k) = n' (.block k) + occ reserved k) (hm : ∀ k, n' (.mint k) ≤ n (.mint k)) :
    BlockInv lost { s with index := ix } n' := by
  refine h.keep ?_ (fun k => by rw [hb]; exact RefTable.flag_releaseAll _ _ k) (fun k hk => hk) hm
  rw [hb]
  refine h.counts.releaseAll fun k => ?_
  have : ix.edgeRefs k = s.index.edgeRefs k := by rw [Index.edgeRefs, he, Index.edgeRefs]
  simp only [this, hblk]
  omega

theorem BlockInv.release (hblk : ∀ k, n (.block k) = n' (.block k) + if k = key then 1 else 0)
    (hm : ∀ k, n' (.mint k) ≤ n (.mint k)) :
    BlockInv lost { s with index := s.index.releaseBlock key } n' := by
  have hb : (s.index.releaseBlock key).blocks = s.index.blocks.releaseAll [key] := rfl
  refine h.releaseAll hb rfl (fun k => ?_) hm
  rw [hblk, occ_cons, occ_nil, Nat.zero_add]

/-- Reservations become edges; one an edge was there for already is lost. -/
theorem BlockInv.addEdges {ix : Index Cid} {cid : Cid} {reserved : List (Cid × Nat)}
    (hb : ix.blocks = s.index.blocks) (he : ix.objectBlocks = Index.addEdges s.index.objectBlocks cid reserved)
    (hblk : ∀ k, n (.block k) = n' (.block k) + occ reserved k) (hm : ∀ k, n' (.mint k) ≤ n (.mint k)) :
    BlockInv (fun k => lost k + (s.index.edgeRefs k + occ reserved k - ix.edgeRefs k))
      { s with index := ix } n' := by
  refine h.keep ?_ (fun k => by rw [hb]) (fun k hk => hk) hm
  rw [hb]
  refine h.counts.congr fun k => ?_
  have hle : ix.edgeRefs k ≤ s.index.edgeRefs k + occ reserved k := by
    rw [Index.edgeRefs, he]
    exact Index.count_addEdges_le _ _ _ _ fun _ _ hp => of_decide_eq_true hp
  have := hblk k
  dsimp only
  omega

/-- Reservations that will not be given back any more. -/
theorem BlockInv.lose (hblk : ∀ k, n' (.block k) ≤ n (.block k)) (hm : ∀ k, n' (.mint k) ≤ n (.mint k)) :
    BlockInv (fun k => lost k + (n (.block k) - n' (.block k))) s n' := by
  refine h.keep (h.counts.congr fun k => ?_) (fun _ => rfl) (fun _ hk => hk) hm
  have := hblk k
  omega

/-- `unbind` gives back what the edges of dead objects pin. -/
theorem BlockInv.dropped {ix₀ ix : Index Cid} {r : Cid → ℕ} (hd : Index.Dropped ix₀ ix r)
    (hb₀ : ix₀.blocks = s.index.blocks) (he₀ : ix₀.objectBlocks = s.index.objectBlocks)
    (hblk : ∀ k, n' (.block k) = n (.block k)) (hm : ∀ k, n' (.mint k) ≤ n (.mint k)) :
    BlockInv lost { s with index := ix } n' := by
  have hedge : ∀ k, ix₀.edgeRefs k = s.index.edgeRefs k := fun k => by
    rw [Index.edgeRefs, he₀, Index.edgeRefs]
  refine h.keep ?_ (fun k => by rw [hd.blockFlags, hb₀]) (fun _ hk => hk) hm
  have hc := hd.blocks (fun k => n (.block k) + lost k) (by
    rw [hb₀]
    exact h.counts.congr fun k => by rw [hedge]; omega)
  exact hc.congr fun k => by dsimp only; rw [hblk]; omega

theorem BlockInv.claim (hblk : ∀ k, n' (.block k) = n (.block k)) (hm : ∀ k, n' (.mint k) ≤ n (.mint k)) :
    BlockInv lost { s with index := (s.index.claimBlock key).2 } n' := by
  have hmono : ∀ k, (s.index.blocks.claim key).2.flag k = some true →
      s.index.blocks.flag k = some true := fun k hk => by
    rcases s.index.blocks.flag_claim key k with he | ⟨rfl, -, hf, -⟩
    · exact he.symm.trans hk
    · rw [hf] at hk
      cases hk
  refine ⟨h.toGenerations.step ((h.counts.claim key).congr fun k => ?_) hmono, fun k hk => ?_,
    fun k hp hk => ?_⟩
  · have : (s.index.claimBlock key).2.edgeRefs k = s.index.edgeRefs k := rfl
    rw [this, hblk]
  · exact h.files k (hmono k hk)
  · refine h.minting k (Nat.lt_of_lt_of_le hp (hm k)) ?_
    rcases s.index.blocks.flag_claim key k with he | ⟨rfl, -, hf, -⟩
    · exact he.symm.trans hk
    · simp only [Index.claimBlock] at hk
      rw [hf] at hk
      cases hk

/-- The file of a claimed generation is unlinked, or one without a row that
nobody is about to mint. -/
theorem BlockInv.removeBlock
    (hsafe : s.index.blocks.flag key = some false ∨ (s.index.blocks.flag key = none ∧ n (.mint key) = 0))
    (hblk : ∀ k, n' (.block k) = n (.block k)) (hm : ∀ k, n' (.mint k) ≤ n (.mint k)) :
    BlockInv lost { s with disk := s.disk.removeBlock key } n' where
  toGenerations := h.toGenerations.step (h.counts.congr fun k => by rw [hblk]) fun _ hk => hk
  files k hk := by
    have hne : k ≠ key := by
      rintro rfl
      rcases hsafe with hf | ⟨hf, -⟩ <;> rw [hf] at hk <;> cases hk
    rw [Disk.hasBlock_removeBlock, h.files k hk]
    simp [hne]
  minting k hp hk := by
    have hpk := Nat.lt_of_lt_of_le hp (hm k)
    have hne : k ≠ key := by
      rintro rfl
      rcases hsafe with hf | ⟨-, h0⟩
      · rw [hf] at hk
        cases hk
      · omega
    rw [Disk.hasBlock_removeBlock, h.minting k hpk hk]
    simp [hne]

/-- The row of a claimed generation is deleted, while nobody is about to mint it
again without its file. -/
theorem BlockInv.deleteBlock (hsafe : n (.mint key) = 0 ∨ s.disk.hasBlock key = true)
    (hblk : ∀ k, n' (.block k) = n (.block k)) (hm : ∀ k, n' (.mint k) ≤ n (.mint k)) :
    BlockInv lost { s with index := s.index.deleteBlock key } n' := by
  have hmono : ∀ k, (s.index.deleteBlock key).blocks.flag k = some true →
      s.index.blocks.flag k = some true := fun k hk => by
    simp only [Index.deleteBlock, RefTable.flag_deleteClaimed] at hk
    split at hk
    · cases hk
    · exact hk
  refine ⟨h.toGenerations.step ((h.counts.deleteClaimed key).congr fun k => ?_) hmono,
    fun k hk => h.files k (hmono k hk), fun k hp hk => ?_⟩
  · have : (s.index.deleteBlock key).edgeRefs k = s.index.edgeRefs k := rfl
    rw [this, hblk]
  · have hpk := Nat.lt_of_lt_of_le hp (hm k)
    simp only [Index.deleteBlock, RefTable.flag_deleteClaimed] at hk
    split at hk
    · next e =>
      obtain ⟨rfl, -⟩ := e
      rcases hsafe with h0 | hfile
      · omega
      · exact hfile
    · exact h.minting k hpk hk

theorem BlockInv.deleteObject (cid : Cid) (hblk : ∀ k, n' (.block k) = n (.block k))
    (hm : ∀ k, n' (.mint k) ≤ n (.mint k)) :
    BlockInv (fun k => lost k + (s.index.edgeRefs k - (s.index.deleteObject cid).edgeRefs k))
      { s with index := s.index.deleteObject cid } n' := by
  refine h.keep ?_ (fun k => by rw [Index.deleteObject_blocks]) (fun _ hk => hk) hm
  rw [Index.deleteObject_blocks]
  refine h.counts.congr fun k => ?_
  have := s.index.edgeRefs_deleteObject_le cid k
  rw [hblk]
  dsimp only
  omega

end

end Invariant

/-! ## The `reserve_or_materialize` loop -/

section Loop

variable [DecidableEq Cid] {lost : Cid × Nat → ℕ} {s : State Cid} {b : Stake Cid → ℕ}

/-- The stakes after a call of the loop: still in it, or one reservation more. -/
def Materialize.after (hash : Cid) : Materialize ⊕ Nat → Stake Cid → ℕ
  | .inl point => point.stakes hash
  | .inr generation => Writer.blockStakes [(hash, generation)]

/-- Every call of the loop keeps the block level; the loop ends with a
reservation. -/
theorem Materialize.step_blockInv (hash : Cid) (bytes : Bytes) (point : Materialize)
    (h : BlockInv lost s fun t => b t + point.stakes hash t) :
    BlockInv lost (point.step s hash bytes).1
      fun t => b t + Materialize.after hash (point.step s hash bytes).2 t := by
  cases point with
  | reserve =>
    simp only [Materialize.step]
    rcases hr : (s.index.reserveBlock hash s.clock).1 with _ | g
    · rw [h.reserve_none hr]
      exact h.frame rfl rfl rfl (fun k => rfl) (fun k => le_rfl)
    · refine h.reserve hr (fun k => ?_) (fun k => le_rfl)
      simp [Materialize.after, Writer.blockStakes, occ_cons, Materialize.stakes]
  | nextGeneration => exact h.frame rfl rfl rfl (fun k => rfl) (fun k => le_rfl)
  | writeBlock g =>
    refine h.write (fun k => rfl) (fun k => ?_)
    simp [Materialize.step, Materialize.after, Materialize.stakes, Materialize.minting]
  | mint g =>
    have hp : 0 < b (.mint (hash, g)) + (Materialize.mint g).stakes hash (.mint (hash, g)) := by
      simp [Materialize.stakes, Materialize.minting]
    refine h.mint hp (fun k => ?_) (fun k => ?_)
    · simp only [Materialize.step]
      by_cases hmint : (s.index.mintBlock (hash, g) s.clock).1 = true
      · simp [hmint, Materialize.after, Writer.blockStakes, occ_cons, Materialize.stakes]
      · simp [hmint, Materialize.after, Materialize.stakes]
    · simp only [Materialize.step]
      by_cases hmint : (s.index.mintBlock (hash, g) s.clock).1 = true
      · simp [hmint, Materialize.after, Writer.blockStakes]
      · simp [hmint, Materialize.after, Materialize.stakes, Materialize.minting]

end Loop

/-! ## The collector -/

section Collector

variable [DecidableEq Cid] {lost : Cid × Nat → ℕ} {s : State Cid} {m : Stake Cid → ℕ}

/-- A collection pass keeps the block level, if what it unlinks is claimed and
no row it deletes is about to be minted over a file that is gone. -/
theorem Gc.step_blockInv (pc : Gc Cid)
    (hremove : ∀ key rest r, pc = .removeBlock key rest r →
      s.index.blocks.flag key = some false ∨
        (s.index.blocks.flag key = none ∧ m (.mint key) = 0))
    (hdelete : ∀ key rest r, pc = .deleteBlock key rest r →
      m (.mint key) = 0 ∨ s.disk.hasBlock key = true)
    (h : BlockInv lost s fun t => m t + pc.stakes t) :
    ∃ lost', BlockInv lost' (pc.step s).1
      fun t => m t + Gc.after (pc.step s).2 t := by
  have hblk : ∀ k, m (.block k) + Gc.after (pc.step s).2 (.block k)
      = m (.block k) + pc.stakes (.block k) := fun k => by
    cases (pc.step s).2 <;> rfl
  have hm : ∀ k, m (.mint k) + Gc.after (pc.step s).2 (.mint k)
      ≤ m (.mint k) + pc.stakes (.mint k) := fun k => by
    cases (pc.step s).2 <;> exact le_rfl
  cases pc with
  | claimableObjects => exact ⟨lost, h.frame rfl rfl rfl hblk hm⟩
  | claimObject cid rest r => exact ⟨lost, h.frame rfl rfl rfl hblk hm⟩
  | remove cid rest r => exact ⟨lost, h.frame rfl rfl rfl hblk hm⟩
  | deleteObject cid rest r => exact ⟨_, h.deleteObject cid hblk hm⟩
  | claimableBlocks r => exact ⟨lost, h.frame rfl rfl rfl hblk hm⟩
  | claimBlock key rest r => exact ⟨lost, h.claim hblk hm⟩
  | removeBlock key rest r => exact ⟨lost, h.removeBlock (hremove key rest r rfl) hblk hm⟩
  | deleteBlock key rest r => exact ⟨lost, h.deleteBlock (hdelete key rest r rfl) hblk hm⟩

end Collector

/-! ## The writers -/

section Writers

variable [LinearOrder Cid] {H : Hasher Cid} {lostObj : Cid → ℕ} {lost : Cid × Nat → ℕ}
  {s : State Cid} {m : Stake Cid → ℕ}

theorem Index.reserveObject_objectBlocks (ix : Index Cid) (cid : Cid) (create : Bool) (now : Nat) :
    (ix.reserveObject cid create now).2.objectBlocks = ix.objectBlocks := by
  rcases ix.reserveObject_cases cid create now with ⟨row, -, -, he⟩ | ⟨-, -, he⟩ | ⟨he, -⟩ <;> rw [he]

/-- `bind` hands every block reservation over: back to the row, or to an edge. -/
theorem BlockInv.bind {n n' : Stake Cid → ℕ} (h : BlockInv lost s n) (name : Name) (cid : Cid)
    (reserved : List (Cid × Nat)) (prevRc : Int)
    (hblk : ∀ k, n (.block k) = n' (.block k) + occ reserved k)
    (hm : ∀ k, n' (.mint k) ≤ n (.mint k)) :
    ∃ lost', BlockInv lost' { s with index := s.index.bind name cid reserved prevRc } n' := by
  rcases s.index.bind_cases name cid reserved prevRc with ⟨-, he⟩ | ⟨-, -, he⟩ | ⟨-, -, he⟩ <;>
    rw [he]
  · exact ⟨lost, h.releaseAll rfl rfl hblk hm⟩
  · exact ⟨_, h.addEdges rfl rfl hblk hm⟩
  · exact ⟨lost, h.releaseAll rfl rfl hblk hm⟩

theorem Writer.step_blockInv (pc : Writer Cid)
    (ho : ObjectInv lostObj s fun t => m t + pc.stakes H t)
    (h : BlockInv lost s fun t => m t + pc.stakes H t) :
    ∃ lost', BlockInv lost' (pc.step H s).1
      fun t => m t + (Proc.ofWriter (pc.step H s).2).stakes H t := by
  cases pc with
  | putBlock name content chunk rest reserved point =>
    rw [stakes_putBlock] at h
    simp only [← Nat.add_assoc] at h
    have h' := Materialize.step_blockInv chunk.hash (chunk.bytes content) point h
    refine ⟨lost, ?_⟩
    simp only [Writer.step]
    rcases hx : (point.step s chunk.hash (chunk.bytes content)).2 with point' | g
    · rw [hx] at h'
      simp only [Proc.ofWriter, Proc.stakes, stakes_putBlock, ← Nat.add_assoc]
      exact h'
    · rw [hx] at h'
      simp only [Proc.ofWriter, Proc.stakes, stakes_putNext]
      refine h'.frame rfl rfl rfl (fun k => ?_) (fun k => le_rfl)
      simp [blockStakes, Materialize.after, occ_append, Nat.add_assoc]
  | putReserveObject name content reserved attempt =>
    refine ⟨lost, h.frame (Index.reserveObject_blocks _ _ _ _)
      (Index.reserveObject_objectBlocks _ _ _ _) rfl (fun k => ?_) (fun k => ?_)⟩
    all_goals
      simp only [Writer.step]
      rcases (s.index.reserveObject (H.of content) true s.clock).1 with _ | prevRc
      · dsimp only
        split
        · rw [stakes_releasing]
          rfl
        · rfl
      · rfl
  | putWriteObject name content reserved prevRc =>
    exact ⟨lost, h.frame rfl rfl rfl (fun k => rfl) (fun k => le_rfl)⟩
  | putBind name content reserved prevRc =>
    exact h.bind name (H.of content) reserved prevRc (fun k => rfl) (fun k => le_rfl)
  | aliasRead name cid =>
    refine ⟨lost, h.frame rfl rfl rfl (fun k => ?_) (fun k => ?_)⟩
    all_goals
      simp only [Writer.step]
      rcases s.disk.blocks cid with e | hashes
      · rfl
      · simp only [Proc.ofWriter, Proc.stakes, stakes_aliasNext]
        rfl
  | aliasReserve name cid hash rest reserved =>
    simp only [Writer.step]
    rcases hr : (s.index.reserveBlock hash s.clock).1 with _ | g
    · -- no generation is available: the call ends and what it reserved is lost
      rw [h.reserve_none hr]
      refine ⟨_, h.lose (fun k => ?_) (fun k => ?_)⟩
      all_goals exact Nat.add_le_add_left (Nat.zero_le _) _
    · refine ⟨lost, h.reserve hr (fun k => ?_) (fun k => ?_)⟩
      · simp only [Proc.ofWriter, Proc.stakes, stakes_aliasNext]
        simp [blockStakes, Writer.stakes, Writer.reserved, occ_append, occ_cons, Nat.add_assoc]
      · simp only [Proc.ofWriter, Proc.stakes, stakes_aliasNext]
        exact le_rfl
  | aliasReserveObject name cid reserved =>
    refine ⟨lost, h.frame (Index.reserveObject_blocks _ _ _ _)
      (Index.reserveObject_objectBlocks _ _ _ _) rfl (fun k => ?_) (fun k => ?_)⟩
    all_goals
      simp only [Writer.step]
      rcases (s.index.reserveObject cid false s.clock).1 with _ | prevRc
      · dsimp only
        rw [stakes_releasing]
        rfl
      · rfl
  | aliasHas name cid reserved prevRc =>
    refine ⟨lost, h.frame rfl rfl rfl (fun k => ?_) (fun k => ?_)⟩
    all_goals
      simp only [Writer.step]
      split <;> rfl
  | aliasBind name cid reserved prevRc =>
    exact h.bind name cid reserved prevRc (fun k => rfl) (fun k => le_rfl)
  | releaseObject cid prevRc reserved error =>
    refine ⟨lost, h.frame rfl rfl rfl (fun k => ?_) (fun k => ?_)⟩
    all_goals
      simp only [Writer.step, stakes_releasing]
      rfl
  | releaseBlock key rest error =>
    refine ⟨lost, h.release (fun k => ?_) (fun k => ?_)⟩
    · simp only [Writer.step, stakes_releasing]
      simp [Writer.stakes, Writer.reserved, blockStakes, occ_cons, Nat.add_assoc]
    · simp only [Writer.step, stakes_releasing]
      exact le_rfl
  | unbind name =>
    obtain ⟨ix, he, hd⟩ := Index.unbind_dropped
      (r := fun c => m (.object c) + (Writer.unbind name).stakes H (.object c) + lostObj c) name
      (ho.counts.congr fun c => by omega)
    simp only [Writer.step, he]
    exact ⟨lost, h.dropped hd rfl rfl (fun k => rfl) (fun k => le_rfl)⟩

theorem Writer.fail_blockInv (pc : Writer Cid) (e : StoreError Cid)
    (h : BlockInv lost s fun t => m t + pc.stakes H t) :
    ∃ lost', BlockInv lost' s fun t => m t + (Proc.ofWriter (pc.fail H e)).stakes H t := by
  refine ⟨_, h.lose (fun k => Nat.add_le_add_left ?_ _) (fun k => Nat.add_le_add_left ?_ _)⟩
  all_goals
    cases pc with
    | releaseObject cid prevRc reserved error | releaseBlock key rest error =>
      rw [Writer.fail, stakes_releasing]
      first
        | exact le_rfl
        | simp [Writer.stakes, Writer.reserved, blockStakes, occ_cons]
    | _ => first
      | exact Nat.zero_le _
      | exact le_rfl

end Writers

end FactorQ.Store
