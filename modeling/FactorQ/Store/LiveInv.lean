/-
# `FactorQ.Store.LiveInv` — named content keeps its blocks

What ties a name to block files goes through three hands.  The manifest lists
block generations; the object's edges pin generations; and until the edges are
there, the call that brought the object to life holds reservations.  `LiveInv`
says that a named object is pinned for every block of its content by one of the
last two, and that the generations its manifest lists are the available ones —
which, since a hash has one available generation, are then the pinned ones.

The hand-over between the three happens in `bind` and in the cleanup, on the
strength of a refcount read in an earlier call.  The lemmas below state what
each of those steps needs.
-/
import Mathlib.Data.List.TakeWhile
import FactorQ.Store.BlockInv

namespace FactorQ.Store

open Lib

variable {Cid : Type}

/-- `h` is a block of the content `cid` names. -/
def Lists (H : Hasher Cid) (cid h : Cid) : Prop :=
  ∃ content, H.of content = cid ∧ h ∈ (H.chunk content).map Chunk.hash

variable {content : Bytes}

theorem lists_of {H : Hasher Cid} {h : Cid} :
    Lists H (H.of content) h ↔ h ∈ (H.chunk content).map Chunk.hash := by
  constructor
  · rintro ⟨content', he, hm⟩
    rwa [← H.of_injective he]
  · exact fun hm => ⟨content, rfl, hm⟩

section Defs

variable [DecidableEq Cid]

/-- The blocks the manifest of `cid` lists; none if there is no manifest. -/
def Disk.listed (d : Disk Cid) (cid : Cid) : List (BlockRef Cid) :=
  ((d.manifests.get? cid).map fun m => m.1.blocks).getD []

/-- Every manifest lists the blocks of the content its CID names. -/
def Shaped (H : Hasher Cid) (d : Disk Cid) : Prop :=
  ∀ cid m t, d.manifests.get? cid = some (m, t) →
    ∃ content, H.of content = cid ∧ m.blocks.map BlockRef.hash = (H.chunk content).map Chunk.hash

/-- `cid` has an edge for every block its manifest lists. -/
def Pinned (s : State Cid) (cid : Cid) : Prop :=
  ∀ b ∈ s.disk.listed cid, (s.index.objectBlocks.get? (cid, b.hash)).isSome = true

instance (s : State Cid) (cid : Cid) : Decidable (Pinned s cid) :=
  inferInstanceAs (Decidable (∀ b ∈ s.disk.listed cid, _))

/-- `cid` has an edge for every block of its content. -/
def Complete (H : Hasher Cid) (ix : Index Cid) (cid : Cid) : Prop :=
  ∀ h, Lists H cid h → (ix.objectBlocks.get? (cid, h)).isSome = true

structure LiveInv (H : Hasher Cid) (s : State Cid) (n : Stake Cid → ℕ) : Prop where
  shaped : Shaped H s.disk
  backed : ∀ c, 0 < s.index.nameRefs c → Complete H s.index c ∨ 0 < n (.first c)
  live : ∀ c, 0 < s.index.nameRefs c + n (.written c) →
    ∀ b ∈ s.disk.listed c, s.index.blocks.flag b.key = some true

/-- A call that brought an object to life, or wrote its manifest, holds all its
blocks. -/
def Covered (H : Hasher Cid) (n : Stake Cid → ℕ) : Prop :=
  ∀ c, 0 < n (.first c) + n (.written c) → ∀ h, Lists H c h → ∃ g, 0 < n (.block (h, g))

variable {H : Hasher Cid} {s s' : State Cid} {n n' : Stake Cid → ℕ} {cid : Cid}

theorem Shaped.lists (h : Shaped H s.disk) {b : BlockRef Cid} (hb : b ∈ s.disk.listed cid) :
    Lists H cid b.hash := by
  unfold Disk.listed at hb
  rcases hm : s.disk.manifests.get? cid with _ | ⟨m, t⟩
  · rw [hm] at hb
    exact absurd hb List.not_mem_nil
  · rw [hm] at hb
    obtain ⟨content, he, hblocks⟩ := h cid m t hm
    exact ⟨content, he, hblocks ▸ List.mem_map_of_mem hb⟩

/-- Where the manifest is there, pinned means complete. -/
theorem Shaped.complete (h : Shaped H s.disk) (hhas : s.disk.has cid = true) (hp : Pinned s cid) :
    Complete H s.index cid := by
  obtain ⟨⟨m, t⟩, hm⟩ := Option.isSome_iff_exists.mp hhas
  obtain ⟨content, rfl, hblocks⟩ := h cid m t hm
  intro b hb
  rw [lists_of, ← hblocks] at hb
  obtain ⟨r, hr, rfl⟩ := List.mem_map.mp hb
  exact hp r (by rw [Disk.listed, hm]; exact hr)

/-! ## What keeps named content -/

/-- A step that leaves names, edges and manifests alone and takes no flag away. -/
theorem LiveInv.frame (h : LiveInv H s n)
    (hv : s'.index.nameVersions = s.index.nameVersions)
    (he : s'.index.objectBlocks = s.index.objectBlocks)
    (hd : s'.disk.manifests = s.disk.manifests)
    (hf : ∀ k, s.index.blocks.flag k = some true → s'.index.blocks.flag k = some true)
    (hfirst : ∀ c, n (.first c) ≤ n' (.first c))
    (hw : ∀ c, n' (.written c) ≤ n (.written c)) : LiveInv H s' n' := by
  have hn : ∀ c, s'.index.nameRefs c = s.index.nameRefs c := fun c => by
    rw [Index.nameRefs, hv, Index.nameRefs]
  refine ⟨fun c m t hm => h.shaped c m t (hd ▸ hm), fun c hc => ?_, fun c hc b hb => ?_⟩
  · rw [hn] at hc
    rcases h.backed c hc with hcomp | hp
    · exact .inl fun b hb => by rw [he]; exact hcomp b hb
    · exact .inr (Nat.lt_of_lt_of_le hp (hfirst c))
  · rw [hn] at hc
    rw [Disk.listed, hd] at hb
    have := hw c
    exact hf _ (h.live c (by omega) b hb)

theorem LiveInv.write (h : LiveInv H s n) {m : Manifest Cid} {now : Nat}
    (hshape : m.blocks.map BlockRef.hash = (H.chunk content).map Chunk.hash)
    (hflag : ∀ b ∈ m.blocks, s.index.blocks.flag b.key = some true) (hfirst : ∀ c, n (.first c) ≤ n' (.first c))
    (hw : ∀ c, c ≠ H.of content → n' (.written c) ≤ n (.written c)) :
    LiveInv H { s with disk := s.disk.writeObject (H.of content) m now } n' := by
  refine ⟨fun c m' t hm => ?_, fun c hc => ?_, fun c hc b hb => ?_⟩
  · rw [Disk.get?_manifests_writeObject] at hm
    split at hm
    · next e =>
      cases hm
      exact ⟨content, e.symm, hshape⟩
    · exact h.shaped c m' t hm
  · rcases h.backed c hc with hcomp | hp
    · exact .inl hcomp
    · exact .inr (Nat.lt_of_lt_of_le hp (hfirst c))
  · simp only [Disk.listed, Disk.get?_manifests_writeObject] at hb
    by_cases e : c = H.of content
    · rw [if_pos e] at hb
      exact hflag b hb
    · rw [if_neg e] at hb
      have := hw c e
      simp only at hc
      exact h.live c (by omega) b hb

variable {ix : Index Cid}

section

variable (h : LiveInv H s n)
include h

/-- A version of `cid` is appended: somebody must pin its blocks, and its
manifest must list available generations. -/
theorem LiveInv.append {name : Name} (hv : ix.nameVersions = s.index.appendVersion name cid)
    (he : ∀ c b, (s.index.objectBlocks.get? (c, b)).isSome = true → (ix.objectBlocks.get? (c, b)).isSome = true)
    (hf : ∀ k, ix.blocks.flag k = s.index.blocks.flag k) (hback : Complete H ix cid ∨ 0 < n' (.first cid))
    (hlive : ∀ b ∈ s.disk.listed cid, s.index.blocks.flag b.key = some true)
    (hfirst : ∀ c, c ≠ cid → n (.first c) ≤ n' (.first c)) (hw : ∀ c, n' (.written c) ≤ n (.written c)) :
    LiveInv H { s with index := ix } n' := by
  have hn : ∀ c, c ≠ cid → ix.nameRefs c = s.index.nameRefs c := fun c hc => by
    rw [Index.nameRefs, hv, Index.count_appendVersion, if_neg hc]
    rfl
  refine ⟨h.shaped, fun c hc => ?_, fun c hc b hb => ?_⟩
  · by_cases e : c = cid
    · rw [e]
      exact hback
    · simp only [hn c e] at hc
      rcases h.backed c hc with hcomp | hp
      · exact .inl fun b hb => he c b (hcomp b hb)
      · exact .inr (Nat.lt_of_lt_of_le hp (hfirst c e))
  · simp only [hf]
    by_cases e : c = cid
    · rw [e] at hb
      exact hlive b hb
    · simp only [hn c e] at hc
      have := hw c
      exact h.live c (by omega) b hb

/-- A call lets go of an object: one it brought to life and that is named must be
pinned without it. -/
theorem LiveInv.letGo (cid : Cid) (hv : ix.nameVersions = s.index.nameVersions)
    (he : ix.objectBlocks = s.index.objectBlocks) (hf : ∀ k, ix.blocks.flag k = s.index.blocks.flag k)
    (hback : 0 < s.index.nameRefs cid → 0 < n (.first cid) → Complete H s.index cid ∨ 0 < n' (.first cid))
    (hfirst : ∀ c, c ≠ cid → n (.first c) ≤ n' (.first c)) (hw : ∀ c, n' (.written c) ≤ n (.written c)) :
    LiveInv H { s with index := ix } n' := by
  have hn : ∀ c, ix.nameRefs c = s.index.nameRefs c := fun c => by
    rw [Index.nameRefs, hv, Index.nameRefs]
  have hcomplete : ∀ c, Complete H s.index c → Complete H ix c := fun c hc b hb => by
    rw [he]
    exact hc b hb
  refine ⟨h.shaped, fun c hc => ?_, fun c hc b hb => ?_⟩
  · simp only [hn] at hc
    rcases h.backed c hc with hcomp | hp
    · exact .inl (hcomplete c hcomp)
    · by_cases e : c = cid
      · subst e
        exact (hback hc hp).imp (hcomplete c) id
      · exact .inr (Nat.lt_of_lt_of_le hp (hfirst c e))
  · simp only [hn] at hc
    simp only [hf]
    have := hw c
    exact h.live c (by omega) b hb

/-- `unbind` takes edges only from objects that lose their last reference. -/
theorem LiveInv.dropped {name : Name} {r : Cid → ℕ}
    (hd : Index.Dropped { s.index with nameVersions := s.index.nameVersions.delete fun k _ => k.1 = name } ix
      (fun c => ix.nameRefs c + r c))
    (hfirst : ∀ c, n (.first c) ≤ n' (.first c))
    (hw : ∀ c, n' (.written c) ≤ n (.written c)) : LiveInv H { s with index := ix } n' := by
  refine ⟨h.shaped, fun c hc => ?_, fun c hc b hb => ?_⟩
  · rcases h.backed c (Nat.lt_of_lt_of_le hc (hd.nameRefs_le c)) with hcomp | hp
    · refine .inl fun b hb => ?_
      rcases hd.edges c b with e | ⟨-, h0⟩
      · rw [e]
        exact hcomp b hb
      · simp only at hc
        omega
    · exact .inr (Nat.lt_of_lt_of_le hp (hfirst c))
  · have h1 := hd.nameRefs_le c
    have h2 := hw c
    simp only at hc
    rw [hd.blockFlags]
    exact h.live c (by omega) b hb

theorem LiveInv.remove (cid : Cid) (hfirst : ∀ c, n (.first c) ≤ n' (.first c))
    (hw : ∀ c, n' (.written c) ≤ n (.written c)) :
    LiveInv H { s with disk := s.disk.remove cid } n' := by
  refine ⟨fun c m t hm => ?_, fun c hc => ?_, fun c hc b hb => ?_⟩
  · rw [Disk.get?_manifests_remove] at hm
    split at hm
    · cases hm
    · exact h.shaped c m t hm
  · exact (h.backed c hc).imp id fun hp => Nat.lt_of_lt_of_le hp (hfirst c)
  · simp only [Disk.listed, Disk.get?_manifests_remove] at hb
    split at hb
    · exact absurd hb List.not_mem_nil
    · have := hw c
      simp only at hc
      exact h.live c (by omega) b hb

theorem LiveInv.deleteObject {lostObj : Cid → ℕ} (ho : ObjectInv lostObj s n) (cid : Cid)
    (hfirst : ∀ c, n (.first c) ≤ n' (.first c)) (hw : ∀ c, n' (.written c) ≤ n (.written c)) :
    LiveInv H { s with index := s.index.deleteObject cid } n' := by
  have hn : ∀ c, (s.index.deleteObject cid).nameRefs c = s.index.nameRefs c := fun c => by
    rw [Index.nameRefs, Index.deleteObject_nameVersions, Index.nameRefs]
  refine ⟨h.shaped, fun c hc => ?_, fun c hc b hb => ?_⟩
  · simp only [hn] at hc
    rcases h.backed c hc with hcomp | hp
    · refine .inl fun b hb => ?_
      have hkeep : ¬ (c = cid ∧ s.index.objects.deletable cid = true) := by
        rintro ⟨rfl, hdel⟩
        obtain ⟨row, hg, -, ha⟩ := RefTable.deletable_iff.mp hdel
        have := ho.counts.claimed hg ha
        omega
      rw [Index.get?_deleteObject_edges, if_neg hkeep]
      exact hcomp b hb
    · exact .inr (Nat.lt_of_lt_of_le hp (hfirst c))
  · simp only [hn] at hc
    have := hw c
    simp only [Index.deleteObject_blocks]
    exact h.live c (by omega) b hb

end

/-- The users of the block rows include the edges of named objects and the
reservations in progress. -/
structure Accounts (u : Cid × Nat → ℕ) (s : State Cid) (n : Stake Cid → ℕ) : Prop extends
    Generations s.index.blocks u where
  edge : ∀ c b g, 0 < s.index.nameRefs c → s.index.objectBlocks.get? (c, b) = some g → 0 < u (b, g)
  held : ∀ k, 0 < n (.block k) → 0 < u k

theorem BlockInv.accounts {lost : Cid × Nat → ℕ} (h : BlockInv lost s n) :
    Accounts (fun k => s.index.edgeRefs k + n (.block k) + lost k) s n where
  toGenerations := h.toGenerations
  edge c b g _ hg := by
    have : 0 < s.index.edgeRefs (b, g) := Index.edgeRefs_pos.mpr ⟨c, hg⟩
    omega
  held k hk := by omega

variable {u : Cid × Nat → ℕ}

/-- The generation a live manifest lists is referenced: by an edge, or by the
reservation of whoever brought the object to life or wrote the manifest. -/
theorem LiveInv.referenced (h : LiveInv H s n) (hb : Accounts u s n) (hcov : Covered H n)
    {c : Cid} (hc : 0 < s.index.nameRefs c + n (.written c)) {b : BlockRef Cid}
    (hm : b ∈ s.disk.listed c) : 0 < u b.key := by
  have hlists := h.shaped.lists hm
  have hflag := h.live c hc b hm
  -- a referenced generation of this hash is the one the manifest lists
  have hsame : ∀ g, 0 < u (b.hash, g) → 0 < u b.key := by
    intro g hg
    rw [hb.oneAvailable b.hash g b.generation (hb.counts.flag_of_pos hg) hflag] at hg
    exact hg
  have hheld : 0 < n (.first c) + n (.written c) → 0 < u b.key := by
    intro hpos
    obtain ⟨g, hg⟩ := hcov c hpos b.hash hlists
    exact hsame g (hb.held _ hg)
  by_cases hname : 0 < s.index.nameRefs c
  · rcases h.backed c hname with hcomp | hp
    · obtain ⟨g, hg⟩ := Option.isSome_iff_exists.mp (hcomp b.hash hlists)
      exact hsame g (hb.edge c b.hash g hname hg)
    · exact hheld (by omega)
  · exact hheld (by omega)

theorem LiveInv.claim (h : LiveInv H s n) (hb : Accounts u s n) (hcov : Covered H n)
    (key : Cid × Nat) (hfirst : ∀ c, n (.first c) ≤ n' (.first c))
    (hw : ∀ c, n' (.written c) ≤ n (.written c)) :
    LiveInv H { s with index := (s.index.claimBlock key).2 } n' := by
  refine ⟨h.shaped, fun c hc => ?_, fun c hc b hm => ?_⟩
  · exact (h.backed c hc).imp id fun hp => Nat.lt_of_lt_of_le hp (hfirst c)
  · have hpos : 0 < s.index.nameRefs c + n (.written c) := by
      have := hw c
      have : (s.index.claimBlock key).2.nameRefs c = s.index.nameRefs c := rfl
      simp only [this] at hc
      omega
    have hflag := h.live c hpos b hm
    rcases s.index.blocks.flag_claim key b.key with he | ⟨e, -, -, hcl⟩
    · exact he.trans hflag
    · have h0 := hb.counts.zero_of_claim hcl
      have := h.referenced hb hcov hpos hm
      rw [e] at this
      omega

end Defs

/-! ## The collector -/

section Collector

variable [DecidableEq Cid] {H : Hasher Cid} {lostObj : Cid → ℕ} {u : Cid × Nat → ℕ}
  {s : State Cid} {m : Stake Cid → ℕ}

/-- A collection pass takes nothing a live manifest lists. -/
theorem Gc.step_liveInv (pc : Gc Cid) (ho : ObjectInv lostObj s fun t => m t + pc.stakes t)
    (hb : Accounts u s fun t => m t + pc.stakes t)
    (hcov : Covered H fun t => m t + pc.stakes t) (h : LiveInv H s fun t => m t + pc.stakes t) :
    LiveInv H (pc.step s).1 fun t => m t + Gc.after (pc.step s).2 t := by
  have hfirst : ∀ c, m (.first c) + pc.stakes (.first c)
      ≤ m (.first c) + Gc.after (pc.step s).2 (.first c) := fun c => by
    cases (pc.step s).2 <;> exact le_rfl
  have hw : ∀ c, m (.written c) + Gc.after (pc.step s).2 (.written c)
      ≤ m (.written c) + pc.stakes (.written c) := fun c => by
    cases (pc.step s).2 <;> exact le_rfl
  cases pc with
  | claimableObjects => exact h.frame rfl rfl rfl (fun _ hk => hk) hfirst hw
  | claimObject cid rest r => exact h.frame rfl rfl rfl (fun _ hk => hk) hfirst hw
  | remove cid rest r => exact h.remove cid hfirst hw
  | deleteObject cid rest r => exact h.deleteObject ho cid hfirst hw
  | claimableBlocks r => exact h.frame rfl rfl rfl (fun _ hk => hk) hfirst hw
  | claimBlock key rest r => exact h.claim hb hcov key hfirst hw
  | removeBlock key rest r => exact h.frame rfl rfl rfl (fun _ hk => hk) hfirst hw
  | deleteBlock key rest r =>
    refine h.frame rfl rfl rfl (fun k hk => ?_) hfirst hw
    simp only [Gc.step, Index.deleteBlock, RefTable.flag_deleteClaimed]
    rw [if_neg ?_]
    · exact hk
    · rintro ⟨rfl, hdel⟩
      obtain ⟨row, hg, -, ha⟩ := RefTable.deletable_iff.mp hdel
      rw [RefTable.flag_eq_some.mpr ⟨row, hg, ha⟩] at hk
      cases hk

end Collector

/-! ## The writers -/

variable {r : List (Cid × Nat)}

theorem occ_pos_of_mem_fst [DecidableEq Cid] {b : Cid} (h : b ∈ r.map Prod.fst) :
    ∃ g, r.lookup b = some g ∧ 0 < occ r (b, g) := by
  induction r with
  | nil => exact absurd h List.not_mem_nil
  | cons x r ih =>
    obtain ⟨b', g⟩ := x
    by_cases e : b = b'
    · subst e
      exact ⟨g, List.lookup_cons_self, by simp [occ_cons]⟩
    · obtain ⟨g', hg, hp⟩ := ih ((List.mem_cons.mp h).resolve_left e)
      refine ⟨g', ?_, ?_⟩
      · rw [List.lookup_cons, beq_false_of_ne e]
        exact hg
      · rw [occ_cons]
        omega

section Covers

namespace Writer

/-- The object a call reserves the blocks of, and the blocks it has still to get
to. -/
def target (H : Hasher Cid) : Writer Cid → Option (Cid × List Cid)
  | putBlock _ content chunk rest _ _ => some (H.of content, (chunk :: rest).map Chunk.hash)
  | putReserveObject _ content _ _ | putWriteObject _ content _ _ | putBind _ content _ _ =>
    some (H.of content, [])
  | aliasReserve _ cid hash rest _ => some (cid, hash :: rest)
  | aliasReserveObject _ cid _ | aliasHas _ cid _ _ | aliasBind _ cid _ _
  | releaseObject cid _ _ _ => some (cid, [])
  | aliasRead .. | releaseBlock .. | unbind _ => none

/-- Every block of that object is reserved or still to come. -/
def Covers (H : Hasher Cid) (pc : Writer Cid) : Prop :=
  ∀ c todo, pc.target H = some (c, todo) →
    ∀ h, Lists H c h → h ∈ pc.reserved.map Prod.fst ∨ h ∈ todo

variable {H : Hasher Cid}

variable {pc : Writer Cid}

theorem Covers.reserved (h : pc.Covers H) {c : Cid} (ht : pc.target H = some (c, [])) {b : Cid}
    (hb : Lists H c b) :
    b ∈ pc.reserved.map Prod.fst :=
  (h c [] ht b hb).resolve_right List.not_mem_nil

theorem covers_releasing {e : StoreError Cid} (hx : releasing r e = .inl pc) : pc.Covers H := by
  cases r with
  | nil => cases hx
  | cons key rest =>
    obtain rfl := Sum.inl.inj hx
    rintro c todo ⟨⟩

theorem covers_aliasNext {name : Name} {cid : Cid} {hashes : List Cid}
    (h : ∀ b, Lists H cid b → b ∈ r.map Prod.fst ∨ b ∈ hashes) :
    (aliasNext name cid hashes r).Covers H := by
  cases hashes with
  | nil =>
    rintro c todo ⟨⟩
    exact h
  | cons hash rest =>
    rintro c todo ⟨⟩
    exact h

theorem covers_putNext [DecidableEq Cid] {name : Name} {chunks : List (Chunk Cid)}
    (h : ∀ b, Lists H (H.of content) b → b ∈ r.map Prod.fst ∨ b ∈ chunks.map Chunk.hash) :
    (putNext name content chunks r).Covers H := by
  -- what is skipped is reserved
  have hskip : ∀ b, Lists H (H.of content) b → b ∈ r.map Prod.fst ∨
      b ∈ (chunks.dropWhile fun c => c.hash ∈ r.map Prod.fst).map Chunk.hash := by
    intro b hb
    rcases h b hb with hr | hc
    · exact .inl hr
    · rw [← List.takeWhile_append_dropWhile (p := fun c : Chunk Cid => c.hash ∈ r.map Prod.fst)
        (l := chunks), List.map_append, List.mem_append] at hc
      rcases hc with hc | hc
      · obtain ⟨c, hm, rfl⟩ := List.mem_map.mp hc
        have hin := List.mem_takeWhile_imp hm
        exact .inl (of_decide_eq_true hin)
      · exact .inr hc
  unfold putNext
  split
  · next he =>
    rw [he] at hskip
    rintro c todo ⟨⟩
    exact hskip
  · next chunk rest he =>
    rw [he] at hskip
    rintro c todo ⟨⟩
    exact hskip

theorem covers_put [DecidableEq Cid] (H : Hasher Cid) (name : Name) (content : Bytes) :
    (put H name content).Covers H :=
  covers_putNext fun _ hb => .inr (lists_of.mp hb)

theorem target_of_holds {c : Cid} {prevRc : Int} (h : pc.holds H = some (c, prevRc)) :
    pc.target H = some (c, []) := by
  cases pc <;> cases h <;> rfl

theorem target_of_wrote {c : Cid} (h : pc.wrote H = some c) : pc.target H = some (c, []) := by
  cases pc with
  | putBind name content reserved prevRc =>
    cases h
    rfl
  | _ => cases h

/-- What holds the object and has its blocks covered holds every block. -/
theorem Covers.covered [DecidableEq Cid] (h : pc.Covers H) : Covered H (pc.stakes H) := by
  intro c hc b hb
  have ht : pc.target H = some (c, []) := by
    by_cases hh : pc.holds H = some (c, 0)
    · exact target_of_holds hh
    · rw [Writer.stakes, Writer.stakes, one, if_neg hh, Nat.zero_add, one] at hc
      exact target_of_wrote (by_contra fun hw => absurd hc (by rw [if_neg hw]; exact Nat.lt_irrefl 0))
  obtain ⟨⟨b', g⟩, hm, rfl⟩ := List.mem_map.mp (h.reserved ht hb)
  exact ⟨g, occ_pos.mpr hm⟩

end Writer

end Covers

section Writers

variable [LinearOrder Cid] {H : Hasher Cid} {lostObj : Cid → ℕ} {u : Cid × Nat → ℕ}
  {s : State Cid} {m : Stake Cid → ℕ}

theorem mem_destutter' (a x : Cid) (l : List Cid) :
    x ∈ l.destutter' (· ≠ ·) a ↔ x = a ∨ x ∈ l := by
  induction l generalizing a with
  | nil => simp
  | cons b l ih =>
    by_cases e : a = b
    · subst e
      rw [List.destutter'_cons_neg _ (by simp), ih]
      simp
    · rw [List.destutter'_cons_pos _ e, List.mem_cons, ih, List.mem_cons]

theorem Writer.mem_sortDedup {x : Cid} {l : List Cid} : x ∈ Writer.sortDedup l ↔ x ∈ l := by
  have hsort : x ∈ l ↔ x ∈ l.insertionSort (· ≤ ·) := (List.mem_insertionSort (· ≤ ·)).symm
  rw [Writer.sortDedup, hsort]
  cases l.insertionSort (· ≤ ·) with
  | nil => rfl
  | cons a l' => rw [List.destutter_cons', mem_destutter', List.mem_cons]

variable {reserved : List (Cid × Nat)}

omit [LinearOrder Cid] in
theorem reserved_next {b hash : Cid} {rest : List Cid} {g : Nat}
    (h : b ∈ reserved.map Prod.fst ∨ b ∈ hash :: rest) : b ∈ (reserved ++ [(hash, g)]).map Prod.fst ∨ b ∈ rest := by
  rw [List.map_append, List.mem_append]
  rcases h with hr | hc
  · exact .inl (.inl hr)
  · rcases List.mem_cons.mp hc with rfl | hc
    · exact .inl (.inr (.head _))
    · exact .inr hc

theorem Writer.step_covers (pc : Writer Cid) (hs : Shaped H s.disk) (h : pc.Covers H)
    {pc' : Writer Cid} (hx : (pc.step H s).2 = .inl pc') : pc'.Covers H := by
  cases pc with
  | putBlock name content chunk rest reserved point =>
    simp only [Writer.step, Sum.inl.injEq] at hx
    rcases hp : (point.step s chunk.hash (chunk.bytes content)).2 with point' | g
    · rw [hp] at hx
      subst hx
      exact h
    · rw [hp] at hx
      subst hx
      exact covers_putNext fun b hb => reserved_next (h _ _ rfl b hb)
  | putReserveObject name content reserved attempt =>
    simp only [Writer.step] at hx
    rcases hr : (s.index.reserveObject (H.of content) true s.clock).1 with _ | prevRc
    · simp only [hr] at hx
      split at hx
      · exact covers_releasing hx
      · obtain rfl := Sum.inl.inj hx
        exact h
    · simp only [hr] at hx
      obtain rfl := Sum.inl.inj hx
      exact h
  | putWriteObject name content reserved prevRc =>
    obtain rfl := Sum.inl.inj hx
    exact h
  | putBind name content reserved prevRc => cases hx
  | aliasRead name cid =>
    simp only [Writer.step, Disk.blocks, Disk.readManifest] at hx
    rcases hm : s.disk.manifests.get? cid with _ | ⟨mf, t⟩
    · rw [hm] at hx
      cases hx
    · rw [hm] at hx
      obtain rfl := Sum.inl.inj hx
      obtain ⟨content, rfl, hblocks⟩ := hs cid mf t hm
      refine covers_aliasNext fun b hb => .inr ?_
      rw [mem_sortDedup]
      exact hblocks ▸ lists_of.mp hb
  | aliasReserve name cid hash rest reserved =>
    simp only [Writer.step] at hx
    rcases hr : (s.index.reserveBlock hash s.clock).1 with _ | g
    · rw [hr] at hx
      cases hx
    · rw [hr] at hx
      obtain rfl := Sum.inl.inj hx
      exact covers_aliasNext fun b hb => reserved_next (h _ _ rfl b hb)
  | aliasReserveObject name cid reserved =>
    simp only [Writer.step] at hx
    rcases hr : (s.index.reserveObject cid false s.clock).1 with _ | prevRc
    · simp only [hr] at hx
      exact covers_releasing hx
    · simp only [hr] at hx
      obtain rfl := Sum.inl.inj hx
      exact h
  | aliasHas name cid reserved prevRc =>
    simp only [Writer.step] at hx
    split at hx <;> obtain rfl := Sum.inl.inj hx <;> exact h
  | aliasBind name cid reserved prevRc => cases hx
  | releaseObject cid prevRc reserved error => exact covers_releasing hx
  | releaseBlock key rest error => exact covers_releasing hx
  | unbind name =>
    simp only [Writer.step] at hx
    split at hx <;> cases hx

omit [LinearOrder Cid] in
theorem Writer.fail_covers (pc : Writer Cid) (e : StoreError Cid) (h : pc.Covers H)
    {pc' : Writer Cid} (hx : pc.fail H e = .inl pc') : pc'.Covers H := by
  cases pc with
  | putWriteObject _ _ _ _ | putBind _ _ _ _ | aliasHas _ _ _ _ | aliasBind _ _ _ _ =>
    obtain rfl := Sum.inl.inj hx
    exact h
  | releaseObject _ _ _ _ | releaseBlock _ _ _ => exact covers_releasing hx
  | _ => cases hx

/-! ### Handing over -/

namespace Writer

/-- A `bind` records edges only where it appends a version at a refcount that was
zero.  Appending at another refcount it relies on edges that are there, and
finding the version current it gives up what it may have brought to life. -/
def bindUnpins (s : State Cid) (name : Name) (cid : Cid) (prevRc : Int) : Option Cid :=
  if decide (s.index.resolve name = some cid) = decide (prevRc = 0) then some cid else none

/-- The cleanup of a call that brought an object to life, while it is named. -/
def abandons (s : State Cid) : Writer Cid → Option Cid
  | releaseObject cid prevRc _ _ =>
    if prevRc = 0 ∧ 0 < s.index.nameRefs cid then some cid else none
  | _ => none

/-- The object whose block reservations the next call gives back, or finds given
back, without recording edges for them. -/
def unpins (H : Hasher Cid) (s : State Cid) : Writer Cid → Option Cid
  | putBind name content _ prevRc => bindUnpins s name (H.of content) prevRc
  | aliasBind name cid _ prevRc => bindUnpins s name cid prevRc
  | pc => pc.abandons s

/-- The object about to be bound over a manifest the call did not write, and the
generations the call reserved. -/
def aliasing : Writer Cid → Option (Cid × List (Cid × Nat))
  | aliasBind _ cid reserved _ => some (cid, reserved)
  | _ => none

end Writer

theorem Complete.addEdges {ix : Index Cid} {cid : Cid}
    (he : ix.objectBlocks = Index.addEdges s.index.objectBlocks cid reserved)
    (hcov : ∀ b, Lists H cid b → b ∈ reserved.map Prod.fst) : Complete H ix cid := by
  intro b hb
  obtain ⟨g, hg, -⟩ := occ_pos_of_mem_fst (hcov b hb)
  rw [he, Index.get?_addEdges, if_pos rfl, hg]
  cases s.index.objectBlocks.get? (cid, b) <;> rfl

/-- `bind` keeps named content, if what it unpins is pinned otherwise. -/
theorem LiveInv.bind {n n' : Stake Cid → ℕ} (h : LiveInv H s n) (ho : ObjectInv lostObj s n) {name : Name}
    {cid : Cid} {prevRc : Int} (hseen : 0 < n (.present cid))
    (hcov : ∀ b, Lists H cid b → b ∈ reserved.map Prod.fst)
    (hunpin : ∀ c ∈ Writer.bindUnpins s name cid prevRc, Pinned s c ∨ 0 < n' (.first c))
    (hlive : s.index.resolve name ≠ some cid → ∀ b ∈ s.disk.listed cid, s.index.blocks.flag b.key = some true)
    (hown : ∀ c, n (.first c) = n' (.first c) + if c = cid ∧ prevRc = 0 then 1 else 0)
    (hw : ∀ c, n' (.written c) ≤ n (.written c)) :
    LiveInv H { s with index := s.index.bind name cid reserved prevRc } n' := by
  have hfirst : ∀ c, c ≠ cid → n (.first c) ≤ n' (.first c) := fun c hc => by
    rw [hown c, if_neg fun e => hc e.1]
    exact le_rfl
  have hpin : Pinned s cid ∨ 0 < n' (.first cid) → Complete H s.index cid ∨ 0 < n' (.first cid) :=
    fun hp => hp.imp (h.shaped.complete (ho.present cid (by omega))) id
  rcases s.index.bind_cases name cid reserved prevRc with ⟨hcur, he⟩ | ⟨hcur, hp, he⟩ | ⟨hcur, hp, he⟩
  · rw [he]
    refine h.letGo cid rfl rfl (RefTable.flag_releaseAll _ _) (fun _ hpos => ?_) hfirst hw
    by_cases hp : prevRc = 0
    · exact hpin (hunpin cid (by simp [Writer.bindUnpins, hcur, hp]))
    · rw [hown cid, if_neg fun e => hp e.2] at hpos
      exact .inr hpos
  · rw [he]
    refine h.append rfl (fun c b hb => ?_) (fun _ => rfl) (.inl (Complete.addEdges rfl hcov))
      (hlive hcur) hfirst hw
    simp only [Index.get?_addEdges]
    split
    · next e =>
      subst e
      obtain ⟨g, hg⟩ := Option.isSome_iff_exists.mp hb
      rw [hg]
      rfl
    · exact hb
  · rw [he]
    refine h.append rfl (fun c b hb => hb) (RefTable.flag_releaseAll _ _)
      (hpin (hunpin cid (by simp [Writer.bindUnpins, hcur, hp]))) (hlive hcur) hfirst hw

/-- The cleanup leaves the object, whether or not its release takes effect: one it
brought to life and that is named must be pinned without it. -/
theorem LiveInv.abandon {cid : Cid} {prevRc : Int} {error : StoreError Cid} {ix : Index Cid}
    (h : LiveInv H s fun t => m t + (Writer.releaseObject cid prevRc reserved error).stakes H t)
    (ho : ObjectInv lostObj s fun t => m t + (Writer.releaseObject cid prevRc reserved error).stakes H t)
    (hunpin : ∀ c ∈ (Writer.releaseObject cid prevRc reserved error).abandons s, Pinned s c ∨ 0 < m (.first c))
    (hv : ix.nameVersions = s.index.nameVersions) (he : ix.objectBlocks = s.index.objectBlocks)
    (hf : ∀ k, ix.blocks.flag k = s.index.blocks.flag k) :
    LiveInv H { s with index := ix } fun t => m t + Writer.blockStakes reserved t := by
  have hown : ∀ c, (Writer.releaseObject cid prevRc reserved error).stakes H (.first c)
      = if c = cid ∧ prevRc = 0 then 1 else 0 := fun c => by
    simp [Writer.stakes, Writer.holds, one, eq_comm]
  refine h.letGo cid hv he hf (fun hn hpos => ?_) (fun c hc => ?_) (fun c => le_rfl)
  · by_cases hp : prevRc = 0
    · refine (hunpin cid (by simp [Writer.abandons, hp, hn])).imp (fun hpin => ?_) id
      exact h.shaped.complete (ho.present cid (by omega)) hpin
    · rw [hown, if_neg fun e => hp e.2] at hpos
      exact .inr hpos
  · rw [hown, if_neg fun e => hc e.1]
    exact le_rfl

theorem Index.reserveObject_nameVersions (ix : Index Cid) (cid : Cid) (create : Bool) (now : Nat) :
    (ix.reserveObject cid create now).2.nameVersions = ix.nameVersions := by
  rcases ix.reserveObject_cases cid create now with ⟨row, -, -, he⟩ | ⟨-, -, he⟩ | ⟨he, -⟩ <;> rw [he]

/-- Every call a writer makes keeps named content, if what it unpins is pinned
otherwise, and an unnamed object it aliases has a manifest that lists what it
reserved. -/
theorem Writer.step_liveInv (pc : Writer Cid)
    (ho : ObjectInv lostObj s fun t => m t + pc.stakes H t)
    (hb : Accounts u s fun t => m t + pc.stakes H t) (hcov : pc.Covers H)
    (hunpin : ∀ c ∈ pc.unpins H s, Pinned s c ∨ 0 < m (.first c))
    (halias : ∀ a ∈ pc.aliasing, 0 < s.index.nameRefs a.1 ∨ ∀ b ∈ s.disk.listed a.1, b.key ∈ a.2)
    (h : LiveInv H s fun t => m t + pc.stakes H t) :
    LiveInv H (pc.step H s).1 fun t => m t + (Proc.ofWriter (pc.step H s).2).stakes H t := by
  have hheld : ∀ k, 0 < occ pc.reserved k → s.index.blocks.flag k = some true := fun k hk =>
    hb.counts.flag_of_pos (hb.held k (by simp only [Writer.stakes]; omega))
  cases pc with
  | putBlock name content chunk rest reserved point =>
    obtain ⟨-, hv, he, hd, -⟩ := point.step_frame s chunk.hash (chunk.bytes content)
    refine h.frame hv he hd (fun k hk => point.step_flags s _ _ hk) (fun c => ?_) (fun c => ?_)
    all_goals
      simp only [Writer.step]
      rcases (point.step s chunk.hash (chunk.bytes content)).2 with point' | g
      · exact le_rfl
      · simp only [Proc.ofWriter, Proc.stakes, stakes_putNext]
        exact le_rfl
  | putReserveObject name content reserved attempt =>
    refine h.frame (Index.reserveObject_nameVersions _ _ _ _)
      (Index.reserveObject_objectBlocks _ _ _ _) rfl (fun k hk => ?_)
      (fun c => Nat.add_le_add_left (Nat.zero_le _) _) (fun c => ?_)
    · rw [Writer.step, Index.reserveObject_blocks]
      exact hk
    · simp only [Writer.step]
      rcases (s.index.reserveObject (H.of content) true s.clock).1 with _ | prevRc
      · dsimp only
        split
        · rw [stakes_releasing]
          exact le_rfl
        · exact le_rfl
      · exact le_rfl
  | putWriteObject name content reserved prevRc =>
    refine h.write ?_ (fun b hm => ?_) (fun c => le_rfl) (fun c hc => ?_)
    · simp [putManifest, Function.comp_def]
    · -- the generation of a chunk is the one reserved for its hash
      obtain ⟨c, hc, rfl⟩ := List.mem_map.mp hm
      obtain ⟨g, hg, hp⟩ := occ_pos_of_mem_fst
        (hcov.reserved rfl (lists_of.mpr (List.mem_map_of_mem hc)))
      refine hheld _ ?_
      simp only [BlockRef.key]
      rw [show reserved.lookup c.hash = some g from hg]
      exact hp
    · simp [Writer.step, Proc.ofWriter, Proc.stakes, Writer.stakes, Writer.wrote, hc]
  | putBind name content reserved prevRc =>
    refine h.bind ho ?_ (fun b hl => hcov.reserved rfl hl) hunpin
      (fun _ => h.live _ ?_) (fun c => ?_) (fun c => Nat.add_le_add_left (Nat.zero_le _) _)
    · simp [Writer.stakes, Writer.sees]
    · simp [Writer.stakes, Writer.wrote]
    · simp [Writer.step, Proc.ofWriter, Proc.stakes, Writer.stakes, Writer.holds, one, eq_comm]
  | aliasRead name cid =>
    refine h.frame rfl rfl rfl (fun _ hk => hk) (fun c => ?_) (fun c => ?_)
    all_goals
      simp only [Writer.step]
      rcases s.disk.blocks cid with e | hashes
      · exact le_rfl
      · simp only [Proc.ofWriter, Proc.stakes, stakes_aliasNext]
        exact le_rfl
  | aliasReserve name cid hash rest reserved =>
    refine h.frame rfl rfl rfl
      (fun k hk => (RefTable.flag_update (RefRow.reserve_available s.clock) k).trans hk)
      (fun c => ?_) (fun c => ?_)
    all_goals
      simp only [Writer.step]
      rcases (s.index.reserveBlock hash s.clock).1 with _ | g
      · exact le_rfl
      · simp only [Proc.ofWriter, Proc.stakes, stakes_aliasNext]
        exact le_rfl
  | aliasReserveObject name cid reserved =>
    refine h.frame (Index.reserveObject_nameVersions _ _ _ _)
      (Index.reserveObject_objectBlocks _ _ _ _) rfl (fun k hk => ?_)
      (fun c => Nat.add_le_add_left (Nat.zero_le _) _) (fun c => ?_)
    · rw [Writer.step, Index.reserveObject_blocks]
      exact hk
    · simp only [Writer.step]
      rcases (s.index.reserveObject cid false s.clock).1 with _ | prevRc
      · dsimp only
        rw [stakes_releasing]
        exact le_rfl
      · exact le_rfl
  | aliasHas name cid reserved prevRc =>
    refine h.frame rfl rfl rfl (fun _ hk => hk) (fun c => ?_) (fun c => ?_)
    all_goals
      simp only [Writer.step]
      split <;> exact le_rfl
  | aliasBind name cid reserved prevRc =>
    refine h.bind ho ?_ (fun b hl => hcov.reserved rfl hl) hunpin (fun _ b hm => ?_)
      (fun c => ?_) (fun c => le_rfl)
    · simp [Writer.stakes, Writer.sees]
    · rcases halias _ rfl with hn | hall
      · exact h.live cid (Nat.lt_of_lt_of_le hn (Nat.le_add_right _ _)) b hm
      · exact hheld _ (occ_pos.mpr (hall b hm))
    · simp [Writer.step, Proc.ofWriter, Proc.stakes, Writer.stakes, Writer.holds, one, eq_comm]
  | releaseObject cid prevRc reserved error =>
    simp only [Writer.step, stakes_releasing]
    exact h.abandon ho hunpin rfl rfl fun _ => rfl
  | releaseBlock key rest error =>
    refine h.frame rfl rfl rfl (fun k hk => (RefTable.flag_release _ _ _).trans hk)
      (fun c => ?_) (fun c => ?_)
    all_goals
      simp only [Writer.step, stakes_releasing]
      exact le_rfl
  | unbind name =>
    obtain ⟨ix, he, hd⟩ := Index.unbind_dropped
      (r := fun c => m (.object c) + (Writer.unbind name).stakes H (.object c) + lostObj c) name
      (ho.counts.congr fun c => by omega)
    simp only [Writer.step, he]
    exact h.dropped hd (fun c => le_rfl) (fun c => le_rfl)

theorem Writer.fail_liveInv (pc : Writer Cid) (e : StoreError Cid)
    (ho : ObjectInv lostObj s fun t => m t + pc.stakes H t)
    (hunpin : ∀ c ∈ pc.abandons s, Pinned s c ∨ 0 < m (.first c))
    (h : LiveInv H s fun t => m t + pc.stakes H t) :
    LiveInv H s fun t => m t + (Proc.ofWriter (pc.fail H e)).stakes H t := by
  cases pc with
  | releaseObject cid prevRc reserved error =>
    simp only [Writer.fail, stakes_releasing]
    exact h.abandon ho hunpin rfl rfl fun _ => rfl
  | releaseBlock key rest error =>
    refine h.frame rfl rfl rfl (fun _ hk => hk) (fun c => ?_) (fun c => ?_)
    all_goals
      simp only [Writer.fail, stakes_releasing]
      exact le_rfl
  | putBind _ _ _ _ =>
    exact h.frame rfl rfl rfl (fun _ hk => hk) (fun c => le_rfl)
      (fun c => Nat.add_le_add_left (Nat.zero_le _) _)
  | _ => exact h.frame rfl rfl rfl (fun _ hk => hk) (fun c => le_rfl) (fun c => le_rfl)

end Writers

end FactorQ.Store
