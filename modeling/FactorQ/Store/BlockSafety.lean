/-
# `FactorQ.Store.BlockSafety` — live blocks have files

The block protocol on its own: any number of keepers, each obtaining block
generations through the `reserve_or_materialize` loop for whatever hashes and
bytes it likes and giving them back when it likes, and one collector.

The protocol does not keep every referenced block's file.  A writer that has
written its file, or found it written, mints the row in a later call.  In
between another writer may mint the same generation and let go of it, and the
collector may reclaim it: file and row are gone when the first writer's mint
goes through (`mint_after_reclaim`).  `Unraced` is the condition under which
this cannot happen, on the one step that completes the damage: the collector
deletes no row that some writer is about to mint while the file is gone.
-/
import FactorQ.Store.BlockInv

namespace FactorQ.Store

open Lib

variable {Cid : Type}

/-- A process of the block protocol, with the generations it holds. -/
inductive Keeper (Cid : Type) where
  | idle (held : List (Cid × Nat))
  | obtaining (hash : Cid) (bytes : Bytes) (point : Materialize) (held : List (Cid × Nat))
  | collecting (pc : Gc Cid) (held : List (Cid × Nat))
deriving DecidableEq

inductive KeeperAction (Cid ι : Type) where
  | obtain (i : ι) (hash : Cid) (bytes : Bytes)
  | release (i : ι) (key : Cid × Nat)
  | collect (i : ι)
  | step (i : ι)
  | fail (i : ι)
  | tick (dt : Nat)

namespace Keeper

def held : Keeper Cid → List (Cid × Nat)
  | idle held | obtaining _ _ _ held | collecting _ held => held

/-- Whether the process is in a collection pass. -/
def collects : Keeper Cid → Bool
  | collecting .. => true
  | _ => false

/-- The generation the process is about to mint a row for. -/
def minting : Keeper Cid → Option (Cid × Nat)
  | obtaining hash _ point _ => point.minting hash
  | _ => none

/-- The generation whose row the process is about to delete. -/
def deleting : Keeper Cid → Option (Cid × Nat)
  | collecting (.deleteBlock key ..) _ => some key
  | _ => none

/-- A call of the process returns an error: the loop or the pass ends. -/
def fail (p : Keeper Cid) : Keeper Cid := idle p.held

variable [DecidableEq Cid]

/-- The next index or content call of the process. -/
def step (s : State Cid) : Keeper Cid → State Cid × Keeper Cid
  | idle held => (s, idle held)
  | obtaining hash bytes point held =>
    ((point.step s hash bytes).1, match (point.step s hash bytes).2 with
      | .inl point => obtaining hash bytes point held
      | .inr generation => idle (held ++ [(hash, generation)]))
  | collecting pc held =>
    ((pc.step s).1, match (pc.step s).2 with
      | .inl pc => collecting pc held
      | .inr _ => idle held)

end Keeper

/-- The store and the keepers. -/
abbrev KeeperWorld (Cid ι : Type) := Crew (State Cid) (Keeper Cid) ι

namespace KeeperWorld

variable {ι : Type} [DecidableEq Cid] [DecidableEq ι]

def init : KeeperWorld Cid ι := ⟨State.init, fun _ => .idle []⟩

local instance decidableMemHeld (key : Cid × Nat) (held : List (Cid × Nat)) : Decidable (key ∈ held) :=
  decidable_of_iff (held.any (· = key)) (by simp)

/-- One action; obtaining, releasing and collecting start from an idle process,
and a generation is given back only by a process that holds it. -/
def act (w : KeeperWorld Cid ι) : KeeperAction Cid ι → KeeperWorld Cid ι
  | .obtain i hash bytes =>
    match w.procs i with
    | .idle held => w.put i w.shared (.obtaining hash bytes .reserve held)
    | _ => w
  | .release i key =>
    match w.procs i with
    | .idle held =>
      if key ∈ held then
        w.put i { w.shared with index := w.shared.index.releaseBlock key }
          (.idle (held.erase key))
      else w
    | _ => w
  | .collect i =>
    match w.procs i with
    | .idle held => w.put i w.shared (.collecting .claimableObjects held)
    | _ => w
  | .step i => w.put i ((w.procs i).step w.shared).1 ((w.procs i).step w.shared).2
  | .fail i => w.put i w.shared (w.procs i).fail
  | .tick dt => { w with shared := { w.shared with clock := w.shared.clock + dt } }

def run (w : KeeperWorld Cid ι) (actions : List (KeeperAction Cid ι)) : KeeperWorld Cid ι :=
  actions.foldl act w

/-- Passes are serial: one starts only where none runs. -/
def Serial (w : KeeperWorld Cid ι) : KeeperAction Cid ι → Prop
  | .collect _ => ∀ j, (w.procs j).collects = false
  | _ => True

/-- No row is deleted that a process is about to mint while the file is gone. -/
def Unraced (w : KeeperWorld Cid ι) : KeeperAction Cid ι → Prop
  | .step i => ∀ key ∈ (w.procs i).deleting,
      (∀ j, (w.procs j).minting ≠ some key) ∨ w.shared.disk.hasBlock key = true
  | _ => True

instance [Fintype ι] (w : KeeperWorld Cid ι) : DecidablePred (Serial w)
  | .collect _ => inferInstanceAs (Decidable (∀ j, (w.procs j).collects = false))
  | .obtain .. | .release .. | .step _ | .fail _ | .tick _ => .isTrue trivial

instance [Fintype ι] (w : KeeperWorld Cid ι) : DecidablePred (Unraced w)
  | .step i => inferInstanceAs (Decidable (∀ key ∈ (w.procs i).deleting,
      (∀ j, (w.procs j).minting ≠ some key) ∨ w.shared.disk.hasBlock key = true))
  | .obtain .. | .release .. | .collect _ | .fail _ | .tick _ => .isTrue trivial

end KeeperWorld

/-! ## The race

Two keepers and a collector (process 2) on the one-byte block `8`.  Keeper 0
writes the file and stops before its mint; keeper 1 finds the file, mints, and
gives the generation back; a pass claims, unlinks and deletes it; keeper 0
mints. -/

/-- The schedule of the race. -/
def mintRace : List (KeeperAction ℕ (Fin 3)) :=
  KeeperAction.obtain 0 8 [7] :: List.replicate 3 (KeeperAction.step 0) ++
  KeeperAction.obtain 1 8 [7] :: List.replicate 4 (KeeperAction.step 1) ++
  KeeperAction.release 1 (8, 0) :: KeeperAction.collect 2 :: List.replicate 5 (KeeperAction.step 2) ++
  [KeeperAction.step 0]

/-- A row with a positive refcount whose file is gone. -/
theorem mint_after_reclaim :
    Permitted KeeperWorld.act KeeperWorld.Serial KeeperWorld.init mintRace ∧
    ¬ ∀ key row, (KeeperWorld.init.run mintRace).shared.index.blocks.get? key = some row →
      0 < row.refcount → (KeeperWorld.init.run mintRace).shared.disk.hasBlock key = true := by
  refine ⟨by decide +kernel, fun h => ?_⟩
  have hrow : (KeeperWorld.init.run mintRace).shared.index.blocks.get? (8, 0)
      = some ⟨1, true, 0⟩ := by decide +kernel
  have hfile : (KeeperWorld.init.run mintRace).shared.disk.hasBlock (8, 0) = false := by
    decide +kernel
  rw [h (8, 0) _ hrow Int.one_pos] at hfile
  cases hfile

/-! ## Where nobody races -/

section Runs

variable {ι : Type} [DecidableEq Cid] [DecidableEq ι] [Fintype ι]

namespace Keeper

def stakes : Keeper Cid → Stake Cid → ℕ
  | idle held => Writer.blockStakes held
  | obtaining hash _ point held => fun t => Writer.blockStakes held t + point.stakes hash t
  | collecting pc held => fun t => Writer.blockStakes held t + pc.stakes t

/-- A listing has no repeats. -/
def Distinct : Keeper Cid → Prop
  | collecting pc _ => pc.Distinct
  | _ => True

theorem stakes_mint (p : Keeper Cid) (key : Cid × Nat) : p.stakes (.mint key) = one p.minting key := by
  cases p <;> simp [stakes, minting, Writer.blockStakes, Materialize.stakes, Gc.stakes]

theorem stakes_collecting (p : Keeper Cid) :
    p.stakes .collecting = if p.collects then 1 else 0 := by
  cases p <;> rfl

end Keeper

/-- The invariant of the block protocol. -/
abbrev KeeperSound (w : KeeperWorld Cid ι) : Prop :=
  w.Sound Keeper.stakes (fun s n => (∃ lost, BlockInv lost s n) ∧ ClaimInv s n) Keeper.Distinct

theorem occ_erase {κ : Type} [DecidableEq κ] [BEq κ] [LawfulBEq κ] {ks : List κ} {k : κ}
    (h : k ∈ ks) (x : κ) : occ ks x = occ (ks.erase k) x + if x = k then 1 else 0 := by
  rw [← occ_cons]
  exact (List.perm_cons_erase h).countP_eq _

variable {w : KeeperWorld Cid ι}

theorem keepers_reap_eq_zero {i : ι} (h : w.others Keeper.stakes i .collecting = 0) {t : Stake Cid}
    (ht : (∃ c, t = .reapObject c) ∨ ∃ k, t = .reapBlock k) : w.others Keeper.stakes i t = 0 := by
  rw [Crew.others_eq_zero] at h ⊢
  intro j hj
  have hj := h j hj
  rcases hp : w.procs j with held | ⟨hash, bytes, point, held⟩ | ⟨pc, held⟩ <;> rw [hp] at hj
  · rcases ht with ⟨c, rfl⟩ | ⟨k, rfl⟩ <;> rfl
  · rcases ht with ⟨c, rfl⟩ | ⟨k, rfl⟩ <;> rfl
  · cases hj

omit [DecidableEq ι] in
theorem keeperSound_init : KeeperSound (KeeperWorld.init : KeeperWorld Cid ι) := by
  have h0 : ∀ t, (KeeperWorld.init : KeeperWorld Cid ι).total Keeper.stakes t = 0 := fun t =>
    Crew.total_eq_zero.mpr fun _ => by cases t <;> rfl
  exact ⟨⟨⟨fun _ => 0, blockInv_init h0⟩, .of_none h0⟩, fun i => trivial⟩

section

variable (h : KeeperSound w)
include h

theorem KeeperSound.step {i : ι} (hok : KeeperWorld.Unraced w (.step i)) :
    KeeperSound (w.act (.step i)) := by
  refine h.put fun ⟨⟨lost, hb⟩, hc⟩ hd => ?_
  rcases hp : w.procs i with held | ⟨hash, bytes, point, held⟩ | ⟨pc, held⟩
  · simp only [hp] at hb hc
    exact ⟨⟨⟨lost, hb⟩, hc⟩, trivial⟩
  · simp only [hp, Keeper.stakes, ← Nat.add_assoc] at hb hc
    have hb' := Materialize.step_blockInv hash bytes point hb
    obtain ⟨ho, -⟩ := point.step_frame w.shared hash bytes
    have hc' : ∀ n', (∀ c, n' (.reapObject c) = w.others Keeper.stakes i (.reapObject c)) →
        (∀ k, n' (.reapBlock k) = w.others Keeper.stakes i (.reapBlock k)) →
        n' .collecting = w.others Keeper.stakes i .collecting →
        ClaimInv (point.step w.shared hash bytes).1 n' := by
      intro n' h1 h2 h3
      refine hc.frame (fun c hf => ?_) (fun k hf => point.step_flags w.shared hash bytes hf)
        (fun c => le_of_eq (h1 c)) (fun k => le_of_eq (h2 k)) (le_of_eq h3)
      rw [ho]
      exact hf
    simp only [Keeper.step]
    rcases hx : (point.step w.shared hash bytes).2 with point' | g
    · rw [hx] at hb'
      refine ⟨⟨⟨lost, ?_⟩, hc' _ (fun _ => rfl) (fun _ => rfl) rfl⟩, trivial⟩
      simp only [Keeper.stakes, ← Nat.add_assoc]
      exact hb'
    · rw [hx] at hb'
      refine ⟨⟨⟨lost, hb'.frame rfl rfl rfl (fun k => ?_) (fun k => le_rfl)⟩,
        hc' _ (fun _ => rfl) (fun _ => rfl) rfl⟩, trivial⟩
      simp [Keeper.stakes, Writer.blockStakes, Materialize.after, occ_append, Nat.add_assoc]
  · simp only [hp, Keeper.stakes, ← Nat.add_assoc] at hb hc
    rw [hp] at hd
    have hone : w.others Keeper.stakes i .collecting = 0 := by
      have := hc.serial
      simp only [Gc.stakes, Writer.blockStakes] at this
      omega
    -- the mover holds no file it is about to mint, so the condition speaks about the others
    have hmint : ∀ key, w.others Keeper.stakes i (.mint key) = 0 ∨
        ∃ j, (w.procs j).minting = some key := by
      intro key
      by_cases hz : w.others Keeper.stakes i (.mint key) = 0
      · exact .inl hz
      · rw [Crew.others_eq_zero] at hz
        push Not at hz
        obtain ⟨j, -, hj⟩ := hz
        rw [Keeper.stakes_mint, one] at hj
        exact .inr ⟨j, by by_contra hne; exact hj (if_neg hne)⟩
    obtain ⟨lost', hb'⟩ := pc.step_blockInv (m := fun t => w.others Keeper.stakes i t
        + Writer.blockStakes held t)
      (fun key rest r e => .inl (hc.block key (by
        subst e
        simp [Gc.stakes, Gc.ownedBlocks, occ_cons])))
      (fun key rest r e => by
        subst e
        rcases hmint key with h0 | ⟨j, hj⟩
        · exact .inl (by simp [h0, Writer.blockStakes])
        · refine .inr ((hok key (by rw [hp]; rfl)).resolve_left fun hno => hno j hj)) hb
    have hc' := pc.step_claimInv hd
      (fun c => by simp [Writer.blockStakes, keepers_reap_eq_zero hone (.inl ⟨c, rfl⟩)])
      (fun k => by simp [Writer.blockStakes, keepers_reap_eq_zero hone (.inr ⟨k, rfl⟩)]) hc
    simp only [Keeper.step]
    rcases hx : (pc.step w.shared).2 with pc' | r
    · rw [hx] at hb' hc'
      simp only [Keeper.stakes, ← Nat.add_assoc]
      exact ⟨⟨⟨lost', hb'⟩, hc'⟩, pc.step_distinct w.shared hd hx⟩
    · rw [hx] at hb' hc'
      exact ⟨⟨⟨lost', hb'⟩, hc'⟩, trivial⟩

theorem KeeperSound.release (i : ι) (key : Cid × Nat) : KeeperSound (w.act (.release i key)) := by
  rcases hp : w.procs i with held | ⟨hash, bytes, point, held⟩ | ⟨pc, held⟩
  · simp only [KeeperWorld.act, hp]
    split
    case isFalse => exact h
    case isTrue hmem =>
      refine h.put fun ⟨⟨lost, hb⟩, hc⟩ _ => ?_
      simp only [hp] at hb hc
      refine ⟨⟨⟨lost, hb.release (fun k => ?_) (fun k => le_rfl)⟩, hc.frame (fun _ hf => hf)
        (fun k hf => (RefTable.flag_release _ _ _).trans hf) (fun _ => le_rfl) (fun _ => le_rfl)
        le_rfl⟩, trivial⟩
      simp only [Keeper.stakes, Writer.blockStakes, occ_erase hmem k]
      omega
  · simp only [KeeperWorld.act, hp]
    exact h
  · simp only [KeeperWorld.act, hp]
    exact h

theorem KeeperSound.obtain (i : ι) (hash : Cid) (bytes : Bytes) :
    KeeperSound (w.act (.obtain i hash bytes)) := by
  rcases hp : w.procs i with held | ⟨hash', bytes', point, held⟩ | ⟨pc, held⟩
  · simp only [KeeperWorld.act, hp]
    refine h.put fun ⟨⟨lost, hb⟩, hc⟩ _ => ?_
    simp only [hp] at hb hc
    have hst : (Keeper.obtaining hash bytes .reserve held).stakes = (Keeper.idle held).stakes := by
      funext t
      cases t <;> rfl
    rw [hst]
    exact ⟨⟨⟨lost, hb⟩, hc⟩, trivial⟩
  · simp only [KeeperWorld.act, hp]
    exact h
  · simp only [KeeperWorld.act, hp]
    exact h

theorem KeeperSound.collect {i : ι} (hok : KeeperWorld.Serial w (.collect i)) :
    KeeperSound (w.act (.collect i)) := by
  rcases hp : w.procs i with held | ⟨hash', bytes', point, held⟩ | ⟨pc, held⟩
  · simp only [KeeperWorld.act, hp]
    refine h.put fun ⟨⟨lost, hb⟩, hc⟩ _ => ?_
    simp only [hp] at hb hc
    have hone : w.others Keeper.stakes i .collecting = 0 :=
      Crew.others_eq_zero.mpr fun j _ => by rw [Keeper.stakes_collecting, hok j]; rfl
    refine ⟨⟨⟨lost, hb.frame rfl rfl rfl (fun k => rfl) (fun k => le_rfl)⟩,
      hc.object, hc.block, ?_⟩, List.nodup_nil, List.nodup_nil⟩
    rw [hone]
    exact le_rfl
  · simp only [KeeperWorld.act, hp]
    exact h
  · simp only [KeeperWorld.act, hp]
    exact h

theorem KeeperSound.fail (i : ι) : KeeperSound (w.act (.fail i)) := by
  refine h.put fun ⟨⟨lost, hb⟩, hc⟩ _ => ?_
  have hle : ∀ t, (w.procs i).fail.stakes t ≤ (w.procs i).stakes t := by
    intro t
    cases w.procs i with
    | idle held => exact le_rfl
    | obtaining hash bytes point held => exact Nat.le_add_right _ _
    | collecting pc held => exact Nat.le_add_right _ _
  have hblk : ∀ k, (w.procs i).fail.stakes (.block k) = (w.procs i).stakes (.block k) := by
    intro k
    cases w.procs i <;> rfl
  exact ⟨⟨⟨lost, hb.frame rfl rfl rfl (fun k => by rw [hblk])
    (fun k => Nat.add_le_add_left (hle _) _)⟩, hc.frame (fun _ hf => hf) (fun _ hf => hf)
    (fun c => Nat.add_le_add_left (hle _) _) (fun k => Nat.add_le_add_left (hle _) _)
    (Nat.add_le_add_left (hle _) _)⟩, trivial⟩

end

theorem KeeperSound.act (w : KeeperWorld Cid ι) (a : KeeperAction Cid ι)
    (hok : KeeperWorld.Serial w a ∧ KeeperWorld.Unraced w a) (h : KeeperSound w) :
    KeeperSound (w.act a) := by
  cases a with
  | obtain i hash bytes => exact h.obtain i hash bytes
  | release i key => exact h.release i key
  | collect i => exact h.collect hok.1
  | step i => exact h.step hok.2
  | fail i => exact h.fail i
  | tick dt =>
    obtain ⟨⟨lost, hb⟩, hc⟩ := h.shared
    exact ⟨⟨⟨lost, hb.toGenerations, hb.files, hb.minting⟩, hc.object, hc.block,
      hc.serial⟩, h.procs⟩

/-- In every run of keepers and one collector in which no row is deleted that is
about to be minted over a file that is gone, every referenced block has its
file. -/
theorem referenced_blocks_have_files (schedule : List (KeeperAction Cid ι))
    (hserial : Permitted KeeperWorld.act KeeperWorld.Serial KeeperWorld.init schedule)
    (hunraced : Permitted KeeperWorld.act KeeperWorld.Unraced KeeperWorld.init schedule) :
    ∀ key row, (KeeperWorld.init.run schedule).shared.index.blocks.get? key = some row →
      0 < row.refcount → (KeeperWorld.init.run schedule).shared.disk.hasBlock key = true := by
  have hw : KeeperSound (KeeperWorld.init.run schedule) :=
    (hserial.and hunraced).inv KeeperSound.act keeperSound_init
  obtain ⟨⟨lost, hb⟩, -⟩ := hw.shared
  intro key row hg hrc
  have hn := hb.counts.refcount hg
  exact hb.files key (hb.counts.flag_of_pos (by omega))

/-- Both keepers of the race obtain the block and one gives it back while a pass
starts, with the first mint out of the way in time. -/
def orderlyMint : List (KeeperAction ℕ (Fin 3)) :=
  KeeperAction.obtain 0 8 [7] :: List.replicate 4 (KeeperAction.step 0) ++
  KeeperAction.obtain 1 8 [7] :: KeeperAction.step 1 :: KeeperAction.release 1 (8, 0) :: KeeperAction.collect 2 :: List.replicate 2 (KeeperAction.step 2)

theorem referenced_blocks_have_files_orderlyMint :
    (Permitted KeeperWorld.act KeeperWorld.Serial KeeperWorld.init orderlyMint ∧
      Permitted KeeperWorld.act KeeperWorld.Unraced KeeperWorld.init orderlyMint) ∧
    (KeeperWorld.init.run orderlyMint).shared.index.blocks.get? (8, 0) = some ⟨1, true, 0⟩ ∧
    (KeeperWorld.init.run orderlyMint).shared.disk.hasBlock (8, 0) = true := by
  have hserial : Permitted KeeperWorld.act KeeperWorld.Serial KeeperWorld.init orderlyMint := by
    decide +kernel
  have hunraced : Permitted KeeperWorld.act KeeperWorld.Unraced KeeperWorld.init orderlyMint := by
    decide +kernel
  have hrow : (KeeperWorld.init.run orderlyMint).shared.index.blocks.get? (8, 0)
      = some ⟨1, true, 0⟩ := by decide +kernel
  exact ⟨⟨hserial, hunraced⟩, hrow,
    referenced_blocks_have_files orderlyMint hserial hunraced (8, 0) _ hrow Int.one_pos⟩

end Runs

end FactorQ.Store
