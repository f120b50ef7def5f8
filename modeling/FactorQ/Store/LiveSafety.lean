/-
# `FactorQ.Store.LiveSafety` — no lost live block

Writers and one collector over the whole store: does a name's content keep its
manifest and its block files?  Not in every run.  Who pins an object's blocks is
decided in `bind` from `prev_rc`, the refcount the call saw when it reserved the
object: at zero it records edges, otherwise it takes them to be recorded.  But
another call may hold that count without having recorded anything, and may never
do so.  In `sameNameRace` two writers put the same content under the same name.
The second finds the object reserved, so it gives its block reservations back;
the first finds the version current, so it gives its own back too.  The object
is named, no edge pins its block, and the next pass reclaims it.

`HandsOver` is the condition on the steps of a run that rules this out, together
with the other ways to lose a block: a cleanup that abandons an object somebody
else has named meanwhile, an alias of an unnamed object whose manifest lists
generations that were since replaced, and the race on a row that is about to be
minted.
-/
import FactorQ.Store.LiveInv

namespace FactorQ.Store

open Lib

variable {Cid : Type}

section Conditions

namespace Proc

/-- The file the process is about to mint a row for. -/
def minting : Proc Cid → Option (Cid × Nat)
  | writer pc => pc.minting
  | _ => none

/-- The generation whose row the process is about to delete. -/
def deleting : Proc Cid → Option (Cid × Nat)
  | gc (.deleteBlock key ..) => some key
  | _ => none

/-- The object the process is about to alias, and what it reserved for it. -/
def aliasing : Proc Cid → Option (Cid × List (Cid × Nat))
  | writer pc => pc.aliasing
  | _ => none

/-- The process holds every block of its object reserved. -/
def Covers (H : Hasher Cid) : Proc Cid → Prop
  | writer pc => pc.Covers H
  | _ => True

variable [DecidableEq Cid]

/-- The process reserved `cid` at refcount zero and still holds it. -/
def vouches (H : Hasher Cid) (cid : Cid) : Proc Cid → Bool
  | writer pc => pc.holds H = some (cid, 0)
  | _ => false

end Proc

end Conditions

section Runs

variable [LinearOrder Cid] {ι : Type} [DecidableEq ι] [Fintype ι]

namespace Proc

/-- The object the next call of the process unpins. -/
def unpins (H : Hasher Cid) (s : State Cid) : Proc Cid → Option Cid
  | writer pc => pc.unpins H s
  | _ => none

/-- The object the process leaves in its cleanup. -/
def abandons (s : State Cid) : Proc Cid → Option Cid
  | writer pc => pc.abandons s
  | _ => none

end Proc

/-- Writers and one collector: passes are serial, nothing crashes, no audit
runs.  Any call may fail. -/
def OneCollector (w : World Cid ι) : Action Cid ι → Prop
  | .start _ .collect => ∀ j, (w.procs j).collects = false
  | .start _ (.audit _) => False
  | .crash _ => False
  | _ => True

instance (w : World Cid ι) : DecidablePred (OneCollector w)
  | .start _ .collect => inferInstanceAs (Decidable (∀ j, (w.procs j).collects = false))
  | .start _ (.audit _) => .isFalse id
  | .start _ (.put ..) | .start _ (.bind ..) | .start _ (.unbind _) => .isTrue trivial
  | .crash _ => .isFalse id
  | .step _ | .fail .. | .tick _ => .isTrue trivial

/-- Without process `i`, the blocks of `cid` are pinned by edges or by the call
that is going to record them. -/
def Supported (H : Hasher Cid) (w : World Cid ι) (i : ι) (cid : Cid) : Prop :=
  Pinned w.shared cid ∨ ∃ j, j ≠ i ∧ (w.procs j).vouches H cid = true

/-- What a step must find for the hand-over of block references to be safe. -/
def HandsOver (H : Hasher Cid) (w : World Cid ι) : Action Cid ι → Prop
  | .step i =>
    (∀ cid ∈ (w.procs i).unpins H w.shared, Supported H w i cid) ∧
    (∀ a ∈ (w.procs i).aliasing,
      0 < w.shared.index.nameRefs a.1 ∨ ∀ b ∈ w.shared.disk.listed a.1, b.key ∈ a.2) ∧
    ∀ key ∈ (w.procs i).deleting,
      (∀ j, (w.procs j).minting ≠ some key) ∨ w.shared.disk.hasBlock key = true
  | .fail i _ => ∀ cid ∈ (w.procs i).abandons w.shared, Supported H w i cid
  | _ => True

instance (H : Hasher Cid) (w : World Cid ι) (i : ι) (cid : Cid) : Decidable (Supported H w i cid) :=
  inferInstanceAs (Decidable (_ ∨ _))

instance (H : Hasher Cid) (w : World Cid ι) : DecidablePred (HandsOver H w)
  | .step i => inferInstanceAs (Decidable (
      (∀ cid ∈ (w.procs i).unpins H w.shared, Supported H w i cid) ∧
      (∀ a ∈ (w.procs i).aliasing,
        0 < w.shared.index.nameRefs a.1 ∨ ∀ b ∈ w.shared.disk.listed a.1, b.key ∈ a.2) ∧
      ∀ key ∈ (w.procs i).deleting,
        (∀ j, (w.procs j).minting ≠ some key) ∨ w.shared.disk.hasBlock key = true))
  | .fail i _ => inferInstanceAs (Decidable (∀ cid ∈ (w.procs i).abandons w.shared, Supported H w i cid))
  | .start .. | .crash _ | .tick _ => .isTrue trivial

/-- Every name's current version has its manifest and every block file it lists. -/
def Readable (s : State Cid) : Prop :=
  ∀ name cid, s.index.resolve name = some cid →
    s.disk.has cid = true ∧ ∀ b ∈ s.disk.listed cid, s.disk.hasBlock b.key = true

/-! ## The race -/

/-- Writers 0 and 1 put the one-byte content `8` under the name `a`; process 2
collects. -/
def sameNameRace : List (Action ℕ (Fin 3)) :=
  Action.start 0 (.put "a" [7]) :: List.replicate 5 (Action.step 0) ++
  Action.start 1 (.put "a" [7]) :: List.replicate 4 (Action.step 1) ++
  List.replicate 2 (Action.step 0) ++
  Action.start 2 .collect :: List.replicate 4 (Action.step 2)

/-- The name resolves, its manifest is there, and the block it lists is gone. -/
theorem named_block_collected :
    Permitted (World.act Hasher.numerals) OneCollector World.init sameNameRace ∧
    ¬ Readable (World.init.run Hasher.numerals sameNameRace).shared := by
  refine ⟨by decide +kernel, fun h => ?_⟩
  have hname : (World.init.run Hasher.numerals sameNameRace).shared.index.resolve "a" = some 8 := by
    decide +kernel
  have hlist : ⟨8, 1, 0⟩ ∈ (World.init.run Hasher.numerals sameNameRace).shared.disk.listed 8 := by
    decide +kernel
  have hfile : (World.init.run Hasher.numerals sameNameRace).shared.disk.hasBlock (8, 0) = false := by
    decide +kernel
  have hthere : (World.init.run Hasher.numerals sameNameRace).shared.disk.hasBlock (8, 0) = true :=
    (h "a" 8 hname).2 _ hlist
  rw [hthere] at hfile
  cases hfile

/-! ## Where every step hands over -/

/-- The invariant of the whole store while writers and one collector work. -/
abbrev LiveSound (H : Hasher Cid) (w : World Cid ι) : Prop :=
  w.Sound (Proc.stakes H)
    (fun s n => (∃ lost, ObjectInv lost s n) ∧ ClaimInv s n ∧ (∃ lost, BlockInv lost s n) ∧
      LiveInv H s n)
    (fun p => (p.Distinct ∧ ∀ pc, p ≠ .audit pc) ∧ p.Covers H)

variable {H : Hasher Cid}

omit [DecidableEq ι] in
theorem liveSound_init : LiveSound H (World.init : World Cid ι) := by
  have h0 : ∀ t, (World.init : World Cid ι).total (Proc.stakes H) t = 0 := fun t =>
    Crew.total_eq_zero.mpr fun _ => rfl
  have hobj := objectSound_init (ι := ι) (H := H)
  refine ⟨⟨⟨_, hobj.shared.1⟩, hobj.shared.2, ⟨fun _ => 0, blockInv_init h0⟩, ?_, ?_, ?_⟩,
    fun i => ⟨hobj.procs i, trivial⟩⟩
  · rintro cid m t ⟨⟩
  · intro c hc
    exact absurd hc (Nat.lt_irrefl 0)
  · rintro c - b hb
    exact absurd hb List.not_mem_nil

variable {w : World Cid ι}

omit [DecidableEq ι] in
/-- Whoever brought an object to life, or wrote its manifest, holds its blocks. -/
theorem World.covered (h : ∀ i, (w.procs i).Covers H) : Covered H (w.total (Proc.stakes H)) := by
  intro c hc b hb
  obtain ⟨i, hi⟩ : ∃ i, 0 < (w.procs i).stakes H (.first c) + (w.procs i).stakes H (.written c) := by
    by_cases hf : 0 < w.total (Proc.stakes H) (.first c)
    · obtain ⟨i, hi⟩ := Crew.exists_of_total_pos hf
      exact ⟨i, by omega⟩
    · obtain ⟨i, hi⟩ := Crew.exists_of_total_pos
        (show 0 < w.total (Proc.stakes H) (.written c) by omega)
      exact ⟨i, by omega⟩
  obtain ⟨g, hg⟩ : ∃ g, 0 < (w.procs i).stakes H (.block (b, g)) := by
    have hcov := h i
    rcases hp : w.procs i with last | pc | pc | pc | _ <;> rw [hp] at hi hcov
    · exact absurd hi (Nat.lt_irrefl 0)
    · exact hcov.covered c hi b hb
    · exact absurd hi (Nat.lt_irrefl 0)
    · cases pc <;> exact absurd hi (Nat.lt_irrefl 0)
    · exact absurd hi (Nat.lt_irrefl 0)
  classical exact ⟨g, Nat.lt_of_lt_of_le hg (w.stakes_le_total i _)⟩

/-- Where another process vouches for an object, the rest of the crew holds it
from zero. -/
theorem others_first_pos {i j : ι} {cid : Cid} (hj : j ≠ i) (hv : (w.procs j).vouches H cid = true) :
    0 < w.others (Proc.stakes H) i (.first cid) := by
  refine Nat.pos_of_ne_zero fun h0 => ?_
  have hz := Crew.others_eq_zero.mp h0 j hj
  rcases hp : w.procs j with last | pc | pc | pc | _ <;> rw [hp] at hv hz
  · cases hv
  · simp only [Proc.stakes, Writer.stakes, one] at hz
    rw [if_pos (of_decide_eq_true hv)] at hz
    cases hz
  · cases hv
  · cases hv
  · cases hv

variable {i : ι}

theorem Supported.pinned {cid : Cid} (h : Supported H w i cid) :
    Pinned w.shared cid ∨ 0 < w.others (Proc.stakes H) i (.first cid) := by
  rcases h with hp | ⟨j, hj, hv⟩
  · exact .inl hp
  · exact .inr (others_first_pos hj hv)

/-- A stake in a file about to be minted is somebody's mint. -/
theorem others_mint_cases (w : World Cid ι) (hna : ∀ j pc, w.procs j ≠ .audit pc) (i : ι)
    (key : Cid × Nat) :
    w.others (Proc.stakes H) i (.mint key) = 0 ∨ ∃ j, (w.procs j).minting = some key := by
  by_cases hz : w.others (Proc.stakes H) i (.mint key) = 0
  · exact .inl hz
  · rw [Crew.others_eq_zero] at hz
    push Not at hz
    obtain ⟨j, -, hj⟩ := hz
    refine .inr ⟨j, ?_⟩
    rcases hp : w.procs j with last | pc | pc | pc | _ <;> rw [hp] at hj
    · exact absurd rfl hj
    · by_contra hne
      exact hj (if_neg hne)
    · exact absurd rfl hj
    · exact absurd hp (hna j pc)
    · exact absurd rfl hj

theorem LiveSound.step (h : LiveSound H w) (hok : HandsOver H w (.step i)) :
    LiveSound H (w.act H (.step i)) := by
  have hcov := World.covered fun j => (h.procs j).2
  rw [show w.total (Proc.stakes H) = _ from funext (w.total_eq i)] at hcov
  refine h.put fun ⟨⟨lostObj, ho⟩, hc, ⟨lost, hb⟩, hl⟩ ⟨⟨hd, hna⟩, hcv⟩ => ?_
  obtain ⟨hunpin, halias, hdel⟩ := hok
  rcases hp : w.procs i with last | pc | pc | pc | _
  · simp only [hp] at ho hc hb hl
    exact ⟨⟨⟨lostObj, ho⟩, hc, ⟨lost, hb⟩, hl⟩, ⟨trivial, by rintro _ ⟨⟩⟩, trivial⟩
  · simp only [hp] at ho hc hb hl hcv hunpin halias
    refine ⟨⟨⟨lostObj, pc.step_objectInv ho⟩, pc.step_claimInv ho hc, pc.step_blockInv ho hb,
      pc.step_liveInv ho hb.accounts hcv (fun c hm => (hunpin c hm).pinned) halias hl⟩, ?_⟩
    simp only [Proc.step]
    rcases hx : (pc.step H w.shared).2 with pc' | r
    · exact ⟨⟨trivial, by rintro _ ⟨⟩⟩, pc.step_covers hl.shaped hcv hx⟩
    · exact ⟨⟨trivial, by rintro _ ⟨⟩⟩, trivial⟩
  · simp only [hp] at ho hc hb hl hd hcov hdel
    have hone : w.others (Proc.stakes H) i .collecting = 0 := by
      have := hc.serial
      simp only [Proc.stakes, Gc.stakes] at this
      omega
    -- what the pass is about to unlink it owns, so it is claimed
    have hclaimed : ∀ key rest r, pc = .removeBlock key rest r →
        w.shared.index.blocks.flag key = some false := by
      rintro key rest r rfl
      exact hc.block key (by simp [Proc.stakes, Gc.stakes, Gc.ownedBlocks, occ_cons])
    simp only [Proc.step, Proc.stakes_ofGc]
    refine ⟨⟨⟨lostObj, pc.step_objectInv (fun cid rest r e => ?_)
      (fun c => Crew.others_le (fun p => p.present_le_object H c) w i) ho⟩,
      pc.step_claimInv hd (fun c => others_reap_eq_zero hone (.inl ⟨c, rfl⟩))
        (fun k => others_reap_eq_zero hone (.inr ⟨k, rfl⟩)) hc,
      pc.step_blockInv (fun key rest r e => .inl (hclaimed key rest r e)) (fun key rest r e => ?_) hb,
      pc.step_liveInv ho hb.accounts hcov hl⟩, ?_⟩
    · subst e
      rw [hc.object cid (by simp [Proc.stakes, Gc.stakes, Gc.ownedObjects, occ_cons])]
      simp
    · subst e
      rcases others_mint_cases (H := H) w (fun j => (h.procs j).1.2) i key with h0 | ⟨j, hj⟩
      · exact .inl h0
      · exact .inr ((hdel key rfl).resolve_left fun hno => hno j hj)
    · rcases hx : (pc.step w.shared).2 with pc' | r
      · exact ⟨⟨pc.step_distinct w.shared hd hx, by rintro _ ⟨⟩⟩, trivial⟩
      · exact ⟨⟨trivial, by rintro _ ⟨⟩⟩, trivial⟩
  · exact absurd hp (hna pc)
  · simp only [hp] at ho hc hb hl
    exact ⟨⟨⟨lostObj, ho⟩, hc, ⟨lost, hb⟩, hl⟩, ⟨trivial, by rintro _ ⟨⟩⟩, trivial⟩

theorem LiveSound.start (h : LiveSound H w) {call : Call Cid} (hok : OneCollector w (.start i call)) :
    LiveSound H (w.act H (.start i call)) := by
  rw [World.act]
  split
  case isFalse => exact h
  case isTrue hready =>
    refine h.put ?_
    rintro ⟨⟨lostObj, ho⟩, hc, ⟨lost, hb⟩, hl⟩ -
    rcases hp : w.procs i with last | pc | pc | pc | _ <;> rw [hp] at hready <;> try cases hready
    simp only [hp] at ho hc hb hl
    cases call with
    | put name content =>
      rw [Proc.stakes_begin H rfl]
      exact ⟨⟨⟨lostObj, ho⟩, hc, ⟨lost, hb⟩, hl⟩, ⟨trivial, by rintro _ ⟨⟩⟩,
        Writer.covers_put H name content⟩
    | bind name cid | unbind name =>
      rw [Proc.stakes_begin H rfl]
      exact ⟨⟨⟨lostObj, ho⟩, hc, ⟨lost, hb⟩, hl⟩, ⟨trivial, by rintro _ ⟨⟩⟩, by rintro c todo ⟨⟩⟩
    | collect =>
      exact ⟨⟨⟨lostObj, ho.frame rfl rfl rfl (fun c => rfl) (fun c => le_rfl)⟩, hc.begin hok,
        ⟨lost, hb.frame rfl rfl rfl (fun k => rfl) (fun k => le_rfl)⟩,
        hl.frame rfl rfl rfl (fun _ hk => hk) (fun c => le_rfl) (fun c => le_rfl)⟩,
        ⟨⟨List.nodup_nil, List.nodup_nil⟩, by rintro _ ⟨⟩⟩, trivial⟩
    | audit grace => exact absurd hok id

theorem LiveSound.fail (h : LiveSound H w) {e : StoreError Cid} (hok : HandsOver H w (.fail i e)) :
    LiveSound H (w.act H (.fail i e)) := by
  refine h.put fun ⟨⟨lostObj, ho⟩, hc, ⟨lost, hb⟩, hl⟩ ⟨⟨_, hna⟩, hcv⟩ => ?_
  suffices hrest : (∃ lost, ObjectInv lost w.shared fun t =>
        w.others (Proc.stakes H) i t + ((w.procs i).fail H e).stakes H t) ∧
      (∃ lost, BlockInv lost w.shared fun t =>
        w.others (Proc.stakes H) i t + ((w.procs i).fail H e).stakes H t) ∧
      (LiveInv H w.shared fun t =>
        w.others (Proc.stakes H) i t + ((w.procs i).fail H e).stakes H t) ∧
      ((w.procs i).fail H e).Covers H by
    exact ⟨⟨hrest.1, Proc.fail_claimInv _ e hc, hrest.2.1, hrest.2.2.1⟩,
      Proc.fail_distinct _ e hna, hrest.2.2.2⟩
  rcases hp : w.procs i with last | pc | pc | pc | _ <;> simp only [hp] at ho hb hl hcv
  · exact ⟨⟨lostObj, ho⟩, ⟨lost, hb⟩, hl, trivial⟩
  · simp only [HandsOver, hp] at hok
    refine ⟨pc.fail_lostInv e ho, pc.fail_blockInv e hb,
      pc.fail_liveInv e ho (fun c hm => (hok c hm).pinned) hl, ?_⟩
    simp only [Proc.fail]
    rcases hx : pc.fail H e with pc' | r
    · exact pc.fail_covers e hcv hx
    · trivial
  · exact ⟨⟨lostObj, ho.frame rfl rfl rfl (fun c => rfl) (fun c => le_rfl)⟩,
      ⟨lost, hb.frame rfl rfl rfl (fun k => rfl) (fun k => le_rfl)⟩,
      hl.frame rfl rfl rfl (fun _ hk => hk) (fun c => le_rfl) (fun c => le_rfl), trivial⟩
  · exact absurd hp (hna pc)
  · exact ⟨⟨lostObj, ho⟩, ⟨lost, hb⟩, hl, trivial⟩

theorem LiveSound.act (w : World Cid ι) (a : Action Cid ι) (hok : OneCollector w a ∧ HandsOver H w a)
    (h : LiveSound H w) : LiveSound H (w.act H a) := by
  cases a with
  | start i call => exact h.start hok.1
  | step i => exact h.step hok.2
  | fail i e => exact h.fail hok.2
  | crash i => exact absurd hok.1 id
  | tick dt =>
    obtain ⟨⟨lostObj, ho⟩, hc, ⟨lost, hb⟩, hl⟩ := h.shared
    exact ⟨⟨⟨lostObj, ho.counts, ho.present⟩, ⟨hc.object, hc.block, hc.serial⟩,
      ⟨lost, hb.toGenerations, hb.files, hb.minting⟩, hl.shaped, hl.backed, hl.live⟩,
      h.procs⟩

/-- In every run of writers and one collector, whatever fails, whose steps all
hand over: every name's current version has its manifest and its block files. -/
theorem named_content_readable (H : Hasher Cid) (schedule : List (Action Cid ι))
    (hone : Permitted (World.act H) OneCollector World.init schedule)
    (hover : Permitted (World.act H) (HandsOver H) World.init schedule) :
    Readable (World.init.run H schedule).shared := by
  have hw : LiveSound H (World.init.run H schedule) :=
    (hone.and hover).inv LiveSound.act liveSound_init
  obtain ⟨⟨lostObj, ho⟩, -, ⟨lost, hb⟩, hl⟩ := hw.shared
  intro name cid hname
  have hpos := Index.nameRefs_pos_of_resolve hname
  exact ⟨ho.present cid (by omega), fun b hm => hb.files b.key (hl.live cid (by omega) b hm)⟩

/-- The race again with the first writer done in time; the content is aliased,
unbound under its first name, and a pass runs. -/
def inTurn : List (Action ℕ (Fin 3)) :=
  Action.start 0 (.put "a" [7]) :: List.replicate 7 (Action.step 0) ++
  Action.start 1 (.put "a" [7]) :: List.replicate 4 (Action.step 1) ++
  Action.start 1 (.bind "b" 8) :: List.replicate 5 (Action.step 1) ++
  Action.start 2 .collect :: Action.step 2 :: Action.start 0 (.unbind "a") :: Action.step 0 :: [Action.step 2]

theorem named_content_readable_inTurn :
    (Permitted (World.act Hasher.numerals) OneCollector World.init inTurn ∧
      Permitted (World.act Hasher.numerals) (HandsOver Hasher.numerals) World.init inTurn) ∧
    (World.init.run Hasher.numerals inTurn).shared.index.resolve "b" = some 8 ∧
    (World.init.run Hasher.numerals inTurn).shared.disk.hasBlock (8, 0) = true := by
  have hone : Permitted (World.act Hasher.numerals) OneCollector World.init inTurn := by
    decide +kernel
  have hover : Permitted (World.act Hasher.numerals) (HandsOver Hasher.numerals) World.init inTurn := by
    decide +kernel
  have hname : (World.init.run Hasher.numerals inTurn).shared.index.resolve "b" = some 8 := by
    decide +kernel
  have hlist : ⟨8, 1, 0⟩ ∈ (World.init.run Hasher.numerals inTurn).shared.disk.listed 8 := by
    decide +kernel
  exact ⟨⟨hone, hover⟩, hname,
    (named_content_readable Hasher.numerals inTurn hone hover "b" 8 hname).2 _ hlist⟩

end Runs

end FactorQ.Store
