/-
# `FactorQ.Store.Generations` — what the statements of the index keep

No constraint of the schema says that a hash has one available generation, or that a claimed row
has no references.  Each statement carries a condition of its own, and together they keep it so,
if callers release what they hold and reconcile to no less than what is held.

`Held` is the index with those holds.  On either table a call does one of the things of
`Change`; everything is read off that.  A row counts at least its holds (`Backed`): what is
above them was leaked, and a reconcile may take it away.
-/
import FactorQ.Lib.Interleave
import FactorQ.Store.Counts

namespace FactorQ.Store

open Lib

/-! ## One table -/

section Table

variable {κ : Type} [DecidableEq κ]

/-- One more of `k`. -/
def bump (holds : κ → ℕ) (k : κ) : κ → ℕ := fun x => holds x + if x = k then 1 else 0

/-- One less of `k`. -/
def unbump (holds : κ → ℕ) (k : κ) : κ → ℕ := fun x => holds x - if x = k then 1 else 0

/-- What a call does to a table and its holds, and the row it was to delete.  A row is inserted
only under a key that is `free`. -/
inductive Change (free : κ → Prop) (t : RefTable κ) (holds : κ → ℕ) : RefTable κ → (κ → ℕ) → Option κ → Prop
  | same : Change free t holds t holds none
  | reserve {t' : RefTable κ} (k : κ) (now : Nat) (row : RefRow) (there : t.get? k = some row)
      (available : row.available = true)
      (get : ∀ x, t'.get? x = if x = k then (t.get? k).map (RefRow.reserve now) else t.get? x) :
      Change free t holds t' (bump holds k) none
  | insert (k : κ) (now : Nat) (absent : t.get? k = none) (isFree : free k) :
      Change free t holds (t.insertNew k (RefRow.fresh now)) (bump holds k) none
  | release (k : κ) (held : 0 < holds k) : Change free t holds (t.release k) (unbump holds k) none
  | claim (k : κ) : Change free t holds (t.claim k).2 holds none
  | delete (k : κ) : Change free t holds (t.deleteClaimed k) holds (some k)
  | reconcile (k : κ) (target before : Int) (above : (holds k : Int) ≤ target) :
      Change free t holds (t.reconcile k target before).2 holds none

/-- Every row counts its holds and perhaps more; a claimed or absent one has none. -/
def Backed (t : RefTable κ) (holds : κ → ℕ) : Prop := ∃ n, t.Counts n ∧ ∀ k, holds k ≤ n k

variable {free : κ → Prop} {t t' : RefTable κ} {holds holds' : κ → ℕ} {gone : Option κ}

theorem Backed.change (h : Backed t holds) (hc : Change free t holds t' holds' gone) : Backed t' holds' := by
  obtain ⟨n, hn, hle⟩ := h
  cases hc with
  | same => exact ⟨n, hn, hle⟩
  | reserve k now row there available get =>
    exact ⟨bump n k, hn.reserve now get there available fun _ => rfl, fun x => Nat.add_le_add_right (hle x) _⟩
  | insert k now absent isFree => exact ⟨bump n k, hn.insert absent now fun _ => rfl, fun x => Nat.add_le_add_right (hle x) _⟩
  | release k held =>
    refine ⟨unbump n k, hn.release fun x => ?_, fun x => Nat.sub_le_sub_right (hle x) _⟩
    have hx := hle x
    rw [unbump]
    split
    · next he =>
      subst he
      omega
    · rfl
  | claim k => exact ⟨n, hn.claim k, hle⟩
  | delete k => exact ⟨n, hn.deleteClaimed k, hle⟩
  | reconcile k target before above =>
    obtain ⟨m, rfl⟩ := Int.eq_ofNat_of_zero_le (Int.le_trans (Int.natCast_nonneg _) above)
    refine ⟨_, hn.reconcile k m before fun _ => rfl, fun x => ?_⟩
    split
    · next he =>
      rw [he.1]
      exact_mod_cast above
    · exact hle x

theorem Backed.row (h : Backed t holds) {k : κ} {row : RefRow} (hrow : t.get? k = some row) :
    0 ≤ row.refcount ∧ (row.available = false → row.refcount = 0) := by
  obtain ⟨n, hn, -⟩ := h
  have hcount := hn.refcount hrow
  refine ⟨by omega, fun ha => ?_⟩
  rw [hcount, hn.claimed hrow ha]
  rfl

/-- A claimed row stays as it is until it is deleted. -/
theorem Backed.frozen (h : Backed t holds) (hc : Change free t holds t' holds' gone) {k : κ} {row : RefRow}
    (hrow : t.get? k = some row) (hclaimed : row.available = false) :
    t'.get? k = some row ∨ gone = some k ∧ t'.get? k = none := by
  cases hc with
  | same => exact .inl hrow
  | reserve k' now row' there available get =>
    refine .inl ?_
    rw [get, if_neg, hrow]
    rintro rfl
    rw [hrow] at there
    cases there
    rw [hclaimed] at available
    cases available
  | insert k' now absent isFree =>
    refine .inl ?_
    rw [Table.get?_insertNew, if_neg, hrow]
    rintro rfl
    rw [hrow] at absent
    cases absent
  | release k' held =>
    refine .inl ?_
    rw [RefTable.get?_release, if_neg, hrow]
    rintro rfl
    obtain ⟨n, hn, hle⟩ := h
    have hzero := hn.claimed hrow hclaimed
    have hk := hle k
    omega
  | claim k' =>
    refine .inl ?_
    rcases RefTable.claim_cases t k' with ⟨he, -⟩ | ⟨r, hr, -, ha, -, hget⟩
    · rw [he, hrow]
    · rw [hget, if_neg, hrow]
      rintro rfl
      rw [hrow] at hr
      cases hr
      rw [hclaimed] at ha
      cases ha
  | delete k' =>
    rw [RefTable.get?_deleteClaimed]
    by_cases he : k = k' ∧ t.deletable k' = true
    · exact .inr ⟨by rw [he.1], if_pos he⟩
    · exact .inl (by rw [if_neg he, hrow])
  | reconcile k' target before above =>
    refine .inl ?_
    rcases RefTable.reconcile_cases t k' target before with ⟨he, -⟩ | ⟨r, hr, hgt, -, -, hget⟩
    · rw [he, hrow]
    · rw [hget, if_neg, hrow]
      rintro rfl
      rw [hrow] at hr
      cases hr
      have hzero := (h.row hrow).2 hclaimed
      omega

end Table

variable {Cid : Type} [DecidableEq Cid]

/-! ## One available generation -/

/-- A generation may be minted where none of its hash is available. -/
def Mintable (blocks : RefTable (Cid × Nat)) (key : Cid × Nat) : Prop :=
  ∀ g, blocks.flag (key.1, g) ≠ some true

theorem OneAvailable.change {blocks blocks' : RefTable (Cid × Nat)} {holds holds' : Cid × Nat → ℕ}
    {gone : Option (Cid × Nat)} (h : OneAvailable blocks)
    (hc : Change (Mintable blocks) blocks holds blocks' holds' gone) : OneAvailable blocks' := by
  cases hc with
  | same => exact h
  | reserve k now row there available get =>
    refine h.mono fun x hx => ?_
    rw [RefTable.flag, get] at hx
    split at hx
    · next he => rw [he, RefTable.flag, there, Option.map_some, available]
    · exact hx
  | insert k now absent isFree => exact h.mint isFree
  | release k held =>
    refine h.mono fun x hx => ?_
    rwa [RefTable.flag_release] at hx
  | claim k =>
    refine h.mono fun x hx => ?_
    rcases RefTable.flag_claim blocks k x with hsame | ⟨rfl, -, hfalse, -⟩
    · rwa [hsame] at hx
    · rw [hfalse] at hx
      cases hx
  | delete k =>
    refine h.mono fun x hx => ?_
    rw [RefTable.flag_deleteClaimed] at hx
    split at hx
    · cases hx
    · exact hx
  | reconcile k target before above =>
    refine h.mono fun x hx => ?_
    rwa [RefTable.flag_reconcile] at hx

/-! ## The calls -/

/-- A call of the index with what its caller passes and the clock says. -/
inductive IndexCall (Cid : Type) where
  | reserveBlock (hash : Cid) (now : Nat)
  | mintBlock (key : Cid × Nat) (now : Nat)
  | claimBlock (key : Cid × Nat)
  | releaseBlock (key : Cid × Nat)
  | deleteBlock (key : Cid × Nat)
  | reconcileBlock (key : Cid × Nat) (target before : Int)
  | reserveObject (cid : Cid) (create : Bool) (now : Nat)
  | claimObject (cid : Cid)
  | releaseObject (cid : Cid)
  | deleteObject (cid : Cid)
  | reconcileObject (cid : Cid) (target before : Int)

omit [DecidableEq Cid] in
def IndexCall.deletesBlock : IndexCall Cid → Option (Cid × Nat)
  | .deleteBlock key => some key
  | _ => none

omit [DecidableEq Cid] in
def IndexCall.deletesObject : IndexCall Cid → Option Cid
  | .deleteObject cid => some cid
  | _ => none

omit [DecidableEq Cid] in
theorem IndexCall.deletesBlock_eq {call : IndexCall Cid} {key : Cid × Nat} (h : call.deletesBlock = some key) :
    call = .deleteBlock key := by
  cases call <;> cases h
  rfl

omit [DecidableEq Cid] in
theorem IndexCall.deletesObject_eq {call : IndexCall Cid} {cid : Cid} (h : call.deletesObject = some cid) :
    call = .deleteObject cid := by
  cases call <;> cases h
  rfl

/-- The index, and what its callers hold of it. -/
structure Held (Cid : Type) where
  index : Index Cid
  blockHolds : Cid × Nat → ℕ
  objectHolds : Cid → ℕ

namespace Held

omit [DecidableEq Cid] in
def init : Held Cid := ⟨Index.empty, fun _ => 0, fun _ => 0⟩

def step (s : Held Cid) : IndexCall Cid → Held Cid
  | .reserveBlock hash now =>
    { s with
      index := (s.index.reserveBlock hash now).2
      blockHolds := match (s.index.reserveBlock hash now).1 with
        | some generation => bump s.blockHolds (hash, generation)
        | none => s.blockHolds }
  | .mintBlock key now =>
    { s with
      index := (s.index.mintBlock key now).2
      blockHolds := if (s.index.mintBlock key now).1 then bump s.blockHolds key else s.blockHolds }
  | .claimBlock key => { s with index := (s.index.claimBlock key).2 }
  | .releaseBlock key => { s with index := s.index.releaseBlock key, blockHolds := unbump s.blockHolds key }
  | .deleteBlock key => { s with index := s.index.deleteBlock key }
  | .reconcileBlock key target before => { s with index := (s.index.reconcileBlock key target before).2 }
  | .reserveObject cid create now =>
    { s with
      index := (s.index.reserveObject cid create now).2
      objectHolds := if (s.index.reserveObject cid create now).1.isSome then bump s.objectHolds cid
        else s.objectHolds }
  | .claimObject cid => { s with index := (s.index.claimObject cid).2 }
  | .releaseObject cid => { s with index := s.index.releaseObject cid, objectHolds := unbump s.objectHolds cid }
  | .deleteObject cid => { s with index := s.index.deleteObject cid }
  | .reconcileObject cid target before => { s with index := (s.index.reconcileObject cid target before).2 }

omit [DecidableEq Cid] in
/-- Callers release what they hold, and reconcile to no less than what is held. -/
def Allowed (s : Held Cid) : IndexCall Cid → Prop
  | .releaseBlock key => 0 < s.blockHolds key
  | .reconcileBlock key target _ => (s.blockHolds key : Int) ≤ target
  | .releaseObject cid => 0 < s.objectHolds cid
  | .reconcileObject cid target _ => (s.objectHolds cid : Int) ≤ target
  | _ => True

def after (calls : List (IndexCall Cid)) : Held Cid := calls.foldl step init

structure Sound (s : Held Cid) : Prop where
  one : OneAvailable s.index.blocks
  blocks : Backed s.index.blocks s.blockHolds
  objects : Backed s.index.objects s.objectHolds

variable {s : Held Cid}

theorem change_blocks (h : OneAvailable s.index.blocks) {call : IndexCall Cid} (hok : s.Allowed call) :
    Change (Mintable s.index.blocks) s.index.blocks s.blockHolds (s.step call).index.blocks
      (s.step call).blockHolds call.deletesBlock := by
  cases call with
  | reserveBlock hash now =>
    rcases Index.reserveBlock_cases h hash now with ⟨g, hg, hflag, hget⟩ | ⟨he, -⟩
    · obtain ⟨row, hrow, ha⟩ := RefTable.flag_eq_some.mp hflag
      rw [step]
      dsimp only
      rw [hg]
      exact .reserve (hash, g) now row hrow ha hget
    · rw [step, he]
      exact .same
  | mintBlock key now =>
    rcases Index.mintBlock_cases s.index key now with ⟨he, -⟩ | ⟨habsent, hfree, he⟩
    · rw [step, he]
      exact .same
    · rw [step, he]
      exact .insert key now habsent hfree
  | claimBlock key => exact .claim key
  | releaseBlock key => exact .release key hok
  | deleteBlock key => exact .delete key
  | reconcileBlock key target before => exact .reconcile key target before hok
  | reserveObject cid create now =>
    have hblocks : (s.step (.reserveObject cid create now)).index.blocks = s.index.blocks := by
      rcases Index.reserveObject_cases s.index cid create now with ⟨_, _, _, he⟩ | ⟨_, _, he⟩ | ⟨he, _⟩ <;>
        rw [step, he]
    rw [hblocks]
    exact .same
  | claimObject cid => exact .same
  | releaseObject cid => exact .same
  | deleteObject cid =>
    rw [step, Index.deleteObject_blocks]
    exact .same
  | reconcileObject cid target before => exact .same

theorem change_objects {call : IndexCall Cid} (hok : s.Allowed call) :
    Change (fun _ => True) s.index.objects s.objectHolds (s.step call).index.objects
      (s.step call).objectHolds call.deletesObject := by
  cases call with
  | reserveBlock hash now => exact .same
  | mintBlock key now =>
    rcases Index.mintBlock_cases s.index key now with ⟨he, -⟩ | ⟨-, -, he⟩
    · rw [step, he]
      exact .same
    · rw [step, he]
      exact .same
  | claimBlock key => exact .same
  | releaseBlock key => exact .same
  | deleteBlock key => exact .same
  | reconcileBlock key target before => exact .same
  | reserveObject cid create now =>
    rcases Index.reserveObject_cases s.index cid create now with ⟨row, hrow, ha, he⟩ | ⟨habsent, -, he⟩ | ⟨he, -⟩
    · rw [step, he]
      exact .reserve cid now row hrow ha fun x => Table.get?_modify _ _ _ _
    · rw [step, he]
      exact .insert cid now habsent trivial
    · rw [step, he]
      exact .same
  | claimObject cid => exact .claim cid
  | releaseObject cid => exact .release cid hok
  | deleteObject cid =>
    rw [step, Index.deleteObject_objects]
    exact .delete cid
  | reconcileObject cid target before => exact .reconcile cid target before hok

theorem Sound.init : Sound (Held.init : Held Cid) := by
  refine ⟨fun hash g g' hg => ?_, ⟨fun _ => 0, fun _ => rfl, fun _ => le_rfl⟩, ⟨fun _ => 0, fun _ => rfl, fun _ => le_rfl⟩⟩
  rw [show (Held.init : Held Cid).index.blocks = Table.empty from rfl, RefTable.flag_empty] at hg
  cases hg

theorem Sound.step (h : Sound s) {call : IndexCall Cid} (hok : s.Allowed call) : Sound (s.step call) :=
  ⟨h.one.change (change_blocks h.one hok), h.blocks.change (change_blocks h.one hok),
    h.objects.change (change_objects hok)⟩

end Held

/-- A generation number nobody uses is minted if no generation is available. -/
theorem Index.mint_nextGeneration {ix : Index Cid} {hash : Cid} (h : ix.hasAvailable hash = false) (now : Nat) :
    (ix.mintBlock (hash, ix.nextGeneration hash) now).1 = true := by
  rcases ix.mintBlock_cases (hash, ix.nextGeneration hash) now with ⟨-, ha | ⟨row, hrow⟩⟩ | ⟨-, -, he⟩
  · rw [← Index.hasAvailable_iff, h] at ha
    cases ha
  · rw [Index.get?_nextGeneration] at hrow
    cases hrow
  · rw [he]

/-- After any allowed calls: a hash has at most one available generation; no refcount is
negative, and that of a claimed row is zero; the next allowed call leaves a claimed row as it is
or deletes it, and reserves none; and the next generation can be minted if none is available. -/
theorem generation_invariants (calls : List (IndexCall Cid))
    (hcalls : Permitted Held.step Held.Allowed (Held.init : Held Cid) calls) :
    OneAvailable (Held.after calls).index.blocks ∧
    (∀ key row, (Held.after calls).index.blocks.get? key = some row →
      0 ≤ row.refcount ∧ (row.available = false → row.refcount = 0)) ∧
    (∀ cid row, (Held.after calls).index.objects.get? cid = some row →
      0 ≤ row.refcount ∧ (row.available = false → row.refcount = 0)) ∧
    (∀ call, (Held.after calls).Allowed call →
      (∀ key row, (Held.after calls).index.blocks.get? key = some row → row.available = false →
        ((Held.after calls).step call).index.blocks.get? key = some row ∨
          call = .deleteBlock key ∧ ((Held.after calls).step call).index.blocks.get? key = none) ∧
      (∀ cid row, (Held.after calls).index.objects.get? cid = some row → row.available = false →
        ((Held.after calls).step call).index.objects.get? cid = some row ∨
          call = .deleteObject cid ∧ ((Held.after calls).step call).index.objects.get? cid = none)) ∧
    (∀ hash now g, ((Held.after calls).index.reserveBlock hash now).1 = some g →
      (Held.after calls).index.blocks.flag (hash, g) = some true) ∧
    (∀ cid create now, (Held.after calls).index.objects.flag cid = some false →
      ((Held.after calls).index.reserveObject cid create now).1 = none) ∧
    ∀ hash now, (Held.after calls).index.hasAvailable hash = false →
      ((Held.after calls).index.mintBlock (hash, (Held.after calls).index.nextGeneration hash) now).1 = true := by
  have h : Held.Sound (Held.after calls) := hcalls.inv (fun _ _ hok hs => hs.step hok) .init
  refine ⟨h.one, fun key row => h.blocks.row, fun cid row => h.objects.row, fun call hok => ⟨?_, ?_⟩, ?_, ?_,
    fun hash now hnone => Index.mint_nextGeneration hnone now⟩
  · intro key row hrow hclaimed
    rcases h.blocks.frozen (Held.change_blocks h.one hok) hrow hclaimed with hsame | ⟨hgone, hnone⟩
    · exact .inl hsame
    · exact .inr ⟨IndexCall.deletesBlock_eq hgone, hnone⟩
  · intro cid row hrow hclaimed
    rcases h.objects.frozen (Held.change_objects hok) hrow hclaimed with hsame | ⟨hgone, hnone⟩
    · exact .inl hsame
    · exact .inr ⟨IndexCall.deletesObject_eq hgone, hnone⟩
  · intro hash now g hg
    rcases Index.reserveBlock_cases h.one hash now with ⟨g', hg', hflag, -⟩ | ⟨he, -⟩
    · rw [hg] at hg'
      cases hg'
      exact hflag
    · rw [he] at hg
      cases hg
  · intro cid create now hclaimed
    rcases Index.reserveObject_cases (Held.after calls).index cid create now with
      ⟨row, hrow, ha, -⟩ | ⟨habsent, -, -⟩ | ⟨he, -⟩
    · rw [RefTable.flag, hrow, Option.map_some, ha] at hclaimed
      cases hclaimed
    · rw [RefTable.flag, habsent] at hclaimed
      cases hclaimed
    · rw [he]

/-- A block is minted, released, claimed and minted again under the next generation. -/
def mintAgain : List (IndexCall Nat) :=
  [.mintBlock (7, 0) 1, .releaseBlock (7, 0), .claimBlock (7, 0), .mintBlock (7, 1) 2]

theorem minted_again : OneAvailable (Held.after mintAgain).index.blocks :=
  (generation_invariants mintAgain ⟨trivial,
    show 0 < (Held.init.step (IndexCall.mintBlock (7, 0) 1)).blockHolds (7, 0) by decide, trivial, trivial, trivial⟩).1

end FactorQ.Store
