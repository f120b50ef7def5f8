/-
# `FactorQ.Store.ObjectSafety` — no name over a missing manifest

Any number of writers and one collector, interleaved at will.  Two invariants
carry the object level.  `ObjectInv`: the stored refcount of an object is its
name-versions, plus the reservations calls in progress hold, plus `lost` — the
reservations of calls that are over without having given them back; and a
manifest is there for every object that is named or that a writer has seen and
holds.  `ClaimInv`: what the collector has in hand is claimed, which is what
makes unlinking safe.

The collector's passes are serial, so nobody else can finish a claim it relies
on.  `lost` stays where it is unless the `release_object` of a cleanup fails, which
the code ignores (`failed_release_keeps_refcount`), or a process crashes.
-/
import FactorQ.Store.Counts
import FactorQ.Store.Stakes

namespace FactorQ.Store

open Lib

variable {Cid : Type}

section Invariants

variable [DecidableEq Cid]

/-- Refcounts and manifests of objects. -/
structure ObjectInv (lost : Cid → ℕ) (s : State Cid) (n : Stake Cid → ℕ) : Prop where
  counts : RefTable.Counts s.index.objects fun c => s.index.nameRefs c + n (.object c) + lost c
  present : ∀ c, 0 < s.index.nameRefs c + n (.present c) → s.disk.has c = true

/-- What the collector has in hand is claimed, and it is the only one. -/
structure ClaimInv (s : State Cid) (n : Stake Cid → ℕ) : Prop where
  object : ∀ c, 0 < n (.reapObject c) → s.index.objects.flag c = some false
  block : ∀ k, 0 < n (.reapBlock k) → s.index.blocks.flag k = some false
  serial : n .collecting ≤ 1

variable {lost : Cid → ℕ} {s s' : State Cid} {n n' : Stake Cid → ℕ} {cid : Cid}

theorem has_eq (d : Disk Cid) (c : Cid) : d.has c = (d.manifests.get? c).isSome := rfl

/-! ## What keeps the object level -/

section

variable (h : ObjectInv lost s n)
include h

/-- A step that leaves names, objects and manifests alone. -/
theorem ObjectInv.frame (ho : s'.index.objects = s.index.objects)
    (hv : s'.index.nameVersions = s.index.nameVersions) (hd : s'.disk.manifests = s.disk.manifests)
    (hobj : ∀ c, n' (.object c) = n (.object c)) (hpre : ∀ c, n' (.present c) ≤ n (.present c)) :
    ObjectInv lost s' n' := by
  have hn : ∀ c, s'.index.nameRefs c = s.index.nameRefs c := fun c => by
    rw [Index.nameRefs, hv, Index.nameRefs]
  refine ⟨?_, fun c hc => ?_⟩
  · rw [ho]
    exact h.counts.congr fun c => by rw [hn, hobj]
  · rw [has_eq, hd]
    have := hpre c
    rw [hn] at hc
    exact h.present c (by omega)

theorem ObjectInv.recount {ix : Index Cid} (hv : ix.nameVersions = s.index.nameVersions)
    (hc : RefTable.Counts ix.objects fun c => s.index.nameRefs c + n' (.object c) + lost c)
    (hpre : ∀ c, n' (.present c) ≤ n (.present c)) : ObjectInv lost { s with index := ix } n' := by
  have hn : ∀ c, ix.nameRefs c = s.index.nameRefs c := fun c => by
    rw [Index.nameRefs, hv, Index.nameRefs]
  refine ⟨hc.congr fun c => by rw [hn], fun c hp => h.present c ?_⟩
  have := hpre c
  simp only [hn] at hp
  omega

theorem ObjectInv.reserve {create : Bool} {now : Nat} {prevRc : Int}
    (hr : (s.index.reserveObject cid create now).1 = some prevRc)
    (hobj : ∀ c, n' (.object c) = n (.object c) + if c = cid then 1 else 0)
    (hpre : ∀ c, n' (.present c) ≤ n (.present c)) :
    ObjectInv lost { s with index := (s.index.reserveObject cid create now).2 } n' := by
  rcases s.index.reserveObject_cases cid create now with
    ⟨row, hg, ha, he⟩ | ⟨hg, -, he⟩ | ⟨he, -⟩
  · rw [he]
    refine h.recount rfl (h.counts.reserve now (Table.get?_modify _ _ _) hg ha fun c => ?_) hpre
    rw [hobj]
    omega
  · rw [he]
    refine h.recount rfl (h.counts.insert hg now fun c => ?_) hpre
    rw [hobj]
    omega
  · rw [he] at hr
    cases hr

/-- A manifest appears, or one that is there is seen. -/
theorem ObjectInv.see (hi : s'.index = s.index) (hd : ∀ c, s.disk.has c = true → s'.disk.has c = true)
    (hobj : ∀ c, n' (.object c) = n (.object c))
    (hpre : ∀ c, n' (.present c) ≤ n (.present c) ∨ s'.disk.has c = true) : ObjectInv lost s' n' := by
  refine ⟨?_, fun c hc => ?_⟩
  · rw [hi]
    exact h.counts.congr fun c => by rw [hobj]
  · rw [hi] at hc
    rcases hpre c with hp | hp
    · exact hd c (h.present c (by omega))
    · exact hp

/-- A reservation becomes a version of the name, or is given back because the
version is current already. -/
theorem ObjectInv.bind {name : Name} {reserved : List (Cid × Nat)} {prevRc : Int} (hseen : 0 < n (.present cid))
    (hobj : ∀ c, n (.object c) = n' (.object c) + if c = cid then 1 else 0)
    (hpre : ∀ c, n' (.present c) ≤ n (.present c)) :
    ObjectInv lost { s with index := s.index.bind name cid reserved prevRc } n' := by
  have happend : ∀ ix : Index Cid, ix.objects = s.index.objects →
      ix.nameVersions = s.index.appendVersion name cid →
      ObjectInv lost { s with index := ix } n' := by
    intro ix ho hv
    have hn : ∀ c, ix.nameRefs c = s.index.nameRefs c + if c = cid then 1 else 0 := fun c => by
      rw [Index.nameRefs, hv, Index.count_appendVersion]
    refine ⟨?_, fun c hc => ?_⟩
    · simp only [ho]
      refine h.counts.congr fun c => ?_
      rw [hn, hobj]
      omega
    · simp only [hn] at hc
      by_cases e : c = cid
      · subst e
        exact h.present c (by omega)
      · rw [if_neg e] at hc
        have := hpre c
        exact h.present c (by omega)
  rcases s.index.bind_cases name cid reserved prevRc with ⟨hcur, he⟩ | ⟨-, -, he⟩ | ⟨-, -, he⟩
  · rw [he]
    refine h.recount rfl (h.counts.release fun c => ?_) hpre
    rw [hobj]
    omega
  · rw [he]
    exact happend _ rfl rfl
  · rw [he]
    exact happend _ rfl rfl

theorem ObjectInv.release (hobj : ∀ c, n (.object c) = n' (.object c) + if c = cid then 1 else 0)
    (hpre : ∀ c, n' (.present c) ≤ n (.present c)) :
    ObjectInv lost { s with index := s.index.releaseObject cid } n' := by
  refine h.recount rfl (h.counts.release fun c => ?_) hpre
  rw [hobj]
  omega

theorem ObjectInv.unbind (name : Name) (n' : Stake Cid → ℕ) (hobj : ∀ c, n' (.object c) = n (.object c))
    (hpre : ∀ c, n' (.present c) ≤ n (.present c)) :
    ∃ ix, s.index.unbind name = some ix ∧ ObjectInv lost { s with index := ix } n' := by
  obtain ⟨ix, he, hd⟩ := Index.unbind_dropped (r := fun c => n (.object c) + lost c) name
    (h.counts.congr fun c => by omega)
  refine ⟨ix, he, hd.objects.congr fun c => by dsimp only; rw [hobj]; omega,
    fun c hc => h.present c ?_⟩
  have h1 := hd.nameRefs_le c
  have h2 := hpre c
  simp only at hc
  omega

theorem ObjectInv.remove (hflag : s.index.objects.flag cid ≠ some true)
    (hle : n (.present cid) ≤ n (.object cid)) (hobj : ∀ c, n' (.object c) = n (.object c))
    (hpre : ∀ c, n' (.present c) ≤ n (.present c)) :
    ObjectInv lost { s with disk := s.disk.remove cid } n' := by
  have h0 := h.counts.zero_of_flag hflag
  refine ⟨h.counts.congr fun c => by rw [hobj], fun c hc => ?_⟩
  have hp := hpre c
  simp only at hc
  have hne : c ≠ cid := by
    rintro rfl
    omega
  rw [has_eq, Disk.get?_manifests_remove, if_neg hne]
  exact h.present c (by omega)

/-- Reservations that will not be given back any more. -/
theorem ObjectInv.lose (hobj : ∀ c, n' (.object c) ≤ n (.object c))
    (hpre : ∀ c, n' (.present c) ≤ n (.present c)) :
    ObjectInv (fun c => lost c + (n (.object c) - n' (.object c))) s n' := by
  refine ⟨h.counts.congr fun c => ?_, fun c hc => h.present c ?_⟩
  · have := hobj c
    omega
  · have := hpre c
    omega

end

/-! ## What keeps claims -/

theorem ClaimInv.frame (h : ClaimInv s n)
    (ho : ∀ c, s.index.objects.flag c = some false → s'.index.objects.flag c = some false)
    (hb : ∀ k, s.index.blocks.flag k = some false → s'.index.blocks.flag k = some false)
    (hro : ∀ c, n' (.reapObject c) ≤ n (.reapObject c))
    (hrb : ∀ k, n' (.reapBlock k) ≤ n (.reapBlock k))
    (hc : n' .collecting ≤ n .collecting) : ClaimInv s' n' where
  object c hp := ho c (h.object c (Nat.lt_of_lt_of_le hp (hro c)))
  block k hp := hb k (h.block k (Nat.lt_of_lt_of_le hp (hrb k)))
  serial := hc.trans h.serial

theorem ClaimInv.of_none (h0 : ∀ t, n t = 0) : ClaimInv s n :=
  ⟨fun c hc => absurd hc (by simp [h0]), fun k hk => absurd hk (by simp [h0]), by simp [h0]⟩

end Invariants

/-! ## The writers -/

theorem Materialize.step_frame [DecidableEq Cid] (s : State Cid) (hash : Cid) (bytes : Bytes)
    (point : Materialize) :
    (point.step s hash bytes).1.index.objects = s.index.objects ∧
    (point.step s hash bytes).1.index.nameVersions = s.index.nameVersions ∧
    (point.step s hash bytes).1.index.objectBlocks = s.index.objectBlocks ∧
    (point.step s hash bytes).1.disk.manifests = s.disk.manifests ∧
    (point.step s hash bytes).1.clock = s.clock := by
  cases point with
  | reserve => exact ⟨rfl, rfl, rfl, rfl, rfl⟩
  | nextGeneration => exact ⟨rfl, rfl, rfl, rfl, rfl⟩
  | writeBlock g => exact ⟨rfl, rfl, rfl, rfl, rfl⟩
  | mint g =>
    rcases s.index.mintBlock_cases (hash, g) s.clock with ⟨he, -⟩ | ⟨-, -, he⟩ <;>
      simp [Materialize.step, he]

/-- A claimed row stays claimed while writers work, and an available one available. -/
theorem Materialize.step_flags [DecidableEq Cid] (s : State Cid) (hash : Cid) (bytes : Bytes) (point : Materialize)
    {k : Cid × Nat} {available : Bool} (hk : s.index.blocks.flag k = some available) :
    (point.step s hash bytes).1.index.blocks.flag k = some available := by
  cases point with
  | reserve => exact (RefTable.flag_update (RefRow.reserve_available s.clock) k).trans hk
  | nextGeneration => exact hk
  | writeBlock g => exact hk
  | mint g =>
    rcases s.index.mintBlock_cases (hash, g) s.clock with ⟨he, -⟩ | ⟨hnone, -, he⟩
    · simpa [Materialize.step, he] using hk
    · have hne : k ≠ (hash, g) := by
        rintro rfl
        rw [RefTable.flag_eq_none.mpr hnone] at hk
        cases hk
      simp only [Materialize.step, he, RefTable.flag_insertNew, if_neg hne]
      exact hk

theorem Index.reserveObject_none [DecidableEq Cid] {ix : Index Cid} {cid : Cid} {create : Bool}
    {now : Nat} (h : (ix.reserveObject cid create now).1 = none) :
    (ix.reserveObject cid create now).2 = ix := by
  rcases ix.reserveObject_cases cid create now with ⟨row, -, -, he⟩ | ⟨-, -, he⟩ | ⟨he, -⟩ <;>
    rw [he] at h ⊢ <;> cases h

section Machines

variable [LinearOrder Cid] {H : Hasher Cid} {lost : Cid → ℕ} {s : State Cid} {m : Stake Cid → ℕ}

theorem Writer.step_objectInv (pc : Writer Cid)
    (h : ObjectInv lost s fun t => m t + pc.stakes H t) :
    ObjectInv lost (pc.step H s).1 fun t => m t + (Proc.ofWriter (pc.step H s).2).stakes H t := by
  cases pc with
  | putBlock name content chunk rest reserved point =>
    obtain ⟨ho, hv, -, hd, -⟩ := point.step_frame s chunk.hash (chunk.bytes content)
    refine h.frame ho hv hd (fun c => ?_) (fun c => ?_)
    all_goals
      simp only [Writer.step]
      rcases (point.step s chunk.hash (chunk.bytes content)).2 with point' | g
      · rfl
      · simp only [Proc.ofWriter, Proc.stakes, stakes_putNext]
        rfl
  | putReserveObject name content reserved attempt =>
    simp only [Writer.step]
    rcases hr : (s.index.reserveObject (H.of content) true s.clock).1 with _ | prevRc
    · rw [Index.reserveObject_none hr]
      refine h.frame rfl rfl rfl (fun c => ?_) (fun c => ?_)
      all_goals
        simp only
        split
        · rw [stakes_releasing]
          rfl
        · rfl
    · refine h.reserve hr (fun c => ?_) (fun c => ?_)
      · simp [Proc.ofWriter, Proc.stakes, Writer.stakes, Writer.holds]
      · exact le_rfl
  | putWriteObject name content reserved prevRc =>
    refine h.see rfl (fun c hc => ?_) (fun c => rfl) (fun c => ?_)
    · rw [has_eq, Writer.step, Disk.get?_manifests_writeObject]
      split
      · rfl
      · exact hc
    · by_cases e : c = H.of content
      · refine .inr ?_
        rw [has_eq, Writer.step, Disk.get?_manifests_writeObject, if_pos e]
        rfl
      · refine .inl (le_of_eq ?_)
        simp [Writer.step, Proc.ofWriter, Proc.stakes, Writer.stakes, Writer.sees, e]
  | putBind name content reserved prevRc =>
    refine h.bind ?_ (fun c => ?_) (fun c => ?_)
    · simp [Writer.stakes, Writer.sees]
    · simp [Proc.ofWriter, Proc.stakes, Writer.stakes, Writer.holds, Writer.step]
    · simp [Proc.ofWriter, Proc.stakes, Writer.stakes, Writer.step]
  | aliasRead name cid =>
    refine h.frame rfl rfl rfl (fun c => ?_) (fun c => ?_)
    all_goals
      simp only [Writer.step]
      rcases s.disk.blocks cid with e | hashes
      · rfl
      · simp only [Proc.ofWriter, Proc.stakes, stakes_aliasNext]
        rfl
  | aliasReserve name cid hash rest reserved =>
    refine h.frame rfl rfl rfl (fun c => ?_) (fun c => ?_)
    all_goals
      simp only [Writer.step]
      rcases (s.index.reserveBlock hash s.clock).1 with _ | g
      · rfl
      · simp only [Proc.ofWriter, Proc.stakes, stakes_aliasNext]
        rfl
  | aliasReserveObject name cid reserved =>
    simp only [Writer.step]
    rcases hr : (s.index.reserveObject cid false s.clock).1 with _ | prevRc
    · rw [Index.reserveObject_none hr]
      refine h.frame rfl rfl rfl (fun c => ?_) (fun c => ?_)
      all_goals
        simp only [stakes_releasing]
        rfl
    · refine h.reserve hr (fun c => ?_) (fun c => ?_)
      · simp [Proc.ofWriter, Proc.stakes, Writer.stakes, Writer.holds]
      · exact le_rfl
  | aliasHas name cid reserved prevRc =>
    refine h.see rfl (fun c hc => hc) (fun c => ?_) (fun c => ?_)
    · simp only [Writer.step]
      split <;> rfl
    · simp only [Writer.step]
      split
      · next hhas =>
        by_cases e : c = cid
        · subst e
          exact .inr hhas
        · refine .inl (le_of_eq ?_)
          simp [Proc.ofWriter, Proc.stakes, Writer.stakes, Writer.sees, e]
      · exact .inl le_rfl
  | aliasBind name cid reserved prevRc =>
    refine h.bind ?_ (fun c => ?_) (fun c => ?_)
    · simp [Writer.stakes, Writer.sees]
    · simp [Proc.ofWriter, Proc.stakes, Writer.stakes, Writer.holds, Writer.step]
    · simp [Proc.ofWriter, Proc.stakes, Writer.stakes, Writer.step]
  | releaseObject cid prevRc reserved error =>
    refine h.release (fun c => ?_) (fun c => ?_)
    · simp only [Writer.step, stakes_releasing]
      simp [Writer.stakes, Writer.holds, blockStakes]
    · simp only [Writer.step, stakes_releasing]
      exact le_rfl
  | releaseBlock key rest error =>
    refine h.frame rfl rfl rfl (fun c => ?_) (fun c => ?_)
    all_goals
      simp only [Writer.step, stakes_releasing]
      rfl
  | unbind name =>
    obtain ⟨ix, he, hix⟩ :=
      h.unbind name (fun t => m t + 0) (fun c => rfl) (fun c => le_rfl)
    simp only [Writer.step, he]
    exact hix

/-- A failed call keeps the object level too, except that the cleanup of an
object reservation must not be the call that fails. -/
theorem Writer.fail_objectInv (pc : Writer Cid) (e : StoreError Cid)
    (hpc : ∀ cid prevRc reserved error, pc ≠ .releaseObject cid prevRc reserved error)
    (h : ObjectInv lost s fun t => m t + pc.stakes H t) :
    ObjectInv lost s fun t => m t + (Proc.ofWriter (pc.fail H e)).stakes H t := by
  cases pc with
  | releaseObject cid prevRc reserved error => exact absurd rfl (hpc cid prevRc reserved error)
  | releaseBlock key rest error =>
    refine h.frame rfl rfl rfl (fun c => ?_) (fun c => ?_)
    all_goals
      simp only [Writer.fail, stakes_releasing]
      rfl
  | putBind _ _ _ _ | aliasBind _ _ _ _ =>
    exact h.frame rfl rfl rfl (fun c => rfl) (fun c => Nat.add_le_add_left (Nat.zero_le _) _)
  | _ => exact h.frame rfl rfl rfl (fun c => rfl) (fun c => le_rfl)

/-- Also where the cleanup itself fails: the reservation is then lost. -/
theorem Writer.fail_lostInv (pc : Writer Cid) (e : StoreError Cid)
    (h : ObjectInv lost s fun t => m t + pc.stakes H t) :
    ∃ lost', ObjectInv lost' s fun t => m t + (Proc.ofWriter (pc.fail H e)).stakes H t := by
  cases pc with
  | releaseObject cid prevRc reserved error =>
    refine ⟨_, h.lose (fun c => Nat.add_le_add_left ?_ _) (fun c => Nat.add_le_add_left ?_ _)⟩
    all_goals
      rw [Writer.fail, stakes_releasing]
      exact Nat.zero_le _
  | _ => exact ⟨lost, Writer.fail_objectInv _ e (by rintro _ _ _ _ ⟨⟩) h⟩

theorem Index.reserveObject_flags {ix : Index Cid} {cid : Cid} {create : Bool} {now : Nat} {c : Cid}
    (hc : ix.objects.flag c = some false) :
    (ix.reserveObject cid create now).2.objects.flag c = some false := by
  rcases ix.reserveObject_cases cid create now with ⟨row, -, -, he⟩ | ⟨hg, -, he⟩ | ⟨he, -⟩
  · rw [he]
    exact (RefTable.flag_update (RefRow.reserve_available now) c).trans hc
  · rw [he]
    have hne : c ≠ cid := by
      rintro rfl
      rw [RefTable.flag_eq_none.mpr hg] at hc
      cases hc
    simp only [RefTable.flag_insertNew, if_neg hne]
    exact hc
  · rw [he]
    exact hc

theorem Index.reserveObject_blocks (ix : Index Cid) (cid : Cid) (create : Bool) (now : Nat) :
    (ix.reserveObject cid create now).2.blocks = ix.blocks := by
  rcases ix.reserveObject_cases cid create now with ⟨row, -, -, he⟩ | ⟨-, -, he⟩ | ⟨he, -⟩ <;> rw [he]

theorem Index.bind_flags (ix : Index Cid) (name : Name) (cid : Cid) (reserved : List (Cid × Nat))
    (prevRc : Int) :
    (∀ c, (ix.bind name cid reserved prevRc).objects.flag c = ix.objects.flag c) ∧
      ∀ k, (ix.bind name cid reserved prevRc).blocks.flag k = ix.blocks.flag k := by
  rcases ix.bind_cases name cid reserved prevRc with ⟨-, he⟩ | ⟨-, -, he⟩ | ⟨-, -, he⟩ <;> rw [he]
  · exact ⟨RefTable.flag_release _ _, RefTable.flag_releaseAll _ _⟩
  · exact ⟨fun _ => rfl, fun _ => rfl⟩
  · exact ⟨fun _ => rfl, RefTable.flag_releaseAll _ _⟩

theorem Writer.step_flags (pc : Writer Cid) (h : ObjectInv lost s fun t => m t + pc.stakes H t) :
    (∀ c, s.index.objects.flag c = some false →
      (pc.step H s).1.index.objects.flag c = some false) ∧
    ∀ k, s.index.blocks.flag k = some false →
      (pc.step H s).1.index.blocks.flag k = some false := by
  cases pc with
  | putBlock name content chunk rest reserved point =>
    refine ⟨fun c hc => ?_, fun k hk => point.step_flags s _ _ hk⟩
    rw [Writer.step, (point.step_frame s chunk.hash (chunk.bytes content)).1]
    exact hc
  | putReserveObject name content reserved attempt =>
    refine ⟨fun c hc => Index.reserveObject_flags hc, fun k hk => ?_⟩
    rw [Writer.step, Index.reserveObject_blocks]
    exact hk
  | putBind name content reserved prevRc =>
    obtain ⟨ho, hb⟩ := s.index.bind_flags name (H.of content) reserved prevRc
    exact ⟨fun c hc => (ho c).trans hc, fun k hk => (hb k).trans hk⟩
  | aliasReserve name cid hash rest reserved =>
    exact ⟨fun c hc => hc,
      fun k hk => (RefTable.flag_update (RefRow.reserve_available s.clock) k).trans hk⟩
  | aliasReserveObject name cid reserved =>
    refine ⟨fun c hc => Index.reserveObject_flags hc, fun k hk => ?_⟩
    rw [Writer.step, Index.reserveObject_blocks]
    exact hk
  | aliasBind name cid reserved prevRc =>
    obtain ⟨ho, hb⟩ := s.index.bind_flags name cid reserved prevRc
    exact ⟨fun c hc => (ho c).trans hc, fun k hk => (hb k).trans hk⟩
  | releaseObject cid prevRc reserved error =>
    exact ⟨fun c hc => (RefTable.flag_release _ _ _).trans hc, fun k hk => hk⟩
  | releaseBlock key rest error =>
    exact ⟨fun c hc => hc, fun k hk => (RefTable.flag_release _ _ _).trans hk⟩
  | unbind name =>
    obtain ⟨ix, he, hd⟩ := Index.unbind_dropped
      (r := fun c => m (.object c) + (Writer.unbind name).stakes H (.object c) + lost c) name
      (h.counts.congr fun c => by omega)
    simp only [Writer.step, he]
    exact ⟨fun c hc => (hd.objectFlags c).trans hc, fun k hk => (hd.blockFlags k).trans hk⟩
  | putWriteObject _ _ _ _ | aliasRead _ _ | aliasHas _ _ _ _ =>
    exact ⟨fun c hc => hc, fun k hk => hk⟩

omit [LinearOrder Cid] in
theorem Writer.stakes_reap [DecidableEq Cid] (x : Writer Cid ⊕ Returned Cid) :
    (∀ c, (Proc.ofWriter x).stakes H (.reapObject c) = 0) ∧
    (∀ k, (Proc.ofWriter x).stakes H (.reapBlock k) = 0) ∧
    (Proc.ofWriter x).stakes H .collecting = 0 := by
  cases x <;> exact ⟨fun _ => rfl, fun _ => rfl, rfl⟩

theorem Writer.step_claimInv (pc : Writer Cid)
    (ho : ObjectInv lost s fun t => m t + pc.stakes H t)
    (h : ClaimInv s fun t => m t + pc.stakes H t) :
    ClaimInv (pc.step H s).1 fun t => m t + (Proc.ofWriter (pc.step H s).2).stakes H t := by
  obtain ⟨hfo, hfb⟩ := pc.step_flags ho
  obtain ⟨h1, h2, h3⟩ := Writer.stakes_reap (H := H) (pc.step H s).2
  refine h.frame hfo hfb (fun c => ?_) (fun k => ?_) ?_
  · rw [h1]
    exact Nat.add_le_add_left (Nat.zero_le _) _
  · rw [h2]
    exact Nat.add_le_add_left (Nat.zero_le _) _
  · rw [h3]
    exact Nat.add_le_add_left (Nat.zero_le _) _

end Machines

/-! ## The collector -/

section Collector

variable [DecidableEq Cid] {lost : Cid → ℕ} {s : State Cid} {m : Stake Cid → ℕ}

theorem Gc.after_reserve (x : Gc Cid ⊕ Reclaimed) :
    (∀ c, Gc.after x (.object c) = 0) ∧ (∀ c, Gc.after x (.present c) = 0) := by
  cases x <;> exact ⟨fun _ => rfl, fun _ => rfl⟩

/-- A collection pass keeps the object level, as long as what it unlinks is not
available. -/
theorem Gc.step_objectInv (pc : Gc Cid)
    (hsafe : ∀ cid rest r, pc = .remove cid rest r → s.index.objects.flag cid ≠ some true)
    (hle : ∀ c, m (.present c) ≤ m (.object c))
    (h : ObjectInv lost s fun t => m t + pc.stakes t) :
    ObjectInv lost (pc.step s).1 fun t => m t + Gc.after (pc.step s).2 t := by
  obtain ⟨hobj, hpre⟩ := Gc.after_reserve (pc.step s).2
  have hobj' : ∀ c, m (.object c) + Gc.after (pc.step s).2 (.object c)
      = m (.object c) + pc.stakes (.object c) := fun c => by
    rw [hobj]
    rfl
  have hpre' : ∀ c, m (.present c) + Gc.after (pc.step s).2 (.present c)
      ≤ m (.present c) + pc.stakes (.present c) := fun c => by
    rw [hpre]
    exact le_rfl
  cases pc with
  | claimableObjects => exact h.frame rfl rfl rfl hobj' hpre'
  | claimObject cid rest r =>
    exact h.recount rfl ((h.counts.claim cid).congr fun c => by rw [hobj']) hpre'
  | remove cid rest r => exact h.remove (hsafe cid rest r rfl) (hle cid) hobj' hpre'
  | deleteObject cid rest r =>
    refine h.recount (s.index.deleteObject_nameVersions cid) ?_ hpre'
    rw [Index.deleteObject_objects]
    exact (h.counts.deleteClaimed cid).congr fun c => by rw [hobj']
  | claimableBlocks r => exact h.frame rfl rfl rfl hobj' hpre'
  | claimBlock key rest r => exact h.frame rfl rfl rfl hobj' hpre'
  | removeBlock key rest r => exact h.frame rfl rfl rfl hobj' hpre'
  | deleteBlock key rest r => exact h.frame rfl rfl rfl hobj' hpre'

theorem flag_claim_false {κ : Type} [DecidableEq κ] {t : RefTable κ} {k k' : κ}
    (hk : t.flag k' = some false) : (t.claim k).2.flag k' = some false := by
  rcases t.flag_claim k k' with he | ⟨rfl, ht, -, -⟩
  · exact he.trans hk
  · rw [hk] at ht
    cases ht

/-- Listing the dead rows finds the orphaned claims claimed. -/
theorem flag_of_orphaned {κ : Type} [DecidableEq κ] {t : RefTable κ} {k : κ}
    (h : 0 < occ (orphaned t.claimable) k) : t.flag k = some false := by
  obtain ⟨r, hg, -, ha⟩ := RefTable.mem_claimable.mp (mem_orphaned.mp (occ_pos.mp h))
  exact RefTable.flag_eq_some.mpr ⟨r, hg, ha⟩

theorem orphaned_subset {κ : Type} {todo : List (κ × Bool)} {k : κ} (h : k ∈ orphaned todo) :
    k ∈ todo.map Prod.fst :=
  List.mem_map_of_mem (f := Prod.fst) (mem_orphaned.mp h)

/-- A collection pass keeps what it has in hand claimed, if nobody else
collects. -/
theorem Gc.step_claimInv (pc : Gc Cid) (hd : pc.Distinct)
    (hmo : ∀ c, m (.reapObject c) = 0) (hmb : ∀ k, m (.reapBlock k) = 0)
    (h : ClaimInv s fun t => m t + pc.stakes t) :
    ClaimInv (pc.step s).1 fun t => m t + Gc.after (pc.step s).2 t := by
  have hone : m .collecting = 0 := by
    have := h.serial
    simp only [Gc.stakes] at this
    omega
  have hser : ∀ x : Gc Cid ⊕ Reclaimed, m .collecting + Gc.after x .collecting ≤ 1 := by
    intro x
    rw [hone, Nat.zero_add]
    cases x
    · exact le_rfl
    · exact Nat.zero_le _
  -- what the pass owns before the step is claimed; the rest of the crew owns nothing
  have hobj : ∀ c, c ∈ pc.ownedObjects → s.index.objects.flag c = some false :=
    fun c hc => h.object c (Nat.lt_of_lt_of_le (occ_pos.mpr hc) (Nat.le_add_left _ _))
  have hblk : ∀ k, k ∈ pc.ownedBlocks → s.index.blocks.flag k = some false :=
    fun k hk => h.block k (Nat.lt_of_lt_of_le (occ_pos.mpr hk) (Nat.le_add_left _ _))
  suffices hown : ∀ pc', (pc.step s).2 = .inl pc' →
      (∀ c ∈ pc'.ownedObjects, (pc.step s).1.index.objects.flag c = some false) ∧
      ∀ k ∈ pc'.ownedBlocks, (pc.step s).1.index.blocks.flag k = some false by
    refine ⟨fun c hc => ?_, fun k hk => ?_, hser _⟩
    · rw [hmo, Nat.zero_add] at hc
      rcases hx : (pc.step s).2 with pc' | r
      · rw [hx] at hc
        exact (hown pc' hx).1 c (occ_pos.mp hc)
      · rw [hx] at hc
        exact absurd hc (Nat.lt_irrefl 0)
    · rw [hmb, Nat.zero_add] at hk
      rcases hx : (pc.step s).2 with pc' | r
      · rw [hx] at hk
        exact (hown pc' hx).2 k (occ_pos.mp hk)
      · rw [hx] at hk
        exact absurd hk (Nat.lt_irrefl 0)
  intro pc' hx
  cases pc with
  | claimableObjects =>
    obtain rfl := Sum.inl.inj hx
    rw [ownedObjects_nextObject, (nextObject_blocks _ _).1]
    exact ⟨fun c hc => flag_of_orphaned (occ_pos.mpr hc), by simp⟩
  | claimObject cid rest r =>
    have hrest : ∀ c ∈ orphaned rest,
        (s.index.objects.claim cid).2.flag c = some false := fun c hc => flag_claim_false (hobj c hc)
    simp only [Gc.step, Sum.inl.injEq] at hx
    by_cases hcl : (s.index.claimObject cid).1 = true
    · rw [if_pos hcl] at hx
      subst hx
      refine ⟨fun c hc => ?_, by simp [ownedBlocks]⟩
      rcases List.mem_cons.mp hc with rfl | hc
      · exact RefTable.flag_of_claim hcl
      · exact hrest c hc
    · rw [if_neg hcl] at hx
      subst hx
      rw [ownedObjects_nextObject, (nextObject_blocks _ _).1]
      exact ⟨hrest, by simp⟩
  | remove cid rest r =>
    obtain rfl := Sum.inl.inj hx
    exact ⟨hobj, by simp [ownedBlocks]⟩
  | deleteObject cid rest r =>
    obtain rfl := Sum.inl.inj hx
    rw [ownedObjects_nextObject, (nextObject_blocks _ _).1]
    refine ⟨fun c hc => ?_, by simp⟩
    have hne : c ≠ cid := by
      rintro rfl
      exact (List.nodup_cons.mp hd.1).1 (orphaned_subset hc)
    rw [Gc.step, Index.deleteObject_objects, RefTable.flag_deleteClaimed, if_neg (by simp [hne])]
    exact hobj c (List.mem_cons_of_mem _ hc)
  | claimableBlocks r =>
    obtain ⟨hb, -, ho, -⟩ := nextBlock_inl hx
    rw [ho, hb]
    exact ⟨by simp, fun k hk => flag_of_orphaned (occ_pos.mpr hk)⟩
  | claimBlock key rest r =>
    have hrest : ∀ k ∈ orphaned rest,
        (s.index.blocks.claim key).2.flag k = some false := fun k hk => flag_claim_false (hblk k hk)
    simp only [Gc.step] at hx
    split at hx
    · next hcl =>
      obtain rfl := Sum.inl.inj hx
      refine ⟨by simp [ownedObjects], fun k hk => ?_⟩
      rcases List.mem_cons.mp hk with rfl | hk
      · exact RefTable.flag_of_claim hcl
      · exact hrest k hk
    · obtain ⟨hb, -, ho, -⟩ := nextBlock_inl hx
      rw [ho, hb]
      exact ⟨by simp, hrest⟩
  | removeBlock key rest r =>
    obtain rfl := Sum.inl.inj hx
    exact ⟨by simp [ownedObjects], hblk⟩
  | deleteBlock key rest r =>
    obtain ⟨hb, -, ho, -⟩ := nextBlock_inl hx
    rw [ho, hb]
    refine ⟨by simp, fun k hk => ?_⟩
    have hne : k ≠ key := by
      rintro rfl
      exact (List.nodup_cons.mp hd.2).1 (orphaned_subset hk)
    simp only [Gc.step, Index.deleteBlock, RefTable.flag_deleteClaimed]
    rw [if_neg (by simp [hne])]
    exact hblk k (List.mem_cons_of_mem _ hk)

theorem Gc.step_distinct (s : State Cid) (pc : Gc Cid) (hd : pc.Distinct) {pc' : Gc Cid}
    (hx : (pc.step s).2 = .inl pc') : pc'.Distinct := by
  have hobjs : ∀ todo r, (todo.map Prod.fst).Nodup → (nextObject todo r : Gc Cid).Distinct := by
    intro todo r hnd
    rw [Distinct, todoObjects_nextObject, (nextObject_blocks _ _).2]
    exact ⟨hnd, List.nodup_nil⟩
  have hblks : ∀ todo r pc', (todo.map Prod.fst).Nodup → nextBlock todo r = .inl pc' →
      (pc' : Gc Cid).Distinct := by
    intro todo r pc' hnd he
    obtain ⟨-, hb, -, ho⟩ := nextBlock_inl he
    rw [Distinct, hb, ho]
    exact ⟨List.nodup_nil, hnd⟩
  cases pc with
  | claimableObjects =>
    obtain rfl := Sum.inl.inj hx
    exact hobjs _ _ (RefTable.claimable_nodup _)
  | claimObject cid rest r =>
    simp only [Gc.step, Sum.inl.injEq] at hx
    by_cases hcl : (s.index.claimObject cid).1 = true
    · rw [if_pos hcl] at hx
      subst hx
      exact hd
    · rw [if_neg hcl] at hx
      subst hx
      exact hobjs _ _ (List.nodup_cons.mp hd.1).2
  | remove cid rest r =>
    obtain rfl := Sum.inl.inj hx
    exact hd
  | deleteObject cid rest r =>
    obtain rfl := Sum.inl.inj hx
    exact hobjs _ _ (List.nodup_cons.mp hd.1).2
  | claimableBlocks r => exact hblks _ _ _ (RefTable.claimable_nodup _) hx
  | claimBlock key rest r =>
    simp only [Gc.step] at hx
    split at hx
    · obtain rfl := Sum.inl.inj hx
      exact hd
    · exact hblks _ _ _ (List.nodup_cons.mp hd.2).2 hx
  | removeBlock key rest r =>
    obtain rfl := Sum.inl.inj hx
    exact hd
  | deleteBlock key rest r => exact hblks _ _ _ (List.nodup_cons.mp hd.2).2 hx

end Collector

/-! ## Whole runs -/

section Runs

variable [LinearOrder Cid] {ι : Type} [DecidableEq ι] [Fintype ι]

/-- The actions of writers and one collector: passes are serial, nothing crashes, a
cleanup's `release_object` does not fail, and no audit runs. -/
def Orderly (w : World Cid ι) : Action Cid ι → Prop
  | .start _ .collect => ∀ j, (w.procs j).collects = false
  | .start _ (.audit _) => False
  | .fail i _ => (w.procs i).releasesObject = false
  | .crash _ => False
  | _ => True

instance (w : World Cid ι) : DecidablePred (Orderly w)
  | .start _ .collect => inferInstanceAs (Decidable (∀ j, (w.procs j).collects = false))
  | .start _ (.audit _) => .isFalse id
  | .start _ (.put ..) | .start _ (.bind ..) | .start _ (.unbind _) => .isTrue trivial
  | .fail i _ => inferInstanceAs (Decidable ((w.procs i).releasesObject = false))
  | .crash _ => .isFalse id
  | .step _ | .tick _ => .isTrue trivial

/-- The object level of a world, and the listings of its collector. -/
abbrev ObjectSound (H : Hasher Cid) (w : World Cid ι) : Prop :=
  w.Sound (Proc.stakes H) (fun s n => ObjectInv (fun _ => 0) s n ∧ ClaimInv s n)
    (fun p => p.Distinct ∧ ∀ pc, p ≠ .audit pc)

variable {H : Hasher Cid}

omit [DecidableEq ι] in
theorem objectSound_init : ObjectSound H (World.init : World Cid ι) := by
  have h0 : ∀ t, (World.init : World Cid ι).total (Proc.stakes H) t = 0 := fun t =>
    Crew.total_eq_zero.mpr fun _ => rfl
  refine ⟨⟨⟨RefTable.counts_empty.mpr fun c => ?_, fun c hc => ?_⟩, .of_none h0⟩, fun i => ⟨trivial, ?_⟩⟩
  · rw [h0]
    rfl
  · rw [h0] at hc
    exact absurd hc (Nat.lt_irrefl 0)
  · rintro pc ⟨⟩

theorem Proc.stakes_begin (H : Hasher Cid) {call : Call Cid}
    (h : (Proc.begin H call).collects = false) : (Proc.begin H call).stakes H = fun _ => 0 := by
  funext t
  cases call with
  | put name content =>
    have : (Proc.begin H (.put name content)).stakes H = Writer.blockStakes [] :=
      Writer.stakes_putNext _ _ _ _
    rw [this]
    cases t <;> rfl
  | bind name cid => cases t <;> rfl
  | unbind name => cases t <;> rfl
  | collect => cases h
  | audit grace => cases h

theorem Proc.fail_claimInv {s : State Cid} {m : Stake Cid → ℕ} (p : Proc Cid) (e : StoreError Cid)
    (h : ClaimInv s fun t => m t + p.stakes H t) :
    ClaimInv s fun t => m t + (p.fail H e).stakes H t := by
  have hle : ∀ t, ((∃ c, t = .reapObject c) ∨ (∃ k, t = .reapBlock k) ∨ t = .collecting) →
      (p.fail H e).stakes H t ≤ p.stakes H t := by
    intro t ht
    cases p with
    | writer pc =>
      obtain ⟨h1, h2, h3⟩ := Writer.stakes_reap (H := H) (pc.fail H e)
      rcases ht with ⟨c, rfl⟩ | ⟨k, rfl⟩ | rfl
      · exact le_of_eq (h1 c)
      · exact le_of_eq (h2 k)
      · exact le_of_eq h3
    | gc pc => exact Nat.zero_le _
    | audit pc => exact Nat.zero_le _
    | idle last => exact le_rfl
    | crashed => exact le_rfl
  exact h.frame (fun _ hf => hf) (fun _ hf => hf)
    (fun c => Nat.add_le_add_left (hle _ (.inl ⟨c, rfl⟩)) _)
    (fun k => Nat.add_le_add_left (hle _ (.inr (.inl ⟨k, rfl⟩))) _)
    (Nat.add_le_add_left (hle _ (.inr (.inr rfl))) _)

omit [LinearOrder Cid] in
theorem Proc.fail_distinct (p : Proc Cid) (e : StoreError Cid) (hna : ∀ pc, p ≠ .audit pc) :
    (p.fail H e).Distinct ∧ ∀ pc, p.fail H e ≠ .audit pc := by
  cases p with
  | writer pc =>
    rw [Proc.fail]
    cases pc.fail H e <;> exact ⟨trivial, by rintro _ ⟨⟩⟩
  | audit pc => exact absurd rfl (hna pc)
  | gc pc => exact ⟨trivial, by rintro _ ⟨⟩⟩
  | idle last => exact ⟨trivial, by rintro _ ⟨⟩⟩
  | crashed => exact ⟨trivial, by rintro _ ⟨⟩⟩

theorem ClaimInv.begin {w : World Cid ι} {i : ι}
    (h : ClaimInv w.shared fun t => w.others (Proc.stakes H) i t + 0)
    (hok : ∀ j, (w.procs j).collects = false) :
    ClaimInv w.shared fun t => w.others (Proc.stakes H) i t + (Gc.claimableObjects : Gc Cid).stakes t := by
  refine ⟨h.object, h.block, ?_⟩
  have hone : w.others (Proc.stakes H) i .collecting = 0 :=
    Crew.others_eq_zero.mpr fun j _ => by rw [Proc.stakes_collecting, hok j]; rfl
  rw [hone]
  exact le_rfl

theorem ObjectSound.step {w : World Cid ι} (h : ObjectSound H w) (i : ι) :
    ObjectSound H (w.act H (.step i)) := by
  refine h.put fun ⟨ho, hc⟩ ⟨hd, hna⟩ => ?_
  rcases hp : w.procs i with last | pc | pc | pc | _
  · simp only [hp] at ho hc
    exact ⟨⟨ho, hc⟩, trivial, by rintro _ ⟨⟩⟩
  · simp only [hp] at ho hc
    refine ⟨⟨pc.step_objectInv ho, pc.step_claimInv ho hc⟩, ?_⟩
    simp only [Proc.step]
    cases (pc.step H w.shared).2 <;> exact ⟨trivial, by rintro _ ⟨⟩⟩
  · simp only [hp] at ho hc hd
    -- the pass is the only one, so it alone owns claims
    have hone : w.others (Proc.stakes H) i .collecting = 0 := by
      have := hc.serial
      simp only [Proc.stakes, Gc.stakes] at this
      omega
    simp only [Proc.step, Proc.stakes_ofGc]
    refine ⟨⟨pc.step_objectInv (fun cid rest r e => ?_)
      (fun c => Crew.others_le (fun p => p.present_le_object H c) w i) ho,
      pc.step_claimInv hd (fun c => others_reap_eq_zero hone (.inl ⟨c, rfl⟩))
        (fun k => others_reap_eq_zero hone (.inr ⟨k, rfl⟩)) hc⟩, ?_⟩
    · subst e
      rw [hc.object cid (by simp [Proc.stakes, Gc.stakes, Gc.ownedObjects, occ_cons])]
      simp
    · rcases hx : (pc.step w.shared).2 with pc' | r
      · exact ⟨pc.step_distinct w.shared hd hx, by rintro _ ⟨⟩⟩
      · exact ⟨trivial, by rintro _ ⟨⟩⟩
  · exact absurd hp (hna pc)
  · simp only [hp] at ho hc
    exact ⟨⟨ho, hc⟩, trivial, by rintro _ ⟨⟩⟩

theorem ObjectSound.start {w : World Cid ι} (h : ObjectSound H w) {i : ι} {call : Call Cid}
    (hok : Orderly w (.start i call)) : ObjectSound H (w.act H (.start i call)) := by
  rw [World.act]
  split
  case isFalse => exact h
  case isTrue hready =>
    refine h.put fun ⟨ho, hc⟩ _ => ?_
    rcases hp : w.procs i with last | pc | pc | pc | _ <;> rw [hp] at hready <;> try cases hready
    simp only [hp] at ho hc
    cases call with
    | put name content | bind name cid | unbind name =>
      rw [Proc.stakes_begin H rfl]
      exact ⟨⟨ho, hc⟩, trivial, by rintro _ ⟨⟩⟩
    | collect =>
      refine ⟨⟨ho.frame rfl rfl rfl (fun c => rfl) (fun c => le_rfl), hc.begin hok⟩,
        ⟨List.nodup_nil, List.nodup_nil⟩, by rintro _ ⟨⟩⟩
    | audit grace => exact absurd hok id

theorem ObjectSound.fail {w : World Cid ι} (h : ObjectSound H w) {i : ι} {e : StoreError Cid}
    (hok : Orderly w (.fail i e)) : ObjectSound H (w.act H (.fail i e)) := by
  refine h.put fun ⟨ho, hc⟩ ⟨_, hna⟩ => ⟨⟨?_, Proc.fail_claimInv _ e hc⟩, Proc.fail_distinct _ e hna⟩
  rcases hp : w.procs i with last | pc | pc | pc | _ <;> simp only [hp] at ho
  · exact ho
  · refine pc.fail_objectInv e ?_ ho
    rintro cid prevRc reserved error rfl
    simp only [Orderly, hp] at hok
    cases hok
  · exact ho.frame rfl rfl rfl (fun c => rfl) (fun c => le_rfl)
  · exact absurd hp (hna pc)
  · exact ho

theorem ObjectSound.act (w : World Cid ι) (a : Action Cid ι) (hok : Orderly w a)
    (h : ObjectSound H w) : ObjectSound H (w.act H a) := by
  cases a with
  | start i call => exact h.start hok
  | step i => exact h.step i
  | fail i e => exact h.fail hok
  | crash i => exact absurd hok id
  | tick dt => exact ⟨⟨⟨h.shared.1.counts, h.shared.1.present⟩, h.shared.2.object, h.shared.2.block,
      h.shared.2.serial⟩, h.procs⟩

/-- In every state that writers and one collector can reach, however they are
interleaved and whichever of their other calls fail: an object's refcount is its
name-versions plus the reservations in progress, and a named object is available
and has its manifest. -/
theorem named_objects_have_manifests (H : Hasher Cid) (schedule : List (Action Cid ι))
    (hrun : Permitted (World.act H) Orderly World.init schedule) :
    let w := World.init.run H schedule
    (∀ cid row, w.shared.index.objects.get? cid = some row →
      row.refcount = w.shared.index.nameRefs cid + w.total (Proc.stakes H) (.object cid) ∧
      0 ≤ row.refcount) ∧
    ∀ cid, 0 < w.shared.index.nameRefs cid →
      (∃ row, w.shared.index.objects.get? cid = some row ∧ row.available = true) ∧
      w.shared.disk.has cid = true := by
  intro w
  have hw : ObjectSound H w := hrun.inv ObjectSound.act objectSound_init
  obtain ⟨ho, -⟩ := hw.shared
  refine ⟨fun cid row hg => ?_, fun cid hn => ⟨?_, ho.present cid (by omega)⟩⟩
  · have hrc := ho.counts.refcount hg
    push_cast at hrc
    omega
  · obtain ⟨row, hg, ha, -⟩ := ho.counts.live (k := cid) (by omega)
    exact ⟨row, hg, ha⟩

-- three processes, where a run is written out
instance neZeroThree : NeZero 3 := ⟨by decide⟩

/-- Two writers and a collector on one object: it is put under `a`, a pass starts
while it is aliased as `b`, it is unbound from `a`, and a second put of the same
content fails midway. -/
def threeHands : List (Action ℕ (Fin 3)) :=
  Action.start 0 (.put "a" [7]) :: List.replicate 7 (Action.step 0) ++
  Action.start 1 (.bind "b" 8) :: List.replicate 2 (Action.step 1) ++
  Action.start 2 .collect :: Action.step 2 :: List.replicate 3 (Action.step 1) ++
  [Action.start 0 (.unbind "a"), Action.step 0, Action.start 0 (.put "c" [7]), Action.step 0, Action.step 0,
    Action.step 2, Action.fail 0 .io]

theorem named_objects_have_manifests_threeHands :
    Permitted (World.act Hasher.numerals) Orderly World.init threeHands ∧
    (World.init.run Hasher.numerals threeHands).shared.index.nameRefs 8 = 1 ∧
    (World.init.run Hasher.numerals threeHands).shared.disk.has 8 = true := by
  have hrun : Permitted (World.act Hasher.numerals) Orderly World.init threeHands := by decide +kernel
  have hn : (World.init.run Hasher.numerals threeHands).shared.index.nameRefs 8 = 1 := by
    decide +kernel
  exact ⟨hrun, hn, ((named_objects_have_manifests Hasher.numerals threeHands hrun).2 8
    (by rw [hn]; exact Nat.one_pos)).2⟩

/-- The manifest of a put cannot be written, and the `release_object` of its cleanup fails as well. -/
def failedRelease : List (Action ℕ (Fin 1)) :=
  Action.start 0 (.put "a" [7]) :: List.replicate 5 (Action.step 0) ++
  [Action.fail 0 .io, Action.fail 0 .io, Action.step 0]

/-- The put is over, and its reservation stands over no name. -/
theorem failed_release_keeps_refcount :
    let w := World.init.run Hasher.numerals failedRelease
    (w.procs 0).ready = true ∧ (w.shared.index.objects.get? 8).map RefRow.refcount = some 1 ∧
      w.shared.index.nameRefs 8 = 0 ∧ w.total (Proc.stakes Hasher.numerals) (.object 8) = 0 := by
  decide +kernel

end Runs

end FactorQ.Store
