/-
# `FactorQ.Store.Leaks` — what a failed write leaves behind

A put or an alias takes its reservations one by one: every distinct block, then the object.
Any of its calls can fail.  From the object's reserve on, each failure goes through the
cleanup, which gives everything back.  Before it, a failure leaves by `?`, and the blocks
reserved until then stay reserved: nothing remembers them.

One operation runs alone here.  A reply says whether its next call succeeds, and how much
time has passed; a call that fails has no effect.  `failed_write_leaks_nothing` says when the
counts after an error are those before: exactly when no call failed with blocks already
reserved and the object not yet.

The blocks of a hash have at most one available generation.  The table does not say so, the
statements keep it so (`FactorQ.Store.Generations`).
-/
import FactorQ.Store.Generations
import FactorQ.Store.ObjectSafety

namespace FactorQ.Store

open Lib

variable {Cid : Type}

variable {now : Nat}

theorem Index.reserveBlock_none [DecidableEq Cid] {ix : Index Cid} {hash : Cid}
    (h : (ix.reserveBlock hash now).1 = none) : (ix.reserveBlock hash now).2 = ix := by
  unfold Index.reserveBlock at h ⊢
  dsimp only at h ⊢
  rw [Option.map_eq_none_iff] at h
  have hmiss := List.find?_eq_none.mp h
  rw [Table.update_eq_self fun r hr => by simpa using hmiss r hr]

/-! ## One operation, call by call -/

/-- What the next call meets: the time that has passed, and its error if it fails. -/
structure Reply (Cid : Type) where
  elapsed : Nat
  error : Option (StoreError Cid)

/-- An operation in progress, or what it returned, over the store it runs on. -/
abbrev Operation (Cid : Type) := State Cid × (Writer Cid ⊕ Returned Cid)

variable [LinearOrder Cid]

namespace Writer

def advance (H : Hasher Cid) (x : Operation Cid) (reply : Reply Cid) : Operation Cid :=
  let s := { x.1 with clock := x.1.clock + reply.elapsed }
  match x.2, reply.error with
  | .inr r, _ => (s, .inr r)
  | .inl pc, none => pc.step H s
  | .inl pc, some e => (s, pc.fail H e)

/-- The releases of the cleanup succeed. -/
def ReleasesSucceed (x : Operation Cid) (reply : Reply Cid) : Prop :=
  match x.2 with
  | .inl (.releaseObject ..) | .inl (.releaseBlock ..) => reply.error = none
  | _ => True

/-- The call fails before the object is reserved, and the operation returns at once. -/
def Abandons (s : State Cid) (reply : Reply Cid) : Writer Cid → Prop
  | putBlock .. | putReserveObject .. | aliasReserveObject .. => reply.error ≠ none
  | aliasReserve _ _ hash _ _ =>
    reply.error ≠ none ∨ (s.index.reserveBlock hash (s.clock + reply.elapsed)).1 = none
  | _ => False

/-- Where a call fails before the object is reserved, no block has been either. -/
def FailsBare (x : Operation Cid) (reply : Reply Cid) : Prop :=
  match x.2 with
  | .inl pc => pc.Abandons x.1 reply → pc.reserved = []
  | .inr _ => True

end Writer

/-! ## Counts -/

/-- The reference count of a row; an absent row counts as zero. -/
def refcountOf {κ : Type} [DecidableEq κ] (t : RefTable κ) (k : κ) : Int :=
  ((t.get? k).map RefRow.refcount).getD 0

/-- Every reference count of the store is what it was. -/
def SameCounts (s s' : State Cid) : Prop :=
  (∀ key, refcountOf s'.index.blocks key = refcountOf s.index.blocks key) ∧
    ∀ cid, refcountOf s'.index.objects cid = refcountOf s.index.objects cid

section Counted

variable {κ : Type} [DecidableEq κ] {t t' : RefTable κ} {k : κ}

theorem refcountOf_release (h : (t.get? k).isSome) (k' : κ) :
    refcountOf (t.release k) k' = refcountOf t k' - if k' = k then 1 else 0 := by
  rw [refcountOf, RefTable.get?_release]
  split
  next e =>
    subst e
    obtain ⟨row, hrow⟩ := Option.isSome_iff_exists.1 h
    simp [refcountOf, hrow]
  next => simp [refcountOf]

theorem refcountOf_insertNew (h : t.get? k = none) (now : Nat) (k' : κ) :
    refcountOf (t.insertNew k (RefRow.fresh now)) k' = refcountOf t k' + if k' = k then 1 else 0 := by
  rw [refcountOf, Table.get?_insertNew]
  split
  next e =>
    subst e
    simp [refcountOf, h, RefRow.fresh]
  next => simp [refcountOf]

theorem refcountOf_reserve (h : (t.get? k).isSome)
    (hget : ∀ k', t'.get? k' = if k' = k then (t.get? k).map (RefRow.reserve now) else t.get? k') (k' : κ) :
    refcountOf t' k' = refcountOf t k' + if k' = k then 1 else 0 := by
  rw [refcountOf, hget]
  split
  next e =>
    subst e
    obtain ⟨row, hrow⟩ := Option.isSome_iff_exists.1 h
    simp [refcountOf, hrow]
  next => simp [refcountOf]

end Counted

/-- What an operation holds over the counts it began with: blocks `r` and an object `o`. -/
structure Holding (s₀ s : State Cid) (r : List (Cid × Nat)) (o : Option Cid) : Prop where
  available : OneAvailable s.index.blocks
  blocks : ∀ key, refcountOf s.index.blocks key = refcountOf s₀.index.blocks key + occ r key
  objects : ∀ cid, refcountOf s.index.objects cid = refcountOf s₀.index.objects cid + one o cid
  rows : ∀ key ∈ r, (s.index.blocks.get? key).isSome
  row : ∀ cid, o = some cid → (s.index.objects.get? cid).isSome

namespace Holding

variable {H : Hasher Cid} {s₀ s : State Cid} {r : List (Cid × Nat)} {o : Option Cid}

theorem start (h : OneAvailable s.index.blocks) : Holding s s [] none :=
  ⟨h, fun _ => by simp, fun _ => by simp, fun _ => (nomatch ·), fun _ => (nomatch ·)⟩

variable {s' : State Cid}

theorem keep (h : Holding s₀ s r o) (hs : s'.index = s.index) : Holding s₀ s' r o := by
  refine ⟨?_, ?_, ?_, ?_, ?_⟩ <;> rw [hs]
  · exact h.available
  · exact h.blocks
  · exact h.objects
  · exact h.rows
  · exact h.row

theorem reserveBlock (h : Holding s₀ s r none) {hash : Cid} {now g : Nat}
    (hs : s'.index = (s.index.reserveBlock hash now).2) (hg : (s.index.reserveBlock hash now).1 = some g) :
    Holding s₀ s' (r ++ [(hash, g)]) none := by
  rcases Index.reserveBlock_cases h.available hash now with ⟨g', hg', hflag, hget⟩ | ⟨he, _⟩
  · obtain rfl : g = g' := Option.some.inj (hg.symm.trans hg')
    have hsome : (s.index.blocks.get? (hash, g)).isSome := by
      obtain ⟨row, hrow, _⟩ := RefTable.flag_eq_some.1 hflag
      rw [hrow]
      rfl
    have hflags : ∀ k, s'.index.blocks.flag k = s.index.blocks.flag k := by
      intro k
      rw [hs]
      exact RefTable.flag_update (RefRow.reserve_available now) k
    refine ⟨h.available.mono fun k hk => (hflags k).symm.trans hk, fun key => ?_, ?_, fun key hkey => ?_,
      by rintro _ ⟨⟩⟩
    · rw [hs, refcountOf_reserve hsome hget, h.blocks, occ_append, occ_cons]
      simp only [occ_nil]
      split <;> push_cast <;> ring
    · rw [hs]
      exact h.objects
    · rw [hs, hget]
      split
      next => rw [Option.isSome_map]; exact hsome
      next hne =>
        rcases List.mem_append.1 hkey with hkey | hkey
        · exact h.rows key hkey
        · exact absurd (List.mem_singleton.1 hkey) hne
  · rw [he] at hg
    cases hg

theorem mint (h : Holding s₀ s r none) {key : Cid × Nat} (hnone : s.index.blocks.get? key = none)
    (hna : ∀ g, s.index.blocks.flag (key.1, g) ≠ some true)
    (hs : s'.index = { s.index with blocks := s.index.blocks.insertNew key (RefRow.fresh now) }) :
    Holding s₀ s' (r ++ [key]) none := by
  refine ⟨by rw [hs]; exact h.available.mint hna, fun k => ?_, ?_, fun k hk => ?_, fun _ => (nomatch ·)⟩
  · rw [hs, refcountOf_insertNew hnone, h.blocks, occ_append, occ_cons]
    simp only [occ_nil]
    split <;> push_cast <;> ring
  · rw [hs]
    exact h.objects
  · rw [hs, Table.get?_insertNew]
    split
    next => rfl
    next hne =>
      rcases List.mem_append.1 hk with hk | hk
      · exact h.rows k hk
      · exact absurd (List.mem_singleton.1 hk) hne

theorem reserveObject (h : Holding s₀ s r none) {cid : Cid} {create : Bool} {prevRc : Int}
    (hg : (s.index.reserveObject cid create now).1 = some prevRc)
    (hs : s'.index = (s.index.reserveObject cid create now).2) : Holding s₀ s' r (some cid) := by
  rcases s.index.reserveObject_cases cid create now with ⟨row, hrow, _, he⟩ | ⟨hnone, _, he⟩ | ⟨he, _⟩
  · have hsome : (s.index.objects.get? cid).isSome := by rw [hrow]; rfl
    have hget := fun k' => Table.get?_modify s.index.objects cid (RefRow.reserve now) k'
    rw [he] at hs
    refine ⟨by rw [hs]; exact h.available, by rw [hs]; exact h.blocks, fun c => ?_, by rw [hs]; exact h.rows, ?_⟩
    · rw [hs, refcountOf_reserve hsome hget, h.objects, one_none, one_some]
      split <;> simp
    · rintro c hc
      obtain rfl := Option.some.inj hc
      rw [hs, hget, if_pos rfl, Option.isSome_map]
      exact hsome
  · rw [he] at hs
    refine ⟨by rw [hs]; exact h.available, by rw [hs]; exact h.blocks, fun c => ?_, by rw [hs]; exact h.rows, ?_⟩
    · rw [hs, refcountOf_insertNew hnone, h.objects, one_none, one_some]
      split <;> simp
    · rintro c hc
      obtain rfl := Option.some.inj hc
      rw [hs, Table.get?_insertNew, if_pos rfl]
      rfl
  · rw [he] at hg
    exact nomatch hg

theorem releaseObject {cid : Cid} (h : Holding s₀ s r (some cid)) (hs : s'.index = s.index.releaseObject cid) :
    Holding s₀ s' r none := by
  refine ⟨by rw [hs]; exact h.available, by rw [hs]; exact h.blocks, fun c => ?_, by rw [hs]; exact h.rows,
    fun _ => (nomatch ·)⟩
  rw [hs]
  change refcountOf (s.index.objects.release cid) c = _
  rw [refcountOf_release (h.row cid rfl), h.objects, one_some, one_none]
  split <;> simp

theorem releaseBlock {key : Cid × Nat} (h : Holding s₀ s (key :: r) none)
    (hs : s'.index = s.index.releaseBlock key) : Holding s₀ s' r none := by
  refine ⟨?_, fun k => ?_, by rw [hs]; exact h.objects, fun k hk => ?_, fun _ => (nomatch ·)⟩
  · rw [hs]
    exact h.available.mono fun k hk => (s.index.blocks.flag_release key k).symm.trans hk
  · rw [hs]
    change refcountOf (s.index.blocks.release key) k = _
    rw [refcountOf_release (h.rows key (List.mem_cons_self ..)), h.blocks, occ_cons]
    split <;> push_cast <;> ring
  · rw [hs]
    change ((s.index.blocks.release key).get? k).isSome
    rw [RefTable.get?_release]
    split
    next => rw [Option.isSome_map]; exact h.rows key (List.mem_cons_self ..)
    next => exact h.rows k (List.mem_cons_of_mem _ hk)

theorem same (h : Holding s₀ s [] none) : SameCounts s₀ s :=
  ⟨fun key => by simpa using h.blocks key, fun cid => by simpa using h.objects cid⟩

/-- Blocks that are held show in the counts. -/
theorem same_iff (h : Holding s₀ s r none) : SameCounts s₀ s ↔ r = [] := by
  constructor
  · intro hsame
    refine List.eq_nil_iff_forall_not_mem.2 fun key hkey => ?_
    have hpos := occ_pos.2 hkey
    have hheld := h.blocks key
    rw [hsame.1 key] at hheld
    omega
  · rintro rfl
    exact h.same

end Holding

/-! ## Steps -/

section Steps

variable {H : Hasher Cid} {s₀ s : State Cid}

/-- What is held after a call: what the writer holds on the way, nothing after an error. -/
def Leaves (H : Hasher Cid) (s₀ s : State Cid) : Writer Cid ⊕ Returned Cid → Prop
  | .inl pc => Holding s₀ s pc.reserved ((pc.holds H).map Prod.fst)
  | .inr (.error _) => Holding s₀ s [] none
  | .inr (.ok _) => True

namespace Leaves

variable {r : List (Cid × Nat)}

theorem putNext (h : Holding s₀ s r none) (name : Name) (content : Bytes) (chunks : List (Chunk Cid)) :
    Leaves H s₀ s (.inl (Writer.putNext name content chunks r)) := by
  rcases Writer.putNext_cases name content chunks r with he | ⟨_, _, he⟩ <;> rw [he] <;> exact h

theorem aliasNext (h : Holding s₀ s r none) (name : Name) (cid : Cid) (hashes : List Cid) :
    Leaves H s₀ s (.inl (Writer.aliasNext name cid hashes r)) := by
  cases hashes <;> exact h

theorem releasing (h : Holding s₀ s r none) (e : StoreError Cid) : Leaves H s₀ s (Writer.releasing r e) := by
  cases r <;> exact h

end Leaves

/-- The loop over the points of `reserve_or_materialize`. -/
theorem Writer.putBlock_leaves {name : Name} {content : Bytes} {chunk : Chunk Cid} {rest : List (Chunk Cid)}
    {r : List (Cid × Nat)} (point : Materialize) (h : Holding s₀ s r none) :
    Leaves H s₀ ((putBlock name content chunk rest r point).step H s).1
      ((putBlock name content chunk rest r point).step H s).2 := by
  cases point with
  | reserve =>
    simp only [Writer.step, Materialize.step]
    rcases hr : (s.index.reserveBlock chunk.hash s.clock).1 with _ | g
    · rw [Index.reserveBlock_none hr]
      exact h.keep rfl
    · exact Leaves.putNext (h.reserveBlock rfl hr) name content rest
  | nextGeneration => exact h
  | writeBlock g => exact h.keep rfl
  | mint g =>
    simp only [Writer.step, Materialize.step]
    rcases s.index.mintBlock_cases (chunk.hash, g) s.clock with ⟨he, _⟩ | ⟨hnone, hna, he⟩
    · rw [he]
      exact h.keep rfl
    · rw [he]
      exact Leaves.putNext (h.mint hnone hna rfl) name content rest

/-- A call that succeeds, or fails with the cleanup still to come, leaves what the writer then holds. -/
theorem Writer.step_leaves (pc : Writer Cid) (h : Holding s₀ s pc.reserved ((pc.holds H).map Prod.fst))
    (hgo : ∀ name cid hash rest r, pc = .aliasReserve name cid hash rest r →
      (s.index.reserveBlock hash s.clock).1 ≠ none) :
    Leaves H s₀ (pc.step H s).1 (pc.step H s).2 := by
  cases pc with
  | putBlock name content chunk rest r point => exact Writer.putBlock_leaves point h
  | putReserveObject name content r attempt =>
    simp only [Writer.step]
    rcases hr : (s.index.reserveObject (H.of content) true s.clock).1 with _ | prevRc
    · dsimp only
      rw [Index.reserveObject_none hr]
      split
      · exact Leaves.releasing (h.keep rfl) _
      · exact h.keep rfl
    · exact h.reserveObject hr rfl
  | putWriteObject name content r prevRc => exact h.keep rfl
  | putBind name content r prevRc => trivial
  | aliasRead name cid =>
    simp only [Writer.step]
    rcases s.disk.blocks cid with e | hashes
    · exact h
    · exact Leaves.aliasNext h name cid _
  | aliasReserve name cid hash rest r =>
    simp only [Writer.step]
    rcases hr : (s.index.reserveBlock hash s.clock).1 with _ | g
    · exact absurd hr (hgo _ _ _ _ _ rfl)
    · exact Leaves.aliasNext (h.reserveBlock rfl hr) name cid rest
  | aliasReserveObject name cid r =>
    simp only [Writer.step]
    rcases hr : (s.index.reserveObject cid false s.clock).1 with _ | prevRc
    · dsimp only
      rw [Index.reserveObject_none hr]
      exact Leaves.releasing (h.keep rfl) _
    · exact h.reserveObject hr rfl
  | aliasHas name cid r prevRc =>
    simp only [Writer.step]
    split <;> exact h
  | aliasBind name cid r prevRc => trivial
  | releaseObject cid prevRc r e => exact Leaves.releasing (h.releaseObject rfl) e
  | releaseBlock key rest e => exact Leaves.releasing (h.releaseBlock rfl) e
  | unbind name =>
    simp only [Writer.step]
    rcases s.index.unbind name with _ | ix
    · exact h
    · trivial

variable {reply : Reply Cid}

/-- A call that fails where the cleanup follows, or with nothing to clean up. -/
theorem Writer.fail_leaves (pc : Writer Cid) {e : StoreError Cid} (he : reply.error = some e)
    (h : Holding s₀ s pc.reserved ((pc.holds H).map Prod.fst)) (hgo : ¬ pc.Abandons s reply)
    (hrel : ReleasesSucceed (s, .inl pc) reply) : Leaves H s₀ s (pc.fail H e) := by
  have hne : reply.error ≠ none := by rw [he]; exact Option.some_ne_none e
  cases pc with
  | putBlock | putReserveObject | aliasReserveObject => exact absurd hne hgo
  | aliasReserve => exact absurd (.inl hne) hgo
  | releaseObject | releaseBlock => exact absurd hrel hne
  | putWriteObject | putBind | aliasRead | aliasHas | aliasBind | unbind => exact h

/-- A call that is abandoned changes nothing and ends the operation; the object is not held. -/
theorem Writer.abandons_ends {pc : Writer Cid} (h : pc.Abandons s reply) :
    pc.holds H = none ∧ (advance H (s, .inl pc) reply).1.index = s.index ∧
      ∃ e, (advance H (s, .inl pc) reply).2 = .inr (.error e) := by
  unfold advance
  cases he : reply.error with
  | some e =>
    cases pc with
    | putBlock | putReserveObject | aliasReserve | aliasReserveObject => exact ⟨rfl, rfl, e, rfl⟩
    | _ => exact absurd h (fun h => h)
  | none =>
    cases pc with
    | aliasReserve name cid hash rest r =>
      rcases h with h | h
      · exact absurd he h
      · refine ⟨rfl, ?_, ?_⟩
        · simp only [Writer.step]
          exact Index.reserveBlock_none h
        · simp only [Writer.step, h]
          exact ⟨_, rfl⟩
    | putBlock | putReserveObject | aliasReserveObject => exact absurd he h
    | _ => exact absurd h (fun h => h)

theorem Writer.advance_leaves {pc : Writer Cid} (h : Holding s₀ s pc.reserved ((pc.holds H).map Prod.fst))
    (hgo : ¬ pc.Abandons s reply) (hrel : ReleasesSucceed (s, .inl pc) reply) :
    Leaves H s₀ (advance H (s, .inl pc) reply).1 (advance H (s, .inl pc) reply).2 := by
  have h' : Holding s₀ { s with clock := s.clock + reply.elapsed } pc.reserved ((pc.holds H).map Prod.fst) :=
    h.keep rfl
  unfold advance
  cases he : reply.error with
  | none =>
    refine Writer.step_leaves pc h' ?_
    rintro name cid hash rest r rfl hnone
    exact hgo (.inr hnone)
  | some e => exact Writer.fail_leaves pc he h' hgo hrel

theorem Writer.returned_advance (replies : List (Reply Cid)) : ∀ (s : State Cid) (r : Returned Cid),
    (replies.foldl (advance H) (s, .inr r)).1.index = s.index ∧ (replies.foldl (advance H) (s, .inr r)).2 = .inr r ∧
      Permitted (advance H) FailsBare (s, .inr r) replies := by
  induction replies with
  | nil => exact fun _ _ => ⟨rfl, rfl, trivial⟩
  | cons reply replies ih =>
    intro s r
    obtain ⟨hindex, hret, hbare⟩ := ih { s with clock := s.clock + reply.elapsed } r
    exact ⟨hindex, hret, trivial, hbare⟩

/-! ## Runs -/

theorem SameCounts.index {s s₁ s₂ : State Cid} (h : s₁.index = s₂.index) : SameCounts s s₁ ↔ SameCounts s s₂ := by
  rw [SameCounts, SameCounts, h]

theorem Writer.run_leaves {s₀ s' : State Cid} {e : StoreError Cid} (replies : List (Reply Cid)) :
    ∀ (s : State Cid) (pc : Writer Cid), Holding s₀ s pc.reserved ((pc.holds H).map Prod.fst) →
      Permitted (advance H) ReleasesSucceed (s, .inl pc) replies →
      replies.foldl (advance H) (s, .inl pc) = (s', .inr (.error e)) →
      (SameCounts s₀ s' ↔ Permitted (advance H) FailsBare (s, .inl pc) replies) := by
  induction replies with
  | nil => exact fun _ _ _ _ hrun => nomatch (Prod.mk.inj hrun).2
  | cons reply replies ih =>
    intro s pc h hrel hrun
    rw [List.foldl_cons] at hrun
    by_cases hab : pc.Abandons s reply
    · -- the counts show what had been reserved
      obtain ⟨hholds, hindex, e', hend⟩ := Writer.abandons_ends (H := H) hab
      have hx : advance H (s, .inl pc) reply = ((advance H (s, .inl pc) reply).1, .inr (.error e')) :=
        Prod.ext rfl hend
      obtain ⟨hstay, _, hbare⟩ := Writer.returned_advance (H := H) replies (advance H (s, .inl pc) reply).1 (.error e')
      rw [← hx, hrun] at hstay
      rw [hholds] at h
      rw [SameCounts.index (hstay.trans hindex), h.same_iff]
      rw [← hx] at hbare
      exact ⟨fun hr => ⟨fun _ => hr, hbare⟩, fun hp => hp.1 hab⟩
    · have hleaves := Writer.advance_leaves h hab hrel.1
      have hfirst : FailsBare (s, .inl pc) reply := fun hab' => absurd hab' hab
      rcases hx : (advance H (s, .inl pc) reply).2 with pc' | ret
      · -- the operation goes on
        have hpair : advance H (s, .inl pc) reply = ((advance H (s, .inl pc) reply).1, .inl pc') := Prod.ext rfl hx
        rw [hx] at hleaves
        have hrest := ih _ pc' hleaves (hpair ▸ hrel.2) (hpair ▸ hrun)
        rw [← hpair] at hrest
        exact ⟨fun hs => ⟨hfirst, hrest.1 hs⟩, fun hp => hrest.2 hp.2⟩
      · have hpair : advance H (s, .inl pc) reply = ((advance H (s, .inl pc) reply).1, .inr ret) := Prod.ext rfl hx
        obtain ⟨hstay, hret, hbare⟩ := Writer.returned_advance (H := H) replies (advance H (s, .inl pc) reply).1 ret
        rw [← hpair, hrun] at hstay hret
        obtain rfl : Except.error e = ret := Sum.inr.inj hret
        rw [hx] at hleaves
        rw [← hpair] at hbare
        exact ⟨fun _ => ⟨hfirst, hbare⟩, fun _ => (SameCounts.index hstay).2 hleaves.same⟩

/-- A put or an alias that returns an error leaves every count as it was if and only if none of its
calls failed with blocks already reserved and the object not yet. -/
theorem failed_write_leaks_nothing (H : Hasher Cid) (s s' : State Cid) (hone : OneAvailable s.index.blocks)
    (pc : Writer Cid) (hpc : (∃ name content, pc = Writer.put H name content) ∨ ∃ name cid, pc = .aliasRead name cid)
    (replies : List (Reply Cid)) (hrel : Permitted (Writer.advance H) Writer.ReleasesSucceed (s, .inl pc) replies)
    (e : StoreError Cid) (hrun : replies.foldl (Writer.advance H) (s, .inl pc) = (s', .inr (.error e))) :
    SameCounts s s' ↔ Permitted (Writer.advance H) Writer.FailsBare (s, .inl pc) replies := by
  refine Writer.run_leaves replies s pc ?_ hrel hrun
  rcases hpc with ⟨name, content, rfl⟩ | ⟨name, cid, rfl⟩
  · exact Leaves.putNext (Holding.start hone) name content _
  · exact Holding.start hone

end Steps

/-- The manifest cannot be written: object and block are given back. -/
theorem failed_manifest_leaks_nothing :
    SameCounts State.init (([⟨0, none⟩, ⟨0, none⟩, ⟨0, none⟩, ⟨0, none⟩, ⟨0, none⟩, ⟨0, some .io⟩, ⟨0, none⟩,
      ⟨0, none⟩] : List (Reply ℕ)).foldl (Writer.advance Hasher.numerals)
        (State.init, .inl (Writer.put Hasher.numerals "a" [7]))).1 := by
  refine (failed_write_leaks_nothing Hasher.numerals State.init _ (fun _ _ _ h => nomatch h)
    (Writer.put Hasher.numerals "a" [7]) (.inl ⟨_, _, rfl⟩) _ ?_ .io rfl).2 ?_
  · exact ⟨trivial, trivial, trivial, trivial, trivial, trivial, rfl, rfl, trivial⟩
  · exact ⟨fun h => absurd rfl h, fun h => absurd rfl h, fun h => absurd rfl h, fun h => absurd rfl h,
      fun h => absurd rfl h, fun h => h.elim, fun h => h.elim, fun h => h.elim, trivial⟩

/-- The reserve of the object fails: the block minted for it stays reserved. -/
theorem failed_reserve_leaks_block :
    let x := ([⟨0, none⟩, ⟨0, none⟩, ⟨0, none⟩, ⟨0, none⟩, ⟨0, some .index⟩] : List (Reply ℕ)).foldl
      (Writer.advance Hasher.numerals) (State.init, .inl (Writer.put Hasher.numerals "a" [7]))
    x.2 = .inr (.error .index) ∧ refcountOf x.1.index.blocks (8, 0) = 1 ∧
      refcountOf (State.init : State ℕ).index.blocks (8, 0) = 0 :=
  ⟨rfl, rfl, rfl⟩

end FactorQ.Store
