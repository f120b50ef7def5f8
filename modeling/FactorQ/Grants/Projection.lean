/-
# `FactorQ.Grants.Projection` — the projection agrees with the model

Two things are computed from one log: the reference model, by replaying the events, and
the projection, kept up to date in the tables.  `Level` says that the tables hold what
the model holds.  Every call of a history keeps them level.

The argument has two halves.  Which grants and revocations are recorded (`Reflects`) is
a matter of the inserts.  Which grants are live is a matter of the pass over the table,
and there both sides solve the same equation over the ids, which has one solution.  The
ids are what makes it work: they are handed out in increasing order, so an id is recorded
once, and as a signed number it is the number it is.
-/
import FactorQ.Grants.Log

namespace FactorQ.Grants

open Lib GrantModel GrantLog

variable {codec : VerbCodec} {log : GrantLog} {events : List GrantEvent}

/-! ## Ids -/

variable {id : GrantId}

theorem asI64_of_lt (h : id.val < 2 ^ 63) : asI64 id = id.val := if_pos h

theorem asI64_injective : Function.Injective asI64 := by
  intro a b h
  have ha := a.isLt
  have hb := b.isLt
  unfold asI64 at h
  apply Fin.ext
  split at h <;> split at h <;> omega

@[simp] theorem asU64_asI64 (id : GrantId) : asU64 (asI64 id) = id := by
  have hlt := id.isLt
  apply Fin.ext
  show (asI64 id % 2 ^ 64).toNat % 2 ^ 64 = id.val
  unfold asI64
  split <;> omega

theorem asU64_natCast {n : Nat} (h : n < 2 ^ 64) : asU64 n = ⟨n, h⟩ := by
  apply Fin.ext
  show ((n : Int) % 2 ^ 64).toNat % 2 ^ 64 = n
  omega

/-- The log hands out the ids in order, and has not run out of numbers. -/
structure Numbered (events : List GrantEvent) : Prop where
  ids : ∀ (i : Nat) (id : GrantId) (row : GrantRow), events[i]? = some (.granted id row) → id.val = i + 1
  short : events.length < 2 ^ 63

variable {row : GrantRow}

theorem Numbered.bounds (hn : Numbered events) (h : .granted id row ∈ events) :
    0 < id.val ∧ id.val ≤ events.length := by
  obtain ⟨i, hi⟩ := List.mem_iff_getElem?.mp h
  have hlt : i < events.length := (List.getElem?_eq_some_iff.mp hi).1
  have hid := hn.ids i id row hi
  omega

theorem Numbered.asI64 (hn : Numbered events) (h : .granted id row ∈ events) : asI64 id = id.val := by
  have hb := hn.bounds h
  have hs := hn.short
  exact asI64_of_lt (by omega)

theorem Numbered.unique (hn : Numbered events) {row row' : GrantRow} (h : .granted id row ∈ events)
    (h' : .granted id row' ∈ events) : row = row' := by
  obtain ⟨i, hi⟩ := List.mem_iff_getElem?.mp h
  obtain ⟨j, hj⟩ := List.mem_iff_getElem?.mp h'
  have hij : i = j := by
    have hid := hn.ids i id row hi
    have hjd := hn.ids j id row' hj
    omega
  subst hij
  cases hi.symm.trans hj
  rfl

theorem get?_of_granted (h : .granted id row ∈ events) :
    ∃ row', (replay events).grants.get? id = some row' := by
  induction events using List.reverseRecOn with
  | nil => cases h
  | append_singleton events ev ih =>
    rw [replay_concat]
    rcases List.mem_append.mp h with hold | hnew
    · obtain ⟨row', hrow'⟩ := ih hold
      cases ev with
      | revoked k => exact ⟨row', hrow'⟩
      | granted k new =>
        show ∃ row', ((replay events).grants.insertNew k new).get? id = some row'
        rw [Table.get?_insertNew]
        split
        · exact ⟨_, rfl⟩
        · exact ⟨row', hrow'⟩
    · cases List.mem_singleton.mp hnew
      show ∃ row', ((replay events).grants.insertNew id row).get? id = some row'
      rw [Table.get?_insertNew, if_pos rfl]
      exact ⟨_, rfl⟩

theorem Numbered.get?_replay (hn : Numbered events) :
    (replay events).grants.get? id = some row ↔ .granted id row ∈ events := by
  refine ⟨mem_of_get?, fun h => ?_⟩
  obtain ⟨row', hrow'⟩ := get?_of_granted h
  rw [hn.unique h (mem_of_get? hrow')]
  exact hrow'

/-! ## What is recorded -/

/-- The tables record the grants and the revocations of `events`. -/
structure Reflects (codec : VerbCodec) (log : GrantLog) (events : List GrantEvent) : Prop where
  sound : ∀ i g, log.projected.get? i = some g →
    ∃ id row live, .granted id row ∈ events ∧ i = (id.val : Int) ∧ g = .ofGrant codec row live
  complete : ∀ id row, .granted id row ∈ events →
    ∃ live, log.projected.get? (id.val : Int) = some (.ofGrant codec row live)
  revocations : ∀ i, i ∈ log.revocations ↔ ∃ id, .revoked id ∈ events ∧ i = asI64 id

def Decoded.ofGrant (id : GrantId) (row : GrantRow) (live : Bool) : Decoded :=
  ⟨id.val, row.grantor.agentColumn, row.grantee.column, row.verbs, row.scope, live⟩

/-- What `decode` reads from a row whose verbs can be read. -/
def decoded (codec : VerbCodec) (r : Int × ProjectedGrant) : Decoded :=
  ⟨r.1, r.2.grantorAgent, r.2.granteeAgent, (codec.decode r.2.verbs).getD ∅,
    Scope.fromKindValue r.2.scopeKind r.2.scopeValue, r.2.live⟩

theorem decoded_ofGrant (id : GrantId) (row : GrantRow) (live : Bool) :
    decoded codec (id.val, .ofGrant codec row live) = .ofGrant id row live := by
  unfold decoded Decoded.ofGrant ProjectedGrant.ofGrant
  rw [codec.decode_encode, Scope.fromKindValue_kind_value]
  rfl

theorem decode_ofGrant (id : GrantId) (row : GrantRow) (live : Bool) :
    decode codec (id.val, .ofGrant codec row live) = .ok (decoded codec (id.val, .ofGrant codec row live)) := by
  unfold decode decodeVerbs decoded ProjectedGrant.ofGrant
  rw [codec.decode_encode]
  rfl

theorem mapM_of_forall₂ {α β ε : Type} {f : α → Except ε β} {l : List α} {l' : List β}
    (h : List.Forall₂ (fun a b => f a = .ok b) l l') : l.mapM f = .ok l' := by
  induction h with
  | nil => rfl
  | cons hab _ ih =>
    rw [List.mapM_cons, hab, ih]
    rfl

theorem mapM_ok {α β ε : Type} {f : α → Except ε β} {g : α → β} {l : List α} (h : ∀ a ∈ l, f a = .ok (g a)) :
    l.mapM f = .ok (l.map g) :=
  mapM_of_forall₂ (List.forall₂_map_right_iff.mpr (List.forall₂_same.mpr h))

variable {t : Table Int ProjectedGrant}

theorem mem_orderedRows {r : Int × ProjectedGrant} : r ∈ orderedRows t ↔ t.get? r.1 = some r.2 := by
  unfold orderedRows
  rw [List.mem_insertionSort]
  exact Table.mem_rows

theorem sorted_orderedRows (t : Table Int ProjectedGrant) : (orderedRows t).Pairwise fun a b => a.1 < b.1 := by
  let r : Int × ProjectedGrant → Int × ProjectedGrant → Prop := fun a b => a.1 ≤ b.1
  have : Std.Total r := ⟨fun a b => le_total a.1 b.1⟩
  have : IsTrans _ r := ⟨fun _ _ _ => le_trans⟩
  have hle : (orderedRows t).Pairwise r := List.pairwise_insertionSort r t.rows
  have hperm : ((orderedRows t).map Prod.fst).Nodup :=
    ((List.perm_insertionSort _ t.rows).map Prod.fst).nodup_iff.mpr t.nodup
  have hne : (orderedRows t).Pairwise fun a b => a.1 ≠ b.1 := List.pairwise_map.mp hperm
  exact (hle.and hne).imp fun h => lt_of_le_of_ne h.1 h.2

theorem Reflects.mapM_decode (hr : Reflects codec log events) :
    (orderedRows log.projected).mapM (decode codec) = .ok ((orderedRows log.projected).map (decoded codec)) := by
  refine mapM_ok fun r hmem => ?_
  obtain ⟨i, g⟩ := r
  obtain ⟨id, row, live, -, rfl, rfl⟩ := hr.sound i g (mem_orderedRows.mp hmem)
  exact decode_ofGrant id row live

variable {d : Decoded}

theorem Reflects.mem_decoded (hr : Reflects codec log events) :
    d ∈ (orderedRows log.projected).map (decoded codec) ↔
      ∃ id row live, .granted id row ∈ events ∧ log.projected.get? (id.val : Int) = some (.ofGrant codec row live) ∧
        d = .ofGrant id row live := by
  rw [List.mem_map]
  constructor
  · rintro ⟨⟨i, g⟩, hmem, rfl⟩
    have hget := mem_orderedRows.mp hmem
    obtain ⟨id, row, live, hev, rfl, rfl⟩ := hr.sound i g hget
    exact ⟨id, row, live, hev, hget, decoded_ofGrant id row live⟩
  · rintro ⟨id, row, live, -, hget, rfl⟩
    exact ⟨_, mem_orderedRows.mpr hget, decoded_ofGrant id row live⟩

/-! ## What is live -/

theorem Principal.agent_column (p : Principal) : Principal.agent p.column = p := by
  cases p
  rfl

theorem Reflects.mem_revocations (hr : Reflects codec log events) (hn : Numbered events)
    (h : .granted id row ∈ events) :
    (id.val : Int) ∈ log.revocations ↔ id ∈ (replay events).revoked := by
  rw [hr.revocations, mem_revoked, ← hn.asI64 h]
  constructor
  · rintro ⟨id', hrev, heq⟩
    rw [asI64_injective heq]
    exact hrev
  · intro hrev
    exact ⟨id, hrev, rfl⟩

theorem accepts_ofGrant {revoked : Finset Int} {earlier : List Decoded} {live : Bool} :
    Decoded.accepts revoked earlier (.ofGrant id row live) = true ↔
      (id.val : Int) ∉ revoked ∧ (row.grantor = .operator ∨ ∃ agent, row.grantor = .agent agent ∧
        ∃ sup ∈ earlier, sup.granteeAgent = agent ∧ supports sup.verbs sup.scope row.verbs row.scope = true) := by
  unfold Decoded.accepts
  rw [Bool.and_eq_true, Bool.not_eq_true', decide_eq_false_iff_not]
  refine and_congr_right fun _ => ?_
  cases hgrantor : row.grantor with
  | operator => simp [Decoded.ofGrant, hgrantor, Grantor.agentColumn]
  | agent agent =>
    simp only [Decoded.ofGrant, hgrantor, Grantor.agentColumn, List.any_eq_true, Bool.and_eq_true, decide_eq_true_iff,
      reduceCtorEq, false_or, Grantor.agent.injEq, exists_eq_left']

/-- The pass over the table solves the equation of the model. -/
theorem live_pass (hr : Reflects codec log events) (hn : Numbered events) (id : GrantId) :
    (∃ d ∈ forwardPass (Decoded.accepts log.revocations) ((orderedRows log.projected).map (decoded codec)),
      d.id = (id.val : Int)) ↔ (replay events).Live id := by
  have hsorted : ((orderedRows log.projected).map (decoded codec)).Pairwise fun a b => a.id < b.id :=
    List.pairwise_map.mpr (sorted_orderedRows log.projected)
  generalize hL : forwardPass (Decoded.accepts log.revocations) ((orderedRows log.projected).map (decoded codec)) = L
  have hmem : ∀ d, d ∈ L ↔ d ∈ (orderedRows log.projected).map (decoded codec) ∧
      Decoded.accepts log.revocations (L.filter fun b => b.id < d.id) d = true := by
    intro d
    rw [← hL]
    exact mem_forwardPass hsorted
  refine stands_unique (S := fun id => ∃ d ∈ L, d.id = (id.val : Int)) (fun id => ?_) id
  constructor
  · rintro ⟨d, hd, hid⟩
    obtain ⟨hin, hacc⟩ := (hmem d).mp hd
    obtain ⟨id', row, live, hev, -, rfl⟩ := hr.mem_decoded.mp hin
    obtain rfl : id' = id := Fin.ext (Int.ofNat_inj.mp hid)
    have hrow := hn.get?_replay.mpr hev
    obtain ⟨hnot, hback⟩ := accepts_ofGrant.mp hacc
    have hrev : id' ∉ (replay events).revoked := mt (hr.mem_revocations hn hev).mpr hnot
    rcases hback with hop | ⟨agent, hagent, sup, hsup, hgrantee, hs⟩
    · exact .inl ⟨row, hrow, hrev, hop⟩
    · obtain ⟨hsupL, hlt⟩ := List.mem_filter.mp hsup
      obtain ⟨j, rowj, livej, hevj, -, rfl⟩ := hr.mem_decoded.mp ((hmem sup).mp hsupL).1
      have hj : j < id' := Int.ofNat_lt.mp (of_decide_eq_true hlt)
      refine .inr ⟨j, hj, ⟨_, hsupL, rfl⟩, rowj, row, agent, hn.get?_replay.mpr hevj, hrow, hrev, hagent, ?_, hs⟩
      rw [← hgrantee]
      exact (Principal.agent_column rowj.grantee).symm
  · -- a recorded grant has its row in the table, and the row is accepted
    have hthere : ∀ row, (replay events).grants.get? id = some row → id ∉ (replay events).revoked →
        (row.grantor = .operator ∨ ∃ agent, row.grantor = .agent agent ∧
          ∃ sup ∈ L, sup.id < (id.val : Int) ∧ sup.granteeAgent = agent ∧
            supports sup.verbs sup.scope row.verbs row.scope = true) →
        ∃ d ∈ L, d.id = (id.val : Int) := by
      intro row hrow hrev hback
      have hev := hn.get?_replay.mp hrow
      obtain ⟨live, hget⟩ := hr.complete id row hev
      refine ⟨.ofGrant id row live, (hmem _).mpr ⟨hr.mem_decoded.mpr ⟨id, row, live, hev, hget, rfl⟩, ?_⟩, rfl⟩
      refine accepts_ofGrant.mpr ⟨mt (hr.mem_revocations hn hev).mp hrev, ?_⟩
      refine hback.imp_right ?_
      rintro ⟨agent, hagent, sup, hsup, hlt, hgrantee, hs⟩
      exact ⟨agent, hagent, sup, List.mem_filter.mpr ⟨hsup, decide_eq_true hlt⟩, hgrantee, hs⟩
    rintro (⟨row, hrow, hrev, hop⟩ | ⟨j, hlt, ⟨d, hd, hdj⟩, sup, row, agent, hsup, hrow, hrev, hagent, hgrantee, hs⟩)
    · exact hthere row hrow hrev (.inl hop)
    · obtain ⟨j', rowj, livej, hevj, -, rfl⟩ := hr.mem_decoded.mp ((hmem d).mp hd).1
      obtain rfl : j' = j := Fin.ext (Int.ofNat_inj.mp hdj)
      cases (hn.get?_replay.mpr hevj).symm.trans hsup
      refine hthere row hrow hrev (.inr ⟨agent, hagent, _, hd, Int.ofNat_lt.mpr hlt, ?_, hs⟩)
      show sup.grantee.column = agent
      rw [hgrantee]
      rfl

/-! ## Level -/

/-- The tables hold what the model holds after `events`, and the log holds `events`. -/
structure Level (codec : VerbCodec) (log : GrantLog) (events : List GrantEvent) : Prop where
  sound : ∀ i g, log.projected.get? i = some g → ∃ id row, .granted id row ∈ events ∧ i = (id.val : Int)
  flagged : ∀ id row, .granted id row ∈ events →
    log.projected.get? (id.val : Int) = some (.ofGrant codec row ((replay events).isLive id))
  revocations : ∀ i, i ∈ log.revocations ↔ ∃ id, .revoked id ∈ events ∧ i = asI64 id

theorem Level.reflects (hl : Level codec log events) : Reflects codec log events where
  sound := by
    intro i g hget
    obtain ⟨id, row, hev, rfl⟩ := hl.sound i g hget
    exact ⟨id, row, _, hev, rfl, Option.some.inj (hget.symm.trans (hl.flagged id row hev))⟩
  complete := fun id row hev => ⟨_, hl.flagged id row hev⟩
  revocations := hl.revocations

variable {live : List Decoded} {i : Int}

theorem get?_writeLive_ne (h : i ≠ d.id) : (writeLive live t d).get? i = t.get? i := by
  unfold writeLive
  dsimp only
  split
  · rw [Table.get?_modify, if_neg h]
  · rfl

theorem get?_foldl_writeLive_ne {D : List Decoded} (h : ∀ d ∈ D, d.id ≠ i) :
    (D.foldl (writeLive live) t).get? i = t.get? i := by
  induction D generalizing t with
  | nil => rfl
  | cons d D ih =>
    rw [List.foldl_cons, ih fun d' hd' => h d' (List.mem_cons_of_mem d hd')]
    exact get?_writeLive_ne (h d List.mem_cons_self).symm

theorem get?_foldl_writeLive {D : List Decoded} {g : ProjectedGrant} (hD : D.Pairwise fun a b => a.id < b.id)
    (hd : d ∈ D) (hget : t.get? d.id = some g) (hwas : d.wasLive = g.live) :
    (D.foldl (writeLive live) t).get? d.id = some { g with live := decide (d ∈ live) } := by
  induction D generalizing t with
  | nil => cases hd
  | cons d' D ih =>
    obtain ⟨hlt, hD⟩ := List.pairwise_cons.mp hD
    rw [List.foldl_cons]
    rcases List.mem_cons.mp hd with rfl | hd
    · rw [get?_foldl_writeLive_ne fun d' hd' => (hlt d' hd').ne']
      unfold writeLive
      dsimp only
      split
      · rw [Table.get?_modify, if_pos rfl, hget]
        rfl
      · next heq =>
        rw [not_not] at heq
        rw [hget, heq, hwas]
    · exact ih hD hd ((get?_writeLive_ne (hlt d hd).ne').trans hget)

theorem recomputeLiveness_level (hr : Reflects codec log events) (hn : Numbered events) :
    ∃ t, log.recomputeLiveness codec = .ok { log with projected := t } ∧
      Level codec { log with projected := t } events := by
  have hD : ((orderedRows log.projected).map (decoded codec)).Pairwise fun a b => a.id < b.id :=
    List.pairwise_map.mpr (sorted_orderedRows log.projected)
  let live := forwardPass (Decoded.accepts log.revocations) ((orderedRows log.projected).map (decoded codec))
  refine ⟨((orderedRows log.projected).map (decoded codec)).foldl (writeLive live) log.projected, ?_, ?_, ?_,
    hr.revocations⟩
  · unfold GrantLog.recomputeLiveness
    rw [hr.mapM_decode]
    rfl
  · intro i g hget
    by_cases hin : ∃ d ∈ (orderedRows log.projected).map (decoded codec), d.id = i
    · obtain ⟨d, hd, rfl⟩ := hin
      obtain ⟨id, row, live, hev, -, rfl⟩ := hr.mem_decoded.mp hd
      exact ⟨id, row, hev, rfl⟩
    · rw [get?_foldl_writeLive_ne fun d hd he => hin ⟨d, hd, he⟩] at hget
      obtain ⟨id, row, live, hev, rfl, -⟩ := hr.sound i g hget
      exact ⟨id, row, hev, rfl⟩
  · intro id row hev
    obtain ⟨live, hget⟩ := hr.complete id row hev
    have hd := hr.mem_decoded.mpr ⟨id, row, live, hev, hget, rfl⟩
    refine (get?_foldl_writeLive hD hd hget rfl).trans (congrArg some ?_)
    show ProjectedGrant.ofGrant codec row _ = _
    congr 1
    have hlive := live_pass hr hn id
    unfold GrantModel.isLive
    rw [decide_eq_decide, mem_liveIds, ← hlive]
    constructor
    · exact fun h => ⟨_, h, rfl⟩
    · rintro ⟨d, hdL, hid⟩
      -- two rows with one id are one row
      obtain ⟨id', row', live', hev', hget', rfl⟩ := hr.mem_decoded.mp ((forwardPass_sublist _).subset hdL)
      obtain rfl : id' = id := Fin.ext (Int.ofNat_inj.mp hid)
      obtain rfl := hn.unique hev hev'
      have hsame := Option.some.inj (hget.symm.trans hget')
      obtain rfl : live = live' := congrArg ProjectedGrant.live hsame
      exact hdL

/-! ## The log -/

/-- The row of the event at position `i`. -/
def rowAt (codec : VerbCodec) (i : Nat) : GrantEvent → EventRow
  | .granted _ row => .ofGranted codec (i + 1) row
  | .revoked id => .ofRevoked (i + 1) id

@[simp] theorem rowAt_seq (codec : VerbCodec) (i : Nat) (ev : GrantEvent) : (rowAt codec i ev).seq = i + 1 := by
  cases ev <;> rfl

/-- The log holds `events`, and the projection is level with them. -/
structure InStep (codec : VerbCodec) (log : GrantLog) (events : List GrantEvent) : Prop where
  rows : log.events = events.mapIdx (rowAt codec)
  cursor : log.cursor = events.length
  numbered : Numbered events
  level : Level codec log events

theorem mem_rows_iff {r : EventRow} :
    r ∈ events.mapIdx (rowAt codec) ↔ ∃ i ev, events[i]? = some ev ∧ r = rowAt codec i ev := by
  rw [List.mem_mapIdx]
  constructor
  · rintro ⟨i, hi, rfl⟩
    exact ⟨i, _, List.getElem?_eq_getElem hi, rfl⟩
  · rintro ⟨i, ev, hi, rfl⟩
    obtain ⟨hlt, rfl⟩ := List.getElem?_eq_some_iff.mp hi
    exact ⟨i, hlt, rfl⟩

theorem sorted_rows (codec : VerbCodec) (events : List GrantEvent) :
    (events.mapIdx (rowAt codec)).Pairwise fun a b => a.seq < b.seq := by
  induction events using List.reverseRecOn with
  | nil => exact List.Pairwise.nil
  | append_singleton events ev ih =>
    rw [List.mapIdx_concat]
    refine List.pairwise_append.mpr ⟨ih, List.pairwise_singleton _ _, ?_⟩
    intro a ha b hb
    cases List.mem_singleton.mp hb
    obtain ⟨i, ev', hi, rfl⟩ := mem_rows_iff.mp ha
    have hlt : i < events.length := (List.getElem?_eq_some_iff.mp hi).1
    rw [rowAt_seq, rowAt_seq]
    omega

theorem nextSeq_eq (hrows : log.events = events.mapIdx (rowAt codec)) :
    log.nextSeq = if (events.length : Int) < 2 ^ 63 - 1 then .ok (events.length + 1)
      else .error (.database "database or disk is full") := by
  have hlast : (log.events.getLast?.map EventRow.seq).getD 0 = events.length := by
    rw [hrows]
    induction events using List.reverseRecOn with
    | nil => rfl
    | append_singleton events ev =>
      rw [List.mapIdx_concat, List.getLast?_concat, List.length_append]
      exact rowAt_seq codec events.length ev
  unfold GrantLog.nextSeq
  rw [hlast]

variable {ev : GrantEvent}

theorem Numbered.concat (hn : Numbered events) (hshort : events.length + 1 < 2 ^ 63)
    (hev : ∀ id row, ev = .granted id row → id.val = events.length + 1) : Numbered (events ++ [ev]) where
  ids := by
    intro i id row hi
    rcases Nat.lt_trichotomy i events.length with hlt | heq | hgt
    · rw [List.getElem?_append_left hlt] at hi
      exact hn.ids i id row hi
    · subst heq
      rw [List.getElem?_concat_length] at hi
      exact hev id row (Option.some.inj hi)
    · rw [List.getElem?_eq_none (by simp; omega)] at hi
      cases hi
  short := by
    rw [List.length_append]
    exact hshort

/-- The id of the next grant. -/
def nextId (events : List GrantEvent) : GrantId := Fin.ofNat (2 ^ 64) (events.length + 1)

theorem nextId_val (h : events.length + 1 < 2 ^ 63) : (nextId events).val = events.length + 1 :=
  Nat.mod_eq_of_lt (by omega)

/-! ## Appends -/

theorem reflects_granted (hl : Level codec log events) (hn : Numbered events)
    (hshort : events.length + 1 < 2 ^ 63) (hrows : List EventRow) :
    Reflects codec { log with
      events := hrows
      projected := log.projected.insertNew (events.length + 1) (.ofGrant codec row false) }
      (events ++ [.granted (nextId events) row]) := by
  have hid := nextId_val hshort
  have hfree : log.projected.get? (events.length + 1) = none := by
    cases hget : log.projected.get? (events.length + 1) with
    | none => rfl
    | some g =>
      obtain ⟨id, row', hev, heq⟩ := hl.sound _ g hget
      have hb := hn.bounds hev
      omega
  have hget : ∀ i, (log.projected.insertNew (events.length + 1) (.ofGrant codec row false)).get? i =
      if i = events.length + 1 then some (.ofGrant codec row false) else log.projected.get? i := by
    intro i
    rw [Table.get?_insertNew, hfree]
    rfl
  refine ⟨?_, ?_, ?_⟩
  · intro i g hg
    rw [hget] at hg
    split at hg
    · next heq =>
      refine ⟨nextId events, row, false, List.mem_append_right _ (List.mem_singleton_self _), ?_,
        (Option.some.inj hg).symm⟩
      rw [heq, hid]
      rfl
    · obtain ⟨id, row', live, hev, heq, hgr⟩ := hl.reflects.sound i g hg
      exact ⟨id, row', live, List.mem_append_left _ hev, heq, hgr⟩
  · intro id row' hev
    show ∃ live, (log.projected.insertNew _ _).get? _ = _
    rw [hget]
    rcases List.mem_append.mp hev with hold | hnew
    · have hb := hn.bounds hold
      rw [if_neg (by omega)]
      exact ⟨_, hl.flagged id row' hold⟩
    · cases List.mem_singleton.mp hnew
      rw [if_pos (by rw [hid]; rfl)]
      exact ⟨false, rfl⟩
  · intro i
    show i ∈ log.revocations ↔ _
    rw [hl.revocations]
    simp

theorem reflects_revoked {target : GrantId} (hl : Level codec log events) (hrows : List EventRow) :
    Reflects codec { log with events := hrows, revocations := insert (asI64 target) log.revocations }
      (events ++ [.revoked target]) := by
  refine ⟨?_, ?_, ?_⟩
  · intro i g hg
    obtain ⟨id, row, live, hev, heq, hgr⟩ := hl.reflects.sound i g hg
    exact ⟨id, row, live, List.mem_append_left _ hev, heq, hgr⟩
  · intro id row hev
    rcases List.mem_append.mp hev with hold | hnew
    · exact ⟨_, hl.flagged id row hold⟩
    · cases List.mem_singleton.mp hnew
  · intro i
    rw [Finset.mem_insert, hl.revocations]
    constructor
    · rintro (rfl | ⟨id, hev, rfl⟩)
      · exact ⟨target, List.mem_append_right _ (List.mem_singleton_self _), rfl⟩
      · exact ⟨id, List.mem_append_left _ hev, rfl⟩
    · rintro ⟨id, hev, rfl⟩
      rcases List.mem_append.mp hev with hold | hnew
      · exact .inr ⟨id, hold, rfl⟩
      · cases List.mem_singleton.mp hnew
        exact .inl rfl

theorem Level.congr {log' : GrantLog} (hl : Level codec log events) (hp : log'.projected = log.projected)
    (hr : log'.revocations = log.revocations) : Level codec log' events :=
  ⟨hp ▸ hl.sound, hp ▸ hl.flagged, hr ▸ hl.revocations⟩

/-- What an append ends with: liveness, then the cursor. -/
theorem inStep_append {log' : GrantLog} (hs : InStep codec log events) (hn : Numbered (events ++ [ev]))
    (hr : Reflects codec log' (events ++ [ev]))
    (hrows : log'.events = log.events ++ [rowAt codec events.length ev]) (hcur : log'.cursor = log.cursor) :
    ∃ log'', log'.recomputeLiveness codec = .ok log'' ∧
      InStep codec (log''.setCursor (events.length + 1)) (events ++ [ev]) := by
  obtain ⟨t, hok, hl⟩ := recomputeLiveness_level hr hn
  refine ⟨_, hok, ?_, ?_, hn, hl.congr rfl rfl⟩
  · show log'.events = _
    rw [hrows, hs.rows, List.mapIdx_concat]
  · show (if log'.cursor < events.length + 1 then ((events.length : Int) + 1) else log'.cursor) = _
    rw [hcur, hs.cursor, if_pos (by omega), List.length_append]
    rfl

theorem appendGranted_inStep (row : GrantRow) (hs : InStep codec log events) (hshort : events.length + 1 < 2 ^ 63) :
    ∃ log', log.appendGranted codec row = .ok (log', nextId events) ∧
      InStep codec log' (events ++ [.granted (nextId events) row]) := by
  have hid := nextId_val hshort
  have hn : Numbered (events ++ [.granted (nextId events) row]) := hs.numbered.concat hshort fun id row' heq => by
    cases heq
    exact hid
  obtain ⟨log'', hok, hin⟩ := inStep_append hs hn
    (reflects_granted hs.level hs.numbered hshort (log.events ++ [.ofGranted codec (events.length + 1) row])) rfl rfl
  refine ⟨_, ?_, hin⟩
  unfold GrantLog.appendGranted
  rw [nextSeq_eq hs.rows, if_pos (by omega)]
  show (GrantLog.recomputeLiveness codec _ >>= fun log => _) = _
  rw [hok]
  show Except.ok (_, asU64 (events.length + 1)) = _
  have hU : asU64 ((events.length : Int) + 1) = nextId events := asU64_natCast (n := events.length + 1) (by omega) |>.trans
    (Fin.ext hid.symm)
  rw [hU]

theorem appendGranted_full (row : GrantRow) (hs : InStep codec log events) (hfull : ¬ events.length + 1 < 2 ^ 63) :
    log.appendGranted codec row = .error (.database "database or disk is full") := by
  unfold GrantLog.appendGranted
  rw [nextSeq_eq hs.rows, if_neg (by omega)]
  rfl

theorem appendRevoked_inStep (target : GrantId) (hs : InStep codec log events) (hshort : events.length + 1 < 2 ^ 63) :
    ∃ log', log.appendRevoked codec target = .ok log' ∧ InStep codec log' (events ++ [.revoked target]) := by
  have hn : Numbered (events ++ [.revoked target]) := hs.numbered.concat hshort nofun
  obtain ⟨log'', hok, hin⟩ := inStep_append hs hn
    (reflects_revoked hs.level (log.events ++ [.ofRevoked (events.length + 1) target])) rfl rfl
  refine ⟨_, ?_, hin⟩
  unfold GrantLog.appendRevoked
  rw [nextSeq_eq hs.rows, if_pos (by omega)]
  show (GrantLog.recomputeLiveness codec _ >>= fun log => _) = _
  rw [hok]
  rfl

/-! ## Catching up -/

theorem keys_grantedRows (rows : List EventRow) : ((grantedRows rows).map Prod.fst).Sublist (rows.map EventRow.seq) := by
  induction rows with
  | nil => exact List.Sublist.refl _
  | cons r rows ih =>
    unfold grantedRows at ih ⊢
    rw [List.filter_cons]
    split
    · rw [List.filterMap_cons]
      cases r.project with
      | none => exact ih.cons _
      | some g => exact ih.cons_cons _
    · exact ih.cons _

theorem mem_grantedRows {rows : List EventRow} {g : ProjectedGrant} :
    (i, g) ∈ grantedRows rows ↔ ∃ r ∈ rows, r.kind = .granted ∧ r.seq = i ∧ r.project = some g := by
  unfold grantedRows
  simp only [List.mem_filterMap, List.mem_filter, decide_eq_true_iff, Option.map_eq_some_iff, Prod.mk.injEq]
  constructor
  · rintro ⟨r, ⟨hr, hk⟩, g', hp, rfl, rfl⟩
    exact ⟨r, hr, hk, rfl, hp⟩
  · rintro ⟨r, hr, hk, rfl, hp⟩
    exact ⟨r, ⟨hr, hk⟩, g, hp, rfl, rfl⟩

theorem mem_revokedRows {rows : List EventRow} :
    i ∈ revokedRows rows ↔ ∃ r ∈ rows, r.kind = .revoked ∧ r.targetId = some i := by
  unfold revokedRows
  simp only [List.mem_filterMap, List.mem_filter, decide_eq_true_iff, and_assoc]

theorem mem_pending {k : Nat} {r : EventRow} :
    r ∈ (events.mapIdx (rowAt codec)).filter (fun r => (k : Int) < r.seq) ↔
      ∃ i ev, k ≤ i ∧ events[i]? = some ev ∧ r = rowAt codec i ev := by
  rw [List.mem_filter, mem_rows_iff]
  constructor
  · rintro ⟨⟨i, ev, hi, rfl⟩, hlt⟩
    have hlt' := of_decide_eq_true hlt
    rw [rowAt_seq] at hlt'
    exact ⟨i, ev, by omega, hi, rfl⟩
  · rintro ⟨i, ev, hk, hi, rfl⟩
    refine ⟨⟨i, ev, hi, rfl⟩, decide_eq_true ?_⟩
    rw [rowAt_seq]
    omega

theorem mem_take_of_lt {i k : Nat} (hi : events[i]? = some ev) (hlt : i < k) : ev ∈ events.take k :=
  List.mem_iff_getElem?.mpr ⟨i, by rw [List.getElem?_take_of_lt hlt]; exact hi⟩

/-- Folding in the rows after position `k` makes good for the events after it. -/
theorem reflects_takeIn {k : Nat} (hrows : log.events = events.mapIdx (rowAt codec)) (hn : Numbered events)
    (hr : Reflects codec log (events.take k)) :
    Reflects codec (log.takeIn (log.events.filter fun r => (k : Int) < r.seq)) events := by
  rw [hrows]
  generalize hpend : (events.mapIdx (rowAt codec)).filter (fun r => (k : Int) < r.seq) = pending
  have mem_pending : ∀ {r}, r ∈ pending ↔ ∃ i ev, k ≤ i ∧ events[i]? = some ev ∧ r = rowAt codec i ev := by
    rw [← hpend]
    exact mem_pending
  have hgranted : ∀ {i g}, (i, g) ∈ grantedRows pending ↔
      ∃ j id row, k ≤ j ∧ events[j]? = some (.granted id row) ∧ i = (j : Int) + 1 ∧ g = .ofGrant codec row false := by
    intro i g
    rw [mem_grantedRows]
    constructor
    · rintro ⟨r, hrp, hkind, rfl, hp⟩
      obtain ⟨j, ev, hk, hj, rfl⟩ := mem_pending.mp hrp
      cases ev with
      | granted id row =>
        cases hp
        exact ⟨j, id, row, hk, hj, rfl, rfl⟩
      | revoked id => cases hkind
    · rintro ⟨j, id, row, hk, hj, rfl, rfl⟩
      exact ⟨_, mem_pending.mpr ⟨j, _, hk, hj, rfl⟩, rfl, rfl, rfl⟩
  have hkeys : ((grantedRows pending).map Prod.fst).Nodup := by
    have hseqs : ((events.mapIdx (rowAt codec)).map EventRow.seq).Nodup :=
      List.pairwise_map.mpr ((sorted_rows codec events).imp fun h => h.ne)
    exact hseqs.sublist ((keys_grantedRows pending).trans (hpend ▸ List.filter_sublist.map _))
  have hfresh : ∀ r ∈ grantedRows pending, log.projected.get? r.1 = none := by
    rintro ⟨i, g⟩ hmem
    obtain ⟨j, id, row, hk, hj, rfl, rfl⟩ := hgranted.mp hmem
    cases hget : log.projected.get? ((j : Int) + 1) with
    | none => rfl
    | some g' =>
      obtain ⟨id', row', live, hev, heq, -⟩ := hr.sound _ g' hget
      obtain ⟨i', hi'⟩ := List.mem_iff_getElem?.mp hev
      have hi'k : i' < k := by
        have := (List.getElem?_eq_some_iff.mp hi').1
        rw [List.length_take] at this
        omega
      rw [List.getElem?_take_of_lt hi'k] at hi'
      have hid := hn.ids i' id' row' hi'
      omega
  have hget := fun {i g} => Table.get?_foldl_insertNew hkeys hfresh (k := i) (v := g)
  refine ⟨?_, ?_, ?_⟩
  · intro i g hg
    rcases hget.mp hg with hold | hnew
    · obtain ⟨id, row, live, hev, heq, hgr⟩ := hr.sound i g hold
      exact ⟨id, row, live, List.mem_of_mem_take hev, heq, hgr⟩
    · obtain ⟨j, id, row, hk, hj, rfl, rfl⟩ := hgranted.mp hnew
      refine ⟨id, row, false, List.mem_iff_getElem?.mpr ⟨j, hj⟩, ?_, rfl⟩
      rw [hn.ids j id row hj]
      rfl
  · intro id row hev
    obtain ⟨j, hj⟩ := List.mem_iff_getElem?.mp hev
    have hid := hn.ids j id row hj
    by_cases hjk : j < k
    · obtain ⟨live, hold⟩ := hr.complete id row (mem_take_of_lt hj hjk)
      exact ⟨live, hget.mpr (.inl hold)⟩
    · exact ⟨false, hget.mpr (.inr (hgranted.mpr ⟨j, id, row, by omega, hj, by omega, rfl⟩))⟩
  · intro i
    show i ∈ log.revocations ∪ (revokedRows pending).toFinset ↔ _
    rw [Finset.mem_union, List.mem_toFinset, hr.revocations, mem_revokedRows]
    constructor
    · rintro (⟨id, hev, rfl⟩ | ⟨r, hrp, hkind, htarget⟩)
      · exact ⟨id, List.mem_of_mem_take hev, rfl⟩
      · obtain ⟨j, ev, hk, hj, rfl⟩ := mem_pending.mp hrp
        cases ev with
        | granted id row => cases hkind
        | revoked id =>
          cases htarget
          exact ⟨id, List.mem_iff_getElem?.mpr ⟨j, hj⟩, rfl⟩
    · rintro ⟨id, hev, rfl⟩
      obtain ⟨j, hj⟩ := List.mem_iff_getElem?.mp hev
      by_cases hjk : j < k
      · exact .inl ⟨id, mem_take_of_lt hj hjk, rfl⟩
      · exact .inr ⟨_, mem_pending.mpr ⟨j, _, by omega, hj, rfl⟩, rfl, rfl⟩

theorem max_seq (hne : events ≠ []) : ((events.mapIdx (rowAt codec)).map EventRow.seq).max? = some (events.length : Int) := by
  rw [List.max?_eq_some_iff]
  have hpos : 0 < events.length := List.length_pos_iff.mpr hne
  constructor
  · refine List.mem_map.mpr ⟨_, mem_rows_iff.mpr ⟨events.length - 1, _, List.getElem?_eq_getElem (by omega), rfl⟩, ?_⟩
    rw [rowAt_seq]
    omega
  · intro b hb
    obtain ⟨r, hr, rfl⟩ := List.mem_map.mp hb
    obtain ⟨i, ev, hi, rfl⟩ := mem_rows_iff.mp hr
    have hlt := (List.getElem?_eq_some_iff.mp hi).1
    rw [rowAt_seq]
    omega

/-- A projection that is behind is brought level. -/
theorem applyEventsAfter_inStep {k : Nat} (hrows : log.events = events.mapIdx (rowAt codec)) (hn : Numbered events)
    (hr : Reflects codec log (events.take k)) (hk : k < events.length) (hcur : log.cursor = k) :
    ∃ log', log.applyEventsAfter codec k = .ok log' ∧ InStep codec log' events := by
  have hne : events ≠ [] := List.length_pos_iff.mp (by omega)
  obtain ⟨t, hok, hl⟩ := recomputeLiveness_level (reflects_takeIn hrows hn hr) hn
  have hmax : (log.events.map EventRow.seq).max? = some (events.length : Int) := hrows ▸ max_seq hne
  refine ⟨GrantLog.setCursor { log.takeIn _ with projected := t } events.length, ?_, hrows, ?_, hn, hl.congr rfl rfl⟩
  · unfold GrantLog.applyEventsAfter
    rw [hmax]
    dsimp only
    rw [if_neg (by omega), hok]
    rfl
  · show (if log.cursor < events.length then (events.length : Int) else log.cursor) = _
    rw [hcur, if_pos (by omega)]

theorem rebuildProjection_inStep (hs : InStep codec log events) :
    ∃ log', log.rebuildProjection codec = .ok log' ∧ InStep codec log' events := by
  have hempty : Reflects codec { log with projected := Table.empty, revocations := ∅, cursor := 0 } (events.take 0) :=
    ⟨nofun, nofun, fun i => iff_of_false (Finset.notMem_empty i) fun ⟨_, h, _⟩ => nomatch h⟩
  cases hev : events with
  | nil =>
    have hrows := hs.rows
    rw [hev] at hrows
    refine ⟨{ log with projected := Table.empty, revocations := ∅, cursor := 0 }, ?_, ?_⟩
    · unfold GrantLog.rebuildProjection GrantLog.applyEventsAfter
      rw [hrows]
      rfl
    · refine ⟨hrows, rfl, hev ▸ hs.numbered, nofun, nofun, fun i => ?_⟩
      exact iff_of_false (Finset.notMem_empty i) fun ⟨_, h, _⟩ => nomatch h
  | cons ev rest =>
    rw [← hev]
    have hpos : 0 < events.length := hev ▸ Nat.succ_pos _
    exact applyEventsAfter_inStep (k := 0) hs.rows hs.numbered hempty hpos rfl

theorem catchUp_inStep (hs : InStep codec log events) : log.catchUp codec = .ok log := by
  unfold GrantLog.catchUp GrantLog.applyEventsAfter
  rw [hs.rows]
  by_cases hne : events = []
  · subst hne
    rfl
  · rw [max_seq hne]
    exact if_pos (by rw [hs.cursor])

/-! ## Histories -/

/-- The log after one more call: the next number, as long as there is one. -/
def logCall (events : List GrantEvent) : Call → List GrantEvent
  | .granted grant =>
    if events.length + 1 < 2 ^ 63 then events ++ [.granted (nextId events) grant] else events
  | .revoked target => if events.length + 1 < 2 ^ 63 then events ++ [.revoked target] else events
  | .rebuild | .reopen => events

/-- The events a history logs. -/
def logged (calls : List Call) : List GrantEvent := calls.foldl logCall []

theorem call_inStep (c : Call) (hs : InStep codec log events) : InStep codec (log.call codec c) (logCall events c) := by
  cases c with
  | granted grant =>
    dsimp only [logCall, GrantLog.call]
    split
    · next hshort =>
      obtain ⟨log', hok, hin⟩ := appendGranted_inStep grant hs hshort
      rw [hok]
      exact hin
    · next hfull =>
      rw [appendGranted_full grant hs hfull]
      exact hs
  | revoked target =>
    dsimp only [logCall, GrantLog.call]
    split
    · next hshort =>
      obtain ⟨log', hok, hin⟩ := appendRevoked_inStep target hs hshort
      rw [hok]
      exact hin
    · next hfull =>
      have herr : log.appendRevoked codec target = .error (.database "database or disk is full") := by
        unfold GrantLog.appendRevoked
        rw [nextSeq_eq hs.rows, if_neg (by omega)]
        rfl
      rw [herr]
      exact hs
  | rebuild =>
    obtain ⟨log', hok, hin⟩ := rebuildProjection_inStep hs
    unfold GrantLog.call
    rw [hok]
    exact hin
  | reopen =>
    unfold GrantLog.call
    rw [catchUp_inStep hs]
    exact hs

theorem inStep_new : InStep codec GrantLog.new [] :=
  ⟨rfl, rfl, ⟨nofun, by decide⟩, nofun, nofun, fun i => iff_of_false (Finset.notMem_empty i) fun ⟨_, h, _⟩ => nomatch h⟩

theorem run_inStep (codec : VerbCodec) (calls : List Call) : InStep codec (GrantLog.run codec calls) (logged calls) := by
  induction calls using List.reverseRecOn with
  | nil => exact inStep_new
  | append_singleton calls c ih =>
    unfold GrantLog.run logged at ih ⊢
    rw [List.foldl_append, List.foldl_append]
    exact call_inStep c ih

/-! ## Queries -/

theorem intoEvent_rowAt (hn : Numbered events) {i : Nat} (hi : events[i]? = some ev) :
    (rowAt codec i ev).intoEvent codec = .ok ev := by
  cases ev with
  | revoked id =>
    show Except.ok (GrantEvent.revoked (asU64 (asI64 id))) = _
    rw [asU64_asI64]
  | granted id row =>
    have hid := hn.ids i id row hi
    have hU : asU64 ((i : Int) + 1) = id := (asU64_natCast (n := i + 1) (by omega)).trans (Fin.ext hid.symm)
    show (((codec.decode (codec.encode row.verbs)).elim (.error _) .ok : Except StoreError (Finset Verb)) >>=
      fun verbs => _) = _
    rw [codec.decode_encode]
    show Except.ok (GrantEvent.granted (asU64 ((i : Int) + 1)) ⟨Grantor.ofColumn row.grantor.agentColumn,
      .agent row.grantee.column, row.verbs, Scope.fromKindValue row.scope.kind row.scope.value⟩) = _
    rw [hU, Grantor.ofColumn_agentColumn, Principal.agent_column, Scope.fromKindValue_kind_value]

theorem replay_eq (hs : InStep codec log events) : log.replay codec = .ok events := by
  have hsorted : log.events.insertionSort (fun a b => a.seq ≤ b.seq) = log.events := by
    rw [hs.rows]
    exact List.Pairwise.insertionSort_eq ((sorted_rows codec events).imp fun h => h.le)
  unfold GrantLog.replay
  rw [hsorted, hs.rows]
  refine mapM_of_forall₂ (List.forall₂_iff_get.mpr ⟨List.length_mapIdx, fun i hi hi' => ?_⟩)
  show EventRow.intoEvent codec (events.mapIdx (rowAt codec))[i] = .ok events[i]
  rw [List.getElem_mapIdx]
  exact intoEvent_rowAt hs.numbered (List.getElem?_eq_getElem hi')

/-- What `liveGrant` reads from a row whose verbs can be read. -/
def heldGrant (codec : VerbCodec) (r : Int × ProjectedGrant) : LiveGrant :=
  ⟨asU64 r.1, (codec.decode r.2.verbs).getD ∅, Scope.fromKindValue r.2.scopeKind r.2.scopeValue⟩

theorem heldGrant_ofGrant (row : GrantRow) (live : Bool) (h : id.val < 2 ^ 63) :
    heldGrant codec ((id.val : Int), .ofGrant codec row live) = ⟨id, row.verbs, row.scope⟩ := by
  unfold heldGrant ProjectedGrant.ofGrant
  rw [codec.decode_encode, Scope.fromKindValue_kind_value, ← asI64_of_lt h, asU64_asI64]
  rfl

theorem liveGrant_ofGrant (i : Int) (row : GrantRow) (live : Bool) :
    liveGrant codec (i, .ofGrant codec row live) = .ok (heldGrant codec (i, .ofGrant codec row live)) := by
  unfold liveGrant decodeVerbs heldGrant ProjectedGrant.ofGrant
  rw [codec.decode_encode]
  rfl

/-- The grants the model holds live for the subject. -/
def HeldBy (events : List GrantEvent) (p : Principal) (g : LiveGrant) : Prop :=
  ∃ row, (replay events).grants.get? g.id = some row ∧ (replay events).isLive g.id = true ∧ row.grantee = p ∧
    row.verbs = g.verbs ∧ row.scope = g.scope

theorem column_inj {p q : Principal} : p.column = q.column ↔ p = q := by
  constructor
  · intro h
    rw [← Principal.agent_column p, h, Principal.agent_column]
  · exact congrArg _

/-- The rows `live_grants_for` selects. -/
def liveRows (log : GrantLog) (p : Principal) : List (Int × ProjectedGrant) :=
  (orderedRows log.projected).filter fun r => r.2.granteeAgent = p.column && r.2.live

theorem mem_liveRows (hs : InStep codec log events) {p : Principal} {r : Int × ProjectedGrant} :
    r ∈ liveRows log p ↔ ∃ id row, .granted id row ∈ events ∧ row.grantee = p ∧ (replay events).isLive id = true ∧
      r = ((id.val : Int), .ofGrant codec row true) := by
  obtain ⟨i, g⟩ := r
  unfold liveRows
  rw [List.mem_filter, mem_orderedRows, Bool.and_eq_true, decide_eq_true_iff]
  constructor
  · rintro ⟨hget, hp, hlive⟩
    obtain ⟨id, row, hev, rfl⟩ := hs.level.sound i g hget
    obtain rfl : g = _ := Option.some.inj (hget.symm.trans (hs.level.flagged id row hev))
    have hlive' : (replay events).isLive id = true := hlive
    refine ⟨id, row, hev, column_inj.mp hp, hlive', ?_⟩
    rw [hlive']
  · rintro ⟨id, row, hev, rfl, hlive, heq⟩
    cases heq
    refine ⟨?_, rfl, rfl⟩
    rw [hs.level.flagged id row hev, hlive]

theorem Numbered.lt (hn : Numbered events) (h : .granted id row ∈ events) : id.val < 2 ^ 63 := by
  have hb := hn.bounds h
  have hs := hn.short
  omega

theorem liveGrantsFor_eq (hs : InStep codec log events) (p : Principal) :
    ∃ gs, log.liveGrantsFor codec p = .ok gs ∧ gs.Pairwise (fun a b => a.id < b.id) ∧
      ∀ g, g ∈ gs ↔ HeldBy events p g := by
  have hn := hs.numbered
  refine ⟨(liveRows log p).map (heldGrant codec), mapM_ok ?_, List.pairwise_map.mpr ?_, fun g => ?_⟩
  · intro r hr
    obtain ⟨id, row, -, -, -, rfl⟩ := (mem_liveRows hs).mp hr
    exact liveGrant_ofGrant _ row true
  · have hsorted : (liveRows log p).Pairwise fun a b => a.1 < b.1 :=
      (sorted_orderedRows log.projected).sublist List.filter_sublist
    refine hsorted.imp_of_mem fun ha hb hlt => ?_
    obtain ⟨id, row, hev, -, -, rfl⟩ := (mem_liveRows hs).mp ha
    obtain ⟨id', row', hev', -, -, rfl⟩ := (mem_liveRows hs).mp hb
    rw [heldGrant_ofGrant row true (hn.lt hev), heldGrant_ofGrant row' true (hn.lt hev')]
    exact Int.ofNat_lt.mp hlt
  · rw [List.mem_map]
    constructor
    · rintro ⟨r, hr, rfl⟩
      obtain ⟨id, row, hev, hp, hlive, rfl⟩ := (mem_liveRows hs).mp hr
      rw [heldGrant_ofGrant row true (hn.lt hev)]
      exact ⟨row, hn.get?_replay.mpr hev, hlive, hp, rfl, rfl⟩
    · rintro ⟨row, hrow, hlive, hp, hverbs, hscope⟩
      have hev := hn.get?_replay.mp hrow
      refine ⟨_, (mem_liveRows hs).mpr ⟨g.id, row, hev, hp, hlive, rfl⟩, ?_⟩
      rw [heldGrant_ofGrant row true (hn.lt hev), hverbs, hscope]

theorem can_eq (hs : InStep codec log events) (p : Principal) (v : Verb) (r : String) :
    log.can codec p v r = .ok ((replay events).can p v r) := by
  obtain ⟨gs, hgs, -, hheld⟩ := liveGrantsFor_eq hs p
  unfold GrantLog.can
  split
  · next hown => rw [can_iff.mpr (.inl hown)]
  · next hown =>
    rw [hgs]
    refine congrArg Except.ok (Bool.eq_iff_iff.mpr ?_)
    rw [can_iff, or_iff_right hown, List.any_eq_true]
    constructor
    · rintro ⟨g, hg, hcond⟩
      obtain ⟨row, hrow, hlive, hp, hverbs, hscope⟩ := (hheld g).mp hg
      rw [Bool.and_eq_true, decide_eq_true_iff, ← hverbs, ← hscope] at hcond
      exact ⟨g.id, row, hrow, mem_liveIds.mp (of_decide_eq_true hlive), hp, hcond⟩
    · rintro ⟨id, row, hrow, hlive, hp, hv, hcov⟩
      have hlive' : (replay events).isLive id = true := decide_eq_true (mem_liveIds.mpr hlive)
      refine ⟨⟨id, row.verbs, row.scope⟩, (hheld _).mpr ⟨row, hrow, hlive', hp, rfl, rfl⟩, ?_⟩
      rw [Bool.and_eq_true, decide_eq_true_iff]
      exact ⟨hv, hcov⟩

/-- After every history of appends, rebuilds and reopens, the log reads back as the
events that were appended, the projection decides as the model does after replaying
them, and it lists exactly the grants the model holds live, in grant order. -/
theorem projection_agrees (codec : VerbCodec) (calls : List Call) :
    (GrantLog.run codec calls).replay codec = .ok (logged calls) ∧
      ∀ p, (∀ v r, (GrantLog.run codec calls).can codec p v r = .ok ((replay (logged calls)).can p v r)) ∧
        ∃ gs, (GrantLog.run codec calls).liveGrantsFor codec p = .ok gs ∧ gs.Pairwise (fun a b => a.id < b.id) ∧
          ∀ g, g ∈ gs ↔ HeldBy (logged calls) p g := by
  have hs := run_inStep codec calls
  exact ⟨replay_eq hs, fun p => ⟨can_eq hs p, liveGrantsFor_eq hs p⟩⟩

example :
    ((GrantLog.run jsonVerbs
      [.granted ⟨.operator, .agent "alice", {.read, .grant}, .nameSpace "research"⟩,
        .granted ⟨.agent "alice", .agent "bob", {.read}, .name "research.papers"⟩, .reopen, .revoked 1, .rebuild]).can
      jsonVerbs (.agent "bob") .read "research.papers").toOption = some false := by
  decide +kernel

end FactorQ.Grants
