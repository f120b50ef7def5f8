/-
# `FactorQ.Projection.Retention` — what outlives the log

Deliveries, redeliveries, sweeps, rebuilds and floor steps come in any order; the replay after a
rebuild is more deliveries.  Whatever the order,

    the cost-bearing rows, and so the spend, are those of the distinct events delivered
    a trigger's row is the one its first record wrote
    the alerts, and what closes each, are as if each event had been delivered once and
      nothing else had happened

The first and the last are each a table derived from the log of deliveries (`Lib.Derived`), of
which the sweeps and the rebuild delete no row that is kept.  An alert is closed by a row, so
the rows that close one are kept as well.
-/
import FactorQ.Lib.Derived
import FactorQ.Projection.Store

namespace FactorQ.Projection

open Lib

/-- The events that may be delivered, by their ids. -/
structure Journal where
  event : EventId → Event
  named : ∀ id, (event id).envelope.eventId = id

inductive Op where
  | apply (id : EventId) (seq : Option Nat)
  | sweepEvents (cutoff : String)
  | sweepOperatorSignals (cutoff : String)
  | rebuildTables
  | applyReplayFloor (floor : Nat)

theorem EventColumns.costBearing_eq_false {columns : EventColumns} (h : columns.fields.totalCost.isNone = true) :
    columns.costBearing = false := by
  rw [EventColumns.costBearing, Option.isSome_eq_false_iff]
  exact h

namespace Journal

section

variable (j : Journal) (parseUuid : String → Option String)

def step (s : Store) : Op → Store
  | .apply id seq => s.insertEvent parseUuid (j.event id) seq
  | .sweepEvents cutoff => s.sweepEvents cutoff
  | .sweepOperatorSignals cutoff => s.sweepOperatorSignals cutoff
  | .rebuildTables => s.rebuildTables
  | .applyReplayFloor floor => s.applyReplayFloor floor

def run (ops : List Op) : Store := ops.foldl (j.step parseUuid) .empty

/-- The deliveries, in order. -/
def applied : List Op → List EventId
  | [] => []
  | .apply id _ :: ops => id :: applied ops
  | _ :: ops => applied ops

/-- The first delivery of each event, and nothing else. -/
def firstDeliveries (seen : List EventId) : List Op → List Op
  | [] => []
  | .apply id seq :: ops =>
    if id ∈ seen then firstDeliveries seen ops else .apply id seq :: firstDeliveries (id :: seen) ops
  | _ :: ops => firstDeliveries seen ops

/-- The row an event derives. -/
def eventRow (id : EventId) : Option EventColumns :=
  if (j.event id).payload.isTransient then none else some (eventColumns (j.event id))

/-- The rows of the distinct events of a log. -/
def distinctRows (log : List EventId) : List (EventId × EventColumns) :=
  log.dedup.map fun id => (id, eventColumns (j.event id))

def signalRow (id : EventId) : Option SignalColumns := signalColumns (j.event id)

/-- What an event records of a trigger. -/
def triggerRecord (triggerId : String) (id : EventId) : Option TriggerColumns :=
  ((fromEvent parseUuid (j.event id)).filter fun trigger => trigger.id = triggerId).map (triggerColumns (j.event id))

end

variable {j : Journal} {parseUuid : String → Option String} {log : List EventId} {s : Store}

/-! ## The deliveries -/

theorem applied_cons (op : Op) (ops : List Op) : applied (op :: ops) = applied [op] ++ applied ops := by
  cases op <;> rfl

theorem mem_applied_firstDeliveries (id : EventId) : ∀ (ops : List Op) (seen : List EventId),
    id ∈ applied (firstDeliveries seen ops) ↔ id ∈ applied ops ∧ id ∉ seen
  | [], seen => by simp [firstDeliveries, applied]
  | .apply id' seq :: ops, seen => by
    have ih := mem_applied_firstDeliveries id ops
    simp only [firstDeliveries, applied, List.mem_cons]
    split
    · next hseen =>
      rw [ih seen]
      constructor
      · exact fun ⟨hops, hnew⟩ => ⟨.inr hops, hnew⟩
      · rintro ⟨rfl | hops, hnew⟩
        · exact absurd hseen hnew
        · exact ⟨hops, hnew⟩
    · next hfresh =>
      rw [applied, List.mem_cons, ih (id' :: seen), List.mem_cons]
      by_cases heq : id = id'
      · subst heq
        simp [hfresh]
      · simp [heq]
  | .sweepEvents _ :: ops, seen => mem_applied_firstDeliveries id ops seen
  | .sweepOperatorSignals _ :: ops, seen => mem_applied_firstDeliveries id ops seen
  | .rebuildTables :: ops, seen => mem_applied_firstDeliveries id ops seen
  | .applyReplayFloor _ :: ops, seen => mem_applied_firstDeliveries id ops seen

/-! ## Transient events -/

theorem eq_workerHeartbeat {p : EventPayload} (h : p.isTransient = true) : p = .plain .workerHeartbeat := by
  cases p with
  | plain event =>
    have htype : (EventPayload.plain event).isTransient = true → event = .workerHeartbeat := by
      cases event <;> decide
    rw [htype h]
  | _ => exact absurd h (by simp [EventPayload.isTransient, EventPayload.eventType, transientTypes])

theorem signalRow_transient {id : EventId} (h : (j.event id).payload.isTransient = true) : j.signalRow id = none := by
  rw [signalRow, signalColumns, eq_workerHeartbeat h]

theorem triggerRecord_transient {id : EventId} (h : (j.event id).payload.isTransient = true) (triggerId : String) :
    j.triggerRecord parseUuid triggerId id = none := by
  rw [triggerRecord, fromEvent, eq_workerHeartbeat h]
  rfl

theorem not_costBearing_transient {id : EventId} (h : (j.event id).payload.isTransient = true) :
    (eventColumns (j.event id)).costBearing = false := by
  rw [EventColumns.costBearing, eventColumns, extractFields, eq_workerHeartbeat h]
  rfl

/-! ## The invariant -/

structure Inv (j : Journal) (parseUuid : String → Option String) (log : List EventId) (s : Store) : Prop where
  events : Derived EventRow.columns j.eventRow EventColumns.costBearing log s.events
  signals : Derived SignalRow.columns j.signalRow SignalColumns.retained log s.operatorSignals
  triggers : ∀ triggerId,
    (s.triggers.get? triggerId).map TriggerRow.columns = log.findSome? (j.triggerRecord parseUuid triggerId)

theorem inv_empty : Inv j parseUuid [] .empty :=
  ⟨.empty, .empty, fun _ => rfl⟩

/-- A trigger's row stays as its first record wrote it. -/
theorem get?_insertTrigger (triggers : Table String TriggerRow) (id : EventId) (seq : Option Nat) (triggerId : String) :
    ((Store.insertTrigger parseUuid (j.event id) seq triggers).get? triggerId).map TriggerRow.columns =
      ((triggers.get? triggerId).map TriggerRow.columns).or (j.triggerRecord parseUuid triggerId id) := by
  rw [Store.insertTrigger, triggerRecord]
  cases fromEvent parseUuid (j.event id) with
  | none => simp
  | some trigger =>
    by_cases hid : trigger.id = triggerId
    · subst hid
      cases hrow : triggers.get? trigger.id with
      | none => simp [hrow, Table.get?_set]
      | some row => simp [hrow, Table.get?_set]
    · have hne : ¬ triggerId = trigger.id := fun heq => hid heq.symm
      have hother : (some trigger).filter (fun trigger => decide (trigger.id = triggerId)) = none :=
        Option.filter_some_neg (decide_eq_false hid)
      rw [hother, Option.map_none, Option.or_none]
      cases hrow : triggers.get? trigger.id with
      | none => simp [hrow, Table.get?_set, hne]
      | some row => simp [hrow, Table.get?_set, hne]

section

variable (h : Inv j parseUuid log s)
include h

theorem Inv.insertEvent (id : EventId) (seq : Option Nat) :
    Inv j parseUuid (log ++ [id]) (s.insertEvent parseUuid (j.event id) seq) := by
  have hfirst (triggerId : String) : (log ++ [id]).findSome? (j.triggerRecord parseUuid triggerId) =
      (log.findSome? (j.triggerRecord parseUuid triggerId)).or (j.triggerRecord parseUuid triggerId id) := by
    rw [List.findSome?_append, List.findSome?_singleton]
  rw [Store.insertEvent, j.named id]
  split
  · next htransient =>
    refine ⟨h.events.skip (if_pos htransient), h.signals.skip (signalRow_transient htransient), fun triggerId => ?_⟩
    rw [hfirst, triggerRecord_transient htransient, Option.or_none]
    exact h.triggers triggerId
  · next hlasting =>
    refine ⟨h.events.write (if_neg hlasting), ?_, fun triggerId => ?_⟩
    · change Derived _ _ _ _ (Store.insertOperatorSignal (j.event id) seq s.operatorSignals)
      rw [Store.insertOperatorSignal, j.named id]
      cases hrow : signalColumns (j.event id) with
      | none => exact h.signals.skip hrow
      | some columns => exact h.signals.write hrow
    · change ((Store.insertTrigger parseUuid (j.event id) seq s.triggers).get? triggerId).map _ = _
      rw [get?_insertTrigger, h.triggers, hfirst]

theorem Inv.sweepEvents (cutoff : String) : Inv j parseUuid log (s.sweepEvents cutoff) := by
  refine { h with events := ?_ }
  dsimp only [Store.sweepEvents]
  rw [Table.deleteBatched_eq]
  exact h.events.delete fun k row _ hold => EventColumns.costBearing_eq_false (Bool.and_eq_true_iff.mp hold).2

theorem Inv.applyReplayFloor (floor : Nat) : Inv j parseUuid log (s.applyReplayFloor floor) := by
  refine { h with events := ?_ }
  dsimp only [Store.applyReplayFloor]
  exact h.events.delete fun k row _ hold => EventColumns.costBearing_eq_false (Bool.and_eq_true_iff.mp hold).2

/-- No row is of a transient type, so the rebuild evicts none. -/
theorem Inv.rebuildTables : Inv j parseUuid log s.rebuildTables := by
  refine { h with events := ?_ }
  dsimp only [Store.rebuildTables]
  refine h.events.delete fun k row hrow htype => ?_
  rw [eventRow] at hrow
  split at hrow
  · cases hrow
  · next hlasting =>
    rw [← Option.some.inj hrow] at htype
    exact absurd htype hlasting

/-- The sweep spares the alerts and the rows that close one. -/
theorem Inv.sweepOperatorSignals (cutoff : String) :
    Inv j parseUuid log (s.sweepOperatorSignals cutoff) := by
  refine { h with signals := ?_ }
  dsimp only [Store.sweepOperatorSignals]
  rw [Table.deleteBatched_eq]
  refine h.signals.delete fun k row _ hold => ?_
  obtain ⟨hrest, hresolves⟩ := Bool.and_eq_true_iff.mp hold
  have hseverity := (Bool.and_eq_true_iff.mp hrest).2
  rw [SignalColumns.retained, Bool.or_eq_false_iff]
  exact ⟨decide_eq_false (of_decide_eq_true hseverity), Option.isSome_eq_false_iff.mpr hresolves⟩

theorem Inv.step (op : Op) : Inv j parseUuid (log ++ applied [op]) (j.step parseUuid s op) := by
  cases op with
  | apply id seq => exact h.insertEvent id seq
  | sweepEvents cutoff => exact (List.append_nil log).symm ▸ h.sweepEvents cutoff
  | sweepOperatorSignals cutoff => exact (List.append_nil log).symm ▸ h.sweepOperatorSignals cutoff
  | rebuildTables => exact (List.append_nil log).symm ▸ h.rebuildTables
  | applyReplayFloor floor => exact (List.append_nil log).symm ▸ h.applyReplayFloor floor

theorem Inv.steps (ops : List Op) :
    Inv j parseUuid (log ++ applied ops) (ops.foldl (j.step parseUuid) s) := by
  induction ops generalizing log s with
  | nil => exact (List.append_nil log).symm ▸ h
  | cons op ops ih =>
    rw [applied_cons, ← List.append_assoc, List.foldl_cons]
    exact ih (h.step op)

end

theorem inv_run (ops : List Op) : Inv j parseUuid (applied ops) (j.run parseUuid ops) :=
  inv_empty.steps ops

end Journal

/-! ## The reads depend on the kept rows only -/

theorem EventColumns.totalSpend_costBearing (events : List (EventId × EventColumns)) :
    totalSpend (events.filter fun r => r.2.costBearing) = totalSpend events := by
  rw [totalSpend, totalSpend, List.filterMap_filter]
  refine congrArg List.sum (List.filterMap_congr fun r _ => ?_)
  -- a row without a cost adds nothing
  rw [EventColumns.costBearing, EventColumns.spend]
  cases r.2.fields.totalCost with
  | none => simp
  | some cost => simp

namespace Signals

variable {l l' : List (EventId × SignalColumns)}

theorem retained_of_resolutionMatch {s r : EventId × SignalColumns} (h : resolutionMatch s r = true) :
    r.2.retained = true := by
  rw [resolutionMatch, Bool.and_eq_true_iff, Bool.and_eq_true_iff] at h
  rw [SignalColumns.retained, h.1.2, Bool.or_true]

theorem filter_resolutionMatch_retained (s : EventId × SignalColumns) :
    (l.filter fun r => r.2.retained).filter (resolutionMatch s) = l.filter (resolutionMatch s) := by
  rw [List.filter_filter]
  refine List.filter_congr fun r _ => ?_
  cases hmatch : resolutionMatch s r with
  | false => rfl
  | true => rw [Bool.true_and, retained_of_resolutionMatch hmatch]

theorem resolvedBy_retained (s : EventId × SignalColumns) :
    resolvedBy (l.filter fun r => r.2.retained) s = resolvedBy l s := by
  rw [resolvedBy, filter_resolutionMatch_retained, resolvedBy]

theorem alerts_retained : alerts (l.filter fun r => r.2.retained) = alerts l := by
  have hfilter : (l.filter fun r => r.2.retained).filter (fun s => decide (s.2.severity = .alert)) =
      l.filter fun s => s.2.severity = .alert := by
    rw [List.filter_filter]
    refine List.filter_congr fun r _ => ?_
    rw [SignalColumns.retained]
    cases decide (r.2.severity = .alert) <;> rfl
  rw [alerts, hfilter, alerts]
  exact List.map_congr_left fun s _ => by rw [resolvedBy_retained]

theorem any_resolutionMatch (s : EventId × SignalColumns) : l.any (resolutionMatch s) = (resolvedBy l s).isSome := by
  rw [Bool.eq_iff_iff, resolvedBy, Option.isSome_map, List.isSome_min?_iff, List.any_eq_true, ne_eq,
    List.map_eq_nil_iff, List.filter_eq_nil_iff]
  push Not
  rfl

theorem openAlerts_eq : openAlerts l = ((alerts l).filter fun a => a.2.isNone).map fun a => a.1.1 := by
  rw [openAlerts, alerts, List.filter_map, List.map_map, List.filter_filter]
  refine congrArg (List.map Prod.fst) (List.filter_congr fun s _ => ?_)
  rw [any_resolutionMatch, Bool.and_comm, Option.not_isSome]
  rfl

theorem resolvedBy_perm (h : l.Perm l') (s : EventId × SignalColumns) : resolvedBy l s = resolvedBy l' s := by
  have hkeys := ((h.filter (resolutionMatch s)).map fun r => toLex (r.2.timestamp, r.1))
  rw [resolvedBy, resolvedBy]
  refine congrArg (Option.map _) (Option.ext fun key => ?_)
  rw [List.min?_eq_some_iff, List.min?_eq_some_iff]
  simp only [hkeys.mem_iff]

theorem alerts_perm (h : l.Perm l') : (alerts l).Perm (alerts l') := by
  rw [alerts, alerts]
  rw [show (fun s => (s, resolvedBy l s)) = fun s => (s, resolvedBy l' s) from
    funext fun s => by rw [resolvedBy_perm h s]]
  exact (h.filter _).map _

end Signals

/-! ## What the record says -/

namespace Journal

variable {j : Journal} {parseUuid : String → Option String} {log log' : List EventId} {s s' : Store}

/-- The cost-bearing rows are those of the distinct events delivered. -/
theorem Inv.costRows_perm (h : Inv j parseUuid log s) :
    (s.eventRows.filter fun r => r.2.costBearing).Perm ((j.distinctRows log).filter fun r => r.2.costBearing) := by
  refine (h.events.kept_perm (List.nodup_dedup log) fun _ => List.mem_dedup).trans (.of_eq ?_)
  rw [distinctRows, ← List.filterMap_eq_filter, List.filterMap_map]
  refine List.filterMap_congr fun id _ => ?_
  rw [Function.comp_apply, eventRow, Option.guard]
  split
  · next htransient => simp [not_costBearing_transient htransient]
  · cases hcost : (eventColumns (j.event id)).costBearing with
    | false => simp [hcost]
    | true => simp [hcost]

theorem Inv.totalSpend_eq (h : Inv j parseUuid log s) :
    EventColumns.totalSpend s.eventRows = EventColumns.totalSpend (j.distinctRows log) := by
  rw [← EventColumns.totalSpend_costBearing s.eventRows, ← EventColumns.totalSpend_costBearing (j.distinctRows log)]
  exact (h.costRows_perm.filterMap _).sum_eq

/-- Two stores into which the same events were delivered show the same alerts. -/
theorem Inv.alerts_perm (h : Inv j parseUuid log s) (h' : Inv j parseUuid log' s') (hlog : ∀ id, id ∈ log ↔ id ∈ log') :
    (Signals.alerts s.signalRows).Perm (Signals.alerts s'.signalRows) := by
  have hkept := h.signals.kept_perm (List.nodup_dedup log) fun _ => List.mem_dedup
  have hkept' := h'.signals.kept_perm (List.nodup_dedup log) fun id => List.mem_dedup.trans (hlog id)
  have hsame := Signals.alerts_perm (hkept.trans hkept'.symm)
  rw [Signals.alerts_retained, Signals.alerts_retained] at hsame
  exact hsame

theorem Inv.totalSpend_converge (h : Inv j parseUuid log s) (h' : Inv j parseUuid log' s')
    (hlog : ∀ id, id ∈ log ↔ id ∈ log') :
    EventColumns.totalSpend s.eventRows = EventColumns.totalSpend s'.eventRows := by
  have hkept := h.events.kept_perm (List.nodup_dedup log) fun _ => List.mem_dedup
  have hkept' := h'.events.kept_perm (List.nodup_dedup log) fun id => List.mem_dedup.trans (hlog id)
  rw [← EventColumns.totalSpend_costBearing s.eventRows, ← EventColumns.totalSpend_costBearing s'.eventRows]
  exact ((hkept.trans hkept'.symm).filterMap _).sum_eq

/-- Whatever is swept, rebuilt and replayed in between, the spend, the triggers and the state
of every alert are those of the events delivered. -/
theorem retention_keeps_record (j : Journal) (parseUuid : String → Option String) (ops : List Op) :
    let s := j.run parseUuid ops
    let delivered := applied ops
    let undisturbed := j.run parseUuid (firstDeliveries [] ops)
    (s.eventRows.filter fun r => r.2.costBearing).Perm ((j.distinctRows delivered).filter fun r => r.2.costBearing) ∧
    EventColumns.totalSpend s.eventRows = EventColumns.totalSpend (j.distinctRows delivered) ∧
    (∀ triggerId, (s.triggers.get? triggerId).map TriggerRow.columns =
      delivered.findSome? (j.triggerRecord parseUuid triggerId)) ∧
    (Signals.openAlerts s.signalRows).Perm (Signals.openAlerts undisturbed.signalRows) ∧
    (Signals.alerts s.signalRows).Perm (Signals.alerts undisturbed.signalRows) := by
  intro s delivered undisturbed
  have hinv : Inv j parseUuid delivered s := inv_run ops
  have hundisturbed : Inv j parseUuid (applied (firstDeliveries [] ops)) undisturbed := inv_run _
  have halerts := hinv.alerts_perm hundisturbed fun id => by
    rw [mem_applied_firstDeliveries id ops []]
    exact ⟨fun h => ⟨h, List.not_mem_nil⟩, And.left⟩
  refine ⟨hinv.costRows_perm, hinv.totalSpend_eq, hinv.triggers, ?_, halerts⟩
  rw [Signals.openAlerts_eq, Signals.openAlerts_eq]
  exact (halerts.filter _).map _

/-- Stores into which the same events were delivered, in whatever order and however often,
show the same spend and the same alerts. -/
theorem deliveries_converge (j : Journal) (parseUuid : String → Option String) (ops ops' : List Op)
    (hsame : ∀ id, id ∈ applied ops ↔ id ∈ applied ops') :
    EventColumns.totalSpend (j.run parseUuid ops).eventRows = EventColumns.totalSpend (j.run parseUuid ops').eventRows ∧
    (Signals.alerts (j.run parseUuid ops).signalRows).Perm (Signals.alerts (j.run parseUuid ops').signalRows) :=
  ⟨(inv_run ops).totalSpend_converge (inv_run ops') hsame, (inv_run ops).alerts_perm (inv_run ops') hsame⟩

/-- An alert, what closes it, and model calls. -/
def samplePayload (id : EventId) : EventPayload :=
  if id = "3" then .operatorSignal ⟨.alert, "disk.full", "", .null, none, ⟨none, none, none⟩⟩
  else if id = "4" then .operatorSignal ⟨.notification, "disk.full", "", .null, some "3", ⟨none, none, none⟩⟩
  else .llmResponse ⟨0, 0, 0, 0, none, none, none⟩

/-- Every model call costs one; the id of an event is its time as well. -/
def unitCosts : Journal :=
  ⟨fun id => ⟨⟨id, id, "", "", some ⟨"m", 0, 0, 0, 0, none, 1, none⟩⟩, samplePayload id, fun _ => none⟩, fun _ => rfl⟩

/-- Two calls, the alert and its resolver; then out of order, one of them twice, with a sweep. -/
theorem unitCosts_converge :
    let s := unitCosts.run some [.apply "1" none, .apply "2" none, .apply "3" none, .apply "4" none]
    let s' := unitCosts.run some
      [.apply "4" none, .apply "2" none, .sweepOperatorSignals "9", .apply "2" none, .apply "1" none, .apply "3" none]
    EventColumns.totalSpend s.eventRows = 2 ∧ EventColumns.totalSpend s.eventRows = EventColumns.totalSpend s'.eventRows ∧
      (Signals.alerts s.signalRows).map (fun a => (a.1.1, a.2)) = [("3", some "4")] ∧
      (Signals.alerts s.signalRows).Perm (Signals.alerts s'.signalRows) := by
  intro s s'
  have h := deliveries_converge unitCosts some
    [.apply "1" none, .apply "2" none, .apply "3" none, .apply "4" none]
    [.apply "4" none, .apply "2" none, .sweepOperatorSignals "9", .apply "2" none, .apply "1" none, .apply "3" none]
    fun id => by
      simp only [applied, List.mem_cons, List.not_mem_nil]
      tauto
  exact ⟨by decide +kernel, h.1, by decide +kernel, h.2⟩

end Journal

end FactorQ.Projection
