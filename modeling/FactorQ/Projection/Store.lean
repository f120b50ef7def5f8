/-
# `FactorQ.Projection.Store` — the tables the event stream is projected into

Each event becomes a row of `events`.  An event that names a trigger also writes the trigger's
own row, and an operator signal one of its own as well, because both outlive the log.  Every
write is keyed and may be repeated: a redelivery, or the replay after a rebuild, writes what is
there already.  The one column that is not derived from the event is `seq`, where on the log it
was found; a delivery that does not know leaves it as it was.

Two sweeps delete what has aged out, with exemptions, and a rebuild and its floor step delete
what a replay will write again.  Timestamps are the texts that are stored, and are compared as
texts.

The per-invocation summary line is left out: nothing here deletes it.
-/
import Mathlib.Data.String.Basic
import FactorQ.Lib.Table
import FactorQ.Reducer.Types

namespace FactorQ.Projection

open Lib FactorQ.Reducer

/-! ## Events -/

abbrev EventId := String

structure CostMetadata where
  model : String
  inputTokens : Nat
  outputTokens : Nat
  cacheReadTokens : Nat
  cacheWriteTokens : Nat
  reasoningTokens : Option Nat
  totalCost : ℚ
  pricingTable : Option String

structure Envelope where
  eventId : EventId
  timestamp : String
  agentId : String
  invocationId : String
  cost : Option CostMetadata

inductive TriggerSource where
  | manual
  | subject
  | schedule
deriving DecidableEq

inductive SignalSeverity where
  | notification
  | alert
deriving DecidableEq

structure SignalReferences where
  agentId : Option String
  invocationId : Option String
  url : Option String

def SignalReferences.isEmpty (r : SignalReferences) : Bool :=
  r.agentId.isNone && r.invocationId.isNone && r.url.isNone

structure OperatorSignalPayload where
  severity : SignalSeverity
  /-- `<source>.<name>` -/
  kind : String
  summary : String
  detail : Value
  resolves : Option EventId
  references : SignalReferences

/-- The first segment of the kind. -/
def OperatorSignalPayload.source (p : OperatorSignalPayload) : String :=
  String.ofList (p.kind.toList.takeWhile (· ≠ '.'))

/-- The events that fill no column of their own. -/
inductive PlainEvent where
  | llmDispatched
  | toolCall
  | toolDispatched
  | hostNotice
  | invocationAmbiguous
  | invocationStuck
  | invocationDeferred
  | invocationArchived
  | invocationArchiveAcked
  | invocationOperatorRecovered
  | invocationOperatorResumed
  | systemStartup
  | systemShutdown
  | systemTaskFailed
  | systemRecovery
  | workerHeartbeat
  | workerOrphaned
  | mcpServerLog
  | maintenanceRun
  | unknown
deriving DecidableEq

def PlainEvent.eventType : PlainEvent → String
  | .llmDispatched => "llm_dispatched"
  | .toolCall => "tool_call"
  | .toolDispatched => "tool_dispatched"
  | .hostNotice => "host_notice"
  | .invocationAmbiguous => "invocation_ambiguous"
  | .invocationStuck => "invocation_stuck"
  | .invocationDeferred => "invocation_deferred"
  | .invocationArchived => "invocation_archived"
  | .invocationArchiveAcked => "invocation_archive_acked"
  | .invocationOperatorRecovered => "invocation_operator_recovered"
  | .invocationOperatorResumed => "invocation_operator_resumed"
  | .systemStartup => "system_startup"
  | .systemShutdown => "system_shutdown"
  | .systemTaskFailed => "system_task_failed"
  | .systemRecovery => "system_recovery"
  | .workerHeartbeat => "worker_heartbeat"
  | .workerOrphaned => "worker_orphaned"
  | .mcpServerLog => "mcp_server_log"
  | .maintenanceRun => "maintenance_run"
  | .unknown => "unknown"

inductive EventPayload where
  | triggered (model : String) (triggerId : Option String) (source : TriggerSource) (subject : Option String)
      (payload : Value)
  | llmRequest (model : String)
  | llmResponse (usage : TokenUsage)
  | llmFailure (model errorKind errorMessage : String) (durationMs : Nat) (usage : Option TokenUsage)
  | invocationSummary
  | toolResult (errorKind : Option String) (durationMs : Nat)
  | completed (totalCost : ℚ) (totalDurationMs : Nat)
  | failed (errorKind errorMessage : String) (totalCost : ℚ) (totalDurationMs : Nat)
  | operatorSignal (signal : OperatorSignalPayload)
  | plain (event : PlainEvent)

def EventPayload.eventType : EventPayload → String
  | .triggered .. => "triggered"
  | .llmRequest .. => "llm_request"
  | .llmResponse .. => "llm_response"
  | .llmFailure .. => "llm_failure"
  | .invocationSummary => "invocation_summary"
  | .toolResult .. => "tool_result"
  | .completed .. => "completed"
  | .failed .. => "failed"
  | .operatorSignal .. => "operator_signal"
  | .plain event => event.eventType

structure Event where
  envelope : Envelope
  payload : EventPayload
  annotations : String → Option Value

def transientTypes : List String := ["worker_heartbeat"]

def EventPayload.isTransient (p : EventPayload) : Bool := p.eventType ∈ transientTypes

/-! ## The columns -/

structure Fields where
  model : Option String
  inputTokens : Option Nat
  outputTokens : Option Nat
  cacheReadTokens : Option Nat
  cacheWriteTokens : Option Nat
  reasoningTokens : Option Nat
  totalCost : Option ℚ
  pricingTable : Option String
  errorKind : Option String
  errorMessage : Option String
  durationMs : Option Nat

namespace Fields

def default : Fields := ⟨none, none, none, none, none, none, none, none, none, none, none⟩

def withUsage (f : Fields) (usage : TokenUsage) : Fields :=
  { f with
    inputTokens := some usage.inputTokens
    outputTokens := some usage.outputTokens
    cacheReadTokens := some usage.cacheReadTokens
    cacheWriteTokens := some usage.cacheWriteTokens
    reasoningTokens := usage.reasoningTokens }

end Fields

def extractFields (event : Event) : Fields :=
  let cost := event.envelope.cost
  match event.payload with
  | .triggered model .. => { Fields.default with model := some model }
  | .llmRequest model => { Fields.default with model := some model }
  | .llmResponse usage =>
    { Fields.default.withUsage usage with
      model := cost.map CostMetadata.model
      totalCost := cost.map CostMetadata.totalCost
      pricingTable := cost.bind CostMetadata.pricingTable }
  | .llmFailure model errorKind errorMessage durationMs usage =>
    { usage.elim Fields.default Fields.default.withUsage with
      model := some model
      errorKind := some errorKind
      errorMessage := some errorMessage
      durationMs := some durationMs
      totalCost := cost.map CostMetadata.totalCost
      pricingTable := cost.bind CostMetadata.pricingTable }
  | .invocationSummary =>
    { Fields.default with
      model := cost.map CostMetadata.model
      inputTokens := cost.map CostMetadata.inputTokens
      outputTokens := cost.map CostMetadata.outputTokens
      cacheReadTokens := cost.map CostMetadata.cacheReadTokens
      cacheWriteTokens := cost.map CostMetadata.cacheWriteTokens
      reasoningTokens := cost.bind CostMetadata.reasoningTokens
      totalCost := cost.map CostMetadata.totalCost
      pricingTable := cost.bind CostMetadata.pricingTable }
  | .toolResult errorKind durationMs => { Fields.default with errorKind, durationMs := some durationMs }
  | .completed totalCost totalDurationMs =>
    { Fields.default with totalCost := some totalCost, durationMs := some totalDurationMs }
  | .failed errorKind errorMessage totalCost totalDurationMs =>
    { Fields.default with
      errorKind := some errorKind
      errorMessage := some errorMessage
      durationMs := some totalDurationMs
      totalCost := some totalCost }
  | .operatorSignal .. => .default
  | .plain .. => .default

/-- A row of `events` without its position on the log. -/
structure EventColumns where
  timestamp : String
  agentId : String
  invocationId : String
  eventType : String
  fields : Fields

structure EventRow where
  seq : Option Nat
  columns : EventColumns

def eventColumns (event : Event) : EventColumns :=
  ⟨event.envelope.timestamp, event.envelope.agentId, event.envelope.invocationId, event.payload.eventType,
    extractFields event⟩

structure Trigger where
  id : String
  source : TriggerSource
  subject : Option String
  payload : Value

/-- The trigger an event names: a `triggered` event, or the dead letter of one that was given
up.  How a text is read as an id is the UUID library's. -/
def fromEvent (parseUuid : String → Option String) (event : Event) : Option Trigger :=
  match event.payload with
  | .triggered _ triggerId source subject payload => triggerId.map fun id => ⟨id, source, subject, payload⟩
  | .failed errorKind .. =>
    if errorKind = "trigger_exhausted" then
      (((event.annotations "trigger_id").bind Value.asStr).bind parseUuid).map fun id =>
        ⟨id, .subject, (event.annotations "trigger_subject").bind Value.asStr,
          (event.annotations "trigger_payload").getD .null⟩
    else none
  | _ => none

/-- A row of `triggers` without the position of its first record. -/
structure TriggerColumns where
  recordedAt : String
  agentId : String
  source : TriggerSource
  subject : Option String
  payload : Value

structure TriggerRow where
  seq : Option Nat
  columns : TriggerColumns

def triggerColumns (event : Event) (trigger : Trigger) : TriggerColumns :=
  ⟨event.envelope.timestamp, event.envelope.agentId, trigger.source, trigger.subject, trigger.payload⟩

/-- A row of `operator_signals` without its position on the log. -/
structure SignalColumns where
  timestamp : String
  agentId : String
  invocationId : String
  severity : SignalSeverity
  source : String
  kind : String
  summary : String
  detail : Option Value
  refs : Option SignalReferences
  resolves : Option EventId

structure SignalRow where
  seq : Option Nat
  columns : SignalColumns

/-- `null` is stored as no value. -/
def Value.stored : Value → Option Value
  | .null => none
  | v => some v

def signalColumns (event : Event) : Option SignalColumns :=
  match event.payload with
  | .operatorSignal signal =>
    some
      { timestamp := event.envelope.timestamp
        agentId := event.envelope.agentId
        invocationId := event.envelope.invocationId
        severity := signal.severity
        source := signal.source
        kind := signal.kind
        summary := signal.summary
        detail := Value.stored signal.detail
        refs := if signal.references.isEmpty then none else some signal.references
        resolves := signal.resolves }
  | _ => none

/-! ## The statements -/

structure Store where
  events : Table EventId EventRow
  triggers : Table String TriggerRow
  operatorSignals : Table EventId SignalRow

namespace Store

def empty : Store := ⟨.empty, .empty, .empty⟩

def insertTrigger (parseUuid : String → Option String) (event : Event) (seq : Option Nat)
    (triggers : Table String TriggerRow) : Table String TriggerRow :=
  match fromEvent parseUuid event with
  | none => triggers
  | some trigger =>
    match triggers.get? trigger.id with
    | none => triggers.set trigger.id ⟨seq, triggerColumns event trigger⟩
    -- the first record wins, except that it may still lack its position
    | some row => triggers.set trigger.id { row with seq := row.seq.or seq }

def insertOperatorSignal (event : Event) (seq : Option Nat) (signals : Table EventId SignalRow) :
    Table EventId SignalRow :=
  match signalColumns event with
  | none => signals
  | some columns =>
    let id := event.envelope.eventId
    signals.set id ⟨seq.or ((signals.get? id).bind SignalRow.seq), columns⟩

def insertEvent (parseUuid : String → Option String) (event : Event) (seq : Option Nat) (s : Store) : Store :=
  if event.payload.isTransient then s
  else
    let id := event.envelope.eventId
    { events := s.events.set id ⟨seq.or ((s.events.get? id).bind EventRow.seq), eventColumns event⟩
      triggers := insertTrigger parseUuid event seq s.triggers
      operatorSignals := insertOperatorSignal event seq s.operatorSignals }

def sweepBatchRows : Nat := 10000

def sweepEvents (cutoff : String) (s : Store) : Store :=
  { s with
    events := s.events.deleteBatched
      (fun _ row => row.columns.timestamp < cutoff && row.columns.fields.totalCost.isNone) sweepBatchRows (by decide) }

def sweepOperatorSignals (cutoff : String) (s : Store) : Store :=
  { s with
    operatorSignals := s.operatorSignals.deleteBatched
      (fun _ row => row.columns.timestamp < cutoff && row.columns.severity ≠ .alert && row.columns.resolves.isNone)
      sweepBatchRows (by decide) }

/-- Every row is carried over; what is no longer projected goes. -/
def rebuildTables (s : Store) : Store :=
  { s with events := s.events.delete fun _ row => row.columns.eventType ∈ transientTypes }

def applyReplayFloor (floor : Nat) (s : Store) : Store :=
  { s with
    events := s.events.delete fun _ row => row.seq.any (floor ≤ ·) && row.columns.fields.totalCost.isNone }

end Store

/-! ## The reads -/

/-- What the costs are summed over: the carriers of one call's cost, not the terminal events
with their totals. -/
def costCarriers : List String := ["llm_response", "llm_failure", "invocation_summary"]

def EventColumns.spend (c : EventColumns) : Option ℚ := if c.eventType ∈ costCarriers then c.fields.totalCost else none

def EventColumns.costBearing (c : EventColumns) : Bool := c.fields.totalCost.isSome

def EventColumns.totalSpend (events : List (EventId × EventColumns)) : ℚ := (events.filterMap fun r => r.2.spend).sum

/-- What no sweep takes: an alert, or what may close one. -/
def SignalColumns.retained (c : SignalColumns) : Bool := c.severity = .alert || c.resolves.isSome

namespace Signals

/-- `r` closes the alert `s`: it is of the same kind, resolves something and stands later in the
order of the pane. -/
def resolutionMatch (s r : EventId × SignalColumns) : Bool :=
  r.2.kind = s.2.kind && r.2.resolves.isSome &&
    (s.2.timestamp < r.2.timestamp || (r.2.timestamp = s.2.timestamp && s.1 < r.1))

/-- The first signal that closes the alert. -/
def resolvedBy (signals : List (EventId × SignalColumns)) (s : EventId × SignalColumns) : Option EventId :=
  ((((signals.filter (resolutionMatch s)).map fun r => toLex (r.2.timestamp, r.1)).min?)).map fun first => (ofLex first).2

/-- The alerts, each with what closes it. -/
def alerts (signals : List (EventId × SignalColumns)) : List ((EventId × SignalColumns) × Option EventId) :=
  (signals.filter fun s => s.2.severity = .alert).map fun s => (s, resolvedBy signals s)

def openAlerts (signals : List (EventId × SignalColumns)) : List EventId :=
  (signals.filter fun s => s.2.severity = .alert && !signals.any (resolutionMatch s)).map Prod.fst

end Signals

namespace Store

/-- The rows of `events`, without where on the log each was found. -/
def eventRows (s : Store) : List (EventId × EventColumns) := s.events.rows.map fun r => (r.1, r.2.columns)

def signalRows (s : Store) : List (EventId × SignalColumns) := s.operatorSignals.rows.map fun r => (r.1, r.2.columns)

end Store

end FactorQ.Projection
