/-
# `FactorQ.Reducer.Host` — the host loop, one store call at a time

`run_loop_inner` with the paths it calls: the model call, the tool call, the
deferral, the failure and the completion.  Every durable write is a move of its
own, so a crash can come between any two of them; what the outside world answers
(the provider, a tool, the notices queued meanwhile, a drain) comes in as the
`Env` of a move.  A publish or a store call that fails ends the incarnation where
it is, which is what a crash there does.

Server requests serviced while a tool runs are any number of model calls of
another origin; which of them policy admits is left open.
-/
import FactorQ.Reducer.Replay

namespace FactorQ.Reducer

open Lib

/-! ## Tool names -/

def builtinPrefix : String := "builtin__"

def builtinToolBasenames : List String :=
  ["file_read", "file_list", "file_search", "file_write", "exec", "self_inspect", "report_outcome"]

def selfInspectCanonicalName : String := "builtin__self_inspect"

/-- The canonical form of a legacy bare name. -/
def canonicalizeBareBuiltin (name : String) : Option String :=
  if name ∈ builtinToolBasenames then some (builtinPrefix ++ name) else none

def canonicalToolName (name : String) : String := (canonicalizeBareBuiltin name).getD name

/-- Everything the agent declares, and `report_outcome`. -/
def effectiveToolNames (declared : List String) : List String :=
  let names := declared.map canonicalToolName
  if reportOutcomeCanonicalName ∈ names then names else names ++ [reportOutcomeCanonicalName]

namespace HostConfig

/-- The call under its canonical name, with the workspace bound into its path
parameters. -/
def prepare (cfg : HostConfig) (req : ToolCallRequest) : ToolCallRequest :=
  let name := canonicalToolName req.toolName
  { req with
    toolName := name
    parameters := if name ∈ cfg.registry then cfg.bindWorkspace name req.parameters else req.parameters }

def allows (cfg : HostConfig) (req : ToolCallRequest) : Bool :=
  (cfg.prepare req).toolName ∈ effectiveToolNames cfg.declaredTools

/-- Something answers the call: the host itself, or a registered tool. -/
def finds (cfg : HostConfig) (req : ToolCallRequest) : Bool :=
  (cfg.prepare req).toolName = selfInspectCanonicalName || (cfg.prepare req).toolName ∈ cfg.registry

end HostConfig

/-! ## The outside world -/

/-- The text of an error, and whether it is the rate limit the retry layer gave
up on. -/
inductive LlmError where
  | rateLimited (text : String)
  | other (text : String)
deriving DecidableEq

def LlmError.text : LlmError → String
  | rateLimited t | other t => t

inductive LlmReply where
  | response (r : ModelResponse) (cost : ℚ)
  | error (e : LlmError)

inductive ToolOutcome where
  | ok (output : String) (isError : Bool)
  | error (kind : ToolErrorKind) (message : String)

/-- The origin of a call a server asks for while a tool runs. -/
inductive ServerOrigin where
  | sampling (server : String)
  | elicitation (server : String)

def ServerOrigin.origin : ServerOrigin → LlmCallOrigin
  | sampling s => .sampling s
  | elicitation s => .elicitation s

/-- What the outside world does at one move; each move reads its own part. -/
structure Env where
  /-- notices queued since the last boundary: kind and body -/
  drained : List (String × String)
  /-- an operator halt, or a drain -/
  suspend : Bool
  /-- the pricing backstop refuses the model -/
  unpriced : Bool
  reply : LlmReply
  /-- a server request arrives before the tool returns -/
  serve : Option ServerOrigin
  outcome : ToolOutcome
  durationMs : Nat
  /-- the run of timed-out calls reaches its limit -/
  streak : Bool
  /-- what `self_inspect` synthesizes -/
  inspection : String
  now : Int

/-! ## A model call -/

/-- White space in the sense of `str::trim`. -/
def isWhiteSpace (c : Char) : Bool :=
  let n := c.toNat
  (9 ≤ n && n ≤ 13) || n = 0x20 || n = 0x85 || n = 0xA0 || n = 0x1680 || (0x2000 ≤ n && n ≤ 0x200A) ||
    n = 0x2028 || n = 0x2029 || n = 0x202F || n = 0x205F || n = 0x3000

/-- A turn with no tool call and no visible text.  The text parts are joined with
a line break, which is white space. -/
def ModelResponse.isBlank (r : ModelResponse) : Bool :=
  r.toolCalls.isEmpty && r.parts.all fun
    | .text t => t.toList.all isWhiteSpace
    | _ => true

def emptyResponseError : LlmError :=
  .other "request failed: model returned an empty response (no content, no tool calls)"

/-- The points of `dispatch_llm`. -/
inductive LlmPoint where
  | intent
  | calling (id : Nat)
  | answered (id : Nat) (r : ModelResponse) (cost : ℚ)
  | closing (id : Nat) (r : ModelResponse) (cost : ℚ)
  | failed (id : Nat) (e : LlmError) (cost : ℚ)
  | closingError (id : Nat) (e : LlmError) (cost : ℚ)

/-- The call that has just come back rate limited, past what the retry layer
waits for. -/
def LlmPoint.limited : LlmPoint → List Nat
  | failed id (.rateLimited _) _ => [id]
  | _ => []

inductive LlmOutcome where
  | ok (r : ModelResponse)
  /-- refused before any row was written -/
  | refused
  | error (id : Nat) (e : LlmError)

/-- One move of a model call: the rows, the running total, and where it goes.
`none` is a failed store call. -/
def LlmPoint.step (origin : LlmCallOrigin) (e : Env) (w : Wal) (spent : ℚ) :
    LlmPoint → Option (Wal × ℚ × (LlmPoint ⊕ LlmOutcome))
  | intent =>
    if e.unpriced then some (w, spent, .inr .refused)
    else some (w.writeLlmIntent w.freshRequest origin, spent, .inl (calling w.freshRequest))
  | calling id =>
    match e.reply with
    | .response r cost =>
      if r.isBlank then some (w, spent + cost, .inl (failed id emptyResponseError cost))
      else some (w, spent, .inl (answered id r cost))
    | .error err => some (w, spent, .inl (failed id err 0))
  | answered id r cost => (w.writeLlmDispatched id).map fun w => (w, spent + cost, .inl (closing id r cost))
  | closing id r cost =>
    (w.writeLlmCompleted id (.response r) false cost e.now).map fun w => (w, spent, .inr (.ok r))
  | failed id err cost => (w.writeLlmDispatched id).map fun w => (w, spent, .inl (closingError id err cost))
  | closingError id err cost =>
    (w.writeLlmCompleted id (.error err.text) true cost e.now).map fun w => (w, spent, .inr (.error id err))

/-! ## A tool call -/

/-- The points of `run_tool`. -/
inductive ToolPoint where
  | start
  | intent
  | invoke
  /-- nobody implements the tool: dispatched is written -/
  | missing
  /-- the row was closed once; the synthetic error writes it again -/
  | rewrite
  /-- `emit_synthetic_tool_error`, before the write of the given status -/
  | synthetic (status : DispatchStatus) (kind : ToolErrorKind) (message : String)
  | running
  | serving (origin : ServerOrigin) (p : LlmPoint)
  /-- the tool is done, its result not yet in the row -/
  | returned (r : ToolCallResult)
  /-- the row is closed -/
  | judging (r : ToolCallResult)

def missingToolMessage (name : String) : String :=
  "no implementation registered for tool '" ++ name ++ "'"

def deniedToolMessage (name : String) : String :=
  "tool '" ++ name ++ "' is not available to this agent"

def syntheticResult (id : ToolCallId) (kind : ToolErrorKind) (message : String) : ToolCallResult :=
  ⟨id, message, true, some kind, 0⟩

def ToolOutcome.result (id : ToolCallId) (durationMs : Nat) : ToolOutcome → ToolCallResult
  | ok output isError => ⟨id, output, isError, none, durationMs⟩
  | error kind message => ⟨id, message, true, some kind, durationMs⟩

/-- An execution of a tool, with what it returned. -/
structure Execution where
  stepIndex : Nat
  request : ToolCallRequest
  result : ToolCallResult

/-- What was fed back for a call of the step. -/
structure Answer where
  stepIndex : Nat
  request : ToolCallRequest
  result : ToolCallResult

/-- What one move of a tool call does. -/
inductive ToolMove where
  | goes (p : ToolPoint)
  /-- the call is answered -/
  | answer (r : ToolCallResult)
  /-- the call is answered, and the run of timeouts ends the invocation -/
  | abort (r : ToolCallResult)

/-- One move of a tool call: the rows, the running total, whether the tool was
executed, and where it goes. -/
def ToolPoint.step (cfg : HostConfig) (req : ToolCallRequest) (e : Env) (w : Wal) (spent : ℚ) :
    ToolPoint → Option (Wal × ℚ × Option ToolCallResult × ToolMove)
  | start =>
    match w.tools.get? req.toolCallId with
    | some row =>
      if row.status = .completed then some (w, spent, none, .answer (toolRowToResult req.toolCallId row))
      else some (w, spent, none, .goes (afterPermission cfg req))
    | none => some (w, spent, none, .goes (afterPermission cfg req))
  | intent => some (w.writeToolIntent req.toolCallId name (cfg.prepare req).parameters, spent, none, .goes invoke)
  | invoke =>
    if name = selfInspectCanonicalName then
      -- the host answers this one itself
      let r : ToolCallResult := ⟨req.toolCallId, e.inspection, false, none, e.durationMs⟩
      (w.writeToolDispatched req.toolCallId e.now).map fun w => (w, spent, some r, .goes (returned r))
    else if name ∈ cfg.registry then
      (w.writeToolDispatched req.toolCallId e.now).map fun w => (w, spent, none, .goes running)
    else
      (w.writeToolDispatched req.toolCallId e.now).map fun w => (w, spent, none, .goes missing)
  | missing =>
    (w.writeToolCompleted req.toolCallId (missingToolMessage name) true e.now).map fun w =>
      (w, spent, none, .goes rewrite)
  | rewrite =>
    some (w.writeToolIntent req.toolCallId name (cfg.prepare req).parameters, spent, none,
      .goes (synthetic .dispatched .executionFailed (missingToolMessage name)))
  | synthetic .intent kind message =>
    some (w.writeToolIntent req.toolCallId name (cfg.prepare req).parameters, spent, none,
      .goes (synthetic .dispatched kind message))
  | synthetic .dispatched kind message =>
    (w.writeToolDispatched req.toolCallId e.now).map fun w =>
      (w, spent, none, .goes (synthetic .completed kind message))
  | synthetic .completed kind message =>
    (w.writeToolCompleted req.toolCallId message true e.now).map fun w =>
      (w, spent, none, .goes (judging (syntheticResult req.toolCallId kind message)))
  | running =>
    match e.serve with
    | some origin => some (w, spent, none, .goes (serving origin .intent))
    | none =>
      let r := e.outcome.result req.toolCallId e.durationMs
      some (w, spent, some r, .goes (returned r))
  | serving origin p =>
    (p.step origin.origin e w spent).map fun
      | (w, spent, .inl p) => (w, spent, none, .goes (serving origin p))
      | (w, spent, .inr _) => (w, spent, none, .goes running)
  | returned r =>
    (w.writeToolCompleted req.toolCallId r.output r.isError e.now).map fun w =>
      (w, spent, none, .goes (judging r))
  | judging r =>
    if r.errorKind = some .timeout ∧ e.streak then some (w, spent, none, .abort r)
    else some (w, spent, none, .answer r)
where
  name : String := (cfg.prepare req).toolName
  /-- The permission check. -/
  afterPermission (cfg : HostConfig) (req : ToolCallRequest) : ToolPoint :=
    if cfg.allows req then intent
    else synthetic .intent .permissionDenied (deniedToolMessage (cfg.prepare req).toolName)

/-- The result in the call's row, where the row is closed. -/
def ToolPoint.closed (cfg : HostConfig) (req : ToolCallRequest) : ToolPoint → Option ToolCallResult
  | rewrite =>
    some (syntheticResult req.toolCallId .executionFailed (missingToolMessage (cfg.prepare req).toolName))
  | judging r => some r
  | _ => none

/-! ## The loop -/

def hostStepBudget : Nat := 1000

inductive FailureKind where
  | runtimeError
  | budgetExceeded
  | llmError
  | toolError
  | maxIterations
  | outputTruncated
deriving DecidableEq

/-- The published events that tell how an invocation ended or was put down.  A
failure names the model call it is on account of, if it is. -/
inductive Event where
  | completed
  | failed (kind : FailureKind) (call : Option Nat)
  | deferred
  | archived (finalPhase : PhaseLabel)
  /-- published by the daemon, not by the loop: startup found the invocation stuck -/
  | ambiguous
  /-- published for the operator -/
  | operatorRecovered (finalPhase : PhaseLabel)
deriving DecidableEq

/-- How an incarnation ended. -/
inductive Outcome where
  | completed
  | failed
  | suspended
  | deferred
  | crashed
deriving DecidableEq

/-- The phase the hand-off names. -/
def Outcome.finalPhase : Outcome → PhaseLabel
  | failed => .failed
  | _ => .completed

inductive Pc where
  | boundary (p : Point) (carried : List NoticeRow)
  | noticing (p : Point) (carried : List NoticeRow) (pending : List (String × String))
  /-- the step at `p` asked for the model; the state it left is `next` -/
  | model (p : Point) (next : HarnessState) (q : LlmPoint)
  | answered (p : Point) (next : HarnessState) (r : ModelResponse)
  | deferring (p : Point) (id : Nat)
  | stamped (p : Point)
  | announcing (p : Point)
  /-- the step at `p` dispatched tools; `done` are the results so far -/
  | tools (p : Point) (next : HarnessState) (done : List ToolCallResult) (req : ToolCallRequest)
      (rest : List ToolCallRequest) (q : ToolPoint)
  /-- `emit_failed`, before its event or after it -/
  | failing (p : Option Point) (kind : FailureKind) (call : Option Nat) (published : Bool)
  | completing
  /-- `publish_archived_and_mark_pending`, before its event or after it -/
  | handingOff (o : Outcome) (published : Bool)
  | finished (o : Outcome)

structure Host where
  wal : Wal
  pc : Pc
  /-- the running total of the incarnation -/
  spent : ℚ
  events : List Event
  executions : List Execution
  answers : List Answer
  /-- the agent's turns that came back rate limited -/
  limited : List Nat

def Host.init : Host := ⟨.empty, .boundary .start [], 0, [], [], [], []⟩

def harnessErrorToFailureKind (e : HarnessError) : FailureKind :=
  match e.kind with
  | .maxIterations => .maxIterations
  | .outputTruncated => .outputTruncated
  | .internalError => .runtimeError

/-- The phase label of an action, and whether it ends the invocation. -/
def phaseAndTerminalFrom (action : NextAction) (now : Int) : PhaseLabel × Option Int :=
  match action with
  | .complete .. => (.completed, some now)
  | .failed _ => (.failed, some now)
  | .callModel _ => (.awaitingModel, none)
  | .callTool _ | .callToolsParallel _ => (.dispatchingTools, none)

namespace Host

def goto (h : Host) (pc : Pc) : Host := { h with pc := pc }

def store (h : Host) (w : Wal) : Host := { h with wal := w }

def emit (h : Host) (ev : Event) : Host := { h with events := h.events ++ [ev] }

def record (h : Host) (a : Answer) : Host := { h with answers := h.answers ++ [a] }

/-- A store call failed: the incarnation returns its error. -/
def infra (h : Host) : Host := h.goto (.finished .crashed)

/-- End the invocation with a failure, as seen from `p`. -/
def fail (h : Host) (p : Option Point) (kind : FailureKind) (call : Option Nat) : Host :=
  h.goto (.failing p kind call false)

/-- Before an agent turn: the budget must not be met yet. -/
def callModel (cfg : HostConfig) (h : Host) (p : Point) (next : HarnessState) : Host :=
  if cfg.budget.any fun b => b ≤ h.spent then h.fail (some p) .budgetExceeded none
  else h.goto (.model p next .intent)

/-- The action of the step performed at `p`. -/
def perform (cfg : HostConfig) (h : Host) (p : Point) (out : StepOutput) : Host :=
  match out.nextAction with
  | .complete .. => h.goto .completing
  | .failed err => h.fail none (harnessErrorToFailureKind err) none
  | .callModel _ => h.callModel cfg p out.state
  | .callTool req => h.goto (.tools p out.state [] req [] .start)
  | .callToolsParallel [] => h.goto (.boundary ⟨some out.state, some (batchResult []), p.stepIndex + 1⟩ [])
  | .callToolsParallel (req :: rest) => h.goto (.tools p out.state [] req rest .start)

/-- The state row of the step performed at `p`. -/
def rowOf (p : Point) (out : StepOutput) (now : Int) : StateRow :=
  ⟨(phaseAndTerminalFrom out.nextAction now).1, out.state, p.stepIndex,
    (phaseAndTerminalFrom out.nextAction now).2, false⟩

/-- The step at `p`: the reducer, then the state row, then the action. -/
def reduce (cfg : HostConfig) (e : Env) (h : Host) (p : Point) (carried : List NoticeRow) : Host :=
  match Reducer.step (cfg.stepInput p (carried.map NoticeRow.body)) with
  | .error _ => h.fail (some p) .runtimeError none
  | .ok out => (h.store (h.wal.upsertInvocationState (rowOf p out e.now))).perform cfg p out

/-- The next number for a notice of this step. -/
def noticeSeq (carried : List NoticeRow) : Nat := (carried.map fun n => n.seq + 1).foldr max 0

/-- Where an agent turn goes once its call has an outcome. -/
def afterModel (h : Host) (p : Point) (next : HarnessState) : LlmOutcome → Host
  | .ok r => h.goto (.answered p next r)
  | .refused => h.fail (some p) .llmError none
  | .error id (.rateLimited _) => h.goto (.deferring p id)
  | .error id (.other _) => h.fail (some p) .llmError (some id)

def stepModel (e : Env) (h : Host) (p : Point) (next : HarnessState) (q : LlmPoint) : Host :=
  match q.step .agentTurn e h.wal h.spent with
  | none => h.infra
  | some (w, spent, .inl q) =>
    { h with wal := w, spent := spent, limited := h.limited ++ q.limited, pc := .model p next q }
  | some (w, spent, .inr o) => Host.afterModel { h with wal := w, spent := spent } p next o

/-- Where the loop goes on once the calls of the round are answered by `results`. -/
def roundPoint (p : Point) (next : HarnessState) (results : List ToolCallResult) : Point :=
  ⟨some next, some (batchResult results), p.stepIndex + 1⟩

/-- Where a round goes once a call of it has been answered. -/
def afterTool (h : Host) (p : Point) (next : HarnessState) (done : List ToolCallResult)
    (rest : List ToolCallRequest) (r : ToolCallResult) : Host :=
  match rest with
  | [] => h.goto (.boundary (roundPoint p next (done ++ [r])) [])
  | req :: rest => h.goto (.tools p next (done ++ [r]) req rest .start)

def stepTools (cfg : HostConfig) (e : Env) (h : Host) (p : Point) (next : HarnessState)
    (done : List ToolCallResult) (req : ToolCallRequest) (rest : List ToolCallRequest) (q : ToolPoint) : Host :=
  match q.step cfg req e h.wal h.spent with
  | none => h.infra
  | some (w, spent, executed, move) =>
    let h' : Host := { h with
      wal := w
      spent := spent
      executions := h.executions ++ executed.toList.map (Execution.mk p.stepIndex (cfg.prepare req)) }
    match move with
    | .goes q => h'.goto (.tools p next done req rest q)
    | .abort r => h'.fail (some (if rest.isEmpty then roundPoint p next (done ++ [r]) else p)) .toolError none
    | .answer r => (h'.record ⟨p.stepIndex, req, r⟩).afterTool p next done rest r

/-- `emit_failed` up to the hand-off. -/
def stepFailing (e : Env) (h : Host) (p : Option Point) (kind : FailureKind) (call : Option Nat) :
    Bool → Host
  | false => (h.emit (.failed kind call)).goto (.failing p kind call true)
  | true => (h.store (h.wal.ensureTerminal .failed e.now)).goto (.handingOff .failed false)

/-- The hand-off of a row that is there and terminal. -/
def stepHandingOff (h : Host) (o : Outcome) : Bool → Host
  | false =>
    if h.wal.state.any fun row => row.terminalAt.isSome then
      (h.emit (.archived o.finalPhase)).goto (.handingOff o true)
    else h.goto (.finished o)
  | true => (h.store h.wal.setArchivePending).goto (.finished o)

/-- One move of the incarnation in progress. -/
def step (cfg : HostConfig) (e : Env) (h : Host) : Host :=
  match h.pc with
  | .boundary p carried =>
    if hostStepBudget ≤ p.stepIndex then h.fail (some p) .runtimeError none
    else h.goto (.noticing p carried e.drained)
  | .noticing p carried ((kind, body) :: pending) =>
    let n : NoticeRow := ⟨p.stepIndex, noticeSeq carried, kind, body⟩
    match h.wal.insertHostNotice n with
    | none => h.infra
    | some w => (h.store w).goto (.noticing p (carried ++ [n]) pending)
  | .noticing p carried [] =>
    if e.suspend then h.goto (.finished .suspended) else h.reduce cfg e p carried
  | .model p next q => h.stepModel e p next q
  | .answered p next r =>
    if cfg.budget.any fun b => b < h.spent then
      h.fail (some ⟨some next, some (.modelResult r), p.stepIndex + 1⟩) .budgetExceeded none
    else h.goto (.boundary ⟨some next, some (.modelResult r), p.stepIndex + 1⟩ [])
  | .deferring p id =>
    match h.wal.markLlmDeferred id e.now with
    | none => h.infra
    | some w => (h.store w).goto (.stamped p)
  | .stamped p => (h.store h.wal.markDeferred).goto (.announcing p)
  | .announcing _ => (h.emit .deferred).goto (.finished .deferred)
  | .tools p next done req rest q => h.stepTools cfg e p next done req rest q
  | .failing p kind call published => h.stepFailing e p kind call published
  | .completing => (h.emit .completed).goto (.handingOff .completed false)
  | .handingOff o published => h.stepHandingOff o published
  | .finished _ => h

/-- The process stops, or a call of it fails: what was in memory is gone. -/
def crash (h : Host) : Host := h.goto (.finished .crashed)

/-- Re-enter the loop at `p` with the totals the rows give. -/
def reenter (cfg : HostConfig) (h : Host) (p : Point) : Host :=
  let h' : Host := { h with spent := h.wal.totalCost }
  if cfg.budget.any fun b => b < h'.spent then h'.fail (some p) .budgetExceeded none
  else h'.goto (.boundary p (h.wal.noticesAt p.stepIndex))

/-- A new incarnation picks the invocation up, once no other is in progress. -/
def resume (cfg : HostConfig) (h : Host) : Host :=
  match h.pc with
  | .finished _ =>
    match h.wal.resume cfg with
    | .error _ => h
    | .ok (.lostFailure id _) => Host.fail { h with spent := 0 } none .llmError (some id)
    | .ok (.resumesAt p) => h.reenter cfg p
  | _ => h

/-- The operator closes the calls a crash cut off, so that the invocation can be
picked up: not while an incarnation is in progress, not once the invocation has
ended, and not if a model call is what was cut off.  `render` writes a time out. -/
def inject (render : Int → String) (h : Host) : Host :=
  match h.pc with
  | .finished _ =>
    if (h.wal.state.any fun row => row.terminalAt.isNone) && h.wal.isAmbiguous &&
        !(h.wal.llms.rows.any fun r => r.2.status = .dispatched) then
      h.store (h.wal.injectInterruptedResults render)
    else h
  | _ => h

end Host

inductive Action where
  | step (e : Env)
  | crash
  | resume
  | inject (render : Int → String)

/-- One action on the invocation. -/
def Host.act (cfg : HostConfig) (h : Host) : Action → Host
  | .step e => h.step cfg e
  | .crash => h.crash
  | .resume => h.resume cfg
  | .inject render => h.inject render

def Host.run (cfg : HostConfig) (h : Host) (schedule : List Action) : Host := schedule.foldl (Host.act cfg) h

/-! ## A sample agent

One tool, and a world that answers every model call with one call of it. -/

def sampleConfig : HostConfig where
  agent := ⟨"m", "", [], 10, 100, none⟩
  trigger := ⟨.null, "null"⟩
  step0Context := none
  declaredTools := ["t"]
  registry := ["t"]
  bindWorkspace := fun _ v => v
  budget := some 10

/-- A turn that calls the tool under the given ids. -/
def callTurn (ids : List ToolCallId) : ModelResponse :=
  ⟨ids.map fun id => .toolCall ⟨id, "t", .null⟩, .toolUse, ⟨0, 0, 0, 0, none, none, none⟩⟩

/-- Every turn calls `ids` and costs `1`; the tool fails. -/
def sampleEnv (ids : List ToolCallId) : Env where
  drained := []
  suspend := false
  unpriced := false
  reply := .response (callTurn ids) 1
  serve := none
  outcome := .error .executionFailed "boom"
  durationMs := 7
  streak := false
  inspection := ""
  now := 0

end FactorQ.Reducer
