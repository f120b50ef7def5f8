/-
# `FactorQ.Reducer.Types` — the boundary between the reducer and its host

The reducer is pure: the host hands it a `StepInput` and gets back a
`StepOutput` that names the one action to perform before the next step.  These
are the types that cross the boundary, with the conversation they carry.

The clock reading, the random seed and the step index of an input are left out:
the reducer modelled here does not read them.  The state of an input is the
state itself; `FactorQ.Reducer.Persisted` has the bytes it is kept as.
-/
import Mathlib.Algebra.Group.Nat.Defs
import Mathlib.Data.List.Sort

namespace FactorQ.Reducer

/-- A JSON value; a number is its text. -/
inductive Value where
  | null
  | bool (b : Bool)
  | number (text : String)
  | string (s : String)
  | array (items : List Value)
  | object (fields : List (String × Value))

namespace Value

/-- The field of an object, `none` for anything else. -/
def get (v : Value) (field : String) : Option Value :=
  match v with
  | object fields => (fields.find? fun f => f.1 = field).map Prod.snd
  | _ => none

def asStr : Value → Option String
  | string s => some s
  | _ => none

end Value

/-! ## The conversation -/

/-- Assigned by the provider and passed through verbatim. -/
abbrev ToolCallId := String

structure ToolCallRequest where
  toolCallId : ToolCallId
  toolName : String
  parameters : Value

inductive ReasoningContent where
  | plain (text : String)
  | signed (text : String) (token : Value)
  | opaqueToken (token : Value)

inductive AssistantPart where
  | text (text : String)
  | reasoning (model : String) (content : ReasoningContent)
  | toolCall (call : ToolCallRequest)

/-- The tool calls of an assistant turn, in order. -/
def assistantToolCalls (parts : List AssistantPart) : List ToolCallRequest :=
  parts.filterMap fun
    | .toolCall call => some call
    | _ => none

/-- One tool's result, answering the call with the same id. -/
structure ToolResult where
  toolCallId : ToolCallId
  output : String
  isError : Bool

inductive Message where
  | system (text : String)
  | user (text : String)
  | assistant (parts : List AssistantPart)
  | toolResults (results : List ToolResult)

inductive StopReason where
  | toolUse
  | endTurn
  | maxTokens
  | stopSequence
deriving DecidableEq

structure TokenUsage where
  inputTokens : Nat
  outputTokens : Nat
  cacheReadTokens : Nat
  cacheWriteTokens : Nat
  cacheWrite5mTokens : Option Nat
  cacheWrite1hTokens : Option Nat
  reasoningTokens : Option Nat
deriving DecidableEq

/-! ## What the host answers -/

structure ModelResponse where
  parts : List AssistantPart
  stopReason : StopReason
  usage : TokenUsage

def ModelResponse.toolCalls (r : ModelResponse) : List ToolCallRequest := assistantToolCalls r.parts

inductive ToolErrorKind where
  | sandboxViolation
  | invalidParameters
  | executionFailed
  | timeout
  | permissionDenied
deriving DecidableEq

structure ToolCallResult where
  toolCallId : ToolCallId
  output : String
  isError : Bool
  errorKind : Option ToolErrorKind
  durationMs : Nat
deriving DecidableEq

inductive CapabilityResult where
  | modelResult (response : ModelResponse)
  | toolResult (result : ToolCallResult)
  | parallelToolResults (results : List ToolCallResult)
  | cancelled
  | hostError (message : String)

/-! ## What the reducer asks for -/

structure ToolSchema where
  name : String
  description : String
  parametersSchema : Value

inductive Effort where
  | minimal
  | low
  | medium
  | high
  | xhigh
deriving DecidableEq

structure ModelRequest where
  model : String
  messages : List Message
  tools : List ToolSchema
  effort : Option Effort
  maxTokens : Nat

inductive TaskStatus where
  | success
  | failed
  | blocked
  | partialSuccess
deriving DecidableEq

def TaskStatus.parse (s : String) : Option TaskStatus :=
  if s = "success" then some success
  else if s = "failed" then some failed
  else if s = "blocked" then some blocked
  else if s = "partial" then some partialSuccess
  else none

inductive Phase where
  | initial
  | awaitingModel
  | dispatchingTools
  | done
deriving DecidableEq

/-- What the reducer carries across steps.  The counters are `u32`: they start at 0 and are raised by
`saturatingSucc` alone. -/
structure HarnessState where
  phase : Phase
  messages : List Message
  iteration : Nat
  consecutiveTruncations : Nat

/-- A state whose contents contradict its phase. -/
inductive Violation where
  | initialNotEmpty (messages : Nat)
  | awaitingUnseeded
  | awaitingAfterAssistant
  | dispatchingWithoutCalls
  | dispatchingNotAssistant
  | dispatchingUnseeded
  | doneUnseeded
  | iterationBelow (iteration assistants : Nat)

def Violation.text : Violation → String
  | initialNotEmpty n => "phase Initial requires an empty conversation, found " ++ toString n ++ " message(s)"
  | awaitingUnseeded => "phase AwaitingModel requires a seeded conversation"
  | awaitingAfterAssistant => "phase AwaitingModel cannot follow an assistant message"
  | dispatchingWithoutCalls =>
    "phase DispatchingTools requires the last assistant message to carry tool calls"
  | dispatchingNotAssistant => "phase DispatchingTools requires the last message to be an assistant message"
  | dispatchingUnseeded => "phase DispatchingTools requires a seeded conversation"
  | doneUnseeded => "phase Done requires a seeded conversation"
  | iterationBelow i n =>
    "iteration " ++ toString i ++ " is below the " ++ toString n ++ " assistant message(s) in the history"

inductive HarnessErrorKind where
  | maxIterations
  | outputTruncated
  | internalError
deriving DecidableEq

/-- The messages of a `HarnessError`, with what they print. -/
inductive HarnessMessage where
  | terminated
  | deserialiseFailed (err : String)
  | serialiseFailed (err : String)
  | invalidState (violation : Violation)
  | cancelledModelCall
  | hostErrorInModelCall (message : String)
  | expectedModelResult (got : Option CapabilityResult)
  | truncated (turns : Nat)
  | maxIterations (cap : Nat)
  | cancelledToolDispatch
  | hostErrorInToolDispatch (message : String)
  | expectedToolResult (got : Option CapabilityResult)
  | noTurnToAnswer
  | unmatchedResults (called answered : List ToolCallId)

/-- The text of a message; `debug` is the derived debug rendering. -/
def HarnessMessage.text (debug : Option CapabilityResult → String) : HarnessMessage → String
  | terminated => "step called after invocation already terminated"
  | deserialiseFailed err => "state deserialise failed: " ++ err
  | serialiseFailed err => "state serialise failed: " ++ err
  | invalidState v => "invalid harness state: " ++ v.text
  | cancelledModelCall => "host cancelled model call"
  | hostErrorInModelCall m => "host error during model call: " ++ m
  | expectedModelResult got => "expected ModelResult after CallModel, got " ++ debug got
  | truncated n => "model output was cut off at max_tokens for " ++ toString n ++ " consecutive turns"
  | maxIterations cap => "exceeded max iterations (" ++ toString cap ++ ")"
  | cancelledToolDispatch => "host cancelled tool dispatch"
  | hostErrorInToolDispatch m => "host error during tool dispatch: " ++ m
  | expectedToolResult got => "expected ToolResult after CallTool, got " ++ debug got
  | noTurnToAnswer => "tool results arrived with no assistant turn to answer"
  | unmatchedResults called answered =>
    "tool results do not answer the turn's calls: called " ++ toString called ++
      ", answered " ++ toString answered

structure HarnessError where
  kind : HarnessErrorKind
  message : HarnessMessage

inductive NextAction where
  | callModel (request : ModelRequest)
  | callTool (request : ToolCallRequest)
  | callToolsParallel (requests : List ToolCallRequest)
  | complete (text : String) (taskStatus : TaskStatus)
  | failed (error : HarnessError)

structure AgentConfig where
  model : String
  systemPrompt : String
  toolsAvailable : List ToolSchema
  maxIterations : Nat
  maxTokens : Nat
  effort : Option Effort

/-- The trigger's payload and its pretty-printed JSON text. -/
structure TriggerPayload where
  payload : Value
  pretty : String

structure StepInput where
  config : AgentConfig
  trigger : TriggerPayload
  state : Option HarnessState
  lastResult : Option CapabilityResult
  staticResourceContext : Option String
  hostNotices : List String

structure StepOutput where
  nextAction : NextAction
  state : HarnessState

end FactorQ.Reducer
