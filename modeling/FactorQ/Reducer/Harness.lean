/-
# `FactorQ.Reducer.Harness` — the reducer

One step of the agent loop as a pure function: seed the conversation, take in a
model turn, or take in the results of a tool round.  A step that would leave the
state contradicting its phase fails instead of being saved.

Two facts carry the host's proofs.  Tools are dispatched only in answer to a
model turn, and then exactly the calls of that turn, in order.  And a step reads
of a tool result no more than its id, its output and whether it is an error, so
a result rebuilt from its log row drives the reducer as the live one did.
-/
import FactorQ.Reducer.Types

namespace FactorQ.Reducer

/-- `saturating_add(1)` on a 32-bit counter. -/
def saturatingSucc (n : Nat) : Nat := min (n + 1) (2 ^ 32 - 1)

def maxConsecutiveTruncations : Nat := 3

def reportOutcomeToolName : String := "report_outcome"

def reportOutcomeCanonicalName : String := "builtin__report_outcome"

def isReportOutcome (name : String) : Bool :=
  name = reportOutcomeCanonicalName || name = reportOutcomeToolName

/-! ## The state -/

namespace HarnessState

/-- Before anything has happened. -/
def default : HarnessState := ⟨.initial, [], 0, 0⟩

def isAssistant : Message → Bool
  | .assistant _ => true
  | _ => false

/-- What contradicts the phase, if anything does. -/
def violation (s : HarnessState) : Option Violation :=
  let contents : Option Violation := match s.phase with
    | .initial => if s.messages.isEmpty then none else some (.initialNotEmpty s.messages.length)
    | .awaitingModel =>
      match s.messages.getLast? with
      | none => some .awaitingUnseeded
      | some (.assistant _) => some .awaitingAfterAssistant
      | some _ => none
    | .dispatchingTools =>
      match s.messages.getLast? with
      | some (.assistant parts) =>
        if (assistantToolCalls parts).isEmpty then some .dispatchingWithoutCalls else none
      | some _ => some .dispatchingNotAssistant
      | none => some .dispatchingUnseeded
    | .done => if s.messages.isEmpty then some .doneUnseeded else none
  contents.or <|
    if s.iteration < s.messages.countP isAssistant then
      some (.iterationBelow s.iteration (s.messages.countP isAssistant))
    else none

def validate (s : HarnessState) : Except HarnessError Unit :=
  match s.violation with
  | some v => .error ⟨.internalError, .invalidState v⟩
  | none => .ok ()

def load : Option HarnessState → Except HarnessError HarnessState
  | none => .ok default
  | some s => do
      s.validate
      return s

def save (s : HarnessState) : Except HarnessError HarnessState := do
  s.validate
  return s

def push (s : HarnessState) (m : Message) : HarnessState := { s with messages := s.messages ++ [m] }

def appendHostNotices (s : HarnessState) (notices : List String) : HarnessState :=
  { s with messages := s.messages ++ notices.map .user }

end HarnessState

/-! ## The three steps -/

def buildModelRequest (config : AgentConfig) (messages : List Message) : ModelRequest :=
  ⟨config.model, messages, config.toolsAvailable, config.effort, config.maxTokens⟩

def payloadToUserMessage (trigger : TriggerPayload) : String :=
  match trigger.payload with
  | .null => "(no input)"
  | .string s => s
  | _ => trigger.pretty

/-- End the invocation with `action`. -/
def terminal (state : HarnessState) (action : NextAction) : Except HarnessError StepOutput := do
  let state ← { state with phase := .done }.save
  return ⟨action, state⟩

/-- Ask the model for the next turn. -/
def requestModel (config : AgentConfig) (state : HarnessState) : Except HarnessError StepOutput := do
  let request := buildModelRequest config state.messages
  let state ← { state with phase := .awaitingModel }.save
  return ⟨.callModel request, state⟩

def initialStep (input : StepInput) (state : HarnessState) : Except HarnessError StepOutput :=
  let state := state.push (.system input.config.systemPrompt)
  let state := match input.staticResourceContext with
    | some context => state.push (.user context)
    | none => state
  let state := state.push (.user (payloadToUserMessage input.trigger))
  requestModel input.config (state.appendHostNotices input.hostNotices)

/-- The outcome a turn declares, if one of its calls is a well-formed declaration. -/
def declaredOutcome (response : ModelResponse) : Option (TaskStatus × String) :=
  response.toolCalls.findSome? fun call => do
    guard (isReportOutcome call.toolName)
    let status ← (← call.parameters.get "status").asStr
    let status ← TaskStatus.parse status
    return (status, ((call.parameters.get "summary").bind Value.asStr).getD "")

def cutOffNotice (maxTokens : Nat) : String :=
  "Your last turn was cut off at max_tokens (" ++ toString maxTokens ++
    "). Continue from where you stopped; split large tool arguments across calls."

def bareTextNotice : String :=
  "No tool calls were made and the run is not over — continue working, or end it by calling " ++
    "`report_outcome` with success, failed, blocked, or partial."

/-- One call is dispatched on its own, several as a batch. -/
def dispatchAction : List ToolCallRequest → NextAction
  | [call] => .callTool call
  | calls => .callToolsParallel calls

/-- What follows a turn that did not end the invocation by itself. -/
def proceed (config : AgentConfig) (state : HarnessState) (response : ModelResponse) :
    Except HarnessError StepOutput :=
  if config.maxIterations ≤ state.iteration then
    terminal state (.failed ⟨.maxIterations, .maxIterations config.maxIterations⟩)
  else if response.toolCalls.isEmpty then requestModel config state
  else do
    let state ← { state with phase := .dispatchingTools }.save
    return ⟨dispatchAction response.toolCalls, state⟩

/-- Take in a turn of the model. -/
def respond (input : StepInput) (state : HarnessState) (response : ModelResponse) :
    Except HarnessError StepOutput :=
  let state := { state with iteration := saturatingSucc state.iteration }
  let state := state.appendHostNotices input.hostNotices
  match declaredOutcome response with
  | some (status, summary) => terminal state (.complete summary status)
  | none =>
    let state := state.push (.assistant response.parts)
    if response.stopReason = .maxTokens then
      let state := { state with consecutiveTruncations := saturatingSucc state.consecutiveTruncations }
      if maxConsecutiveTruncations ≤ state.consecutiveTruncations then
        terminal state (.failed ⟨.outputTruncated, .truncated state.consecutiveTruncations⟩)
      else
        proceed input.config (state.appendHostNotices [cutOffNotice input.config.maxTokens]) response
    else
      let state := { state with consecutiveTruncations := 0 }
      let state := if response.toolCalls.isEmpty then state.appendHostNotices [bareTextNotice] else state
      proceed input.config state response

def modelResponseStep (input : StepInput) (state : HarnessState) : Except HarnessError StepOutput :=
  match input.lastResult with
  | some (.modelResult response) => respond input state response
  | some .cancelled => terminal state (.failed ⟨.internalError, .cancelledModelCall⟩)
  | some (.hostError m) => terminal state (.failed ⟨.internalError, .hostErrorInModelCall m⟩)
  | other => .error ⟨.internalError, .expectedModelResult other⟩

/-- The results in the order of the calls they answer.  Comparing the sorted id
lists is asking whether one is a permutation of the other. -/
def answerInCallOrder (state : HarnessState) (results : List ToolCallResult) :
    Except HarnessError (List ToolCallResult) :=
  match state.messages.getLast? with
  | some (.assistant parts) =>
    let calls := (assistantToolCalls parts).map ToolCallRequest.toolCallId
    if calls.isPerm (results.map ToolCallResult.toolCallId) then
      .ok (results.insertionSort fun a b => calls.idxOf a.toolCallId ≤ calls.idxOf b.toolCallId)
    else .error ⟨.internalError, .unmatchedResults calls (results.map ToolCallResult.toolCallId)⟩
  | _ => .error ⟨.internalError, .noTurnToAnswer⟩

/-- What of a result goes into the conversation. -/
def ToolCallResult.answer (r : ToolCallResult) : ToolResult := ⟨r.toolCallId, r.output, r.isError⟩

/-- Take in the results of a tool round. -/
def integrate (input : StepInput) (state : HarnessState) (results : List ToolCallResult) :
    Except HarnessError StepOutput := do
  let results ← answerInCallOrder state results
  let state := state.push (.toolResults (results.map ToolCallResult.answer))
  requestModel input.config (state.appendHostNotices input.hostNotices)

def toolResultsStep (input : StepInput) (state : HarnessState) : Except HarnessError StepOutput :=
  match input.lastResult with
  | some (.toolResult r) => integrate input state [r]
  | some (.parallelToolResults rs) => integrate input state rs
  | some .cancelled => terminal state (.failed ⟨.internalError, .cancelledToolDispatch⟩)
  | some (.hostError m) => terminal state (.failed ⟨.internalError, .hostErrorInToolDispatch m⟩)
  | other => .error ⟨.internalError, .expectedToolResult other⟩

/-- `Harness::step`. -/
def step (input : StepInput) : Except HarnessError StepOutput := do
  let state ← HarnessState.load input.state
  match state.phase with
  | .initial => initialStep input state
  | .awaitingModel => modelResponseStep input state
  | .dispatchingTools => toolResultsStep input state
  | .done => .error ⟨.internalError, .terminated⟩

/-! ## What a step dispatches -/

theorem ok_of_bind_ok {α β ε : Type} {x : Except ε α} {f : α → Except ε β} {b : β}
    (h : x >>= f = .ok b) : ∃ a, x = .ok a ∧ f a = .ok b := by
  cases x with
  | error e => cases h
  | ok a => exact ⟨a, rfl, h⟩

theorem save_ok {s s' : HarnessState} (h : s.save = .ok s') : s' = s := by
  obtain ⟨_, _, he⟩ := ok_of_bind_ok h
  cases he
  rfl

/-- The step is the first of its invocation. -/
def StepInput.isFirst (i : StepInput) : Bool := i.state.all fun s => s.phase = .initial

/-- Everything a step can do.  `last` is what it takes in. -/
inductive StepSpec (last : Option CapabilityResult) (first : Bool) (out : StepOutput) : Prop where
  | failed (e : HarnessError) (action : out.nextAction = .failed e) (phase : out.state.phase = .done)
  | completed (r : ModelResponse) (text : String) (status : TaskStatus)
      (taken : last = some (.modelResult r)) (action : out.nextAction = .complete text status)
      (phase : out.state.phase = .done)
  | model (q : ModelRequest) (action : out.nextAction = .callModel q) (phase : out.state.phase = .awaitingModel)
      (noCalls : first = false → ∀ r, last = some (.modelResult r) → r.toolCalls = [])
  | tools (r : ModelResponse) (taken : last = some (.modelResult r)) (some : r.toolCalls ≠ [])
      (action : out.nextAction = dispatchAction r.toolCalls) (phase : out.state.phase = .dispatchingTools)
      (asked : out.state.messages.getLast? = Option.some (.assistant r.parts))

variable {last : Option CapabilityResult} {first : Bool} {out : StepOutput}

variable {s : HarnessState}

theorem terminal_failed {e : HarnessError} (h : terminal s (.failed e) = .ok out) :
    StepSpec last first out := by
  obtain ⟨_, hs, he⟩ := ok_of_bind_ok h
  cases he
  refine .failed e rfl ?_
  rw [save_ok hs]

variable {c : AgentConfig}

theorem requestModel_spec (h : requestModel c s = .ok out)
    (noCalls : first = false → ∀ r, last = some (.modelResult r) → r.toolCalls = []) :
    StepSpec last first out := by
  obtain ⟨_, hs, he⟩ := ok_of_bind_ok h
  cases he
  refine .model _ rfl ?_ noCalls
  rw [save_ok hs]

/-- A state that waits for tools ends with the turn that called them. -/
theorem dispatching_ok {s s' : HarnessState} (h : ({ s with phase := .dispatchingTools } : HarnessState).save = .ok s') :
    ∃ parts, s.messages.getLast? = some (.assistant parts) := by
  obtain ⟨_, hv, -⟩ := ok_of_bind_ok h
  unfold HarnessState.validate HarnessState.violation at hv
  cases hlast : s.messages.getLast? with
  | none => simp [hlast] at hv
  | some m =>
    cases m with
    | assistant parts => exact ⟨parts, rfl⟩
    | _ => simp [hlast] at hv

variable {r : ModelResponse}

theorem proceed_spec (h : proceed c s r = .ok out)
    (hasked : ∀ parts, s.messages.getLast? = some (.assistant parts) → parts = r.parts) :
    StepSpec (some (.modelResult r)) first out := by
  unfold proceed at h
  split at h
  · exact terminal_failed h
  · split at h
    · next hnone =>
      refine requestModel_spec h ?_
      rintro _ r' ⟨⟩
      exact List.isEmpty_iff.mp hnone
    · next hsome =>
      obtain ⟨_, hs, he⟩ := ok_of_bind_ok h
      cases he
      obtain ⟨parts, hparts⟩ := dispatching_ok hs
      refine .tools r rfl (fun hnil => hsome (List.isEmpty_iff.mpr hnil)) rfl ?_ ?_
      · rw [save_ok hs]
      · rw [save_ok hs, ← hasked parts hparts]
        exact hparts

variable {i : StepInput}

theorem respond_spec (h : respond i s r = .ok out) : StepSpec (some (.modelResult r)) first out := by
  unfold respond at h
  dsimp only at h
  split at h
  · next status summary _ =>
    obtain ⟨_, hs, he⟩ := ok_of_bind_ok h
    cases he
    refine .completed r _ _ rfl rfl ?_
    rw [save_ok hs]
  · split at h
    · split at h
      · exact terminal_failed h
      · refine proceed_spec h fun parts hparts => ?_
        simp [HarnessState.appendHostNotices] at hparts
    · refine proceed_spec h fun parts hparts => ?_
      split at hparts
      · simp [HarnessState.appendHostNotices] at hparts
      · have hlast : some (Message.assistant r.parts) = some (.assistant parts) := by
          simpa [HarnessState.push] using hparts
        cases hlast
        rfl

theorem integrate_spec {rs : List ToolCallResult} (h : integrate i s rs = .ok out)
    (hlast : ∀ r, last ≠ some (.modelResult r)) : StepSpec last first out := by
  obtain ⟨_, _, he⟩ := ok_of_bind_ok h
  exact requestModel_spec he fun _ r hr => absurd hr (hlast r)

theorem step_spec (h : step i = .ok out) : StepSpec i.lastResult i.isFirst out := by
  obtain ⟨s, hload, hs⟩ := ok_of_bind_ok h
  split at hs
  · next hphase =>
    refine requestModel_spec hs fun hfirst => ?_
    -- an initial state was loaded, so this is the first step
    exfalso
    unfold StepInput.isFirst at hfirst
    cases hstate : i.state with
    | none =>
      rw [hstate] at hfirst
      cases hfirst
    | some s₀ =>
      rw [hstate] at hload hfirst
      obtain ⟨_, _, he⟩ := ok_of_bind_ok hload
      cases he
      simp [hphase] at hfirst
  · unfold modelResponseStep at hs
    split at hs
    · next r hr =>
      rw [hr]
      exact respond_spec hs
    · exact terminal_failed hs
    · exact terminal_failed hs
    · cases hs
  · unfold toolResultsStep at hs
    split at hs
    · next r hr =>
      rw [hr]
      refine integrate_spec hs ?_
      rintro r' ⟨⟩
    · next rs hr =>
      rw [hr]
      refine integrate_spec hs ?_
      rintro r' ⟨⟩
    · exact terminal_failed hs
    · exact terminal_failed hs
    · cases hs
  · cases hs

theorem StepSpec.phase_ne_initial (h : StepSpec last first out) : out.state.phase ≠ .initial := by
  cases h <;> simp_all

/-! ## What a step reads of a tool result -/

/-- The result as a log row keeps it. -/
def ToolCallResult.recorded (r : ToolCallResult) : ToolCallResult :=
  { r with errorKind := none, durationMs := 0 }

def CapabilityResult.recorded : CapabilityResult → CapabilityResult
  | toolResult r => toolResult r.recorded
  | parallelToolResults rs => parallelToolResults (rs.map ToolCallResult.recorded)
  | c => c

@[simp] theorem CapabilityResult.recorded_recorded (c : CapabilityResult) :
    c.recorded.recorded = c.recorded := by
  cases c with
  | parallelToolResults rs =>
    simp only [recorded, List.map_map]
    rfl
  | _ => rfl

theorem integrate_recorded (i : StepInput) (s : HarnessState) (rs : List ToolCallResult) (last) :
    integrate { i with lastResult := last } s (rs.map ToolCallResult.recorded) = integrate i s rs := by
  unfold integrate answerInCallOrder
  have hid : (rs.map ToolCallResult.recorded).map ToolCallResult.toolCallId =
      rs.map ToolCallResult.toolCallId := by
    rw [List.map_map]
    rfl
  cases s.messages.getLast? with
  | none => rfl
  | some m =>
    cases m with
    | assistant parts =>
      dsimp only
      rw [hid]
      split
      · -- sorting by the calls' order looks at ids only, so it commutes with `recorded`
        have hsort : ∀ calls : List ToolCallId,
            (rs.map ToolCallResult.recorded).insertionSort
              (fun a b => calls.idxOf a.toolCallId ≤ calls.idxOf b.toolCallId) =
            (rs.insertionSort fun a b => calls.idxOf a.toolCallId ≤ calls.idxOf b.toolCallId).map
              ToolCallResult.recorded := by
          intro calls
          refine (List.map_insertionSort
            (r := fun a b : ToolCallResult => calls.idxOf a.toolCallId ≤ calls.idxOf b.toolCallId)
            (s := fun a b : ToolCallResult => calls.idxOf a.toolCallId ≤ calls.idxOf b.toolCallId)
            ToolCallResult.recorded rs ?_).symm
          intro a _ b _
          exact Iff.rfl
        rw [hsort]
        simp only [bind, Except.bind, List.map_map]
        rfl
      · rfl
    | _ => rfl

/-- A step that succeeds on a live result succeeds alike on the recorded one. -/
theorem step_recorded {out : StepOutput} (h : step i = .ok out) :
    step { i with lastResult := i.lastResult.map CapabilityResult.recorded } = .ok out := by
  obtain ⟨s, hload, hs⟩ := ok_of_bind_ok h
  simp only [step, hload, bind, Except.bind]
  cases hphase : s.phase with
  | initial =>
    rw [hphase] at hs
    exact hs
  | done =>
    rw [hphase] at hs
    cases hs
  | awaitingModel =>
    rw [hphase] at hs
    simp only [modelResponseStep] at hs ⊢
    cases hlast : i.lastResult with
    | none =>
      rw [hlast] at hs
      cases hs
    | some c =>
      rw [hlast] at hs
      cases c with
      | modelResult r => exact hs
      | cancelled | hostError m => exact hs
      | toolResult r => cases hs
      | parallelToolResults rs => cases hs
  | dispatchingTools =>
    rw [hphase] at hs
    simp only [toolResultsStep] at hs ⊢
    cases hlast : i.lastResult with
    | none =>
      rw [hlast] at hs
      cases hs
    | some c =>
      rw [hlast] at hs
      cases c with
      | modelResult r => cases hs
      | cancelled | hostError m => exact hs
      | toolResult r =>
        refine Eq.trans ?_ hs
        exact integrate_recorded i s [r] _
      | parallelToolResults rs =>
        refine Eq.trans ?_ hs
        exact integrate_recorded i s rs _

/-! ## What the notices change

Notices go into the conversation, and nothing else looks at them: whether a step
asks for the model does not depend on which notices it is given. -/

/-- The model can be asked in this state. -/
def HarnessState.Askable (s : HarnessState) : Prop :=
  (∃ m, s.messages.getLast? = some m ∧ HarnessState.isAssistant m = false) ∧
    s.messages.countP HarnessState.isAssistant ≤ s.iteration

/-- The output asks for the model. -/
def StepOutput.Asks (out : StepOutput) : Prop := ∃ q, out.nextAction = .callModel q

theorem requestModel_of_askable (c : AgentConfig) (h : s.Askable) :
    ∃ out, requestModel c s = .ok out ∧ out.Asks := by
  obtain ⟨⟨m, hlast, hm⟩, hcount⟩ := h
  have hv : ({ s with phase := .awaitingModel } : HarnessState).violation = none := by
    unfold HarnessState.violation
    dsimp only
    rw [hlast, if_neg (Nat.not_lt.mpr hcount)]
    cases m with
    | assistant parts => cases hm
    | _ => rfl
  refine ⟨⟨.callModel (buildModelRequest c s.messages), { s with phase := .awaitingModel }⟩, ?_, _, rfl⟩
  unfold requestModel HarnessState.save HarnessState.validate
  rw [hv]
  rfl

theorem askable_of_requestModel (h : requestModel c s = .ok out) : s.Askable := by
  obtain ⟨_, hs, -⟩ := ok_of_bind_ok h
  obtain ⟨_, hv, -⟩ := ok_of_bind_ok hs
  unfold HarnessState.validate HarnessState.violation at hv
  dsimp only at hv
  have hcount : s.messages.countP HarnessState.isAssistant ≤ s.iteration := by
    by_contra hlt
    rw [if_pos (Nat.not_le.mp hlt)] at hv
    cases s.messages.getLast? with
    | none => simp at hv
    | some m => cases m <;> simp at hv
  refine ⟨?_, hcount⟩
  cases hlast : s.messages.getLast? with
  | none =>
    rw [hlast] at hv
    simp at hv
  | some m =>
    refine ⟨m, rfl, ?_⟩
    cases m with
    | assistant parts =>
      rw [hlast] at hv
      simp at hv
    | _ => rfl

theorem countP_notices (notices : List String) :
    (notices.map Message.user).countP HarnessState.isAssistant = 0 := by
  rw [List.countP_map]
  exact List.countP_eq_zero.mpr fun _ _ => by simp [HarnessState.isAssistant]

/-- After a message that is no turn of the model, any notices may follow. -/
theorem askable_notices {m : Message} (notices : List String) (hlast : s.messages.getLast? = some m)
    (hm : HarnessState.isAssistant m = false)
    (hcount : s.messages.countP HarnessState.isAssistant ≤ s.iteration) :
    (s.appendHostNotices notices).Askable := by
  refine ⟨?_, ?_⟩
  · unfold HarnessState.appendHostNotices
    rcases List.eq_nil_or_concat notices with rfl | ⟨before, n, rfl⟩
    · exact ⟨m, by simpa using hlast, hm⟩
    · exact ⟨.user n, by simp, rfl⟩
  · show (s.messages ++ notices.map Message.user).countP HarnessState.isAssistant ≤ s.iteration
    rw [List.countP_append, countP_notices]
    exact hcount

theorem count_of_askable_notices {notices : List String} (h : (s.appendHostNotices notices).Askable) :
    s.messages.countP HarnessState.isAssistant ≤ s.iteration := by
  have hcount : (s.messages ++ notices.map Message.user).countP HarnessState.isAssistant ≤ s.iteration := h.2
  rwa [List.countP_append, countP_notices] at hcount

theorem terminal_action {a : NextAction} (h : terminal s a = .ok out) : out.nextAction = a := by
  obtain ⟨_, _, he⟩ := ok_of_bind_ok h
  cases he
  rfl

theorem not_asks_terminal {a : NextAction} (h : terminal s a = .ok out) (hne : ∀ q, a ≠ .callModel q) :
    ¬ out.Asks := by
  rintro ⟨q, hq⟩
  exact hne q ((terminal_action h).symm.trans hq)

theorem proceed_notices {s s' : HarnessState} (h : proceed c s r = .ok out) (hask : out.Asks)
    (hiter : s'.iteration = s.iteration) (hs : s.Askable → s'.Askable) :
    ∃ out', proceed c s' r = .ok out' ∧ out'.Asks := by
  unfold proceed at h ⊢
  rw [hiter]
  split at h
  · exact absurd hask (not_asks_terminal h fun q => NextAction.noConfusion)
  · next hmore =>
    rw [if_neg hmore]
    split at h
    · next hnone =>
      rw [if_pos hnone]
      exact requestModel_of_askable c (hs (askable_of_requestModel h))
    · obtain ⟨_, _, he⟩ := ok_of_bind_ok h
      cases he
      obtain ⟨q, hq⟩ := hask
      unfold dispatchAction at hq
      split at hq <;> cases hq

/-- What a turn and the text after it leave, with any notices before them. -/
theorem askable_turn (s : HarnessState) (notices notices' : List String) (parts : List AssistantPart)
    (text : String) (k : Nat)
    (h : (({ (s.appendHostNotices notices).push (.assistant parts) with
      consecutiveTruncations := k } : HarnessState).appendHostNotices [text]).Askable) :
    (({ (s.appendHostNotices notices').push (.assistant parts) with
      consecutiveTruncations := k } : HarnessState).appendHostNotices [text]).Askable := by
  refine ⟨⟨.user text, by simp [HarnessState.appendHostNotices], rfl⟩, ?_⟩
  have hcount := h.2
  simp only [HarnessState.appendHostNotices, HarnessState.push, List.countP_append, countP_notices] at hcount ⊢
  exact hcount

theorem respond_notices (h : respond i s r = .ok out) (hask : out.Asks) (notices : List String) :
    ∃ out', respond { i with hostNotices := notices } s r = .ok out' ∧ out'.Asks := by
  unfold respond at h ⊢
  dsimp only at h ⊢
  cases hdecl : declaredOutcome r with
  | some d =>
    rw [hdecl] at h
    exact absurd hask (not_asks_terminal h fun q => NextAction.noConfusion)
  | none =>
    rw [hdecl] at h
    dsimp only at h ⊢
    split at h
    · next hcut =>
      rw [if_pos hcut]
      split at h
      · exact absurd hask (not_asks_terminal h fun q => NextAction.noConfusion)
      · next hfew =>
        split
        · next hmany => exact absurd hmany hfew
        · exact proceed_notices h hask rfl (askable_turn _ _ _ _ _ _)
    · next hcut =>
      rw [if_neg hcut]
      split at h
      · next hnone =>
        rw [if_pos hnone]
        exact proceed_notices h hask rfl (askable_turn _ _ _ _ _ _)
      · next hsome =>
        rw [if_neg hsome]
        refine proceed_notices h hask rfl fun hlast => ?_
        -- the turn is the last message, so the model was not asked
        obtain ⟨⟨m, hm, hno⟩, -⟩ := hlast
        simp only [HarnessState.push, List.getLast?_concat, Option.some.injEq] at hm
        rw [← hm] at hno
        cases hno

theorem integrate_notices {rs : List ToolCallResult} (h : integrate i s rs = .ok out) (notices : List String) :
    ∃ out', integrate { i with hostNotices := notices } s rs = .ok out' ∧ out'.Asks := by
  obtain ⟨results, hres, he⟩ := ok_of_bind_ok h
  unfold integrate
  rw [hres]
  refine requestModel_of_askable i.config
    (askable_notices (m := .toolResults (results.map ToolCallResult.answer)) notices ?_ rfl ?_)
  · simp [HarnessState.push]
  · exact count_of_askable_notices (askable_of_requestModel he)

/-- A step that asks for the model asks for it whatever notices it is given. -/
theorem step_notices (h : step i = .ok out) (hask : out.Asks) (notices : List String) :
    ∃ out', step { i with hostNotices := notices } = .ok out' ∧ out'.Asks := by
  obtain ⟨s, hload, hs⟩ := ok_of_bind_ok h
  simp only [step, hload, bind, Except.bind]
  cases hphase : s.phase with
  | initial =>
    rw [hphase] at hs
    have hcount := count_of_askable_notices (askable_of_requestModel hs)
    refine requestModel_of_askable i.config
      (askable_notices (m := .user (payloadToUserMessage i.trigger)) notices ?_ rfl hcount)
    simp [HarnessState.push]
  | done =>
    rw [hphase] at hs
    cases hs
  | awaitingModel =>
    rw [hphase] at hs
    simp only [modelResponseStep] at hs ⊢
    split at hs
    · next r hr => exact respond_notices hs hask notices
    · exact absurd hask (not_asks_terminal hs fun q => NextAction.noConfusion)
    · exact absurd hask (not_asks_terminal hs fun q => NextAction.noConfusion)
    · cases hs
  | dispatchingTools =>
    rw [hphase] at hs
    simp only [toolResultsStep] at hs ⊢
    split at hs
    · exact integrate_notices hs notices
    · exact integrate_notices hs notices
    · exact absurd hask (not_asks_terminal hs fun q => NextAction.noConfusion)
    · exact absurd hask (not_asks_terminal hs fun q => NextAction.noConfusion)
    · cases hs

end FactorQ.Reducer
