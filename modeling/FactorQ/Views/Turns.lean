/-
# `FactorQ.Views.Turns` — the turns of an invocation, folded from the event log

A turn is one action of a conversation: the opening prompt, what the model said, a tool's
result, or how the run ended.  The read path folds the log of an agent into turns with one
`TurnFold`, and the log interleaves the events of every invocation of the agent.

The fold keeps two things.  That an opening prompt has been seen is kept for each invocation.
The calls that still wait for their result are kept by tool call id alone, and providers number
their calls afresh in every conversation, so two invocations may well use one id.  What a
result is joined with is then whatever call with that id the fold has seen last.

An event *settles* an id if it decides the entry by itself: a response that calls it, or a
result for it.  A `tool.call` event only fills an entry that is not there.  So the entry at a
result is read off the last event that settles the id, and off the first `tool.call` event
after it; and the turns of an invocation are its own exactly if, at each of its results, both
readings give what they give on its own events.
-/
import FactorQ.Reducer.Host

namespace FactorQ.Views

open FactorQ.Reducer

/-! ## Events -/

structure CostMetadata where
  model : String
  totalCost : ℚ

structure Envelope where
  invocationId : String
  agentId : String
  timestampMs : Int
  cost : Option CostMetadata

structure ToolResultPayload where
  round : Nat
  toolName : String
  toolCallId : ToolCallId
  output : String
  isError : Bool

inductive EventPayload where
  | llmRequest (messages : List Message) (origin : LlmCallOrigin)
  | llmResponse (round : Nat) (parts : List AssistantPart)
  | llmFailure (round : Nat) (model errorMessage : String)
  | toolCall (call : ToolCallRequest)
  | toolResult (p : ToolResultPayload)
  | completed (totalLlmCalls : Nat) (resultSummary : Option String)
  | failed (totalLlmCalls : Nat) (errorMessage : String)
  | invocationOperatorRecovered (finalPhase : String) (reason : Option String)
  /-- any other event: it yields no turn -/
  | other

structure Event where
  envelope : Envelope
  payload : EventPayload

/-- What the log holds: the events with their stream sequences. -/
structure EventLog where
  entries : List (Nat × Event)
  ascending : (entries.map Prod.fst).Pairwise (· < ·)

/-! ## Turns -/

structure TurnReasoning where
  text : Option String
  opaqueContent : Option Value

inductive TurnAction where
  | prompt (system user : Option String)
  | assistant (model : String) (content : Option String) (reasoning : Option TurnReasoning)
      (toolCalls : List ToolCallRequest) (costUsd : Option ℚ) (isError : Option Bool)
  | toolResult (toolCallId : ToolCallId) (toolName : String) (parameters : Value) (output : Option String)
      (isError : Option Bool)
  | outcome (phase : String) (summary : Option String) (isError : Bool)

structure TurnState where
  seq : Nat
  invocationId : String
  agentId : String
  round : Nat
  timestampMs : Int
  initiatingTurn : Option Nat
  action : TurnAction

def joinLines (texts : List String) : Option String := if texts.isEmpty then none else some ("\n".intercalate texts)

def assistantText (parts : List AssistantPart) : Option String :=
  joinLines (parts.filterMap fun
    | .text text => some text
    | _ => none)

def readable (text : String) : Option String := if text.toList.all isWhiteSpace then none else some text

def reasonings (parts : List AssistantPart) : List ReasoningContent :=
  parts.filterMap fun
    | .reasoning _ content => some content
    | _ => none

def reduceReasoning (parts : List AssistantPart) : Option TurnReasoning :=
  let contents := reasonings parts
  if contents.isEmpty then none
  else
    let texts := contents.filterMap fun
      | .plain text => readable text
      | .signed text _ => readable text
      | .opaqueToken _ => none
    let tokens := contents.filterMap fun
      | .plain _ => none
      | .signed _ token => some token
      | .opaqueToken token => some token
    some
      { text := joinLines texts
        opaqueContent :=
          match tokens with
          | [] => none
          | [token] => some token
          | tokens => some (.array tokens) }

/-- The first system and the first user message; nothing without either. -/
def promptFromMessages (messages : List Message) : Option (Option String × Option String) :=
  let system := messages.findSome? fun
    | .system text => some text
    | _ => none
  let user := messages.findSome? fun
    | .user text => some text
    | _ => none
  if system.isNone && user.isNone then none else some (system, user)

def isOpeningRequest (messages : List Message) (origin : LlmCallOrigin) : Bool :=
  origin = .agentTurn && !messages.any fun
    | .assistant _ => true
    | .toolResults _ => true
    | _ => false

/-! ## The fold -/

structure PendingCall where
  toolName : String
  parameters : Value
  assistantSeq : Option Nat

structure TurnFold where
  calls : ToolCallId → Option PendingCall
  prompted : Finset String

namespace TurnFold

def new : TurnFold := ⟨fun _ => none, ∅⟩

/-- Each call of a response, over whatever waited under its id. -/
def insertCalls (calls : ToolCallId → Option PendingCall) (seq : Nat) (requested : List ToolCallRequest) :
    ToolCallId → Option PendingCall :=
  requested.foldl
    (fun calls call => Function.update calls call.toolCallId (some ⟨call.toolName, call.parameters, some seq⟩)) calls

def turn (seq : Nat) (envelope : Envelope) (round : Nat) (initiatingTurn : Option Nat) (action : TurnAction) : TurnState :=
  ⟨seq, envelope.invocationId, envelope.agentId, round, envelope.timestampMs, initiatingTurn, action⟩

/-- A result, joined with the call that waited for it. -/
def resultTurn (seq : Nat) (envelope : Envelope) (p : ToolResultPayload) (pending : Option PendingCall) : TurnState :=
  turn seq envelope p.round (pending.bind PendingCall.assistantSeq)
    (.toolResult p.toolCallId
      (((pending.map PendingCall.toolName).filter fun name => name ≠ "").getD p.toolName)
      ((pending.map PendingCall.parameters).getD .null) (some p.output) (some p.isError))

def apply (fold : TurnFold) (seq : Nat) (event : Event) : TurnFold × Option TurnState :=
  let envelope := event.envelope
  match event.payload with
  | .llmRequest messages origin =>
    if isOpeningRequest messages origin then
      match promptFromMessages messages with
      | none => (fold, none)
      | some (system, user) =>
        if envelope.invocationId ∈ fold.prompted then (fold, none)
        else
          ({ fold with prompted := insert envelope.invocationId fold.prompted },
            some (turn seq envelope 0 none (.prompt system user)))
    else (fold, none)
  | .llmResponse round parts =>
    let requested := assistantToolCalls parts
    ({ fold with calls := insertCalls fold.calls seq requested },
      some (turn seq envelope round none
        (.assistant ((envelope.cost.map CostMetadata.model).getD "?") (assistantText parts) (reduceReasoning parts)
          requested (envelope.cost.map CostMetadata.totalCost) (some false))))
  | .llmFailure round model errorMessage =>
    (fold, some (turn seq envelope round none
      (.assistant model (some errorMessage) none [] (envelope.cost.map CostMetadata.totalCost) (some true))))
  | .toolCall call =>
    let entry := (fold.calls call.toolCallId).getD ⟨call.toolName, call.parameters, none⟩
    ({ fold with calls := Function.update fold.calls call.toolCallId (some entry) }, none)
  | .toolResult p =>
    ({ fold with calls := Function.update fold.calls p.toolCallId none },
      some (resultTurn seq envelope p (fold.calls p.toolCallId)))
  | .completed totalLlmCalls resultSummary =>
    (fold, some (turn seq envelope (totalLlmCalls + 1) none (.outcome "completed" resultSummary false)))
  | .failed totalLlmCalls errorMessage =>
    (fold, some (turn seq envelope (totalLlmCalls + 1) none (.outcome "failed" (some errorMessage) true)))
  | .invocationOperatorRecovered finalPhase reason =>
    (fold, some (turn seq envelope 0 none (.outcome finalPhase reason (finalPhase ≠ "completed"))))
  | .other => (fold, none)

/-- The fold after the events. -/
def run (fold : TurnFold) (entries : List (Nat × Event)) : TurnFold :=
  entries.foldl (fun fold entry => (fold.apply entry.1 entry.2).1) fold

/-- The turns the events yield, in order. -/
def turns : TurnFold → List (Nat × Event) → List TurnState
  | _, [] => []
  | fold, (seq, event) :: entries => (fold.apply seq event).2.toList ++ turns (fold.apply seq event).1 entries

end TurnFold

/-- The events of one invocation. -/
def ofInvocation (i : String) (entries : List (Nat × Event)) : List (Nat × Event) :=
  entries.filter fun entry => entry.2.envelope.invocationId = i

/-! ## What waits under an id -/

/-- The ids a response calls. -/
def EventPayload.requested : EventPayload → List ToolCallId
  | .llmResponse _ parts => (assistantToolCalls parts).map ToolCallRequest.toolCallId
  | _ => []

def EventPayload.answers (x : ToolCallId) : EventPayload → Bool
  | .toolResult p => p.toolCallId = x
  | _ => false

def EventPayload.announces (x : ToolCallId) : EventPayload → Option ToolCallRequest
  | .toolCall call => if call.toolCallId = x then some call else none
  | _ => none

/-- A response that calls `x`, or a result for it. -/
def settles (x : ToolCallId) (entry : Nat × Event) : Bool :=
  x ∈ entry.2.payload.requested || entry.2.payload.answers x

/-- The last event that settles `x`. -/
def lastSettle (x : ToolCallId) (entries : List (Nat × Event)) : Option (Nat × Event) :=
  entries.reverse.find? (settles x)

/-- The first `tool.call` event for `x` after that. -/
def announcedSince (x : ToolCallId) (entries : List (Nat × Event)) : Option ToolCallRequest :=
  ((entries.reverse.takeWhile fun entry => !settles x entry).filterMap fun entry => entry.2.payload.announces x).getLast?

/-- The last event that settles `x` is a response. -/
def Called (x : ToolCallId) (entries : List (Nat × Event)) : Prop :=
  ∃ entry, lastSettle x entries = some entry ∧ x ∈ entry.2.payload.requested

/-- The name and the parameters under which a result is shown that no response is known for. -/
def shown (p : ToolResultPayload) (announced : Option ToolCallRequest) : String × Value :=
  (((announced.map ToolCallRequest.toolName).filter fun name => name ≠ "").getD p.toolName,
    (announced.map ToolCallRequest.parameters).getD .null)

/-- After these events of its log, and of its invocation, the result is joined with the same. -/
def JoinsAlike (p : ToolResultPayload) (before own : List (Nat × Event)) : Prop :=
  (Called p.toolCallId own → lastSettle p.toolCallId before = lastSettle p.toolCallId own) ∧
  (¬ Called p.toolCallId own → ¬ Called p.toolCallId before ∧
    shown p (announcedSince p.toolCallId before) = shown p (announcedSince p.toolCallId own))

/-- At every result of the invocation, the id has last been settled as in the invocation's own
events. -/
def Unmixed (log : EventLog) (i : String) : Prop :=
  ∀ before seq event after p, log.entries = before ++ (seq, event) :: after → event.envelope.invocationId = i →
    event.payload = .toolResult p → JoinsAlike p before (ofInvocation i before)

/-! ### One event more -/

section Append

variable {x : ToolCallId} {before : List (Nat × Event)} {entry : Nat × Event}

theorem lastSettle_append :
    lastSettle x (before ++ [entry]) = if settles x entry then some entry else lastSettle x before := by
  simp only [lastSettle, List.reverse_append, List.reverse_singleton, List.singleton_append, List.find?_cons]
  cases settles x entry <;> rfl

theorem announcedSince_append :
    announcedSince x (before ++ [entry]) =
      if settles x entry then none else (announcedSince x before).or (entry.2.payload.announces x) := by
  simp only [announcedSince, List.reverse_append, List.reverse_singleton, List.singleton_append, List.takeWhile_cons]
  cases settles x entry with
  | true => rfl
  | false =>
    simp only [Bool.not_false, if_true, Bool.false_eq_true, if_false, List.filterMap_cons]
    cases entry.2.payload.announces x with
    | none => rw [Option.or_none]
    | some call => rw [List.getLast?_cons, Option.or_some]

end Append

namespace TurnFold

/-- What a response leaves under an id it calls: the last of its calls with that id. -/
def called (x : ToolCallId) (seq : Nat) (requested : List ToolCallRequest) : Option PendingCall :=
  ((requested.filter fun call => call.toolCallId = x).getLast?).map fun call =>
    ⟨call.toolName, call.parameters, some seq⟩

theorem insertCalls_apply (calls : ToolCallId → Option PendingCall) (seq : Nat) (requested : List ToolCallRequest)
    (x : ToolCallId) : insertCalls calls seq requested x = (called x seq requested).or (calls x) := by
  unfold insertCalls
  induction requested generalizing calls with
  | nil => rfl
  | cons call requested ih =>
    rw [List.foldl_cons, ih]
    by_cases hx : call.toolCallId = x
    · subst hx
      simp only [called, List.filter_cons, decide_true, if_true, List.getLast?_cons, Function.update_self]
      cases (requested.filter fun c => c.toolCallId = call.toolCallId).getLast? <;> rfl
    · rw [Function.update_of_ne (Ne.symm hx)]
      simp only [called, List.filter_cons, decide_eq_false hx, Bool.false_eq_true, if_false]

theorem called_eq_none {x : ToolCallId} {seq : Nat} {requested : List ToolCallRequest} :
    called x seq requested = none ↔ x ∉ requested.map ToolCallRequest.toolCallId := by
  simp [called]

/-- What the event that settles `x` leaves under it. -/
def left (x : ToolCallId) (entry : Nat × Event) : Option PendingCall :=
  match entry.2.payload with
  | .llmResponse _ parts => called x entry.1 (assistantToolCalls parts)
  | _ => none

/-- What an announced call leaves under an id with nothing under it. -/
def announced (call : ToolCallRequest) : PendingCall := ⟨call.toolName, call.parameters, none⟩

theorem apply_calls (fold : TurnFold) (entry : Nat × Event) (x : ToolCallId) :
    (fold.apply entry.1 entry.2).1.calls x =
      if settles x entry then left x entry
      else (fold.calls x).or ((entry.2.payload.announces x).map announced) := by
  obtain ⟨seq, envelope, payload⟩ := entry
  cases payload with
  | llmResponse round parts =>
    show insertCalls fold.calls seq (assistantToolCalls parts) x = _
    rw [insertCalls_apply]
    simp only [settles, EventPayload.requested, EventPayload.answers, EventPayload.announces, left, Bool.or_false,
      Option.map_none, Option.or_none]
    split
    · next hx =>
      replace hx : x ∈ (assistantToolCalls parts).map ToolCallRequest.toolCallId := of_decide_eq_true hx
      cases hcalled : called x seq (assistantToolCalls parts) with
      | none => exact absurd hx (called_eq_none.mp hcalled)
      | some pending => rfl
    · next hx =>
      replace hx : x ∉ (assistantToolCalls parts).map ToolCallRequest.toolCallId :=
        of_decide_eq_false (eq_false_of_ne_true hx)
      rw [called_eq_none.mpr hx, Option.none_or]
  | toolCall call =>
    show Function.update fold.calls call.toolCallId _ x = _
    simp only [settles, EventPayload.requested, EventPayload.answers, EventPayload.announces]
    by_cases hx : call.toolCallId = x
    · subst hx
      rw [Function.update_self]
      simp only [List.not_mem_nil, decide_false, Bool.or_self, Bool.false_eq_true, if_false, if_true, Option.map_some]
      cases fold.calls call.toolCallId <;> rfl
    · rw [Function.update_of_ne (Ne.symm hx)]
      simp [hx]
  | toolResult p =>
    show Function.update fold.calls p.toolCallId none x = _
    simp only [settles, EventPayload.requested, EventPayload.answers, EventPayload.announces, left]
    by_cases hx : p.toolCallId = x
    · subst hx
      rw [Function.update_self]
      simp
    · rw [Function.update_of_ne (Ne.symm hx)]
      simp [hx]
  | llmRequest messages origin =>
    have hcalls : (fold.apply seq ⟨envelope, .llmRequest messages origin⟩).1.calls = fold.calls := by
      simp only [apply]
      split
      · split
        · rfl
        · split <;> rfl
      · rfl
    rw [hcalls]
    simp [settles, EventPayload.requested, EventPayload.answers, EventPayload.announces]
  | _ => simp [settles, EventPayload.requested, EventPayload.answers, EventPayload.announces, apply]

theorem run_append (fold : TurnFold) (before : List (Nat × Event)) (entry : Nat × Event) :
    fold.run (before ++ [entry]) = ((fold.run before).apply entry.1 entry.2).1 := by
  simp [run, List.foldl_append]

/-- The entry under an id, read off the events before: what the last event that settles the id
left there, and else what the first `tool.call` event since left. -/
theorem run_calls (before : List (Nat × Event)) (x : ToolCallId) :
    (new.run before).calls x =
      ((lastSettle x before).bind (left x)).or ((announcedSince x before).map announced) := by
  induction before using List.reverseRecOn with
  | nil => rfl
  | append_singleton before entry ih =>
    rw [run_append, apply_calls, lastSettle_append, announcedSince_append, ih]
    split
    · simp
    · rw [Option.or_assoc]
      cases announcedSince x before <;> rfl

theorem left_of_requested {x : ToolCallId} {entry : Nat × Event} (h : x ∈ entry.2.payload.requested) :
    ∃ pending, left x entry = some pending ∧ pending.assistantSeq = some entry.1 := by
  obtain ⟨seq, envelope, payload⟩ := entry
  cases payload with
  | llmResponse round parts =>
    cases hcalled : called x seq (assistantToolCalls parts) with
    | none => exact absurd h (called_eq_none.mp hcalled)
    | some pending =>
      obtain ⟨call, -, hcall⟩ := Option.map_eq_some_iff.mp hcalled
      exact ⟨pending, hcalled, by rw [← hcall]⟩
  | _ => cases h

theorem left_of_not_requested {x : ToolCallId} {entry : Nat × Event} (h : x ∉ entry.2.payload.requested) :
    left x entry = none := by
  obtain ⟨seq, envelope, payload⟩ := entry
  cases payload with
  | llmResponse round parts => exact called_eq_none.mpr h
  | _ => rfl

theorem run_calls_of_not_called {x : ToolCallId} {before : List (Nat × Event)} (h : ¬ Called x before) :
    (new.run before).calls x = (announcedSince x before).map announced := by
  rw [run_calls]
  cases hlast : lastSettle x before with
  | none => rfl
  | some entry =>
    rw [Option.bind_some, left_of_not_requested fun hx => h ⟨entry, hlast, hx⟩, Option.none_or]

theorem run_calls_of_called {x : ToolCallId} {before : List (Nat × Event)} {entry : Nat × Event}
    (hlast : lastSettle x before = some entry) (hx : x ∈ entry.2.payload.requested) :
    ∃ pending, (new.run before).calls x = some pending ∧ left x entry = some pending ∧
      pending.assistantSeq = some entry.1 := by
  obtain ⟨pending, hleft, hseq⟩ := left_of_requested hx
  exact ⟨pending, by rw [run_calls, hlast, Option.bind_some, hleft, Option.some_or], hleft, hseq⟩

theorem resultTurn_inj {seq : Nat} {envelope : Envelope} {p : ToolResultPayload} {a b : Option PendingCall} :
    resultTurn seq envelope p a = resultTurn seq envelope p b ↔
      a.bind PendingCall.assistantSeq = b.bind PendingCall.assistantSeq ∧
      ((a.map PendingCall.toolName).filter fun name => name ≠ "").getD p.toolName =
        ((b.map PendingCall.toolName).filter fun name => name ≠ "").getD p.toolName ∧
      (a.map PendingCall.parameters).getD .null = (b.map PendingCall.parameters).getD .null := by
  simp only [resultTurn, turn, TurnState.mk.injEq, TurnAction.toolResult.injEq, true_and, and_true]

/-- A result is shown alike after two lists of events of one log exactly if the lists settle its
id alike.  Events of one log are told apart by their sequences. -/
theorem resultTurn_iff (seq : Nat) (envelope : Envelope) (p : ToolResultPayload) {before own : List (Nat × Event)}
    (hsub : own ⊆ before) (hseqs : ∀ a ∈ before, ∀ b ∈ before, a.1 = b.1 → a = b) :
    resultTurn seq envelope p ((new.run before).calls p.toolCallId) =
        resultTurn seq envelope p ((new.run own).calls p.toolCallId) ↔
      JoinsAlike p before own := by
  have hmem {x : ToolCallId} {entries : List (Nat × Event)} {entry : Nat × Event}
      (h : lastSettle x entries = some entry) : entry ∈ entries :=
    List.mem_reverse.mp (List.mem_of_find?_eq_some h)
  have hannounced {x : ToolCallId} {entries : List (Nat × Event)} (h : ¬ Called x entries) :
      ((new.run entries).calls x).bind PendingCall.assistantSeq = none := by
    rw [run_calls_of_not_called h]
    cases announcedSince x entries <;> rfl
  rw [resultTurn_inj]
  by_cases hown : Called p.toolCallId own
  · obtain ⟨entry, hlast, hx⟩ := hown
    obtain ⟨pending, hcalls, hleft, hseq⟩ := run_calls_of_called hlast hx
    constructor
    · rintro ⟨hinitiating, -⟩
      rw [hcalls, Option.bind_some, hseq] at hinitiating
      refine ⟨fun _ => ?_, fun h => absurd ⟨entry, hlast, hx⟩ h⟩
      by_cases hbefore : Called p.toolCallId before
      · obtain ⟨entry', hlast', hx'⟩ := hbefore
        obtain ⟨pending', hcalls', -, hseq'⟩ := run_calls_of_called hlast' hx'
        rw [hcalls', Option.bind_some, hseq'] at hinitiating
        have hsame : entry' = entry :=
          hseqs entry' (hmem hlast') entry (hsub (hmem hlast)) (Option.some.inj hinitiating)
        rw [hlast', hlast, hsame]
      · cases (hannounced hbefore).symm.trans hinitiating
    · rintro ⟨hsettle, -⟩
      have hlast' := (hsettle ⟨entry, hlast, hx⟩).trans hlast
      obtain ⟨pending', hcalls', hleft', -⟩ := run_calls_of_called hlast' hx
      have hsame : pending' = pending := Option.some.inj (hleft'.symm.trans hleft)
      rw [hcalls, hcalls', hsame]
      exact ⟨rfl, rfl, rfl⟩
  · by_cases hbefore : Called p.toolCallId before
    · obtain ⟨entry, hlast, hx⟩ := hbefore
      obtain ⟨pending, hcalls, -, hseq⟩ := run_calls_of_called hlast hx
      constructor
      · rintro ⟨hinitiating, -⟩
        rw [hannounced hown, hcalls, Option.bind_some, hseq] at hinitiating
        cases hinitiating
      · rintro ⟨-, hnot⟩
        exact absurd ⟨entry, hlast, hx⟩ (hnot hown).1
    · have hshown {entries : List (Nat × Event)} (h : ¬ Called p.toolCallId entries) :
          shown p (announcedSince p.toolCallId entries) =
            (((((new.run entries).calls p.toolCallId).map PendingCall.toolName).filter fun name => name ≠ "").getD
                p.toolName,
              (((new.run entries).calls p.toolCallId).map PendingCall.parameters).getD .null) := by
        rw [run_calls_of_not_called h]
        cases announcedSince p.toolCallId entries <;> rfl
      unfold JoinsAlike
      rw [hannounced hown, hannounced hbefore, hshown hown, hshown hbefore, Prod.mk.injEq]
      exact ⟨fun h => ⟨fun hcalled => absurd hcalled hown, fun _ => ⟨hbefore, h.2⟩⟩, fun h => ⟨rfl, (h.2 hown).2⟩⟩

/-! ## The turns of one invocation -/

section Invocation

variable {i : String}

theorem ofInvocation_append (before : List (Nat × Event)) (entry : Nat × Event) :
    ofInvocation i (before ++ [entry]) =
      if entry.2.envelope.invocationId = i then ofInvocation i before ++ [entry] else ofInvocation i before := by
  unfold ofInvocation
  rw [List.filter_append, List.filter_singleton]
  split <;> next h => simp_all

/-- The event is an opening request with a prompt in it. -/
def opens : EventPayload → Bool
  | .llmRequest messages origin => isOpeningRequest messages origin && (promptFromMessages messages).isSome
  | _ => false

theorem mem_apply_prompted (fold : TurnFold) (entry : Nat × Event) :
    i ∈ (fold.apply entry.1 entry.2).1.prompted ↔
      (opens entry.2.payload = true ∧ entry.2.envelope.invocationId = i) ∨ i ∈ fold.prompted := by
  obtain ⟨seq, envelope, payload⟩ := entry
  cases payload with
  | llmRequest messages origin =>
    simp only [apply, opens]
    cases isOpeningRequest messages origin with
    | false => simp
    | true =>
      cases promptFromMessages messages with
      | none => simp
      | some prompt =>
        by_cases hseen : envelope.invocationId ∈ fold.prompted
        · simp only [if_true, if_pos hseen, Option.isSome_some, Bool.and_self, true_and]
          exact ⟨.inr, fun h => h.elim (fun heq => heq ▸ hseen) id⟩
        · simp only [if_true, if_neg hseen, Option.isSome_some, Bool.and_self, true_and, Finset.mem_insert]
          rw [eq_comm]
  | _ => simp [apply, opens]

/-- Whether the prompt of an invocation has been seen depends on its own events alone. -/
theorem prompted_ofInvocation (before : List (Nat × Event)) :
    i ∈ (new.run before).prompted ↔ i ∈ (new.run (ofInvocation i before)).prompted := by
  induction before using List.reverseRecOn with
  | nil => rfl
  | append_singleton before entry ih =>
    rw [run_append, mem_apply_prompted, ofInvocation_append, ih]
    split
    · rw [run_append, mem_apply_prompted]
    · next hother => simp [hother]

theorem apply_turn_invocation {fold : TurnFold} {seq : Nat} {event : Event} {t : TurnState}
    (h : (fold.apply seq event).2 = some t) : t.invocationId = event.envelope.invocationId := by
  obtain ⟨envelope, payload⟩ := event
  cases payload with
  | llmRequest messages origin =>
    simp only [apply] at h
    split at h
    · split at h
      · cases h
      · split at h
        · cases h
        · cases h
          rfl
    · cases h
  | toolCall call => cases h
  | other => cases h
  | _ =>
    cases h
    rfl

/-- Apart from a result, the turn of an event depends on the fold only through the prompt. -/
theorem apply_turn_congr {f g : TurnFold} {seq : Nat} {event : Event}
    (hprompted : event.envelope.invocationId ∈ f.prompted ↔ event.envelope.invocationId ∈ g.prompted)
    (hresult : ∀ p, event.payload ≠ .toolResult p) : (f.apply seq event).2 = (g.apply seq event).2 := by
  obtain ⟨envelope, payload⟩ := event
  cases payload with
  | llmRequest messages origin =>
    simp only [apply, hprompted]
    split
    · split
      · rfl
      · split <;> rfl
    · rfl
  | toolResult p => exact absurd rfl (hresult p)
  | _ => rfl

/-- `Unmixed` for the rest of a log, some events into it. -/
def UnmixedFrom (i : String) (before after : List (Nat × Event)) : Prop :=
  ∀ mid seq event rest p, after = mid ++ (seq, event) :: rest → event.envelope.invocationId = i →
    event.payload = .toolResult p → JoinsAlike p (before ++ mid) (ofInvocation i (before ++ mid))

theorem unmixedFrom_cons {before after : List (Nat × Event)} {seq : Nat} {event : Event} :
    UnmixedFrom i before ((seq, event) :: after) ↔
      (event.envelope.invocationId = i → ∀ p, event.payload = .toolResult p →
        JoinsAlike p before (ofInvocation i before)) ∧
      UnmixedFrom i (before ++ [(seq, event)]) after := by
  constructor
  · intro h
    refine ⟨fun hi p hp => ?_, fun mid seq' event' rest p hafter hi hp => ?_⟩
    · have hhere := h [] seq event after p rfl hi hp
      rwa [List.append_nil] at hhere
    · have hthere := h ((seq, event) :: mid) seq' event' rest p (by rw [hafter]; rfl) hi hp
      rw [List.append_assoc]
      exact hthere
  · rintro ⟨hhere, hthere⟩ mid seq' event' rest p hafter hi hp
    cases mid with
    | nil =>
      cases hafter
      rw [List.append_nil]
      exact hhere hi p hp
    | cons entry mid =>
      obtain ⟨rfl, hrest⟩ := List.cons.inj hafter
      have hlater := hthere mid seq' event' rest p hrest hi hp
      rwa [List.append_assoc] at hlater

/-- From any point of the log on, by the next event: one of another invocation yields no turn
of this one, and one of this invocation yields the same turn in both folds, or else is a result
that the two folds join differently. -/
theorem turns_iff (before after : List (Nat × Event))
    (hseqs : ∀ a ∈ before ++ after, ∀ b ∈ before ++ after, a.1 = b.1 → a = b) :
    ((new.run before).turns after).filter (fun t => t.invocationId = i) =
        (new.run (ofInvocation i before)).turns (ofInvocation i after) ↔
      UnmixedFrom i before after := by
  induction after generalizing before with
  | nil => simp [turns, ofInvocation, UnmixedFrom]
  | cons entry after ih =>
    obtain ⟨seq, event⟩ := entry
    have hrest := ih (before ++ [(seq, event)]) (by simpa using hseqs)
    rw [run_append, ofInvocation_append] at hrest
    rw [unmixedFrom_cons, ← hrest, turns, List.filter_append]
    by_cases hi : event.envelope.invocationId = i
    · have hown : ofInvocation i ((seq, event) :: after) = (seq, event) :: ofInvocation i after := by
        simp [ofInvocation, hi]
      have hkept : ((new.run before).apply seq event).2.toList.filter (fun t => t.invocationId = i) =
          ((new.run before).apply seq event).2.toList := by
        refine List.filter_eq_self.mpr fun t ht => ?_
        rw [apply_turn_invocation (Option.mem_toList.mp ht), hi]
        exact decide_eq_true rfl
      rw [hown, turns, hkept, if_pos hi, run_append]
      by_cases hresult : ∃ p, event.payload = .toolResult p
      · obtain ⟨p, hp⟩ := hresult
        have hturn (fold : TurnFold) : (fold.apply seq event).2.toList =
            [resultTurn seq event.envelope p (fold.calls p.toolCallId)] := by
          simp only [apply, hp, Option.toList_some]
        have hsub : ofInvocation i before ⊆ before := List.filter_subset_self before
        have hjoin := resultTurn_iff seq event.envelope p hsub
          fun a ha b hb => hseqs a (List.mem_append_left _ ha) b (List.mem_append_left _ hb)
        rw [hturn, hturn, List.singleton_append, List.singleton_append, List.cons.injEq, hjoin]
        refine and_congr_left fun _ => ⟨fun h _ p' hp' => ?_, fun h => h hi p hp⟩
        cases hp.symm.trans hp'
        exact h
      · have hsame : ((new.run before).apply seq event).2 = ((new.run (ofInvocation i before)).apply seq event).2 :=
          apply_turn_congr (hi ▸ prompted_ofInvocation before) fun p hp => hresult ⟨p, hp⟩
        rw [hsame, List.append_cancel_left_eq]
        exact ⟨fun h => ⟨fun _ p hp => absurd ⟨p, hp⟩ hresult, h⟩, fun h => h.2⟩
    · have hown : ofInvocation i ((seq, event) :: after) = ofInvocation i after := by
        simp [ofInvocation, hi]
      have hnone : ((new.run before).apply seq event).2.toList.filter (fun t => t.invocationId = i) = [] := by
        refine List.filter_eq_nil_iff.mpr fun t ht => ?_
        rw [apply_turn_invocation (Option.mem_toList.mp ht), decide_eq_true_eq]
        exact hi
      rw [hown, hnone, if_neg hi, List.nil_append]
      exact ⟨fun h => ⟨fun hi' => absurd hi' hi, h⟩, fun h => h.2⟩

end Invocation

end TurnFold

/-- Folding the whole log and keeping the turns of one invocation gives what folding its own
events gives, exactly for the logs that are unmixed for it. -/
theorem turns_of_invocation_iff (log : EventLog) (i : String) :
    (TurnFold.new.turns log.entries).filter (fun t => t.invocationId = i) =
        TurnFold.new.turns (ofInvocation i log.entries) ↔
      Unmixed log i := by
  refine TurnFold.turns_iff [] log.entries fun a ha b hb hseq => ?_
  have hnodup : (log.entries.map Prod.fst).Nodup := log.ascending.imp fun h => Nat.ne_of_lt h
  exact List.inj_on_of_nodup_map hnodup ha hb hseq

/-! ## Two invocations that number their calls alike -/

/-- The ids an invocation's responses call are distinct. -/
def DistinctCalls (log : EventLog) : Prop :=
  ∀ i, ((ofInvocation i log.entries).flatMap fun entry => entry.2.payload.requested).Nodup

/-- Every result comes after the response of its invocation that asked for it. -/
def ResultsFollow (log : EventLog) : Prop :=
  ∀ before seq event after p, log.entries = before ++ (seq, event) :: after → event.payload = .toolResult p →
    ∃ entry ∈ before, entry.2.envelope.invocationId = event.envelope.invocationId ∧
      p.toolCallId ∈ entry.2.payload.requested

/-- A response, by either invocation, that makes its first call. -/
def calls (i : String) : Event :=
  ⟨⟨i, "agent", 0, none⟩, .llmResponse 1 [.toolCall ⟨"call_1", "read_file", .string i⟩]⟩

def answered (i : String) : Event := ⟨⟨i, "agent", 0, none⟩, .toolResult ⟨1, "read_file", "call_1", "ok", false⟩⟩

def sameNumber : EventLog := ⟨[(1, calls "a"), (2, calls "b"), (3, answered "a"), (4, answered "b")], by decide⟩

/-- The result of `a` is shown as answering the turn of `b`, with the parameters of `b`. -/
theorem sameNumber_mixed :
    DistinctCalls sameNumber ∧ ResultsFollow sameNumber ∧
    (TurnFold.new.turns sameNumber.entries).filter (fun t => t.invocationId = "a") ≠
      TurnFold.new.turns (ofInvocation "a" sameNumber.entries) := by
  refine ⟨fun i => ?_, fun before seq event after p hlog hp => ?_, fun h => ?_⟩
  · have hentries : ofInvocation i sameNumber.entries =
        (if "a" = i then [(1, calls "a")] else []) ++ (if "b" = i then [(2, calls "b")] else []) ++
          (if "a" = i then [(3, answered "a")] else []) ++ (if "b" = i then [(4, answered "b")] else []) := by
      by_cases ha : "a" = i <;> by_cases hb : "b" = i <;> simp [ofInvocation, sameNumber, calls, answered, ha, hb]
    rw [hentries]
    by_cases ha : "a" = i
    · subst ha
      decide
    · by_cases hb : "b" = i
      · subst hb
        decide
      · simp [ha, hb]
  · -- the result is the third event or the fourth, and both responses come before it
    match before, hlog with
    | [], hlog => cases hlog; cases hp
    | [_], hlog => cases hlog; cases hp
    | [_, _], hlog =>
      cases hlog
      cases hp
      exact ⟨(1, calls "a"), by simp, rfl, by decide⟩
    | [_, _, _], hlog =>
      cases hlog
      cases hp
      exact ⟨(2, calls "b"), by simp, rfl, by decide⟩
    | _ :: _ :: _ :: _ :: rest, hlog =>
      have hlength := congrArg List.length hlog
      simp only [sameNumber, List.length_cons, List.length_append, List.length_nil] at hlength
      omega
  · have hturns := congrArg (List.map TurnState.initiatingTurn) h
    exact absurd hturns (by decide)

end FactorQ.Views
