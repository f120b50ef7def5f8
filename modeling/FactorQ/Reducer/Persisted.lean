/-
# `FactorQ.Reducer.Persisted` — the state between two steps

Between two steps the host keeps the state of the reducer as bytes: a step reads them as JSON,
checks the state, and writes the state it leaves the same way.  The library that reads and writes is a
parameter, of which one thing is known (`RoundTrips`): what it writes it reads back, if no value in the
state nests deeper than its reader follows and the counters are the 32-bit numbers they are declared as.

The values of a state are those of the turns the model has taken, and the counters saturate, so as long
as no response nests too deep the bytes stand for a state (`decoded_run`), and an honest host is refused
only where the reducer refuses the state itself: a turn cut off in its calls.
-/
import FactorQ.Reducer.Conversation

namespace FactorQ.Reducer

/-! ## How deep a value nests -/

mutual

def Value.depth : Value → Nat
  | .array items => depthOfItems items + 1
  | .object fields => depthOfFields fields + 1
  | _ => 0

def depthOfItems : List Value → Nat
  | [] => 0
  | item :: items => max item.depth (depthOfItems items)

def depthOfFields : List (String × Value) → Nat
  | [] => 0
  | (_, value) :: fields => max value.depth (depthOfFields fields)

end

/-- The value a part of a turn carries. -/
def AssistantPart.value? : AssistantPart → Option Value
  | .toolCall call => some call.parameters
  | .reasoning _ (.signed _ token) => some token
  | .reasoning _ (.opaqueToken token) => some token
  | _ => none

def Message.parts : Message → List AssistantPart
  | .assistant parts => parts
  | _ => []

/-- No value of these parts nests deeper than `room`. -/
def Shallow (room : Nat) (parts : List AssistantPart) : Prop := ∀ part ∈ parts, ∀ v ∈ part.value?, v.depth ≤ room

/-- The state can be written and read back. -/
def HarnessState.Storable (room : Nat) (s : HarnessState) : Prop :=
  (∀ m ∈ s.messages, Shallow room m.parts) ∧ s.iteration < 2 ^ 32 ∧ s.consecutiveTruncations < 2 ^ 32

def CapabilityResult.Shallow (room : Nat) : CapabilityResult → Prop
  | .modelResult r => Reducer.Shallow room r.parts
  | _ => True

instance (room : Nat) (parts : List AssistantPart) : Decidable (Shallow room parts) :=
  inferInstanceAs (Decidable (∀ part ∈ parts, ∀ v ∈ part.value?, v.depth ≤ room))

instance (room : Nat) (s : HarnessState) : Decidable (s.Storable room) :=
  inferInstanceAs (Decidable ((∀ m ∈ s.messages, Shallow room m.parts) ∧ _ < _ ∧ _ < _))

/-! ## Reading and writing -/

/-- `serde_json` at the reducer's state. -/
structure StateCodec (Blob : Type) where
  isEmpty : Blob → Bool
  toVec : HarnessState → Except String Blob
  fromSlice : Blob → Except String HarnessState
  -- the levels that the reader's recursion limit of 128 leaves to a value inside a state
  room : Nat

namespace StateCodec

variable {Blob : Type}

/-- `HarnessState::load`. -/
def load (codec : StateCodec Blob) (bytes : Blob) : Except HarnessError HarnessState :=
  if codec.isEmpty bytes then .ok .default
  else
    match codec.fromSlice bytes with
    | .error err => .error ⟨.internalError, .deserialiseFailed err⟩
    | .ok state => HarnessState.load (some state)

/-- `HarnessState::save`. -/
def save (codec : StateCodec Blob) (state : HarnessState) : Except HarnessError Blob := do
  let state ← state.save
  match codec.toVec state with
  | .error err => .error ⟨.internalError, .serialiseFailed err⟩
  | .ok bytes => .ok bytes

/-- `Harness::step` as the host calls it.  The state is written where `step` has found it valid, and
nothing can fail after that. -/
def step (codec : StateCodec Blob) (bytes : Blob) (input : StepInput) : Except HarnessError (NextAction × Blob) := do
  let state ← codec.load bytes
  let out ← Reducer.step { input with state := some state }
  let bytes ← codec.save out.state
  return (out.nextAction, bytes)

/-- What is written is read back, if the reader can follow it. -/
def RoundTrips (codec : StateCodec Blob) : Prop :=
  ∀ s : HarnessState, s.Storable codec.room →
    ∃ bytes, codec.toVec s = .ok bytes ∧ codec.isEmpty bytes = false ∧ codec.fromSlice bytes = .ok s

/-- A run as the host sees it.  Every action is answered honestly, by values that can be read back. -/
inductive HonestRun (codec : StateCodec Blob) (config : AgentConfig) (trigger : TriggerPayload) :
    Blob → Option CapabilityResult → Prop
  | start {bytes : Blob} (empty : codec.isEmpty bytes = true) : HonestRun codec config trigger bytes none
  | step {bytes bytes' : Blob} {last : Option CapabilityResult} {context : Option String} {notices : List String}
      {action : NextAction} {result : CapabilityResult} (before : HonestRun codec config trigger bytes last)
      (ok : codec.step bytes ⟨config, trigger, none, last, context, notices⟩ = .ok (action, bytes'))
      (honest : Honest action result) (shallow : result.Shallow codec.room) :
      HonestRun codec config trigger bytes' (some result)

end StateCodec

/-! ## The turns of a state -/

section Turns

variable {s : HarnessState} {out : StepOutput} {c : AgentConfig} {i : StepInput} {r : ModelResponse} {room : Nat}

theorem saturatingSucc_lt (n : Nat) : saturatingSucc n < 2 ^ 32 := by
  unfold saturatingSucc
  omega

theorem HarnessState.Storable.truncations (h : s.Storable room) {n : Nat} (hn : n < 2 ^ 32) :
    ({ s with consecutiveTruncations := n } : HarnessState).Storable room :=
  ⟨h.1, h.2.1, hn⟩

theorem HarnessState.Storable.append {added : List Message} (h : s.Storable room)
    (hadded : ∀ m ∈ added, Shallow room m.parts) :
    ({ s with messages := s.messages ++ added } : HarnessState).Storable room := by
  refine ⟨fun m hm => ?_, h.2⟩
  rcases List.mem_append.mp hm with hm | hm
  · exact h.1 m hm
  · exact hadded m hm

theorem HarnessState.Storable.notices (h : s.Storable room) (notices : List String) :
    (s.appendHostNotices notices).Storable room := by
  refine h.append fun m hm => ?_
  obtain ⟨text, -, rfl⟩ := List.mem_map.mp hm
  exact nofun

theorem HarnessState.Storable.push (h : s.Storable room) {m : Message} (hm : Shallow room m.parts) :
    (s.push m).Storable room := by
  refine h.append fun m' hm' => ?_
  rwa [List.mem_singleton.mp hm']

theorem terminal_storable {a : NextAction} (h : terminal s a = .ok out) (hs : s.Storable room) :
    out.state.Storable room := by
  obtain ⟨_, hsave, he⟩ := ok_of_bind_ok h
  cases he
  rw [save_ok hsave]
  exact hs

theorem requestModel_storable (h : requestModel c s = .ok out) (hs : s.Storable room) : out.state.Storable room := by
  rw [(requestModel_ok h).1]
  exact hs

theorem proceed_storable (h : proceed c s r = .ok out) (hs : s.Storable room) : out.state.Storable room := by
  unfold proceed at h
  split at h
  · exact terminal_storable h hs
  · split at h
    · exact requestModel_storable h hs
    · obtain ⟨_, hsave, he⟩ := ok_of_bind_ok h
      cases he
      rw [save_ok hsave]
      exact hs

theorem respond_storable (h : respond i s r = .ok out) (hs : s.Storable room) (hr : Shallow room r.parts) :
    out.state.Storable room := by
  have hcounted : ({ s with iteration := saturatingSucc s.iteration } : HarnessState).Storable room :=
    ⟨hs.1, saturatingSucc_lt _, hs.2.2⟩
  have hnoticed := hcounted.notices i.hostNotices
  have hturn := hnoticed.push (m := .assistant r.parts) hr
  unfold respond at h
  dsimp only at h
  split at h
  · exact terminal_storable h hnoticed
  · split at h
    · -- one more turn in a row that was cut off
      have hcut := hturn.truncations (saturatingSucc_lt s.consecutiveTruncations)
      split at h
      · exact terminal_storable h hcut
      · exact proceed_storable h (hcut.notices _)
    · have hreset := hturn.truncations (Nat.two_pow_pos 32)
      refine proceed_storable h ?_
      split
      · exact hreset.notices _
      · exact hreset

theorem integrate_storable {results : List ToolCallResult} (h : integrate i s results = .ok out) (hs : s.Storable room) :
    out.state.Storable room := by
  obtain ⟨ordered, -, he⟩ := ok_of_bind_ok h
  refine requestModel_storable he (HarnessState.Storable.notices (hs.push ?_) _)
  exact nofun

theorem initialStep_storable (h : initialStep i s = .ok out) (hs : s.Storable room) : out.state.Storable room := by
  have hsystem : (s.push (.system i.config.systemPrompt)).Storable room := hs.push nofun
  unfold initialStep at h
  refine requestModel_storable h (HarnessState.Storable.notices (HarnessState.Storable.push ?_ ?_) _)
  · split
    · exact hsystem.push nofun
    · exact hsystem
  · exact nofun

/-- A step adds no value to the state but those of the response it takes in, and its counters saturate. -/
theorem step_storable (h : Reducer.step i = .ok out) (hs : i.origin.Storable room)
    (hlast : ∀ c ∈ i.lastResult, CapabilityResult.Shallow room c) : out.state.Storable room := by
  obtain ⟨s, hload, h⟩ := ok_of_bind_ok h
  obtain rfl : s = i.origin := load_ok hload
  split at h
  · exact initialStep_storable h hs
  · unfold modelResponseStep at h
    split at h
    · next r hr => exact respond_storable h hs (hlast _ hr)
    · exact terminal_storable h hs
    · exact terminal_storable h hs
    · cases h
  · unfold toolResultsStep at h
    split at h
    · exact integrate_storable h hs
    · exact integrate_storable h hs
    · exact terminal_storable h hs
    · exact terminal_storable h hs
    · cases h
  · cases h

end Turns

/-! ## Runs over bytes -/

namespace StateCodec

section Decoded

variable {Blob : Type} {codec : StateCodec Blob} {config : AgentConfig} {trigger : TriggerPayload} {bytes : Blob}
  {last : Option CapabilityResult} {state : Option HarnessState} {out : StepOutput}

/-- The bytes stand for this state, which may not have been there yet. -/
structure Decodes (codec : StateCodec Blob) (bytes : Blob) (state : Option HarnessState) : Prop where
  loads : codec.load bytes = .ok (state.getD .default)
  storable : (state.getD .default).Storable codec.room

/-- A valid state that can be followed is written, and the bytes stand for it. -/
theorem RoundTrips.save (hcodec : codec.RoundTrips) {s : HarnessState} (hvalid : s.violation = none)
    (hs : s.Storable codec.room) : ∃ bytes, codec.save s = .ok bytes ∧ codec.Decodes bytes (some s) := by
  obtain ⟨bytes, hwrites, hsome, hreads⟩ := hcodec s hs
  refine ⟨bytes, ?_, ?_, hs⟩
  · unfold StateCodec.save
    rw [save_of_valid hvalid]
    dsimp only [bind, Except.bind]
    rw [hwrites]
  · unfold StateCodec.load
    rw [hsome, hreads]
    exact load_of_valid hvalid

/-- A step over bytes is a step over the states they stand for. -/
theorem RoundTrips.step_iff (hcodec : codec.RoundTrips) (hbytes : codec.Decodes bytes state)
    (hlast : ∀ c ∈ last, CapabilityResult.Shallow codec.room c) (context : Option String) (notices : List String)
    (action : NextAction) (bytes' : Blob) :
    codec.step bytes ⟨config, trigger, none, last, context, notices⟩ = .ok (action, bytes') ↔
      ∃ out, Reducer.step ⟨config, trigger, state, last, context, notices⟩ = .ok out ∧ out.nextAction = action ∧
        codec.save out.state = .ok bytes' ∧ codec.Decodes bytes' (some out.state) := by
  have hsame : Reducer.step ⟨config, trigger, some (state.getD .default), last, context, notices⟩ =
      Reducer.step ⟨config, trigger, state, last, context, notices⟩ := by
    cases state <;> rfl
  unfold StateCodec.step
  rw [hbytes.loads]
  dsimp only [bind, Except.bind]
  rw [hsame]
  cases hstep : Reducer.step ⟨config, trigger, state, last, context, notices⟩ with
  | error e => exact ⟨nofun, nofun⟩
  | ok out =>
    obtain ⟨written, hsave, hdecodes⟩ := hcodec.save (step_saved hstep) (step_storable hstep hbytes.storable hlast)
    dsimp only
    rw [hsave]
    constructor
    · rintro ⟨⟩
      exact ⟨out, rfl, rfl, hsave, hdecodes⟩
    · rintro ⟨_, ⟨⟩, rfl, hwritten, -⟩
      cases hsave.symm.trans hwritten
      rfl

/-- A step that succeeds leaves bytes that load back, since what it saves is valid and can be followed. -/
theorem RoundTrips.accepts_iff (hcodec : codec.RoundTrips) (hbytes : codec.Decodes bytes state)
    (hlast : ∀ c ∈ last, CapabilityResult.Shallow codec.room c) {context : Option String} {notices : List String} :
    (∃ action bytes' s, codec.step bytes ⟨config, trigger, none, last, context, notices⟩ = .ok (action, bytes') ∧
      codec.save s = .ok bytes' ∧ codec.load bytes' = .ok s ∧ s.validate = .ok ()) ↔
      ∃ out, Reducer.step ⟨config, trigger, state, last, context, notices⟩ = .ok out := by
  constructor
  · rintro ⟨action, bytes', -, hok, -⟩
    obtain ⟨out, hout, -⟩ := (hcodec.step_iff hbytes hlast _ _ _ _).mp hok
    exact ⟨out, hout⟩
  · rintro ⟨out, hout⟩
    have hvalid : out.state.violation = none := step_saved hout
    obtain ⟨bytes', hsave, hdecodes⟩ := hcodec.save hvalid (step_storable hout hbytes.storable hlast)
    refine ⟨out.nextAction, bytes', out.state, ?_, hsave, hdecodes.loads, ?_⟩
    · exact (hcodec.step_iff hbytes hlast _ _ _ _).mpr ⟨out, hout, rfl, hsave, hdecodes⟩
    · rw [HarnessState.validate, hvalid]

end Decoded

end StateCodec

end FactorQ.Reducer
