/-
# `FactorQ.Reducer.Stands` — where an incarnation stands, and what its rows say

The invariant of the loop: wherever the incarnation stands, the rows follow the
point it performs its next step from (`Pc.position`); inside a tool round that is
the turn of the round, until its last call is closed.
-/
import FactorQ.Reducer.Follows

namespace FactorQ.Reducer

open Lib Wal

variable {cfg : HostConfig} {w w' : Wal} {rounds rs : List Round} {x : Round} {p : Point} {next : HarnessState}

/-! ## Where the incarnation stands -/

/-- The point of the next step, or of the tool round the incarnation is in. -/
def Pc.position (cfg : HostConfig) : Pc → Option Point
  | .boundary p _ | .noticing p _ _ | .model p _ _ | .deferring p _ | .stamped p | .announcing p => some p
  | .answered p next r => some ⟨some next, some (.modelResult r), p.stepIndex + 1⟩
  | .tools p next done req rest q =>
    match rest, q.closed cfg req with
    | [], some r => some (Host.roundPoint p next (done ++ [r]))
    | _, _ => some p
  | .failing p _ _ _ => p
  | .completing | .handingOff _ _ | .finished _ => none

/-- What the results of the round are at each point of a call: `done` are those
fed back so far in this incarnation. -/
def ToolPoint.Holds (cfg : HostConfig) (req : ToolCallRequest) (w : Wal) (x : Round)
    (done : List ToolCallResult) : ToolPoint → Prop
  | .start =>
    Quiet w ∧ done.map ToolCallResult.recorded <+: x.results ∧ x.results.length < x.response.toolCalls.length
  | .rewrite =>
    Quiet w ∧ x.results = done.map ToolCallResult.recorded ++
      [(syntheticResult req.toolCallId .executionFailed
        (missingToolMessage (cfg.prepare req).toolName)).recorded]
  | .judging r => Quiet w ∧ x.results = done.map ToolCallResult.recorded ++ [r.recorded]
  | .serving origin q => x.results = done.map ToolCallResult.recorded ∧ q.Owns w origin.origin
  | .returned r => x.results = done.map ToolCallResult.recorded ∧ r.toolCallId = req.toolCallId
  | _ => x.results = done.map ToolCallResult.recorded

structure AtCall (cfg : HostConfig) (w : Wal) (p : Point) (next : HarnessState) (done : List ToolCallResult)
    (req : ToolCallRequest) (rest : List ToolCallRequest) (q : ToolPoint) (rs : List Round) (x : Round) :
    Prop where
  round : InRound cfg w p next rs x
  calls : ∃ before, x.response.toolCalls = before ++ req :: rest ∧ before.length = done.length
  holds : q.Holds cfg req w x done

/-- The rows follow the incarnation. -/
def Stands (cfg : HostConfig) (w : Wal) : Pc → Prop
  | .boundary p carried | .noticing p carried _ =>
    ∃ rounds, Follows cfg w rounds p ∧ Quiet w ∧ carried = w.noticesAt p.stepIndex
  | .model p next q =>
    ∃ rounds, Follows cfg w rounds p ∧ Quiet w ∧ cutLast rounds = rounds ∧
      (∃ out, cfg.stepAt w p = .ok out ∧ out.state = next) ∧ q.Owns w .agentTurn
  | .answered p next r =>
    ∃ rounds, Follows cfg w rounds ⟨some next, some (.modelResult r), p.stepIndex + 1⟩ ∧ Quiet w ∧
      w.noticesAt (p.stepIndex + 1) = []
  | .deferring p _ | .stamped p | .announcing p | .failing (some p) _ _ _ => ∃ rounds, Follows cfg w rounds p
  | .tools p next done req rest q => ∃ rs x, AtCall cfg w p next done req rest q rs x
  | .failing none _ _ _ | .completing | .handingOff _ _ | .finished _ => ∃ rounds p, Follows cfg w rounds p

/-! ## Calls of a round -/

namespace AtCall

variable {done : List ToolCallResult} {req : ToolCallRequest} {rest : List ToolCallRequest} {q : ToolPoint}

section

variable (h : AtCall cfg w p next done req rest q rs x)
include h

theorem callId : x.callIds[done.length]? = some req.toolCallId := by
  obtain ⟨before, hcalls, hlen⟩ := h.calls
  rw [Round.callIds, hcalls, ← hlen, List.getElem?_map, List.getElem?_append_right (Nat.le_refl _),
    Nat.sub_self]
  rfl

theorem length_calls : x.response.toolCalls.length = done.length + 1 + rest.length := by
  obtain ⟨before, hcalls, hlen⟩ := h.calls
  rw [hcalls, List.length_append, List.length_cons, hlen]
  omega

/-- The call is the next one while none of its results is recorded. -/
theorem nextCall (hres : x.results = done.map ToolCallResult.recorded) :
    x.callIds[x.results.length]? = some req.toolCallId := by
  rw [hres, List.length_map]
  exact h.callId

end

theorem calls_tail {req' : ToolCallRequest} {rest' : List ToolCallRequest} (r : ToolCallResult)
    (h : AtCall cfg w p next done req (req' :: rest') q rs x) :
    ∃ before, x.response.toolCalls = before ++ req' :: rest' ∧ before.length = (done ++ [r]).length := by
  obtain ⟨before, hcalls, hlen⟩ := h.calls
  refine ⟨before ++ [req], ?_, by simp [hlen]⟩
  rw [hcalls, List.append_assoc]
  rfl

section

variable (h : AtCall cfg w p next done req rest q rs x)
include h

theorem closed_results {r : ToolCallResult} (hc : q.closed cfg req = some r) :
    Quiet w ∧ x.results = (done ++ [r]).map ToolCallResult.recorded := by
  have hholds := h.holds
  rw [List.map_append, List.map_singleton]
  cases q <;> first | (cases hc; done) | (cases hc; exact hholds)

theorem open_results (hc : q.closed cfg req = none) :
    x.results.length < x.response.toolCalls.length := by
  have hlen := h.length_calls
  have hholds := h.holds
  have hdone : x.results = done.map ToolCallResult.recorded → x.results.length < x.response.toolCalls.length := by
    intro hres
    rw [hres, List.length_map]
    omega
  cases q with
  | start => exact hholds.2.2
  | rewrite | judging => cases hc
  | serving | returned => exact hdone hholds.1
  | intent | invoke | missing | running => exact hdone hholds
  | synthetic status kind message => exact hdone hholds

/-- Where the round is picked up again, or left. -/
theorem follows :
    (Pc.tools p next done req rest q).position cfg = some p ∧ Follows cfg w (rs ++ [x]) p ∨
      ∃ r, rest = [] ∧ q.closed cfg req = some r ∧
        (Pc.tools p next done req rest q).position cfg = some (Host.roundPoint p next (done ++ [r])) ∧
        Follows cfg w (rs ++ [x]) (Host.roundPoint p next (done ++ [r])) ∧
        w.noticesAt (p.stepIndex + 1) = [] := by
  have hlen := h.length_calls
  cases hc : q.closed cfg req with
  | none =>
    refine .inl ⟨?_, h.round.follows (h.open_results hc)⟩
    simp [Pc.position, hc]
  | some r =>
    obtain ⟨hquiet, hres⟩ := h.closed_results hc
    have hcount : x.results.length = done.length + 1 := by simp [hres]
    cases rest with
    | cons req' rest' =>
      refine .inl ⟨by simp [Pc.position], h.round.follows ?_⟩
      rw [List.length_cons] at hlen
      omega
    | nil =>
      rw [List.length_nil] at hlen
      have hfull := h.round.follows_full (by omega) (by rw [hres]; simp) hres.symm
      refine .inr ⟨r, rfl, rfl, ?_, hfull.1, hfull.2.2⟩
      simp [Pc.position, hc]

end

end AtCall

/-- Wherever the incarnation stands, there is a point to resume from. -/
theorem Stands.base {pc : Pc} (h : Stands cfg w pc) : ∃ rounds p, Follows cfg w rounds p := by
  cases pc with
  | boundary p _ | noticing p _ _ | model p _ _ =>
    obtain ⟨rounds, hf, -⟩ := h
    exact ⟨rounds, p, hf⟩
  | answered p next r =>
    obtain ⟨rounds, hf, -⟩ := h
    exact ⟨rounds, _, hf⟩
  | deferring p _ | stamped p | announcing p =>
    obtain ⟨rounds, hf⟩ := h
    exact ⟨rounds, p, hf⟩
  | tools p next done req rest q =>
    obtain ⟨rs, x, hc⟩ := h
    rcases hc.follows with ⟨-, hf⟩ | ⟨r, -, -, -, hf, -⟩
    · exact ⟨_, _, hf⟩
    · exact ⟨_, _, hf⟩
  | failing p _ _ _ =>
    cases p with
    | none => exact h
    | some p =>
      obtain ⟨rounds, hf⟩ := h
      exact ⟨rounds, p, hf⟩
  | completing | handingOff | finished => exact h

theorem Stands.position {pc : Pc} (h : Stands cfg w pc) (hp : pc.position cfg = some p) :
    ∃ rounds, Follows cfg w rounds p := by
  cases pc with
  | boundary p _ | noticing p _ _ | model p _ _ | answered p _ _ =>
    cases hp
    obtain ⟨rounds, hf, -⟩ := h
    exact ⟨rounds, hf⟩
  | deferring p _ | stamped p | announcing p =>
    cases hp
    exact h
  | tools p next done req rest q =>
    obtain ⟨rs, x, hc⟩ := h
    rcases hc.follows with ⟨hpos, hf⟩ | ⟨r, -, -, hpos, hf, -⟩
    · rw [hpos] at hp
      cases hp
      exact ⟨_, hf⟩
    · rw [hpos] at hp
      cases hp
      exact ⟨_, hf⟩
  | failing p _ _ _ =>
    cases hp
    exact h
  | completing | handingOff | finished => cases hp

/-! ## The step at a boundary -/

/-- The last round of a history that reaches a model turn with calls is that turn
with its results cut. -/
theorem Follows.inRound (h : Follows cfg w (rs ++ [x]) p)
    (hlt : x.results.length < x.response.toolCalls.length) {out : StepOutput}
    (hstep : cfg.stepAt w p.recorded = .ok out)
    (hwait : w.tools.All fun id row => row.status = .dispatched → x.callIds[x.results.length]? = some id) :
    InRound cfg w p.recorded out.state rs x := by
  have hreach := h.reached
  rw [cutLast_concat, Round.cut, if_pos hlt] at hreach
  have hcaps : capsOf (rs ++ [⟨x.response, []⟩]) = capsOf rs ++ [.modelResult x.response] := by
    rw [capsOf_concat]
    rfl
  refine ⟨h.logged, h.answers, h.noticed, h.numbered, ?_, hreach, ⟨out, hstep, rfl⟩, hwait⟩
  rw [hcaps] at hreach
  obtain ⟨r, o, -, -, hq⟩ := replaySteps_concat_inv hreach
  rw [hq]

theorem lastResult_of_recorded {r : ModelResponse} (h : p.recorded.lastResult = some (.modelResult r)) :
    p.lastResult = some (.modelResult r) := by
  obtain ⟨c, hc, hr⟩ := Option.map_eq_some_iff.mp h
  rw [hc]
  cases c with
  | modelResult r' => exact congrArg some hr
  | toolResult | parallelToolResults | cancelled | hostError => cases hr

theorem recorded_of_model {r : ModelResponse} (h : p.lastResult = some (.modelResult r)) : p.recorded = p := by
  obtain ⟨state, last, k⟩ := p
  cases h
  rfl

/-- A step that asks for the model leaves no round half performed. -/
theorem Follows.cutLast_eq (h : Follows cfg w rounds p)
    (hno : (cfg.stepInput p ((w.noticesAt p.stepIndex).map NoticeRow.body)).isFirst = false →
      ∀ r, p.lastResult = some (.modelResult r) → r.toolCalls = []) : cutLast rounds = rounds := by
  rcases List.eq_nil_or_concat rounds with rfl | ⟨rs, x, rfl⟩
  · rfl
  · rw [List.concat_eq_append] at h ⊢
    rw [cutLast_concat, Round.cut]
    split
    · next hlt =>
      -- the history ends with a turn whose calls were dispatched
      exfalso
      have hreach := h.reached
      rw [cutLast_concat, Round.cut, if_pos hlt, capsOf_concat] at hreach
      obtain ⟨r, out, -, hout, hq⟩ := replaySteps_concat_inv hreach
      have hlast := lastResult_of_recorded (congrArg Point.lastResult hq)
      have hstate : p.state = some out.state := congrArg Point.state hq
      have hphase := (step_spec hout).phase_ne_initial
      have hcalls := hno (by simp [StepInput.isFirst, HostConfig.stepInput, hstate, hphase]) _ hlast
      rw [hcalls] at hlt
      exact absurd hlt (Nat.not_lt_zero _)
    · rfl

/-- A step that dispatches tools performs the last round. -/
theorem Follows.tools (h : Follows cfg w rounds p) (hquiet : Quiet w) {r : ModelResponse}
    (htaken : p.lastResult = some (.modelResult r)) (hne : r.toolCalls ≠ []) {out : StepOutput}
    (hstep : cfg.stepAt w p = .ok out) :
    ∃ rs x, x.response = r ∧ InRound cfg w p out.state rs x ∧
      x.results.length < x.response.toolCalls.length := by
  have hrec := recorded_of_model htaken
  have hlast : p.recorded.lastResult = some (.modelResult r) := by rw [hrec, htaken]
  rcases List.eq_nil_or_concat rounds with rfl | ⟨rs, x, rfl⟩
  · have hreach := h.reached
    have hstart : p.recorded = Point.start := (Except.ok.inj hreach).symm
    rw [hstart] at hlast
    cases hlast
  · rw [List.concat_eq_append] at h
    have hreach := h.reached
    rw [cutLast_concat, capsOf_concat] at hreach
    by_cases hlt : x.results.length < x.response.toolCalls.length
    · refine ⟨rs, x, ?_, ?_, hlt⟩
      · rw [Round.cut, if_pos hlt] at hreach
        obtain ⟨q, o, -, -, hq⟩ := replaySteps_concat_inv hreach
        rw [hq] at hlast
        cases hlast
        rfl
      · have hin := h.inRound hlt (hrec.symm ▸ hstep) fun id row hg hs => absurd hs (hquiet id row hg)
        exact hrec ▸ hin
    · -- a complete round ends in its results, not in its turn
      exfalso
      rw [Round.cut, if_neg hlt] at hreach
      by_cases hres : x.results = []
      · have hcaps : x.caps = [.modelResult x.response] := by rw [Round.caps, hres]; rfl
        rw [hcaps] at hreach
        obtain ⟨q, o, -, -, hq⟩ := replaySteps_concat_inv hreach
        rw [hq] at hlast
        cases hlast
        rw [hres] at hlt
        exact hne (List.eq_nil_of_length_eq_zero (Nat.le_zero.mp (Nat.not_lt.mp hlt)))
      · have hcaps : capsOf rs ++ x.caps = (capsOf rs ++ [.modelResult x.response]) ++ [batchResult x.results] := by
          rw [InRound.caps_full hres x.response, List.append_assoc]
          rfl
        rw [hcaps] at hreach
        obtain ⟨q, o, -, -, hq⟩ := replaySteps_concat_inv hreach
        rw [hq] at hlast
        rcases hx : x.results with _ | ⟨a, _ | ⟨b, rest⟩⟩ <;> rw [hx] at hlast <;> cases hlast

end FactorQ.Reducer
