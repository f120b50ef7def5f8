/-
# `FactorQ.Reducer.StepBudget` — the step limit of the loop is not what ends a run

The loop performs at most `hostStepBudget` steps and the agent asks for at most
`maxIterations` turns.  A turn costs two steps at most, one that takes the turn in and one
that takes in the results of its calls, so half the limit is what an agent may be given.

  * `endsAfter` says of the turns alone whether taking in the last of them ends the
    invocation: an outcome declared, the third turn in a row cut off, or the cap met;
  * `Took` ties a saved state to the turns the reducer has taken in, and to the number of
    steps this took;
  * `GoesOn` says of the rows that nothing follows a turn that ends the invocation.

The last one is what a replay needs.  It does not look at the ids of the calls: a turn may
use an id twice, and the run may then be picked up at another place than it stood at.
-/
import FactorQ.Reducer.Resume

namespace FactorQ.Reducer

open Lib Wal

/-- `MAX_SUPPORTED_ITERATIONS`. -/
def maxSupportedIterations : Nat := hostStepBudget / 2

/-! ## What the turns say -/

/-- The turns cut off in a row, up to the last. -/
def truncationRun (turns : List ModelResponse) : Nat :=
  (turns.reverse.takeWhile fun r => r.stopReason = .maxTokens).length

theorem truncationRun_concat (turns : List ModelResponse) (r : ModelResponse) :
    truncationRun (turns ++ [r]) = if r.stopReason = .maxTokens then truncationRun turns + 1 else 0 := by
  unfold truncationRun
  rw [List.reverse_append, List.reverse_singleton, List.singleton_append, List.takeWhile_cons]
  by_cases hcut : r.stopReason = .maxTokens
  · simp [hcut]
  · simp [hcut]

/-- Taking in the last of the turns ends the invocation. -/
def endsAfter (c : AgentConfig) (turns : List ModelResponse) : Bool :=
  turns.getLast?.any fun r =>
    (declaredOutcome r).isSome || decide (maxConsecutiveTruncations ≤ truncationRun turns) ||
      decide (c.maxIterations ≤ turns.length)

theorem endsAfter_concat (c : AgentConfig) (turns : List ModelResponse) (r : ModelResponse) :
    endsAfter c (turns ++ [r]) = true ↔
      (declaredOutcome r).isSome = true ∨ maxConsecutiveTruncations ≤ truncationRun (turns ++ [r]) ∨
        c.maxIterations ≤ turns.length + 1 := by
  simp [endsAfter, or_assoc]

theorem length_lt_of_not_endsAfter {c : AgentConfig} {turns : List ModelResponse}
    (h : endsAfter c turns = false) : turns.length < max 1 c.maxIterations := by
  rcases List.eq_nil_or_concat turns with rfl | ⟨init, r, rfl⟩
  · exact Nat.lt_of_lt_of_le Nat.zero_lt_one (Nat.le_max_left _ _)
  · rw [List.concat_eq_append] at h ⊢
    have hno := mt (endsAfter_concat c init r).mpr (by simp [h])
    rw [not_or, not_or] at hno
    have hlt : init.length + 1 < c.maxIterations := Nat.not_le.mp hno.2.2
    rw [List.length_append, List.length_singleton]
    exact Nat.lt_of_lt_of_le hlt (Nat.le_max_right _ _)

/-! ## A state and the turns it took in -/

/-- The reducer has taken in the turns, and stands before step `k`. -/
structure Took (c : AgentConfig) (turns : List ModelResponse) (k : Nat) (s : HarnessState) : Prop where
  iteration : s.iteration = min turns.length (2 ^ 32 - 1)
  truncations : s.phase ≠ .done → s.consecutiveTruncations = min (truncationRun turns) (2 ^ 32 - 1)
  started : s.phase ≠ .initial
  ended : s.phase = .done ↔ endsAfter c turns = true
  index : k ≤ 2 * turns.length + 1
  dispatched : s.phase = .dispatchingTools → k ≤ 2 * turns.length

theorem saturatingSucc_min (n : Nat) : saturatingSucc (min n (2 ^ 32 - 1)) = min (n + 1) (2 ^ 32 - 1) := by
  unfold saturatingSucc
  omega

theorem Took.goesOn {c : AgentConfig} {turns : List ModelResponse} {k : Nat} {s : HarnessState}
    (h : Took c turns k s) (hs : s.phase ≠ .done) : endsAfter c turns = false := by
  cases hends : endsAfter c turns with
  | false => rfl
  | true => exact absurd (h.ended.mpr hends) hs

/-- A state that is not done is within the agent's turns. -/
theorem Took.index_lt {c : AgentConfig} {turns : List ModelResponse} {k : Nat} {s : HarnessState}
    (h : Took c turns k s) (hs : s.phase ≠ .done) : k < 2 * max 1 c.maxIterations := by
  have hlt := length_lt_of_not_endsAfter (h.goesOn hs)
  have hidx := h.index
  omega

section Step

variable {c : AgentConfig} {s : HarnessState} {out : StepOutput} {turns : List ModelResponse} {k : Nat}

theorem terminal_state {a : NextAction} (h : terminal s a = .ok out) : out.state = { s with phase := .done } := by
  obtain ⟨_, hs, he⟩ := ok_of_bind_ok h
  cases he
  exact save_ok hs

theorem requestModel_state (h : requestModel c s = .ok out) : out.state = { s with phase := .awaitingModel } := by
  obtain ⟨_, hs, he⟩ := ok_of_bind_ok h
  cases he
  exact save_ok hs

variable {i : StepInput}

theorem initialStep_state (h : initialStep i .default = .ok out) :
    out.state.phase = .awaitingModel ∧ out.state.iteration = 0 ∧ out.state.consecutiveTruncations = 0 := by
  rw [requestModel_state h]
  cases i.staticResourceContext <;> exact ⟨rfl, rfl, rfl⟩

variable {r : ModelResponse}

theorem proceed_state (h : proceed c s r = .ok out) :
    (c.maxIterations ≤ s.iteration ∧ out.state = { s with phase := .done }) ∨
      (¬ c.maxIterations ≤ s.iteration ∧ ∃ phase, out.state = { s with phase := phase } ∧
        (phase = .awaitingModel ∨ phase = .dispatchingTools)) := by
  unfold proceed at h
  split at h
  · next hcap => exact .inl ⟨hcap, terminal_state h⟩
  · next hmore =>
    split at h
    · exact .inr ⟨hmore, .awaitingModel, requestModel_state h, .inl rfl⟩
    · obtain ⟨_, hs, he⟩ := ok_of_bind_ok h
      cases he
      exact .inr ⟨hmore, .dispatchingTools, save_ok hs, .inr rfl⟩

/-- What follows a turn that did not end the invocation by itself. -/
theorem took_proceed (hcap : c.maxIterations ≤ maxSupportedIterations) (h : proceed c s r = .ok out)
    (hiter : s.iteration = min (turns.length + 1) (2 ^ 32 - 1))
    (htrunc : s.consecutiveTruncations = min (truncationRun (turns ++ [r])) (2 ^ 32 - 1))
    (hdecl : declaredOutcome r = none) (hfew : truncationRun (turns ++ [r]) < maxConsecutiveTruncations)
    (hk : k ≤ 2 * turns.length + 1) : Took c (turns ++ [r]) (k + 1) out.state := by
  have hmet : c.maxIterations ≤ s.iteration ↔ c.maxIterations ≤ turns.length + 1 := by
    unfold maxSupportedIterations hostStepBudget at hcap
    omega
  have hends : endsAfter c (turns ++ [r]) = true ↔ c.maxIterations ≤ s.iteration := by
    rw [endsAfter_concat, hdecl, hmet]
    simp [Nat.not_le.mpr hfew]
  have hlen : (turns ++ [r]).length = turns.length + 1 := by simp
  rcases proceed_state h with ⟨hdone, hout⟩ | ⟨hmore, phase, hout, hphase⟩
  · rw [hout]
    refine ⟨?_, fun hne => absurd rfl hne, ?_, ?_, by omega, ?_⟩
    · rw [hlen]
      exact hiter
    · exact Phase.noConfusion
    · exact iff_of_true rfl (hends.mpr hdone)
    · exact Phase.noConfusion
  · have hne : phase ≠ .done ∧ phase ≠ .initial := by
      rcases hphase with rfl | rfl <;> exact ⟨Phase.noConfusion, Phase.noConfusion⟩
    rw [hout]
    refine ⟨?_, fun _ => htrunc, hne.2, ?_, by omega, fun _ => by omega⟩
    · rw [hlen]
      exact hiter
    · exact iff_of_false hne.1 fun htrue => hmore (hends.mp htrue)

theorem took_respond (hc : i.config = c) (hcap : c.maxIterations ≤ maxSupportedIterations)
    (h : respond i s r = .ok out) (ht : Took c turns k s) (hphase : s.phase = .awaitingModel) :
    Took c (turns ++ [r]) (k + 1) out.state := by
  have hidx := ht.index
  have hlen : (turns ++ [r]).length = turns.length + 1 := by simp
  have hiter : saturatingSucc s.iteration = min (turns.length + 1) (2 ^ 32 - 1) := by
    rw [ht.iteration, saturatingSucc_min]
  have hcount := ht.truncations (by simp [hphase])
  -- the three ways a turn ends the invocation by itself or leaves it to the cap
  have hdone : ∀ s' : HarnessState, s'.iteration = saturatingSucc s.iteration →
      endsAfter c (turns ++ [r]) = true → Took c (turns ++ [r]) (k + 1) { s' with phase := .done } := by
    intro s' hs' hends
    refine ⟨?_, fun hne => absurd rfl hne, Phase.noConfusion, iff_of_true rfl hends, by omega, Phase.noConfusion⟩
    rw [hlen, ← hiter]
    exact hs'
  unfold respond at h
  dsimp only at h
  cases hdecl : declaredOutcome r with
  | some d =>
    rw [hdecl] at h
    rw [terminal_state h]
    refine hdone _ rfl ((endsAfter_concat c turns r).mpr (.inl ?_))
    rw [hdecl]
    rfl
  | none =>
    rw [hdecl] at h
    dsimp only at h
    split at h
    · next hcut =>
      have hrun : truncationRun (turns ++ [r]) = truncationRun turns + 1 := by
        rw [truncationRun_concat, if_pos hcut]
      have htrunc : saturatingSucc s.consecutiveTruncations =
          min (truncationRun (turns ++ [r])) (2 ^ 32 - 1) := by
        rw [hcount, saturatingSucc_min, hrun]
      split at h
      · next hmany =>
        rw [terminal_state h]
        refine hdone _ rfl ((endsAfter_concat c turns r).mpr (.inr (.inl ?_)))
        change maxConsecutiveTruncations ≤ saturatingSucc s.consecutiveTruncations at hmany
        rw [htrunc] at hmany
        exact Nat.le_trans hmany (Nat.min_le_left _ _)
      · next hfew =>
        change ¬ maxConsecutiveTruncations ≤ saturatingSucc s.consecutiveTruncations at hfew
        rw [htrunc] at hfew
        rw [hc] at h
        refine took_proceed hcap h hiter htrunc hdecl ?_ hidx
        unfold maxConsecutiveTruncations at hfew ⊢
        omega
    · next hcut =>
      have hrun : truncationRun (turns ++ [r]) = 0 := by rw [truncationRun_concat, if_neg hcut]
      rw [hc] at h
      have hzero : maxConsecutiveTruncations = 3 := rfl
      split at h <;> exact took_proceed hcap h hiter (by rw [hrun]; rfl) hdecl (by omega) hidx

theorem took_integrate {rs : List ToolCallResult} (h : integrate i s rs = .ok out) (ht : Took c turns k s)
    (hphase : s.phase = .dispatchingTools) : Took c turns (k + 1) out.state := by
  obtain ⟨results, -, hreq⟩ := ok_of_bind_ok h
  have hidx := ht.dispatched hphase
  rw [requestModel_state hreq]
  refine ⟨ht.iteration, fun _ => ht.truncations (by simp [hphase]), Phase.noConfusion, ?_, by omega,
    Phase.noConfusion⟩
  refine iff_of_false Phase.noConfusion fun hends => ?_
  have hdone := ht.ended.mpr hends
  rw [hphase] at hdone
  cases hdone

end Step

/-! ## A point and the turns behind it -/

/-- What a point has in its hands when the rows hold `turns`. -/
inductive StandsAfter (c : AgentConfig) : List ModelResponse → Point → Prop where
  | start : StandsAfter c [] .start
  | turn {turns : List ModelResponse} {k : Nat} {s : HarnessState} (r : ModelResponse) (took : Took c turns k s) :
      StandsAfter c (turns ++ [r]) ⟨some s, some (.modelResult r), k⟩
  | results {turns : List ModelResponse} {k : Nat} {s : HarnessState} (rs : List ToolCallResult)
      (took : Took c turns k s) : StandsAfter c turns ⟨some s, some (batchResult rs), k⟩

/-- The reducer has not ended the invocation before this point. -/
def Point.isOpen (p : Point) : Bool := p.state.all fun s => s.phase ≠ .done

section Point

variable {cfg : HostConfig} {turns : List ModelResponse} {p : Point} {out : StepOutput}

theorem StandsAfter.index_lt {c : AgentConfig} (h : StandsAfter c turns p) (hopen : p.isOpen = true) :
    p.stepIndex < 2 * max 1 c.maxIterations := by
  cases h with
  | start =>
    show 0 < 2 * max 1 c.maxIterations
    omega
  | turn r took | results rs took => exact took.index_lt (by simpa [Point.isOpen] using hopen)

theorem StandsAfter.step (hcap : cfg.agent.maxIterations ≤ maxSupportedIterations)
    (h : StandsAfter cfg.agent turns p) {notices : List String}
    (hstep : Reducer.step (cfg.stepInput p notices) = .ok out) :
    Took cfg.agent turns (p.stepIndex + 1) out.state := by
  obtain ⟨s, hload, hs⟩ := ok_of_bind_ok hstep
  cases h with
  | start =>
    cases hload
    change initialStep (cfg.stepInput Point.start notices) HarnessState.default = .ok out at hs
    obtain ⟨hphase, hiter, htrunc⟩ := initialStep_state hs
    refine ⟨hiter, fun _ => htrunc, by simp [hphase], ?_, Nat.le_refl _, by simp [hphase]⟩
    exact iff_of_false (by simp [hphase]) (by simp [endsAfter])
  | @turn turns k s₀ r took =>
    obtain ⟨_, -, he⟩ := ok_of_bind_ok hload
    cases he
    cases hphase : s.phase with
    | initial => exact absurd hphase took.started
    | awaitingModel =>
      rw [hphase] at hs
      exact took_respond rfl hcap hs took hphase
    | dispatchingTools =>
      rw [hphase] at hs
      cases hs
    | done =>
      rw [hphase] at hs
      cases hs
  | @results turns k s₀ rs took =>
    obtain ⟨_, -, he⟩ := ok_of_bind_ok hload
    cases he
    cases hphase : s.phase with
    | initial => exact absurd hphase took.started
    | awaitingModel =>
      rw [hphase] at hs
      rcases rs with _ | ⟨a, _ | ⟨b, rest⟩⟩ <;> cases hs
    | dispatchingTools =>
      rw [hphase] at hs
      rcases rs with _ | ⟨a, _ | ⟨b, rest⟩⟩ <;> exact took_integrate hs took hphase
    | done =>
      rw [hphase] at hs
      cases hs

end Point

/-! ## Nothing follows the end -/

def CapabilityResult.turn? : CapabilityResult → Option ModelResponse
  | modelResult r => some r
  | _ => none

/-- The turns among the capabilities. -/
def turnsIn (xs : List CapabilityResult) : List ModelResponse := xs.filterMap CapabilityResult.turn?

/-- What comes before each capability did not end the invocation. -/
def GoesOn (c : AgentConfig) (xs : List CapabilityResult) : Prop :=
  ∀ before x after, xs = before ++ x :: after → endsAfter c (turnsIn before) = false

section GoesOn

variable {c : AgentConfig} {xs ys : List CapabilityResult} {rounds : List Round}

theorem turnsIn_append (xs ys : List CapabilityResult) : turnsIn (xs ++ ys) = turnsIn xs ++ turnsIn ys :=
  List.filterMap_append

theorem turnsIn_results (rs : List ToolCallResult) : turnsIn (rs.map .toolResult) = [] := by
  induction rs with
  | nil => rfl
  | cons r rs ih => exact ih

theorem turnsIn_flushToolBatch (rs : List ToolCallResult) : turnsIn (flushToolBatch rs) = [] := by
  rcases rs with _ | ⟨a, _ | ⟨b, rest⟩⟩ <;> rfl

theorem turnsIn_flatten (rounds : List Round) : turnsIn (flatten rounds) = rounds.map Round.response := by
  induction rounds with
  | nil => rfl
  | cons x rest ih =>
    show turnsIn (x.flat ++ flatten rest) = x.response :: rest.map Round.response
    rw [turnsIn_append, ih, Round.flat]
    show x.response :: turnsIn (x.results.map .toolResult) ++ _ = _
    rw [turnsIn_results]
    rfl

theorem turnsIn_capsOf (rounds : List Round) : turnsIn (capsOf rounds) = rounds.map Round.response := by
  induction rounds with
  | nil => rfl
  | cons x rest ih =>
    show turnsIn (x.caps ++ capsOf rest) = x.response :: rest.map Round.response
    rw [turnsIn_append, ih, Round.caps]
    show x.response :: turnsIn (flushToolBatch x.results) ++ _ = _
    rw [turnsIn_flushToolBatch]
    rfl

theorem GoesOn.nil : GoesOn c [] := by
  intro before x after h
  simp at h

theorem GoesOn.prefix_of (h : GoesOn c xs) (hpre : ys <+: xs) : GoesOn c ys := by
  obtain ⟨rest, rfl⟩ := hpre
  rintro before x after rfl
  refine h before x (after ++ rest) ?_
  rw [List.append_assoc, List.cons_append]

theorem goesOn_concat (x : CapabilityResult) :
    GoesOn c (xs ++ [x]) ↔ GoesOn c xs ∧ endsAfter c (turnsIn xs) = false := by
  constructor
  · intro h
    exact ⟨h.prefix_of (List.prefix_append _ _), h xs x [] rfl⟩
  · rintro ⟨h, hends⟩ before y after heq
    rcases List.eq_nil_or_concat after with rfl | ⟨init, z, rfl⟩
    · obtain ⟨hbefore, -⟩ := List.append_inj' heq rfl
      rw [← hbefore]
      exact hends
    · rw [List.concat_eq_append, ← List.cons_append, ← List.append_assoc] at heq
      obtain ⟨hxs, -⟩ := List.append_inj' heq rfl
      exact h before y init hxs

theorem cutLast_prefix_flatten (rounds : List Round) : flatten (cutLast rounds) <+: flatten rounds := by
  rw [← truncate_flatten]
  unfold truncateIncompleteFinalBatch
  split
  · exact List.prefix_refl _
  · split
    · exact List.take_prefix _ _
    · exact List.prefix_refl _

/-- Grouping the rows of the rounds keeps the turns where they are. -/
theorem goesOn_capsOf (h : GoesOn c (flatten rounds)) : GoesOn c (capsOf rounds) := by
  induction rounds using List.reverseRecOn with
  | nil => exact GoesOn.nil
  | append_singleton rs x ih =>
    rw [flatten_concat] at h
    have hrs : GoesOn c (capsOf rs) := ih (h.prefix_of (List.prefix_append _ _))
    have hturns : turnsIn (capsOf rs) = turnsIn (flatten rs) := by rw [turnsIn_capsOf, turnsIn_flatten]
    have hturn : GoesOn c (capsOf rs ++ [.modelResult x.response]) := by
      refine (goesOn_concat _).mpr ⟨hrs, ?_⟩
      rw [hturns]
      exact h (flatten rs) (.modelResult x.response) (x.results.map .toolResult) rfl
    rw [capsOf_concat, Round.caps]
    rcases hres : x.results with _ | ⟨r, rest⟩
    · exact hturn
    · show GoesOn c (capsOf rs ++ .modelResult x.response :: [batchResult (r :: rest)])
      rw [List.append_cons]
      refine (goesOn_concat _).mpr ⟨hturn, ?_⟩
      have hend := h (flatten rs ++ [.modelResult x.response]) (.toolResult r) (rest.map .toolResult) (by
        rw [Round.flat, hres]
        simp)
      rw [turnsIn_append] at hend ⊢
      rw [hturns]
      exact hend

end GoesOn

/-! ## The replay -/

/-- The capabilities a resume drives the reducer through. -/
def Wal.replays (w : Wal) : List CapabilityResult :=
  match collectTurns w.llms.rows with
  | .ok (.turns rows) =>
    coalesceToolResults (truncateIncompleteFinalBatch
      ((sortIntoReplayOrder (collectTools w.tools.rows ++ rows)).map Prod.snd))
  | _ => []

section Replay

variable {cfg : HostConfig} {w : Wal} {rounds : List Round} {xs : List CapabilityResult} {p : Point}

theorem replays_of_resume (h : w.resume cfg = .ok (.resumesAt p)) :
    replaySteps cfg w .start w.replays = .ok p := by
  unfold Wal.resume at h
  unfold Wal.replays
  split at h
  · cases h
  · split at h
    · cases h
    · split at h
      · cases h
      · split at h
        · cases h
        · cases h
        · next rows hrows =>
          rw [hrows]
          dsimp only at h ⊢
          split at h
          · cases h
          · next hsteps =>
            cases h
            exact hsteps

theorem Logged.replays (h : Logged w rounds) (hlost : w.NoLostFailure) :
    w.replays = capsOf (cutLast rounds) := by
  have hturns : collectTurns w.llms.rows = .ok (.turns (w.llms.rows.filterMap turnKeyed)) :=
    collectTurns_eq hlost fun r hr his => (h.turns r.1 r.2 (Table.mem_rows.mp hr) his).2
  rw [Wal.replays, hturns]
  dsimp only
  rw [sort_collected h, truncate_flatten, coalesce_flatten]

theorem replays_cases (w : Wal) : w.NoLostFailure ∨ w.replays = [] := by
  unfold Wal.replays
  split
  · next rows hrows => exact .inl (noLostFailure_of_collectTurns hrows)
  · exact .inr rfl

/-- What the loop hands to a step: a turn, or the results of a round. -/
def CapabilityResult.Hosted (x : CapabilityResult) : Prop :=
  (∃ r, x = .modelResult r) ∨ ∃ rs, x = batchResult rs

theorem turnsIn_batchResult (rs : List ToolCallResult) : turnsIn [batchResult rs] = [] := by
  rcases rs with _ | ⟨a, _ | ⟨b, rest⟩⟩ <;> rfl

theorem hosted_capsOf {x : CapabilityResult} (h : x ∈ capsOf rounds) : x.Hosted := by
  obtain ⟨y, -, hx⟩ := List.mem_flatMap.mp h
  rw [Round.caps] at hx
  rcases List.mem_cons.mp hx with rfl | hflush
  · exact .inl ⟨_, rfl⟩
  · rcases hres : y.results with _ | ⟨a, rest⟩
    · rw [hres] at hflush
      cases hflush
    · rw [hres] at hflush
      exact .inr ⟨_, List.mem_singleton.mp hflush⟩

/-- A replay stands after the turns it was driven through, and is not done. -/
theorem replay_standsAfter (hcap : cfg.agent.maxIterations ≤ maxSupportedIterations)
    (hxs : ∀ x ∈ xs, x.Hosted) (hgoes : GoesOn cfg.agent xs) (h : replaySteps cfg w .start xs = .ok p) :
    StandsAfter cfg.agent (turnsIn xs) p ∧ p.isOpen = true := by
  induction xs using List.reverseRecOn generalizing p with
  | nil =>
    cases h
    exact ⟨.start, rfl⟩
  | append_singleton xs x ih =>
    obtain ⟨q, out, hq, hstep, rfl⟩ := replaySteps_concat_inv h
    obtain ⟨hgoes', hends⟩ := (goesOn_concat x).mp hgoes
    obtain ⟨hstands, -⟩ := ih (fun y hy => hxs y (List.mem_append_left _ hy)) hgoes' hq
    have htook := hstands.step hcap hstep
    have hopen : out.state.phase ≠ .done := by
      intro hdone
      have htrue := htook.ended.mp hdone
      rw [hends] at htrue
      cases htrue
    refine ⟨?_, by simp [Point.isOpen, hopen]⟩
    rw [turnsIn_append]
    rcases hxs x (by simp) with ⟨r, rfl⟩ | ⟨rs, rfl⟩
    · exact .turn r htook
    · rw [turnsIn_batchResult, List.append_nil]
      exact .results rs htook

/-- The same of every point the replay of the rows passes. -/
theorem Logged.replay_standsAfter (hlog : Logged w rounds) (hgoes : GoesOn cfg.agent (flatten rounds))
    (hcap : cfg.agent.maxIterations ≤ maxSupportedIterations) (hpre : xs <+: w.replays)
    (h : replaySteps cfg w .start xs = .ok p) : StandsAfter cfg.agent (turnsIn xs) p ∧ p.isOpen = true := by
  rcases replays_cases w with hlost | hnil
  · rw [hlog.replays hlost] at hpre
    have hcut : GoesOn cfg.agent (capsOf (cutLast rounds)) :=
      goesOn_capsOf (hgoes.prefix_of (cutLast_prefix_flatten rounds))
    exact FactorQ.Reducer.replay_standsAfter hcap (fun x hx => hosted_capsOf (hpre.subset hx)) (hcut.prefix_of hpre) h
  · rw [hnil] at hpre
    rw [List.prefix_nil.mp hpre] at h ⊢
    cases h
    exact ⟨.start, rfl⟩

end Replay

/-! ## The rows of a run -/

/-- The rows are these rounds, nothing follows the end, and a call in the window a crash
leaves unclear belongs to a run that goes on. -/
structure Unended (c : AgentConfig) (w : Wal) (rounds : List Round) : Prop where
  logged : Logged w rounds
  goesOn : GoesOn c (flatten rounds)
  waiting : w.tools.All fun _ row => row.status = .dispatched →
    rounds ≠ [] ∧ endsAfter c (rounds.map Round.response) = false

namespace Unended

variable {c : AgentConfig} {w w' : Wal} {rounds rs : List Round} {x : Round}

theorem empty : Unended c .empty [] := ⟨Logged.empty, GoesOn.nil, Table.All.empty⟩

theorem frame (h : Unended c w rounds) (ht : w'.tools = w.tools) (hl : w'.llms = w.llms) : Unended c w' rounds :=
  ⟨h.logged.frame ht hl, h.goesOn, ht ▸ h.waiting⟩

theorem silent (h : Unended c w rounds) (hs : Silent w w') : Unended c w' rounds :=
  ⟨h.logged.silent hs, h.goesOn, hs.tools ▸ h.waiting⟩

theorem turn (h : Unended c w rounds) {spent spent' : ℚ} {q : LlmPoint} {r : ModelResponse}
    (m : LlmMove .agentTurn w spent q w' spent' (.inr (.ok r))) (hown : q.Owns w .agentTurn)
    (hquiet : Quiet w) (hends : endsAfter c (rounds.map Round.response) = false) :
    Unended c w' (rounds ++ [⟨r, []⟩]) ∧ Quiet w' := by
  cases m with
  | @closed _ row id r cost now hw hb hs ha =>
    have hquiet' : Quiet w' := hquiet.of_tools hw.tools
    have hold : w.turnEntry? id = none := by
      refine turnEntry?_eq_none fun row' hg => ?_
      rw [hb] at hg
      cases hg
      simp [LlmRow.isTurn, hs]
    refine ⟨⟨?_, ?_, fun id' row' hg hd => absurd hd (hquiet' id' row' hg)⟩, hquiet'⟩
    · refine h.logged.turnClosed hw hold ha ?_ rfl
      simp [LlmRow.turn?, LlmRow.isTurn, hown row hb]
    · rw [flatten_concat]
      refine (goesOn_concat _).mpr ⟨h.goesOn, ?_⟩
      rw [turnsIn_flatten]
      exact hends

variable {id : ToolCallId}

theorem toolKept (h : Unended c w rounds) (hw : ToolWrite w w' id) (hold : w.toolEntry? id = none)
    (hnew : ∀ row, w'.tools.get? id = some row → row.status ≠ .completed)
    (hgoes : rounds ≠ [] ∧ endsAfter c (rounds.map Round.response) = false) : Unended c w' rounds :=
  ⟨h.logged.toolKept hw hold hnew, h.goesOn, fun _ _ _ _ => hgoes⟩

theorem flatten_result (rs : List Round) (x : Round) (r : ToolCallResult) :
    flatten (rs ++ [{ x with results := x.results ++ [r] }]) = flatten (rs ++ [x]) ++ [.toolResult r] := by
  simp [flatten_concat, Round.flat]

theorem toolClosed (h : Unended c w (rs ++ [x])) (hw : ToolWrite w w' id) {row : ToolRow}
    (hold : w.toolEntry? id = none) (hrow : w'.tools.get? id = some row) (hc : row.status = .completed)
    (hseq : row.seq = some w.nextSeq) (hends : endsAfter c ((rs ++ [x]).map Round.response) = false) :
    Unended c w' (rs ++ [{ x with results := x.results ++ [toolRowToResult id row] }]) := by
  refine ⟨h.logged.toolClosed hw hold hrow hc hseq (flatten_result rs x _), ?_, fun _ _ _ _ => ⟨by simp, ?_⟩⟩
  · rw [flatten_result]
    refine (goesOn_concat _).mpr ⟨h.goesOn, ?_⟩
    rw [turnsIn_flatten]
    exact hends
  · simpa using hends

theorem toolReopened {r : ToolCallResult} (h : Unended c w (rs ++ [{ x with results := x.results ++ [r] }]))
    {id : ToolCallId} (hw : ToolWrite w w' id) (hid : r.toolCallId = id)
    (hnew : ∀ row, w'.tools.get? id = some row → row.status ≠ .completed)
    (hends : endsAfter c ((rs ++ [x]).map Round.response) = false) : Unended c w' (rs ++ [x]) := by
  refine ⟨h.logged.toolReopened hw hid (flatten_result rs x r) hnew, ?_, fun _ _ _ _ => ⟨by simp, hends⟩⟩
  have hgoes := h.goesOn
  rw [flatten_result] at hgoes
  exact hgoes.prefix_of (List.prefix_append _ _)

theorem interrupt (h : Unended c w rounds) (render : Int → String) {row : ToolRow}
    (hg : w.tools.get? id = some row) (hs : row.status = .dispatched) :
    ∃ rounds', Unended c (w.interrupt render id) rounds' := by
  obtain ⟨hne, hends⟩ := h.waiting id row hg hs
  obtain ⟨rs, x, rfl⟩ : ∃ rs x, rounds = rs ++ [x] := ⟨_, _, (List.dropLast_append_getLast hne).symm⟩
  obtain ⟨hw, row', hrow, hdone, hseq⟩ := interrupt_spec render hg
  refine ⟨_, h.toolClosed hw (toolEntry?_eq_none fun row'' hg'' => ?_) hrow hdone hseq hends⟩
  rw [hg] at hg''
  cases hg''
  rw [hs]
  exact DispatchStatus.noConfusion

/-- All of them, one after the other: the others stay as they are. -/
theorem inject_calls (render : Int → String) (calls : List (ToolCallId × ToolRow))
    (hnd : (calls.map Prod.fst).Nodup) (h : Unended c w rounds)
    (hcalls : ∀ r ∈ calls, w.tools.get? r.1 = some r.2 ∧ r.2.status = .dispatched) :
    ∃ rounds', Unended c (calls.foldl (fun w r => w.interrupt render r.1) w) rounds' := by
  induction calls generalizing w rounds with
  | nil => exact ⟨rounds, h⟩
  | cons r rest ih =>
    rw [List.map_cons, List.nodup_cons] at hnd
    obtain ⟨hg, hs⟩ := hcalls r List.mem_cons_self
    obtain ⟨rounds', h'⟩ := h.interrupt render hg hs
    refine ih hnd.2 h' fun r' hr' => ?_
    have hne : r'.1 ≠ r.1 := by
      intro heq
      exact hnd.1 (heq ▸ List.mem_map_of_mem hr')
    rw [Table.get?_of_erase (interrupt_spec render hg).1.tools hne]
    exact hcalls r' (List.mem_cons_of_mem _ hr')

theorem inject (h : Unended c w rounds) (render : Int → String) :
    ∃ rounds', Unended c (w.injectInterruptedResults render) rounds' := by
  refine h.inject_calls render w.interruptedCalls ?_ fun r hr => mem_interruptedCalls hr
  have hperm : w.interruptedCalls.Perm (w.tools.rows.filter fun r => r.2.status = .dispatched) :=
    List.perm_insertionSort _ _
  exact (hperm.map _).nodup_iff.mpr (w.tools.nodup.sublist (List.filter_sublist.map _))

end Unended

/-! ## A tool call -/

/-- No call but this one is in the window. -/
def OnlyCall (w : Wal) (id : ToolCallId) : Prop := w.tools.All fun id' row => row.status = .dispatched → id' = id

/-- What the rows say at each point of a call. -/
def ToolPoint.Keeps (w : Wal) (rounds : List Round) (req : ToolCallRequest) : ToolPoint → Prop
  | .start | .judging _ | .invoke | .synthetic .dispatched _ _ => Quiet w
  | .intent | .synthetic .intent _ _ => Quiet w ∧ w.toolEntry? req.toolCallId = none
  | .rewrite => Quiet w ∧ ∃ (rs : List Round) (x : Round) (r : ToolCallResult),
      rounds = rs ++ [{ x with results := x.results ++ [r] }] ∧ r.toolCallId = req.toolCallId
  | .serving origin q => OnlyCall w req.toolCallId ∧ q.Owns w origin.origin
  | .running | .returned _ | .missing | .synthetic .completed _ _ => OnlyCall w req.toolCallId

/-- What they say once the call has moved. -/
def ToolMove.Keeps (w : Wal) (rounds : List Round) (req : ToolCallRequest) : ToolMove → Prop
  | .goes q => q.Keeps w rounds req
  | .answer _ | .abort _ => Quiet w

section Tool

variable {cfg : HostConfig} {c : AgentConfig} {w w' : Wal} {rounds : List Round} {req : ToolCallRequest}
  {spent spent' : ℚ} {q : ToolPoint} {executed : Option ToolCallResult} {move : ToolMove}

theorem quiet_write {id : ToolCallId} (hw : ToolWrite w w' id) (h : OnlyCall w id) {row : ToolRow}
    (hrow : w'.tools.get? id = some row) (hs : row.status ≠ .dispatched) : Quiet w' := by
  intro id' row' hg hd
  by_cases hid : id' = id
  · rw [hid, hrow] at hg
    cases hg
    exact hs hd
  · rw [Table.get?_of_erase hw.tools hid] at hg
    exact hid (h id' row' hg hd)

theorem onlyCall_write {id : ToolCallId} (hw : ToolWrite w w' id) (h : OnlyCall w id) : OnlyCall w' id := by
  intro id' row' hg hd
  by_cases hid : id' = id
  · exact hid
  · rw [Table.get?_of_erase hw.tools hid] at hg
    exact h id' row' hg hd

theorem Quiet.onlyCall (h : Quiet w) (id : ToolCallId) : OnlyCall w id :=
  fun id' row hg hd => absurd hd (h id' row hg)

theorem OnlyCall.silent {id : ToolCallId} (h : OnlyCall w id) (hs : Silent w w') : OnlyCall w' id := by
  unfold OnlyCall
  rw [hs.tools]
  exact h

/-- A move of a call adds to the results of the last round at most. -/
theorem Unended.tool (h : Unended c w rounds) (hne : rounds ≠ [])
    (hends : endsAfter c (rounds.map Round.response) = false) (hq : q.Keeps w rounds req)
    (m : ToolStep cfg req w spent q w' spent' executed move) :
    ∃ rounds', Unended c w' rounds' ∧ rounds'.map Round.response = rounds.map Round.response ∧
      move.Keeps w' rounds' req := by
  have hopen : ∀ row, w.tools.get? req.toolCallId = some row → row.status ≠ .completed →
      w.toolEntry? req.toolCallId = none := by
    intro row hg hs
    refine toolEntry?_eq_none fun row' hg' => ?_
    rw [hg] at hg'
    cases hg'
    exact hs
  cases m with
  | recorded row hg hc => exact ⟨rounds, h, rfl, hq⟩
  | admitted fresh =>
    refine ⟨rounds, h, rfl, ?_⟩
    show (ToolPoint.step.afterPermission cfg req).Keeps w rounds req
    unfold ToolPoint.step.afterPermission
    split <;> exact ⟨hq, toolEntry?_eq_none fresh⟩
  | opened hopens hw ha =>
    have hbefore : Quiet w ∧ w.toolEntry? req.toolCallId = none := by cases hopens <;> exact hq
    have hnew : ∀ row, w'.tools.get? req.toolCallId = some row → row.status ≠ .completed := by
      intro row hg
      rw [ha] at hg
      cases hg
      exact DispatchStatus.noConfusion
    refine ⟨rounds, h.toolKept hw hbefore.2 hnew ⟨hne, hends⟩, rfl, ?_⟩
    have hquiet : Quiet w' := quiet_write hw (hbefore.1.onlyCall _) ha DispatchStatus.noConfusion
    cases hopens <;> exact hquiet
  | reopened hw ha =>
    obtain ⟨hquiet, rs, x, r, rfl, hid⟩ := hq
    have hresp : (rs ++ [x]).map Round.response =
        (rs ++ [{ x with results := x.results ++ [r] }]).map Round.response := by simp
    refine ⟨rs ++ [x], h.toolReopened hw hid (fun row hg => ?_) (hresp ▸ hends), hresp, ?_⟩
    · rw [ha] at hg
      cases hg
      exact DispatchStatus.noConfusion
    · exact quiet_write hw (hquiet.onlyCall _) ha DispatchStatus.noConfusion
  | dispatched now hdisp hw hb hs ha =>
    have hbefore : Quiet w := by cases hdisp <;> exact hq
    have hnew : ∀ row, w'.tools.get? req.toolCallId = some row → row.status ≠ .completed := by
      intro row hg
      rw [ha] at hg
      cases hg
      exact DispatchStatus.noConfusion
    refine ⟨rounds, h.toolKept hw (hopen _ hb (by simp [hs])) hnew ⟨hne, hends⟩, rfl, ?_⟩
    have honly : OnlyCall w' req.toolCallId := onlyCall_write hw (hbefore.onlyCall _)
    cases hdisp <;> exact honly
  | @closed _ q' r _ row now hcloses hw hb hs ha =>
    have hbefore : OnlyCall w req.toolCallId := by cases hcloses <;> exact hq
    have hquiet : Quiet w' := quiet_write hw hbefore ha DispatchStatus.noConfusion
    obtain ⟨rs, x, rfl⟩ : ∃ rs x, rounds = rs ++ [x] := ⟨_, _, (List.dropLast_append_getLast hne).symm⟩
    refine ⟨_, h.toolClosed hw (hopen _ hb (by simp [hs])) ha rfl rfl hends, by simp, ?_⟩
    cases hcloses with
    | missing => exact ⟨hquiet, rs, x, _, rfl, rfl⟩
    | synthetic | returned => exact hquiet
  | ran r hid => exact ⟨rounds, h, rfl, hq⟩
  | serves origin => exact ⟨rounds, h, rfl, hq, trivial⟩
  | @serving origin _ _ _ _ m =>
    have hs := m.silent hq.2 fun he => by cases origin <;> cases he
    exact ⟨rounds, h.silent hs, rfl, hq.1.silent hs, m.owns hq.2⟩
  | @served origin _ _ _ _ m =>
    have hs := m.silent hq.2 fun he => by cases origin <;> cases he
    exact ⟨rounds, h.silent hs, rfl, hq.1.silent hs⟩
  | judged r | streak r => exact ⟨rounds, h, rfl, hq⟩

end Tool

/-! ## The loop -/

/-- Where the loop stands, by the rounds in the rows. -/
def Pc.Paced (c : AgentConfig) (w : Wal) (rounds : List Round) : Pc → Prop
  | .boundary p _ | .noticing p _ _ =>
    StandsAfter c (rounds.map Round.response) p ∧ p.isOpen = true ∧ Quiet w
  | .model p next q =>
    Took c (rounds.map Round.response) (p.stepIndex + 1) next ∧ next.phase = .awaitingModel ∧ Quiet w ∧
      q.Owns w .agentTurn
  | .answered p next r =>
    StandsAfter c (rounds.map Round.response) ⟨some next, some (.modelResult r), p.stepIndex + 1⟩ ∧
      next.phase = .awaitingModel ∧ Quiet w
  | .tools p next _ req _ q =>
    Took c (rounds.map Round.response) (p.stepIndex + 1) next ∧ next.phase = .dispatchingTools ∧
      q.Keeps w rounds req
  | _ => True

namespace Host

variable {cfg : HostConfig} {h h' : Host} {e : Env} {rounds : List Round} {p : Point} {next : HarnessState}

/-- The invariant of a run. -/
def Paced (cfg : HostConfig) (h : Host) : Prop :=
  ∃ rounds, Unended cfg.agent h.wal rounds ∧ h.pc.Paced cfg.agent h.wal rounds

theorem paced_reduced (hcap : cfg.agent.maxIterations ≤ maxSupportedIterations) {out : StepOutput} {pc' : Pc}
    {notices : List String} (hu : Unended cfg.agent h.wal rounds)
    (hp : StandsAfter cfg.agent (rounds.map Round.response) p) (hquiet : Quiet h.wal)
    (hstep : Reducer.step (cfg.stepInput p notices) = .ok out) (hperf : Performs cfg h.spent p out pc') :
    Paced cfg ((h.store (h.wal.upsertInvocationState (rowOf p out e.now))).goto pc') := by
  have hw := upsertInvocationState_spec h.wal (rowOf p out e.now)
  have htook := hp.step hcap hstep
  have hquiet' : Quiet (h.wal.upsertInvocationState (rowOf p out e.now)) := hquiet.of_tools hw.tools
  refine ⟨rounds, hu.frame hw.tools hw.llms, ?_⟩
  cases hperf with
  | completed | failed | exhausted => trivial
  | model q action phase noCalls below => exact ⟨htook, phase, hquiet', trivial⟩
  | tools r req rest taken calls action phase asked => exact ⟨htook, phase, hquiet'⟩

/-- A turn that is not answered yet, or not at all. -/
theorem unended_silent {q : LlmPoint} {w' : Wal} {spent' : ℚ} {o : LlmPoint ⊕ LlmOutcome}
    (hu : Unended cfg.agent h.wal rounds) (hown : q.Owns h.wal .agentTurn)
    (m : LlmMove .agentTurn h.wal h.spent q w' spent' o) (hno : ∀ r, o ≠ .inr (.ok r)) :
    Silent h.wal w' ∧ Unended cfg.agent w' rounds := by
  have hs := m.silent hown fun _ r hr => hno r hr
  exact ⟨hs, hu.silent hs⟩

theorem paced_tool {req : ToolCallRequest} {q : ToolPoint} {w' : Wal} {spent' : ℚ}
    {executed : Option ToolCallResult} {move : ToolMove} (hu : Unended cfg.agent h.wal rounds)
    (htook : Took cfg.agent (rounds.map Round.response) (p.stepIndex + 1) next)
    (hphase : next.phase = .dispatchingTools) (hq : q.Keeps h.wal rounds req)
    (m : ToolStep cfg req h.wal h.spent q w' spent' executed move) :
    ∃ rounds', Unended cfg.agent w' rounds' ∧
      Took cfg.agent (rounds'.map Round.response) (p.stepIndex + 1) next ∧ move.Keeps w' rounds' req := by
  have hne : rounds ≠ [] := by
    rintro rfl
    have hidx := htook.dispatched hphase
    simp at hidx
  obtain ⟨rounds', hu', hresp, hq'⟩ := hu.tool hne (htook.goesOn (by simp [hphase])) hq m
  exact ⟨rounds', hu', hresp ▸ htook, hq'⟩

theorem paced_move (hcap : cfg.agent.maxIterations ≤ maxSupportedIterations) (m : Move cfg e h h')
    (hx : Paced cfg h) : Paced cfg h' := by
  obtain ⟨rounds, hu, hpc⟩ := hx
  cases m with
  | overrun p carried pc | suspended p carried pc | rejected p carried pc | overspent p next r pc
  | unstamped p id pc _ | announced p pc | lost _ _ | failed p kind call pc | completed pc | archived o pc _
  | kept o pc _ => exact ⟨rounds, hu, trivial⟩
  | drained p carried pc =>
    rw [pc] at hpc
    exact ⟨rounds, hu, hpc⟩
  | noticed p carried n pending pc _ _ insert =>
    rw [pc] at hpc
    rw [insertHostNotice_spec insert]
    exact ⟨rounds, hu.frame rfl rfl, hpc⟩
  | reduced p carried out pc step performs =>
    rw [pc] at hpc
    exact paced_reduced hcap hu hpc.1 hpc.2.2 step performs
  | called p next pc m =>
    rw [pc] at hpc
    obtain ⟨htook, hphase, hquiet, hown⟩ := hpc
    obtain ⟨hs, hu'⟩ := unended_silent hu hown m (by simp)
    exact ⟨rounds, hu', htook, hphase, hs.quiet hquiet, m.owns hown⟩
  | replied p next r pc m =>
    rw [pc] at hpc
    obtain ⟨htook, hphase, hquiet, hown⟩ := hpc
    obtain ⟨hu', hquiet'⟩ := hu.turn m hown hquiet (htook.goesOn (by simp [hphase]))
    refine ⟨rounds ++ [⟨r, []⟩], hu', ?_, hphase, hquiet'⟩
    rw [List.map_append]
    exact .turn r htook
  | refused p next pc m =>
    rw [pc] at hpc
    exact ⟨rounds, (unended_silent hu hpc.2.2.2 m (by simp)).2, trivial⟩
  | rateLimited p next id text pc m | broken p next id text pc m =>
    rw [pc] at hpc
    exact ⟨rounds, (unended_silent hu hpc.2.2.2 m (by simp)).2, trivial⟩
  | advanced p next r pc _ =>
    rw [pc] at hpc
    obtain ⟨hstands, hphase, hquiet⟩ := hpc
    exact ⟨rounds, hu, hstands, by simp [Point.isOpen, hphase], hquiet⟩
  | stamped p id pc stamp =>
    exact ⟨rounds, hu.silent (silent_markLlmDeferred stamp), trivial⟩
  | putDown p pc =>
    have hw := markDeferred_spec h.wal
    exact ⟨rounds, hu.frame hw.tools hw.llms, trivial⟩
  | toolWent p next done req rest pc m =>
    rw [pc] at hpc
    obtain ⟨rounds', hu', htook, hq⟩ := paced_tool hu hpc.1 hpc.2.1 hpc.2.2 m
    exact ⟨rounds', hu', htook, hpc.2.1, hq⟩
  | toolAborted p next done req rest r pc m =>
    rw [pc] at hpc
    obtain ⟨rounds', hu', -⟩ := paced_tool hu hpc.1 hpc.2.1 hpc.2.2 m
    exact ⟨rounds', hu', trivial⟩
  | toolAnswered p next done req req' rest r pc m =>
    rw [pc] at hpc
    obtain ⟨rounds', hu', htook, hquiet⟩ := paced_tool hu hpc.1 hpc.2.1 hpc.2.2 m
    exact ⟨rounds', hu', htook, hpc.2.1, hquiet⟩
  | roundDone p next done req r pc m =>
    rw [pc] at hpc
    obtain ⟨rounds', hu', htook, hquiet⟩ := paced_tool hu hpc.1 hpc.2.1 hpc.2.2 m
    exact ⟨rounds', hu', .results _ htook, by simp [Point.isOpen, roundPoint, hpc.2.1], hquiet⟩
  | ended p kind call pc =>
    have hw := ensureTerminal_spec h.wal .failed e.now
    exact ⟨rounds, hu.frame hw.tools hw.llms, trivial⟩
  | handedOff o pc => exact ⟨rounds, hu.frame rfl rfl, trivial⟩
  | idle o pc => exact ⟨rounds, hu, hpc⟩

theorem map_response_cutLast (rounds : List Round) :
    (cutLast rounds).map Round.response = rounds.map Round.response := by
  rcases List.eq_nil_or_concat rounds with rfl | ⟨rs, x, rfl⟩
  · rfl
  · rw [List.concat_eq_append, cutLast_concat, List.map_append, List.map_append]
    unfold Round.cut
    split <;> rfl

section

variable (hcap : cfg.agent.maxIterations ≤ maxSupportedIterations)
include hcap

theorem paced_resumes (m : Resumes cfg h h') (hx : Paced cfg h) : Paced cfg h' := by
  obtain ⟨rounds, hu, hpc⟩ := hx
  cases m with
  | refused => exact ⟨rounds, hu, hpc⟩
  | failure | overspent => exact ⟨rounds, hu, trivial⟩
  | entered o p pc hres _ =>
    obtain ⟨-, -, -, hamb, hlost⟩ := resume_inv hres
    obtain ⟨hstands, hopen⟩ := hu.logged.replay_standsAfter hu.goesOn hcap (List.prefix_refl _) (replays_of_resume hres)
    rw [hu.logged.replays hlost, turnsIn_capsOf, map_response_cutLast] at hstands
    exact ⟨rounds, hu, hstands, hopen, quiet_of_unambiguous hamb⟩

theorem paced_act {a : Action} (hx : Paced cfg h) : Paced cfg (h.act cfg a) := by
  cases a with
  | step e => exact paced_move hcap step_move hx
  | crash =>
    obtain ⟨rounds, hu, -⟩ := hx
    exact ⟨rounds, hu, trivial⟩
  | resume => exact paced_resumes hcap resume_resumes hx
  | inject render =>
    dsimp only [act]
    rcases inject_cases (h := h) render with heq | ⟨o, hpc, heq⟩
    · rw [heq]
      exact hx
    · rw [heq]
      obtain ⟨rounds, hu, -⟩ := hx
      obtain ⟨rounds', hu'⟩ := hu.inject render
      refine ⟨rounds', hu', ?_⟩
      show h.pc.Paced _ _ _
      rw [hpc]
      trivial

theorem paced_run (schedule : List Action) (hx : Paced cfg h) : Paced cfg (h.run cfg schedule) := by
  induction schedule generalizing h with
  | nil => exact hx
  | cons a rest ih => exact ih (paced_act hcap hx)

end

theorem paced_init : Paced cfg Host.init :=
  ⟨[], Unended.empty, .start, rfl, fun _ _ hg => nomatch hg⟩

end Host

/-! ## The step limit -/

/-- In every run of an agent within the supported iterations, crashes, deferrals and
resumes included: the steps the loop performs, and those a replay of the rows would
perform, have an index below twice the agent's iterations, and the loop never finds its
step limit exhausted. -/
theorem step_budget_never_exhausted (cfg : HostConfig) (hcap : cfg.agent.maxIterations ≤ maxSupportedIterations)
    (schedule : List Action) :
    (∀ p carried, (Host.init.run cfg schedule).pc = .boundary p carried →
      p.stepIndex < 2 * max 1 cfg.agent.maxIterations ∧
      ∀ e, (Host.init.run cfg schedule).step cfg e =
        (Host.init.run cfg schedule).goto (.noticing p carried e.drained)) ∧
    (∀ p carried pending, (Host.init.run cfg schedule).pc = .noticing p carried pending →
      p.stepIndex < 2 * max 1 cfg.agent.maxIterations) ∧
    (∀ replayed q, replayed <+: (Host.init.run cfg schedule).wal.replays →
      replaySteps cfg (Host.init.run cfg schedule).wal .start replayed = .ok q →
      q.stepIndex < 2 * max 1 cfg.agent.maxIterations) := by
  have hinit : Host.Paced cfg Host.init := Host.paced_init
  obtain ⟨rounds, hu, hpc⟩ := Host.paced_run hcap schedule hinit
  refine ⟨?_, ?_, ?_⟩
  · intro p carried hat
    rw [hat] at hpc
    have hlt := hpc.1.index_lt hpc.2.1
    refine ⟨hlt, fun e => ?_⟩
    have hbudget : ¬ hostStepBudget ≤ p.stepIndex := by
      unfold maxSupportedIterations hostStepBudget at hcap
      unfold hostStepBudget
      omega
    rw [Host.step, hat]
    dsimp only
    rw [if_neg hbudget]
  · intro p carried pending hat
    rw [hat] at hpc
    exact hpc.1.index_lt hpc.2.1
  · intro replayed q hpre hq
    obtain ⟨hstands, hopen⟩ := hu.logged.replay_standsAfter hu.goesOn hcap hpre hq
    exact hstands.index_lt hopen

/-- The step the loop is about to perform. -/
def Pc.top? : Pc → Option Point
  | .boundary p _ => some p
  | _ => none

theorem boundary_of_top? {pc : Pc} {p : Point} (h : pc.top? = some p) : ∃ carried, pc = .boundary p carried := by
  cases pc with
  | boundary q carried =>
    cases h
    exact ⟨carried, rfl⟩
  | _ => cases h

/-- The sample agent, after its first turn. -/
theorem step_budget_first_turn :
    ∃ p carried,
      (Host.init.run sampleConfig (List.replicate 7 (.step (sampleEnv ["a"])))).pc = .boundary p carried ∧
        p.stepIndex < 2 * max 1 sampleConfig.agent.maxIterations := by
  obtain ⟨p, hp⟩ : ∃ p, (Host.init.run sampleConfig (List.replicate 7 (.step (sampleEnv ["a"])))).pc.top? = some p :=
    Option.isSome_iff_exists.mp (by decide +kernel)
  obtain ⟨carried, hpc⟩ := boundary_of_top? hp
  exact ⟨p, carried, hpc, ((step_budget_never_exhausted sampleConfig (by decide) _).1 p carried hpc).1⟩

end FactorQ.Reducer
