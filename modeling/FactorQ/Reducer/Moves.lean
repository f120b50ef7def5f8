/-
# `FactorQ.Reducer.Moves` — everything a move of a call can do

The moves of a model call, of a tool call and of the loop, once, as relations:
which row is written, what it held and holds, what is charged, and where the
incarnation goes on.  Every invariant of the loop is proved by cases on these.
-/
import FactorQ.Reducer.Host

namespace FactorQ.Reducer

open Lib Wal

/-! ## A model call -/

/-- A move of a model call of the given origin. -/
inductive LlmMove (origin : LlmCallOrigin) (w : Wal) (spent : ℚ) :
    LlmPoint → Wal → ℚ → LlmPoint ⊕ LlmOutcome → Prop where
  | refused : LlmMove origin w spent .intent w spent (.inr .refused)
  | opened {w' : Wal} (id : Nat) (write : LlmWrite w w' id) (free : w.llms.get? id = none)
      (row : w'.llms.get? id = some ⟨origin, .intent, none, none, none, none, none, none⟩) :
      LlmMove origin w spent .intent w' spent (.inl (.calling id))
  | answered (id : Nat) (r : ModelResponse) (cost : ℚ) :
      LlmMove origin w spent (.calling id) w spent (.inl (.answered id r cost))
  | blank (id : Nat) (cost : ℚ) :
      LlmMove origin w spent (.calling id) w (spent + cost) (.inl (.failed id emptyResponseError cost))
  | failed (id : Nat) (e : LlmError) : LlmMove origin w spent (.calling id) w spent (.inl (.failed id e 0))
  | charged {w' : Wal} {row : LlmRow} (id : Nat) (r : ModelResponse) (cost : ℚ) (write : LlmWrite w w' id)
      (before : w.llms.get? id = some row) (status : row.status = .intent)
      (after : w'.llms.get? id = some { row with status := .dispatched }) :
      LlmMove origin w spent (.answered id r cost) w' (spent + cost) (.inl (.closing id r cost))
  | closed {w' : Wal} {row : LlmRow} (id : Nat) (r : ModelResponse) (cost : ℚ) (now : Int)
      (write : LlmWrite w w' id) (before : w.llms.get? id = some row) (status : row.status = .dispatched)
      (after : w'.llms.get? id = some { row with
        status := .completed, response := some (.response r), isError := some false,
        costUsd := some cost, completedAt := some now, seq := some w.nextSeq }) :
      LlmMove origin w spent (.closing id r cost) w' spent (.inr (.ok r))
  | marked {w' : Wal} {row : LlmRow} (id : Nat) (e : LlmError) (cost : ℚ) (write : LlmWrite w w' id)
      (before : w.llms.get? id = some row) (status : row.status = .intent)
      (after : w'.llms.get? id = some { row with status := .dispatched }) :
      LlmMove origin w spent (.failed id e cost) w' spent (.inl (.closingError id e cost))
  | closedError {w' : Wal} {row : LlmRow} (id : Nat) (e : LlmError) (cost : ℚ) (now : Int)
      (write : LlmWrite w w' id) (before : w.llms.get? id = some row) (status : row.status = .dispatched)
      (after : w'.llms.get? id = some { row with
        status := .completed, response := some (.error e.text), isError := some true,
        costUsd := some cost, completedAt := some now, seq := some w.nextSeq }) :
      LlmMove origin w spent (.closingError id e cost) w' spent (.inr (.error id e))

variable {spent spent' : ℚ} {w w' : Wal}

theorem LlmPoint.step_move {origin : LlmCallOrigin} {e : Env} {q : LlmPoint} {next : LlmPoint ⊕ LlmOutcome}
    (h : q.step origin e w spent = some (w', spent', next)) :
    LlmMove origin w spent q w' spent' next := by
  cases q with
  | intent =>
    simp only [step] at h
    split at h
    · cases h
      exact .refused
    · cases h
      obtain ⟨hw, hrow⟩ := writeLlmIntent_spec w w.freshRequest origin
      exact .opened _ hw (get?_freshRequest w) hrow
  | calling id =>
    simp only [step] at h
    split at h
    · split at h
      · cases h
        exact .blank _ _
      · cases h
        exact .answered _ _ _
    · cases h
      exact .failed _ _
  | answered id r cost =>
    obtain ⟨w₁, hw₁, he⟩ := Option.map_eq_some_iff.mp h
    cases he
    obtain ⟨hw, row, hb, hs, ha⟩ := writeLlmDispatched_spec hw₁
    exact .charged _ _ _ hw hb hs ha
  | closing id r cost =>
    obtain ⟨w₁, hw₁, he⟩ := Option.map_eq_some_iff.mp h
    cases he
    obtain ⟨hw, row, hb, hs, ha⟩ := writeLlmCompleted_spec hw₁
    exact .closed _ _ _ _ hw hb hs ha
  | failed id err cost =>
    obtain ⟨w₁, hw₁, he⟩ := Option.map_eq_some_iff.mp h
    cases he
    obtain ⟨hw, row, hb, hs, ha⟩ := writeLlmDispatched_spec hw₁
    exact .marked _ _ _ hw hb hs ha
  | closingError id err cost =>
    obtain ⟨w₁, hw₁, he⟩ := Option.map_eq_some_iff.mp h
    cases he
    obtain ⟨hw, row, hb, hs, ha⟩ := writeLlmCompleted_spec hw₁
    exact .closedError _ _ _ _ hw hb hs ha

/-! ## A tool call -/

/-- The first write of a call that goes ahead. -/
inductive ToolPoint.Opens : ToolPoint → ToolPoint → Prop where
  | intent : Opens .intent .invoke
  | synthetic (kind : ToolErrorKind) (message : String) :
      Opens (.synthetic .intent kind message) (.synthetic .dispatched kind message)

/-- The second write, with the result if the host answers by itself. -/
inductive ToolPoint.Dispatches (cfg : HostConfig) (req : ToolCallRequest) :
    ToolPoint → Option ToolCallResult → ToolPoint → Prop where
  | inspect (own : (cfg.prepare req).toolName = selfInspectCanonicalName) (r : ToolCallResult)
      (id : r.toolCallId = req.toolCallId) : Dispatches cfg req .invoke (some r) (.returned r)
  | run (other : (cfg.prepare req).toolName ≠ selfInspectCanonicalName)
      (found : (cfg.prepare req).toolName ∈ cfg.registry) : Dispatches cfg req .invoke none .running
  | missing (other : (cfg.prepare req).toolName ≠ selfInspectCanonicalName)
      (unknown : (cfg.prepare req).toolName ∉ cfg.registry) : Dispatches cfg req .invoke none .missing
  | synthetic (kind : ToolErrorKind) (message : String) :
      Dispatches cfg req (.synthetic .dispatched kind message) none (.synthetic .completed kind message)

/-- The last write, with the result it records. -/
inductive ToolPoint.Closes (cfg : HostConfig) (req : ToolCallRequest) :
    ToolPoint → ToolCallResult → ToolPoint → Prop where
  | missing :
      Closes cfg req .missing
        (syntheticResult req.toolCallId .executionFailed (missingToolMessage (cfg.prepare req).toolName)) .rewrite
  | synthetic (kind : ToolErrorKind) (message : String) :
      Closes cfg req (.synthetic .completed kind message) (syntheticResult req.toolCallId kind message)
        (.judging (syntheticResult req.toolCallId kind message))
  | returned (r : ToolCallResult) : Closes cfg req (.returned r) r (.judging r)

/-- A move of a tool call. -/
inductive ToolStep (cfg : HostConfig) (req : ToolCallRequest) (w : Wal) (spent : ℚ) :
    ToolPoint → Wal → ℚ → Option ToolCallResult → ToolMove → Prop where
  /-- a closed row under the id is taken for the answer -/
  | recorded (row : ToolRow) (found : w.tools.get? req.toolCallId = some row) (status : row.status = .completed) :
      ToolStep cfg req w spent .start w spent none (.answer (toolRowToResult req.toolCallId row))
  | admitted (fresh : ∀ row, w.tools.get? req.toolCallId = some row → row.status ≠ .completed) :
      ToolStep cfg req w spent .start w spent none (.goes (ToolPoint.step.afterPermission cfg req))
  | opened {q q' : ToolPoint} {w' : Wal} (opens : q.Opens q') (write : ToolWrite w w' req.toolCallId)
      (after : w'.tools.get? req.toolCallId = some ⟨(cfg.prepare req).toolName, (cfg.prepare req).parameters,
        .intent, none, none, none, none, none⟩) :
      ToolStep cfg req w spent q w' spent none (.goes q')
  | reopened {w' : Wal} (write : ToolWrite w w' req.toolCallId)
      (after : w'.tools.get? req.toolCallId = some ⟨(cfg.prepare req).toolName, (cfg.prepare req).parameters,
        .intent, none, none, none, none, none⟩) :
      ToolStep cfg req w spent .rewrite w' spent none
        (.goes (.synthetic .dispatched .executionFailed (missingToolMessage (cfg.prepare req).toolName)))
  | dispatched {q q' : ToolPoint} {executed : Option ToolCallResult} {w' : Wal} {row : ToolRow} (now : Int)
      (dispatches : q.Dispatches cfg req executed q') (write : ToolWrite w w' req.toolCallId)
      (before : w.tools.get? req.toolCallId = some row) (status : row.status = .intent)
      (after : w'.tools.get? req.toolCallId =
        some { row with status := .dispatched, dispatchedAt := some now }) :
      ToolStep cfg req w spent q w' spent executed (.goes q')
  | closed {q q' : ToolPoint} {r : ToolCallResult} {w' : Wal} {row : ToolRow} (now : Int)
      (closes : q.Closes cfg req r q') (write : ToolWrite w w' req.toolCallId)
      (before : w.tools.get? req.toolCallId = some row) (status : row.status = .dispatched)
      (after : w'.tools.get? req.toolCallId = some { row with
        status := .completed, result := some r.output, isError := some r.isError,
        completedAt := some now, seq := some w.nextSeq }) :
      ToolStep cfg req w spent q w' spent none (.goes q')
  | ran (r : ToolCallResult) (id : r.toolCallId = req.toolCallId) :
      ToolStep cfg req w spent .running w spent (some r) (.goes (.returned r))
  | serves (origin : ServerOrigin) :
      ToolStep cfg req w spent .running w spent none (.goes (.serving origin .intent))
  | serving {origin : ServerOrigin} {p p' : LlmPoint} {w' : Wal} {spent' : ℚ}
      (move : LlmMove origin.origin w spent p w' spent' (.inl p')) :
      ToolStep cfg req w spent (.serving origin p) w' spent' none (.goes (.serving origin p'))
  | served {origin : ServerOrigin} {p : LlmPoint} {o : LlmOutcome} {w' : Wal} {spent' : ℚ}
      (move : LlmMove origin.origin w spent p w' spent' (.inr o)) :
      ToolStep cfg req w spent (.serving origin p) w' spent' none (.goes .running)
  | judged (r : ToolCallResult) : ToolStep cfg req w spent (.judging r) w spent none (.answer r)
  | streak (r : ToolCallResult) : ToolStep cfg req w spent (.judging r) w spent none (.abort r)

theorem ToolOutcome.result_toolCallId (id : ToolCallId) (ms : Nat) (o : ToolOutcome) :
    (o.result id ms).toolCallId = id := by
  cases o <;> rfl

variable {req : ToolCallRequest} {move : ToolMove}

theorem ToolStep.of_dispatched {cfg : HostConfig} {q q' : ToolPoint}
    {executed executed' : Option ToolCallResult} {now : Int} (hq : q.Dispatches cfg req executed q')
    (h : (w.writeToolDispatched req.toolCallId now).map (fun w => (w, spent, executed, ToolMove.goes q')) = some (w', spent', executed', move)) :
    ToolStep cfg req w spent q w' spent' executed' move := by
  obtain ⟨w₁, hw₁, he⟩ := Option.map_eq_some_iff.mp h
  cases he
  obtain ⟨hw, row, hb, hs, ha⟩ := writeToolDispatched_spec hw₁
  exact .dispatched now hq hw hb hs ha

theorem ToolStep.of_closed {cfg : HostConfig} {q q' : ToolPoint} {r : ToolCallResult}
    {executed : Option ToolCallResult} {now : Int} (hq : q.Closes cfg req r q')
    (h : (w.writeToolCompleted req.toolCallId r.output r.isError now).map (fun w => (w, spent, none, ToolMove.goes q')) = some (w', spent', executed, move)) :
    ToolStep cfg req w spent q w' spent' executed move := by
  obtain ⟨w₁, hw₁, he⟩ := Option.map_eq_some_iff.mp h
  cases he
  obtain ⟨hw, row, hb, hs, ha⟩ := writeToolCompleted_spec hw₁
  exact .closed now hq hw hb hs ha

theorem ToolPoint.step_toolStep {cfg : HostConfig} {e : Env} {q : ToolPoint} {executed : Option ToolCallResult}
    (h : q.step cfg req e w spent = some (w', spent', executed, move)) :
    ToolStep cfg req w spent q w' spent' executed move := by
  cases q with
  | start =>
    simp only [step] at h
    split at h
    · next row hrow =>
      split at h
      · next hs =>
        cases h
        exact .recorded row hrow hs
      · next hs =>
        cases h
        refine .admitted fun row' hrow' => ?_
        rw [hrow] at hrow'
        cases hrow'
        exact hs
    · next hnone =>
      cases h
      refine .admitted fun row' hrow' => ?_
      rw [hnone] at hrow'
      cases hrow'
  | intent =>
    cases h
    obtain ⟨hw, hrow⟩ :=
      writeToolIntent_spec w req.toolCallId (cfg.prepare req).toolName (cfg.prepare req).parameters
    exact .opened .intent hw hrow
  | invoke =>
    simp only [step] at h
    split at h
    · next hown => exact .of_dispatched (.inspect hown _ (by rfl)) h
    · next hown =>
      split at h
      · next hfound => exact .of_dispatched (.run hown hfound) h
      · next hfound => exact .of_dispatched (.missing hown hfound) h
  | missing => exact .of_closed .missing h
  | rewrite =>
    cases h
    obtain ⟨hw, hrow⟩ :=
      writeToolIntent_spec w req.toolCallId (cfg.prepare req).toolName (cfg.prepare req).parameters
    exact .reopened hw hrow
  | synthetic status kind message =>
    cases status with
    | intent =>
      cases h
      obtain ⟨hw, hrow⟩ :=
        writeToolIntent_spec w req.toolCallId (cfg.prepare req).toolName (cfg.prepare req).parameters
      exact .opened (.synthetic kind message) hw hrow
    | dispatched => exact .of_dispatched (.synthetic kind message) h
    | completed => exact .of_closed (.synthetic kind message) h
  | running =>
    simp only [step] at h
    split at h
    · cases h
      exact .serves _
    · cases h
      exact .ran _ (ToolOutcome.result_toolCallId _ _ _)
  | serving origin p =>
    obtain ⟨⟨w₁, s₁, next⟩, hp, he⟩ := Option.map_eq_some_iff.mp h
    cases next with
    | inl p' =>
      cases he
      exact .serving (LlmPoint.step_move hp)
    | inr o =>
      cases he
      exact .served (LlmPoint.step_move hp)
  | returned r => exact .of_closed (.returned r) h
  | judging r =>
    simp only [step] at h
    split at h
    · cases h
      exact .streak r
    · cases h
      exact .judged r

/-! ## The loop -/

/-- On the way out of the loop, or out. -/
def Pc.ending : Pc → Bool
  | .failing _ _ _ _ | .completing | .handingOff _ _ | .finished _ => true
  | _ => false

/-- Where the step performed at `p` with output `out` leads, the state row being
written. -/
inductive Performs (cfg : HostConfig) (spent : ℚ) (p : Point) (out : StepOutput) : Pc → Prop where
  | completed (r : ModelResponse) (text : String) (status : TaskStatus)
      (taken : p.lastResult = some (.modelResult r)) (action : out.nextAction = .complete text status) :
      Performs cfg spent p out .completing
  | failed (e : HarnessError) (action : out.nextAction = .failed e) :
      Performs cfg spent p out (.failing none (harnessErrorToFailureKind e) none false)
  | exhausted (q : ModelRequest) (action : out.nextAction = .callModel q) :
      Performs cfg spent p out (.failing (some p) .budgetExceeded none false)
  | model (q : ModelRequest) (action : out.nextAction = .callModel q) (phase : out.state.phase = .awaitingModel)
      (noCalls : (cfg.stepInput p []).isFirst = false →
        ∀ r, p.lastResult = some (.modelResult r) → r.toolCalls = [])
      (below : ¬ (cfg.budget.any fun b => b ≤ spent) = true) :
      Performs cfg spent p out (.model p out.state .intent)
  | tools (r : ModelResponse) (req : ToolCallRequest) (rest : List ToolCallRequest)
      (taken : p.lastResult = some (.modelResult r)) (calls : r.toolCalls = req :: rest)
      (action : out.nextAction = dispatchAction r.toolCalls) (phase : out.state.phase = .dispatchingTools)
      (asked : out.state.messages.getLast? = some (.assistant r.parts)) :
      Performs cfg spent p out (.tools p out.state [] req rest .start)

namespace Host

variable {cfg : HostConfig} {e : Env} {h : Host}

theorem perform_performs {p : Point} {out : StepOutput} {notices : List String}
    (hstep : Reducer.step (cfg.stepInput p notices) = .ok out) :
    ∃ pc, h.perform cfg p out = h.goto pc ∧ Performs cfg h.spent p out pc := by
  dsimp only [perform]
  cases step_spec hstep with
  | failed err action phase =>
    rw [action]
    exact ⟨_, rfl, .failed err action⟩
  | completed r text status taken action phase =>
    rw [action]
    exact ⟨_, rfl, .completed r text status taken action⟩
  | model q action phase noCalls =>
    rw [action]
    dsimp only [callModel]
    split
    · exact ⟨_, rfl, .exhausted q action⟩
    · next hbelow => exact ⟨_, rfl, .model q action phase noCalls hbelow⟩
  | tools r taken some action phase asked =>
    rw [action]
    rcases hcalls : r.toolCalls with _ | ⟨a, _ | ⟨b, rest⟩⟩
    · exact absurd hcalls some
    · exact ⟨_, rfl, .tools r a [] taken hcalls action phase asked⟩
    · exact ⟨_, rfl, .tools r a (b :: rest) taken hcalls action phase asked⟩

/-- A move of the incarnation in progress. -/
inductive Move (cfg : HostConfig) (e : Env) (h : Host) : Host → Prop where
  /-- the loop is over its step limit -/
  | overrun (p : Point) (carried : List NoticeRow) (pc : h.pc = .boundary p carried) :
      Move cfg e h (h.fail (some p) .runtimeError none)
  | drained (p : Point) (carried : List NoticeRow) (pc : h.pc = .boundary p carried) :
      Move cfg e h (h.goto (.noticing p carried e.drained))
  | noticed {w' : Wal} (p : Point) (carried : List NoticeRow) (n : NoticeRow) (pending : List (String × String))
      (pc : h.pc = .noticing p carried ((n.kind, n.body) :: pending)) (step : n.stepIndex = p.stepIndex)
      (seq : n.seq = noticeSeq carried) (insert : h.wal.insertHostNotice n = some w') :
      Move cfg e h ((h.store w').goto (.noticing p (carried ++ [n]) pending))
  | suspended (p : Point) (carried : List NoticeRow) (pc : h.pc = .noticing p carried []) :
      Move cfg e h (h.goto (.finished .suspended))
  | rejected (p : Point) (carried : List NoticeRow) (pc : h.pc = .noticing p carried []) :
      Move cfg e h (h.fail (some p) .runtimeError none)
  /-- the step at `p`, its row, and where its action leads -/
  | reduced {pc' : Pc} (p : Point) (carried : List NoticeRow) (out : StepOutput)
      (pc : h.pc = .noticing p carried [])
      (step : Reducer.step (cfg.stepInput p (carried.map NoticeRow.body)) = .ok out)
      (performs : Performs cfg h.spent p out pc') :
      Move cfg e h ((h.store (h.wal.upsertInvocationState (rowOf p out e.now))).goto pc')
  | called {q q' : LlmPoint} {w' : Wal} {spent' : ℚ} (p : Point) (next : HarnessState)
      (pc : h.pc = .model p next q) (move : LlmMove .agentTurn h.wal h.spent q w' spent' (.inl q')) :
      Move cfg e h
        { h with wal := w', spent := spent', limited := h.limited ++ q'.limited, pc := .model p next q' }
  | replied {q : LlmPoint} {w' : Wal} {spent' : ℚ} (p : Point) (next : HarnessState) (r : ModelResponse)
      (pc : h.pc = .model p next q) (move : LlmMove .agentTurn h.wal h.spent q w' spent' (.inr (.ok r))) :
      Move cfg e h { h with wal := w', spent := spent', pc := .answered p next r }
  | refused {q : LlmPoint} {w' : Wal} {spent' : ℚ} (p : Point) (next : HarnessState)
      (pc : h.pc = .model p next q) (move : LlmMove .agentTurn h.wal h.spent q w' spent' (.inr .refused)) :
      Move cfg e h { h with wal := w', spent := spent', pc := .failing (some p) .llmError none false }
  | rateLimited {q : LlmPoint} {w' : Wal} {spent' : ℚ} (p : Point) (next : HarnessState) (id : Nat)
      (text : String) (pc : h.pc = .model p next q)
      (move : LlmMove .agentTurn h.wal h.spent q w' spent' (.inr (.error id (.rateLimited text)))) :
      Move cfg e h { h with wal := w', spent := spent', pc := .deferring p id }
  | broken {q : LlmPoint} {w' : Wal} {spent' : ℚ} (p : Point) (next : HarnessState) (id : Nat)
      (text : String) (pc : h.pc = .model p next q)
      (move : LlmMove .agentTurn h.wal h.spent q w' spent' (.inr (.error id (.other text)))) :
      Move cfg e h { h with wal := w', spent := spent', pc := .failing (some p) .llmError (some id) false }
  | overspent (p : Point) (next : HarnessState) (r : ModelResponse) (pc : h.pc = .answered p next r) :
      Move cfg e h (h.fail (some ⟨some next, some (.modelResult r), p.stepIndex + 1⟩) .budgetExceeded none)
  | advanced (p : Point) (next : HarnessState) (r : ModelResponse) (pc : h.pc = .answered p next r)
      (within : ¬ (cfg.budget.any fun b => b < h.spent) = true) :
      Move cfg e h (h.goto (.boundary ⟨some next, some (.modelResult r), p.stepIndex + 1⟩ []))
  | stamped {w' : Wal} (p : Point) (id : Nat) (pc : h.pc = .deferring p id)
      (stamp : h.wal.markLlmDeferred id e.now = some w') : Move cfg e h ((h.store w').goto (.stamped p))
  | unstamped (p : Point) (id : Nat) (pc : h.pc = .deferring p id)
      (stamp : h.wal.markLlmDeferred id e.now = none) : Move cfg e h (h.goto (.finished .crashed))
  | putDown (p : Point) (pc : h.pc = .stamped p) :
      Move cfg e h ((h.store h.wal.markDeferred).goto (.announcing p))
  | announced (p : Point) (pc : h.pc = .announcing p) :
      Move cfg e h ((h.emit .deferred).goto (.finished .deferred))
  | toolWent {q q' : ToolPoint} {w' : Wal} {spent' : ℚ} {executed : Option ToolCallResult} (p : Point)
      (next : HarnessState) (done : List ToolCallResult) (req : ToolCallRequest) (rest : List ToolCallRequest)
      (pc : h.pc = .tools p next done req rest q)
      (move : ToolStep cfg req h.wal h.spent q w' spent' executed (.goes q')) :
      Move cfg e h { h with
        wal := w'
        spent := spent'
        executions := h.executions ++ executed.toList.map (Execution.mk p.stepIndex (cfg.prepare req))
        pc := .tools p next done req rest q' }
  | toolAborted {q : ToolPoint} {w' : Wal} {spent' : ℚ} {executed : Option ToolCallResult} (p : Point)
      (next : HarnessState) (done : List ToolCallResult) (req : ToolCallRequest) (rest : List ToolCallRequest)
      (r : ToolCallResult) (pc : h.pc = .tools p next done req rest q)
      (move : ToolStep cfg req h.wal h.spent q w' spent' executed (.abort r)) :
      Move cfg e h { h with
        wal := w'
        spent := spent'
        executions := h.executions ++ executed.toList.map (Execution.mk p.stepIndex (cfg.prepare req))
        pc := .failing (some (if rest.isEmpty then roundPoint p next (done ++ [r]) else p)) .toolError none false }
  | toolAnswered {q : ToolPoint} {w' : Wal} {spent' : ℚ} {executed : Option ToolCallResult} (p : Point)
      (next : HarnessState) (done : List ToolCallResult) (req req' : ToolCallRequest)
      (rest : List ToolCallRequest) (r : ToolCallResult) (pc : h.pc = .tools p next done req (req' :: rest) q)
      (move : ToolStep cfg req h.wal h.spent q w' spent' executed (.answer r)) :
      Move cfg e h { h with
        wal := w'
        spent := spent'
        executions := h.executions ++ executed.toList.map (Execution.mk p.stepIndex (cfg.prepare req))
        answers := h.answers ++ [⟨p.stepIndex, req, r⟩]
        pc := .tools p next (done ++ [r]) req' rest .start }
  | roundDone {q : ToolPoint} {w' : Wal} {spent' : ℚ} {executed : Option ToolCallResult} (p : Point)
      (next : HarnessState) (done : List ToolCallResult) (req : ToolCallRequest) (r : ToolCallResult)
      (pc : h.pc = .tools p next done req [] q)
      (move : ToolStep cfg req h.wal h.spent q w' spent' executed (.answer r)) :
      Move cfg e h { h with
        wal := w'
        spent := spent'
        executions := h.executions ++ executed.toList.map (Execution.mk p.stepIndex (cfg.prepare req))
        answers := h.answers ++ [⟨p.stepIndex, req, r⟩]
        pc := .boundary (roundPoint p next (done ++ [r])) [] }
  /-- a store call fails inside the loop -/
  | lost (running : h.pc.ending = false) (other : ∀ p id, h.pc ≠ .deferring p id) :
      Move cfg e h (h.goto (.finished .crashed))
  | failed (p : Option Point) (kind : FailureKind) (call : Option Nat) (pc : h.pc = .failing p kind call false) :
      Move cfg e h ((h.emit (.failed kind call)).goto (.failing p kind call true))
  | ended (p : Option Point) (kind : FailureKind) (call : Option Nat) (pc : h.pc = .failing p kind call true) :
      Move cfg e h ((h.store (h.wal.ensureTerminal .failed e.now)).goto (.handingOff .failed false))
  | completed (pc : h.pc = .completing) :
      Move cfg e h ((h.emit .completed).goto (.handingOff .completed false))
  | archived (o : Outcome) (pc : h.pc = .handingOff o false)
      (terminal : (h.wal.state.any fun row => row.terminalAt.isSome) = true) :
      Move cfg e h ((h.emit (.archived o.finalPhase)).goto (.handingOff o true))
  | kept (o : Outcome) (pc : h.pc = .handingOff o false)
      (open' : ¬ (h.wal.state.any fun row => row.terminalAt.isSome) = true) :
      Move cfg e h (h.goto (.finished o))
  | handedOff (o : Outcome) (pc : h.pc = .handingOff o true) :
      Move cfg e h ((h.store h.wal.setArchivePending).goto (.finished o))
  | idle (o : Outcome) (pc : h.pc = .finished o) : Move cfg e h h

theorem step_move : Move cfg e h (h.step cfg e) := by
  unfold step
  split
  · next p carried hpc =>
    split
    · exact .overrun p carried hpc
    · exact .drained p carried hpc
  · next p carried kind body pending hpc =>
    dsimp only
    split
    · exact .lost (by rw [hpc]; rfl) (by intro p id; rw [hpc]; exact Pc.noConfusion)
    · next w' hw => exact .noticed p carried ⟨_, _, kind, body⟩ pending hpc rfl rfl hw
  · next p carried hpc =>
    split
    · exact .suspended p carried hpc
    · unfold reduce
      cases hstep : Reducer.step (cfg.stepInput p (carried.map NoticeRow.body)) with
      | error err => exact .rejected p carried hpc
      | ok out =>
        obtain ⟨pc, hgoes, hperf⟩ :=
          perform_performs (h := h.store (h.wal.upsertInvocationState (rowOf p out e.now))) hstep
        dsimp only
        rw [hgoes]
        exact .reduced p carried out hpc hstep hperf
  · next p next q hpc =>
    unfold stepModel
    split
    · exact .lost (by rw [hpc]; rfl) (by intro p id; rw [hpc]; exact Pc.noConfusion)
    · next hq => exact .called p next hpc (LlmPoint.step_move hq)
    · next w' spent' o hq =>
      have m := LlmPoint.step_move hq
      cases o with
      | ok r => exact .replied p next r hpc m
      | refused => exact .refused p next hpc m
      | error id err =>
        cases err with
        | rateLimited text => exact .rateLimited p next id text hpc m
        | other text => exact .broken p next id text hpc m
  · next p next r hpc =>
    split
    · exact .overspent p next r hpc
    · next hunder => exact .advanced p next r hpc hunder
  · next p id hpc =>
    split
    · next hnone => exact .unstamped p id hpc hnone
    · next hw => exact .stamped p id hpc hw
  · next p hpc => exact .putDown p hpc
  · next p hpc => exact .announced p hpc
  · next p next done req rest q hpc =>
    unfold stepTools
    split
    · exact .lost (by rw [hpc]; rfl) (by intro p id; rw [hpc]; exact Pc.noConfusion)
    · next hq =>
      have m := ToolPoint.step_toolStep hq
      dsimp only
      split
      · exact .toolWent p next done req rest hpc m
      · exact .toolAborted p next done req rest _ hpc m
      · next r =>
        cases rest with
        | nil => exact .roundDone p next done req r hpc m
        | cons req' rest => exact .toolAnswered p next done req req' rest r hpc m
  · next p kind call published hpc =>
    cases published with
    | false => exact .failed p kind call hpc
    | true => exact .ended p kind call hpc
  · next hpc => exact .completed hpc
  · next o published hpc =>
    cases published with
    | false =>
      dsimp only [stepHandingOff]
      split
      · next hterm => exact .archived o hpc hterm
      · next hterm => exact .kept o hpc hterm
    | true => exact .handedOff o hpc
  · next o hpc => exact .idle o hpc

/-- What a resume does: nothing, unless the last incarnation is over and the rows
let the invocation be picked up. -/
inductive Resumes (cfg : HostConfig) (h : Host) : Host → Prop where
  | refused : Resumes cfg h h
  /-- the failure a crash cut off is told again -/
  | failure (o : Outcome) (id : Nat) (message : String) (pc : h.pc = .finished o)
      (resume : h.wal.resume cfg = .ok (.lostFailure id message)) :
      Resumes cfg h { h with spent := 0, pc := .failing none .llmError (some id) false }
  | overspent (o : Outcome) (p : Point) (pc : h.pc = .finished o) (resume : h.wal.resume cfg = .ok (.resumesAt p)) :
      Resumes cfg h { h with spent := h.wal.totalCost, pc := .failing (some p) .budgetExceeded none false }
  | entered (o : Outcome) (p : Point) (pc : h.pc = .finished o) (resume : h.wal.resume cfg = .ok (.resumesAt p))
      (within : ¬ (cfg.budget.any fun b => b < h.wal.totalCost) = true) :
      Resumes cfg h { h with spent := h.wal.totalCost, pc := .boundary p (h.wal.noticesAt p.stepIndex) }

theorem resume_of_resumesAt {o : Outcome} {p : Point} (hpc : h.pc = .finished o)
    (hres : h.wal.resume cfg = .ok (.resumesAt p)) : h.resume cfg = h.reenter cfg p := by
  simp only [resume, hpc, hres]

theorem resume_resumes : Resumes cfg h (h.resume cfg) := by
  unfold resume
  split
  · next o hpc =>
    split
    · exact .refused
    · next id message hres => exact .failure o id message hpc hres
    · next p hres =>
      unfold reenter
      dsimp only
      split
      · exact .overspent o p hpc hres
      · next hunder => exact .entered o p hpc hres hunder
  · exact .refused

/-- What the operator's closing of interrupted calls does. -/
theorem inject_cases (render : Int → String) :
    h.inject render = h ∨
      ∃ o, h.pc = .finished o ∧ h.inject render = h.store (h.wal.injectInterruptedResults render) := by
  unfold inject
  split
  · next o hpc =>
    split
    · exact .inr ⟨o, hpc, rfl⟩
    · exact .inl rfl
  · exact .inl rfl

end Host

end FactorQ.Reducer
