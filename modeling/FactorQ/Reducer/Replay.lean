/-
# `FactorQ.Reducer.Replay` — rebuilding a run from its rows

A resume reads the completed rows, orders them, cuts a tool round the crash
landed in, groups the results of each round into the one capability the live
loop produced, and drives the reducer through the list from an empty state.
-/
import FactorQ.Reducer.Wal

namespace FactorQ.Reducer

open Lib

/-! ## Rows as capabilities -/

/-- The result a completed row holds.  The kind of an error and the time it took
are not in the row. -/
def toolRowToResult (id : ToolCallId) (row : ToolRow) : ToolCallResult :=
  ⟨id, row.result.getD "", row.isError.getD false, none, 0⟩

/-- The two candidate orders of a completed row: its number, and its time. -/
abbrev SortKey := Option Nat × Int

def replaySortKey (seq : Option Nat) (completedAt : Option Int) : SortKey := (seq, completedAt.getD 0)

/-- By number if every row has one; otherwise by time, with the number for ties
and unnumbered rows last among them.  Decided once for the whole list. -/
def sortIntoReplayOrder (rows : List (SortKey × CapabilityResult)) : List (SortKey × CapabilityResult) :=
  if rows.all fun r => r.1.1.isSome then
    rows.insertionSort fun a b => a.1.1.getD 0 ≤ b.1.1.getD 0
  else
    rows.insertionSort fun a b =>
      a.1.2 < b.1.2 ∨ a.1.2 = b.1.2 ∧ a.1.1.getD (2 ^ 63 - 1) ≤ b.1.1.getD (2 ^ 63 - 1)

/-- The results of a round as the live loop hands them back: a single one by
itself, several together. -/
def batchResult : List ToolCallResult → CapabilityResult
  | [r] => .toolResult r
  | rs => .parallelToolResults rs

theorem batchResult_ne_modelResult (results : List ToolCallResult) (r : ModelResponse) :
    some (batchResult results) ≠ some (.modelResult r) := by
  intro he
  rcases results with _ | ⟨a, _ | ⟨b, rest⟩⟩ <;> cases he

/-- Emit a run of results, if there is one. -/
def flushToolBatch : List ToolCallResult → List CapabilityResult
  | [] => []
  | rs => [batchResult rs]

/-- Group each run of consecutive results; `batch` is the run so far. -/
def coalesceFrom (batch : List ToolCallResult) : List CapabilityResult → List CapabilityResult
  | [] => flushToolBatch batch
  | .toolResult r :: rest => coalesceFrom (batch ++ [r]) rest
  | c :: rest => flushToolBatch batch ++ c :: coalesceFrom [] rest

def coalesceToolResults (ordered : List CapabilityResult) : List CapabilityResult := coalesceFrom [] ordered

/-- The length of the list up to and with its last model turn, and the number of
calls that turn made. -/
def lastModel? : List CapabilityResult → Option (Nat × Nat)
  | [] => none
  | c :: rest =>
    match lastModel? rest, c with
    | some (n, calls), _ => some (n + 1, calls)
    | none, .modelResult r => some (1, r.toolCalls.length)
    | none, _ => none

/-- Drop the results of a last round that are fewer than its calls. -/
def truncateIncompleteFinalBatch (completed : List CapabilityResult) : List CapabilityResult :=
  match lastModel? completed with
  | none => completed
  | some (n, requested) =>
    if 0 < requested ∧ completed.length - n < requested then completed.take n else completed

/-! ## The replay -/

/-- What the host passes to every step of the invocation, and what it checks
calls against. -/
structure HostConfig where
  agent : AgentConfig
  trigger : TriggerPayload
  step0Context : Option String
  declaredTools : List String
  registry : List String
  bindWorkspace : String → Value → Value
  budget : Option ℚ

/-- Where the loop stands at the top of a step. -/
structure Point where
  state : Option HarnessState
  lastResult : Option CapabilityResult
  stepIndex : Nat

def Point.start : Point := ⟨none, none, 0⟩

/-- The same point as it is rebuilt from the rows. -/
def Point.recorded (p : Point) : Point :=
  { p with lastResult := p.lastResult.map CapabilityResult.recorded }

/-- The input of the step performed at `p`.  The step-0 context goes into the
first step only. -/
def HostConfig.stepInput (cfg : HostConfig) (p : Point) (notices : List String) : StepInput where
  config := cfg.agent
  trigger := cfg.trigger
  state := p.state
  lastResult := p.lastResult
  staticResourceContext := if p.stepIndex = 0 then cfg.step0Context else none
  hostNotices := notices

/-- The step performed at `p` with the notices recorded for it. -/
def HostConfig.stepAt (cfg : HostConfig) (w : Wal) (p : Point) : Except HarnessError StepOutput :=
  step (cfg.stepInput p ((w.noticesAt p.stepIndex).map NoticeRow.body))

inductive ResumeError where
  | noStateRow
  | alreadyTerminal
  | ambiguousWal
  | badResponse
  | replayFailed (stepIndex : Nat) (source : HarnessError)

/-- Drive the reducer through the capabilities from `p`. -/
def replaySteps (cfg : HostConfig) (w : Wal) : Point → List CapabilityResult → Except ResumeError Point
  | p, [] => .ok p
  | p, c :: rest =>
    match cfg.stepAt w p with
    | .error e => .error (.replayFailed p.stepIndex e)
    | .ok out => replaySteps cfg w ⟨some out.state, some c, p.stepIndex + 1⟩ rest

/-- What the model-call rows contribute: the turns, or the failure whose terminal
was lost. -/
inductive Turns where
  | lostFailure (request : Nat) (message : String)
  | turns (rows : List (SortKey × CapabilityResult))

/-- Go through the agent-turn rows in order. -/
def collectTurns : List (Nat × LlmRow) → Except ResumeError Turns
  | [] => .ok (.turns [])
  | (id, r) :: rest =>
    if r.origin ≠ .agentTurn ∨ r.status ≠ .completed then collectTurns rest
    else if r.isError = some true then
      -- a deferred call determined nothing; any other error was the end
      if r.deferredAt.isSome then collectTurns rest
      else
        .ok (.lostFailure id (match r.response with
          | some (.error m) => m
          | _ => "provider error (no detail recorded)"))
    else
      match r.response with
      | some (.response resp) =>
        match collectTurns rest with
        | .ok (.turns rows) =>
          .ok (.turns ((replaySortKey r.seq r.completedAt, .modelResult resp) :: rows))
        | other => other
      | _ => .error .badResponse

/-- The completed tool rows. -/
def collectTools (rows : List (ToolCallId × ToolRow)) : List (SortKey × CapabilityResult) :=
  rows.filterMap fun r =>
    if r.2.status = .completed then
      some (replaySortKey r.2.seq r.2.completedAt, .toolResult (toolRowToResult r.1 r.2))
    else none

inductive Resumed where
  | lostFailure (request : Nat) (message : String)
  | resumesAt (p : Point)

/-- What `resume` decides from the rows before it re-enters the loop. -/
def Wal.resume (cfg : HostConfig) (w : Wal) : Except ResumeError Resumed :=
  match w.state with
  | none => .error .noStateRow
  | some row =>
    if row.terminalAt.isSome then .error .alreadyTerminal
    else if w.isAmbiguous then .error .ambiguousWal
    else
      match collectTurns w.llms.rows with
      | .error e => .error e
      | .ok (.lostFailure id m) => .ok (.lostFailure id m)
      | .ok (.turns rows) =>
        let ordered := (sortIntoReplayOrder (collectTools w.tools.rows ++ rows)).map Prod.snd
        let replay := coalesceToolResults (truncateIncompleteFinalBatch ordered)
        match replaySteps cfg w Point.start replay with
        | .error e => .error e
        | .ok p => .ok (.resumesAt p)

end FactorQ.Reducer
