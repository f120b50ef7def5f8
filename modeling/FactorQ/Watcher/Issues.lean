/-
# `FactorQ.Watcher.Issues` — an issue's labels and who may move them

A watched issue carries status labels, and the watcher moves it from one to another: an issue
that is ready is claimed, its trigger published, and it is in progress until the outcome of the
run it started is known.  Two parts of a watcher decide on outcomes.  The reactor hears of them
as they happen and counts failures as it goes; the reconciler reads the retained events on
every poll and counts triggers.

Here are the decisions: which issues to trigger, what the retained events say about an issue,
and where an outcome moves it.  A move is three requests at most; `Relabelling.request` is what
one of them does to the labels.
-/
import FactorQ.Lib.Table

namespace FactorQ.Watcher

open Lib

/-! ## Issues -/

/-- The labels a watcher moves an issue between. -/
inductive Status where
  | ready
  | inProgress
  | inReview
  | failed
  | done
deriving DecidableEq

structure Issue where
  number : Nat
  labels : Finset Status
  closed : Bool
  -- zero where the answer has no time
  updatedAt : Nat

def Issue.hasLabel (issue : Issue) (label : Status) : Bool := label ∈ issue.labels

structure Config where
  repo : String
  -- the task template with its number filled in
  task : Nat → String
  maxTriggersPerPoll : Nat
  maxRetries : Nat
  reconcileAfter : Nat

/-- What a watcher runs with unless told otherwise. -/
def defaults : Config where
  repo := "bricef/factor-q"
  task n := "Implement the fix described in GitHub issue #" ++ toString n ++ "."
  maxTriggersPerPoll := 3
  maxRetries := 2
  reconcileAfter := 4 * 60 * 60

structure TriggerPayload where
  task : String
  refs : List String
  constraints : List String
  doneCriteria : List String
  repo : String
  issue : Nat

structure PlannedTrigger where
  issue : Nat
  payload : TriggerPayload
  names : payload.issue = issue

def newTriggerPayload (cfg : Config) (issue : Nat) : TriggerPayload where
  task := cfg.task issue
  refs := ["https://github.com/" ++ cfg.repo ++ "/issues/" ++ toString issue]
  constraints := ["Make the smallest change that satisfies the issue acceptance criteria."]
  doneCriteria := ["Open a reviewable pull request that closes the issue."]
  repo := cfg.repo
  issue := issue

/-- The ready issues that are not in progress, lowest number first, as many as one poll may take. -/
def planTriggers (issues : List Issue) (cfg : Config) : List PlannedTrigger :=
  let eligible := issues.filter fun issue => issue.hasLabel .ready && !issue.hasLabel .inProgress
  let eligible := eligible.insertionSort fun a b => a.number ≤ b.number
  let eligible :=
    if cfg.maxTriggersPerPoll > 0 ∧ eligible.length > cfg.maxTriggersPerPoll then eligible.take cfg.maxTriggersPerPoll
    else eligible
  eligible.map fun issue => ⟨issue.number, newTriggerPayload cfg issue.number, rfl⟩

/-! ## Outcomes -/

/-- How an invocation ended. -/
inductive Outcome where
  | completed (taskStatus : String)
  | failed (errorKind : String)
  | ambiguous

/-- What a watcher reads of a lifecycle event. -/
inductive OutcomeEvent where
  | triggered (invocation : String) (issue : Nat)
  | ended (invocation : String) (outcome : Outcome)

/-- Errors a second run would meet again. -/
def terminalErrorKinds : List String := ["budget_exceeded", "max_iterations", "sandbox_violation"]

/-- A completed run that declares its task not done. -/
def declaresFailure (taskStatus : String) : Bool := taskStatus = "failed" || taskStatus = "blocked"

/-- The latest run of an issue, how it ended if it did, and how many were triggered. -/
structure IssueRun where
  invocation : String
  terminal : Option Outcome
  attempts : Nat

/-- Runs by issue; an issue that has none has a run with no invocation. -/
abbrev Runs := Table Nat IssueRun

def Runs.of (runs : Runs) (issue : Nat) : IssueRun := (runs.get? issue).getD ⟨"", none, 0⟩

def noteEvent (known : Table String Nat × Runs) (ev : OutcomeEvent) : Table String Nat × Runs :=
  match ev with
  | .triggered invocation issue =>
    if issue = 0 ∨ invocation = "" then known
    else
      (known.1.set invocation issue,
        known.2.set issue ⟨invocation, none, (known.2.of issue).attempts + 1⟩)
  | .ended invocation outcome =>
    match known.1.get? invocation with
    | none => known
    | some issue =>
      let run := known.2.of issue
      if issue ≠ 0 ∧ run.invocation = invocation then
        (known.1, known.2.set issue { run with terminal := some outcome })
      else known

/-- The latest run and the number of triggers of every issue, from the events in order. -/
def issueRuns (events : List OutcomeEvent) : Runs := (events.foldl noteEvent (Table.empty, Table.empty)).2

/-! ## Where an outcome moves an issue -/

/-- Where an issue goes from being in progress. -/
inductive Target where
  | ready
  | inReview
  | failed
deriving DecidableEq

def Target.status : Target → Status
  | ready => .ready
  | inReview => .inReview
  | failed => .failed

def retryOrFail (cfg : Config) (kind : String) (attempts : Nat) : Target :=
  -- one initial trigger plus the retries is the whole budget
  if kind ∉ terminalErrorKinds ∧ attempts ≤ cfg.maxRetries then .ready else .failed

/-- Where the reconciler moves an issue in progress, if anywhere.  `run` is absent when the events
could not be read, `prs` when the pull requests could not. -/
def reconcileIssue (cfg : Config) (now : Nat) (issue : Issue) (run : Option IssueRun) (prs : Option (List Nat)) :
    Option Target :=
  match prs with
  | none => none
  | some (_ :: _) => some .inReview
  | some [] =>
    match run with
    | none => none
    | some run =>
      match run.terminal with
      | some .ambiguous => some .failed
      | some (.completed taskStatus) =>
        let kind := if declaresFailure taskStatus then "task_" ++ taskStatus else "no_pr"
        some (retryOrFail cfg kind run.attempts)
      | some (.failed errorKind) => some (retryOrFail cfg errorKind run.attempts)
      | none =>
        if issue.updatedAt = 0 ∨ now - issue.updatedAt < cfg.reconcileAfter then none
        else some (retryOrFail cfg "reconcile_timeout" run.attempts)

/-! ## Moves -/

/-- Which request of a move is next. -/
inductive Stage where
  | adding
  | removing
  | rollingBack
deriving DecidableEq

/-- A move of an issue from one label to another. -/
structure Relabelling where
  issue : Nat
  remove : Status
  add : Status
  stage : Stage
deriving DecidableEq

/-- What becomes of a request: it takes effect and is answered, it takes effect and the answer is
an error, or it fails with an error and has no effect. -/
inductive Reply where
  | done
  | lost
  | failed
deriving DecidableEq

inductive RelabelError where
  | add
  -- the label to remove was already gone
  | claimLost
  -- the removal failed, and what was added was taken back
  | rolledBack
  -- the removal failed, and so did taking back
  | bothLabels

/-- One request of `Relabel`: the labels after it, and what it goes on to or comes to. -/
def Relabelling.request (move : Relabelling) (reply : Reply) (labels : Finset Status) :
    Finset Status × (Stage ⊕ Except RelabelError Unit) :=
  match move.stage, reply with
  | .adding, .done => (insert move.add labels, .inl .removing)
  | .adding, .lost => (insert move.add labels, .inr (.error .add))
  | .adding, .failed => (labels, .inr (.error .add))
  | .removing, .done =>
    if move.remove ∈ labels then (labels.erase move.remove, .inr (.ok ()))
    else (labels, .inr (.error .claimLost))
  -- an error that is no "not found": the addition is rolled back
  | .removing, .lost => (labels.erase move.remove, .inl .rollingBack)
  | .removing, .failed => (labels, .inl .rollingBack)
  | .rollingBack, .done => (labels.erase move.add, .inr (.error .rolledBack))
  | .rollingBack, .lost => (labels.erase move.add, .inr (.error .bothLabels))
  | .rollingBack, .failed => (labels, .inr (.error .bothLabels))

end FactorQ.Watcher
