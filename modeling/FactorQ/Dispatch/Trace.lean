/-
# `FactorQ.Dispatch.Trace` — what is left of a trigger that was consumed

A delivery that is acked is gone, so something has to remain of it: the first row of the
invocation in the write-ahead log, from which recovery resumes it, or a terminal event that
says why it never ran.

The run is modelled up to its first row, with every answer that the store, the bus, the
file system and the reducer can give on the way; what comes after the row is arbitrary.
How long each call takes is left to the worker that performs the run: any future that fires
the signal exactly if the row was written and returns what the run returns.

Two ways lead out of the run with nothing written and nothing said.  A drain that is
requested between the dispatcher's own check and the first step boundary suspends a run
that has no row to resume from; and a workspace that cannot be provisioned or bound is a
permanent error for which no event is published.
-/
import FactorQ.Dispatch.Wait

namespace FactorQ.Dispatch

open Lib

/-! ## The run up to its first row -/

inductive RunEvent where
  | triggered
  | hostNotice
  | failed (message : String)
deriving DecidableEq

/-- What the run meets, in the order in which it asks. -/
structure Surroundings where
  /-- why a shared MCP server that the agent needs does not answer -/
  mcpDown : Option String
  /-- `None` without a workspace provider -/
  provision : Option (Except String Unit)
  toolSandbox : Except String Unit
  publishTriggered : Except String Unit
  /-- a notice waiting for the first step: its row, and its event -/
  notices : List (Except String Unit × Except String Unit)
  /-- a drain has been requested by the first step boundary -/
  draining : Bool
  reducerStep : Except String Unit
  publishFailed : Except String Unit
  /-- closing the row and the archive after a `failed` event -/
  closeFailed : Except ExecutorError Unit
  upsert : Except String Unit
  /-- everything after the first row -/
  later : List RunEvent × RunResult

structure Run where
  events : List RunEvent
  /-- the first row was written -/
  wal : Bool
  result : RunResult

/-- `refuse_for_unavailable_mcp` -/
def refuse (env : Surroundings) (message : String) : Run :=
  match env.publishTriggered with
  | .error e => ⟨[], false, .error (.bus e)⟩
  | .ok () =>
    match env.publishFailed with
    | .error e => ⟨[.triggered], false, .error (.bus e)⟩
    | .ok () => ⟨[.triggered, .failed message], false, .error (.invocationFailed message)⟩

/-- `emit_failed`, and the error that is returned after it. -/
def emitFailed (env : Surroundings) (message : String) : List RunEvent × ExecutorError :=
  match env.publishFailed with
  | .error e => ([], .bus e)
  | .ok () =>
    match env.closeFailed with
    | .error e => ([.failed message], e)
    | .ok () => ([.failed message], .invocationFailed message)

/-- The notices are written and published one by one. -/
def injectNotices : List (Except String Unit × Except String Unit) → List RunEvent × Option ExecutorError
  | [] => ([], none)
  | (insert, publish) :: rest =>
    match insert with
    | .error e => ([], some (.workerStore e))
    | .ok () =>
      match publish with
      | .error e => ([], some (.bus e))
      | .ok () =>
        let (events, err) := injectNotices rest
        (.hostNotice :: events, err)

/-- `run_loop_inner` up to the first row. -/
def runLoopInner (env : Surroundings) : Run :=
  let (events, err) := injectNotices env.notices
  match err with
  | some err => ⟨events, false, .error err⟩
  | none =>
    if env.draining then ⟨events, false, .ok .suspended⟩
    else
      match env.reducerStep with
      | .error e =>
        let (failure, err) := emitFailed env s!"reducer step failed: {e}"
        ⟨events ++ failure, false, .error err⟩
      | .ok () =>
        match env.upsert with
        | .error e => ⟨events, false, .error (.workerStore e)⟩
        | .ok () => ⟨events ++ env.later.1, true, env.later.2⟩

/-- Provisioning the workspace, and binding it into the sandbox. -/
def bindWorkspace (env : Surroundings) : Except String Unit := do
  match env.provision with
  | some provisioned => provisioned
  | none => pure ()
  env.toolSandbox

/-- `run_loop_for` -/
def runLoopFor (env : Surroundings) : Run :=
  match env.mcpDown with
  | some message => refuse env message
  | none =>
    match bindWorkspace env with
    | .error e => ⟨[], false, .error (.workspace e)⟩
    | .ok () =>
      match env.publishTriggered with
      | .error e => ⟨[], false, .error (.bus e)⟩
      | .ok () =>
        let run := runLoopInner env
        { run with events := .triggered :: run.events }

/-! ## Traces -/

/-- The worker performs the run. -/
def Performs (env : Surroundings) (worker : WorkerRun) : Prop :=
  worker.result = (runLoopFor env).result ∧
    ((∃ invocation, some (.fires invocation) ∈ worker.pending ++ [worker.last]) ↔ (runLoopFor env).wal = true)

def Acked (deeds : List Deed) : Prop := ∃ context, .ack context ∈ deeds

/-- The first row, a `failed` event, or a `trigger_exhausted` event. -/
def Traced (run : Run) (deeds : List Deed) : Prop :=
  run.wal = true ∨ (∃ message, .failed message ∈ run.events) ∨ ∃ err, .deadLetter err ∈ deeds

/-- The run gets to its workspace. -/
def ReachesWorkspace (env : Surroundings) : Prop := env.mcpDown = none

/-- The run gets to its first step boundary. -/
def ReachesFirstStep (env : Surroundings) : Prop :=
  env.mcpDown = none ∧ env.publishTriggered = .ok () ∧ ∀ notice ∈ env.notices, notice = (.ok (), .ok ())

/-- The workspace of the run is provisioned and bound, and no drain has been requested by the
time the run gets to its first step boundary. -/
structure Untroubled (env : Surroundings) : Prop where
  workspace : ReachesWorkspace env → (∀ e, env.provision ≠ some (.error e)) ∧ env.toolSandbox = .ok ()
  drain : ReachesFirstStep env → env.draining = false

/-! ## How a run without a row returns -/

section Returns

variable {env : Surroundings}

/-- Nothing but notices is published, and only a transient error can stop it. -/
theorem injectNotices_spec (notices : List (Except String Unit × Except String Unit)) :
    (∀ message, .failed message ∉ (injectNotices notices).1) ∧
    (((injectNotices notices).2 = none ∧ ∀ notice ∈ notices, notice = (.ok (), .ok ())) ∨
      ((∃ err, (injectNotices notices).2 = some err ∧ err.isTransient = true) ∧
        ¬ ∀ notice ∈ notices, notice = (.ok (), .ok ()))) := by
  induction notices with
  | nil => simp [injectNotices]
  | cons notice rest ih =>
    obtain ⟨insert, publish⟩ := notice
    cases insert with
    | error e => simp [injectNotices, ExecutorError.isTransient]
    | ok _ =>
      cases publish with
      | error e => simp [injectNotices, ExecutorError.isTransient]
      | ok _ => simpa [injectNotices] using ih

/-- A run that has written no row has said that it failed, or returns a transient error. -/
def Answers (run : Run) : Prop :=
  run.wal = true ∨ (∃ message, .failed message ∈ run.events) ∨
    ∃ err, run.result = .error err ∧ err.isTransient = true

/-- It returns for good and has neither written a row nor said that it failed. -/
def Silent (run : Run) : Prop :=
  run.wal = false ∧ (∀ message, .failed message ∉ run.events) ∧ ∀ attempt, triggerFate run.result attempt = .consume

theorem answers_refuse (message : String) : Answers (refuse env message) := by
  unfold refuse
  cases env.publishTriggered with
  | error e => exact .inr (.inr ⟨_, rfl, rfl⟩)
  | ok _ =>
    cases env.publishFailed with
    | error e => exact .inr (.inr ⟨_, rfl, rfl⟩)
    | ok _ => exact .inr (.inl ⟨message, by simp⟩)

theorem emitFailed_spec (env : Surroundings) (message : String) :
    .failed message ∈ (emitFailed env message).1 ∨ (emitFailed env message).2.isTransient = true := by
  unfold emitFailed
  cases env.publishFailed with
  | error e => exact .inr rfl
  | ok _ => cases env.closeFailed <;> exact .inl (by simp)

/-- The loop is silent exactly if a drain is waiting for it at its first boundary. -/
theorem runLoopInner_cases (env : Surroundings) :
    (Answers (runLoopInner env) ∧ ¬ (env.draining = true ∧ ∀ notice ∈ env.notices, notice = (.ok (), .ok ()))) ∨
    (Silent (runLoopInner env) ∧ env.draining = true ∧ ∀ notice ∈ env.notices, notice = (.ok (), .ok ())) := by
  obtain ⟨hquiet, ⟨hnone, hall⟩ | ⟨⟨err, herr, htransient⟩, hnot⟩⟩ := injectNotices_spec env.notices
  · cases hdrain : env.draining with
    | true =>
      refine .inr ⟨?_, rfl, hall⟩
      simp only [runLoopInner, hnone, hdrain, if_true]
      exact ⟨rfl, hquiet, fun _ => rfl⟩
    | false =>
      refine .inl ⟨?_, by simp⟩
      simp only [runLoopInner, hnone, hdrain, Bool.false_eq_true, if_false]
      cases env.reducerStep with
      | error e =>
        -- the failure is published, or the error that kept it from being published is transient
        rcases emitFailed_spec env s!"reducer step failed: {e}" with hsaid | htransient
        · exact .inr (.inl ⟨_, List.mem_append_right _ hsaid⟩)
        · exact .inr (.inr ⟨_, rfl, htransient⟩)
      | ok _ =>
        cases env.upsert with
        | error e => exact .inr (.inr ⟨_, rfl, rfl⟩)
        | ok _ => exact .inl rfl
  · refine .inl ⟨?_, fun h => hnot h.2⟩
    simp only [runLoopInner, herr]
    exact .inr (.inr ⟨err, rfl, htransient⟩)

theorem answers_triggered {run : Run} (h : Answers run) : Answers { run with events := .triggered :: run.events } := by
  rcases h with hwal | ⟨message, hsaid⟩ | htransient
  · exact .inl hwal
  · exact .inr (.inl ⟨message, List.mem_cons_of_mem _ hsaid⟩)
  · exact .inr (.inr htransient)

theorem silent_triggered {run : Run} (h : Silent run) : Silent { run with events := .triggered :: run.events } := by
  obtain ⟨hwal, hsaid, hfate⟩ := h
  refine ⟨hwal, fun message => ?_, hfate⟩
  simpa using hsaid message

theorem silent_workspace (e : String) : Silent ⟨[], false, .error (.workspace e)⟩ :=
  ⟨rfl, by simp, fun _ => rfl⟩

theorem bindWorkspace_ok :
    bindWorkspace env = .ok () ↔ (∀ e, env.provision ≠ some (.error e)) ∧ env.toolSandbox = .ok () := by
  unfold bindWorkspace
  cases env.provision with
  | none => simp
  | some provisioned => cases provisioned <;> simp [bind, Except.bind]

/-- A run is silent exactly if it is troubled. -/
theorem runLoopFor_cases (env : Surroundings) :
    (Answers (runLoopFor env) ∧ Untroubled env) ∨ (Silent (runLoopFor env) ∧ ¬ Untroubled env) := by
  cases hmcp : env.mcpDown with
  | some message =>
    refine .inl ⟨?_, ⟨fun h => ?_, fun h => ?_⟩⟩
    · simp only [runLoopFor, hmcp]
      exact answers_refuse message
    · exact absurd (hmcp.symm.trans h) (by simp)
    · exact absurd (hmcp.symm.trans h.1) (by simp)
  | none =>
    cases hbind : bindWorkspace env with
    | error e =>
      refine .inr ⟨?_, fun h => ?_⟩
      · simp only [runLoopFor, hmcp, hbind]
        exact silent_workspace e
      · exact absurd (hbind.symm.trans (bindWorkspace_ok.mpr (h.workspace hmcp))) (by simp)
    | ok _ =>
      have hworkspace := bindWorkspace_ok.mp hbind
      cases hpub : env.publishTriggered with
      | error e =>
        refine .inl ⟨?_, ⟨fun _ => hworkspace, fun h => ?_⟩⟩
        · simp only [runLoopFor, hmcp, hbind, hpub]
          exact .inr (.inr ⟨.bus e, rfl, rfl⟩)
        · exact absurd (hpub.symm.trans h.2.1) (by simp)
      | ok _ =>
        simp only [runLoopFor, hmcp, hbind, hpub]
        obtain ⟨hanswers, hnot⟩ | ⟨hsilent, hdrain, hall⟩ := runLoopInner_cases env
        · refine .inl ⟨answers_triggered hanswers, ⟨fun _ => hworkspace, fun h => ?_⟩⟩
          exact Bool.eq_false_iff.mpr fun hdrain => hnot ⟨hdrain, h.2.2⟩
        · refine .inr ⟨silent_triggered hsilent, fun h => ?_⟩
          exact absurd hdrain (Bool.eq_false_iff.mp (h.drain ⟨hmcp, hpub, hall⟩))

end Returns

/-! ## What remains of a delivery -/

section Remains

variable {env : Surroundings} {worker : WorkerRun} {mark : Bool} {attempt : Nat}

/-- A transient error is acked only as a dead letter. -/
theorem deadLetter_of_acked {err : ExecutorError} (htransient : err.isTransient = true)
    (hacked : Acked (fateDeeds (.error err) attempt)) : .deadLetter err ∈ fateDeeds (.error err) attempt := by
  obtain ⟨context, hack⟩ := hacked
  cases hexhausted : triggerRetryExhausted attempt with
  | true => simp [fateDeeds, triggerFate, htransient, hexhausted]
  | false => simp [fateDeeds, triggerFate, htransient, hexhausted] at hack

theorem fires_of_started {pending : List (Option Signal)} (h : endingOf mark pending = .started) :
    ∃ invocation, some (.fires invocation) ∈ pending := by
  unfold endingOf at h
  cases hsignal : pending.findSome? id with
  | none => simp [hsignal] at h
  | some signal =>
    obtain ⟨_, hmem, rfl⟩ := List.exists_of_findSome?_eq_some hsignal
    cases signal with
    | fires invocation => exact ⟨invocation, hmem⟩
    | drops => simp [hsignal] at h

/-- A delivery that is settled was acked on a durable start, or met the fate of its
trigger. -/
theorem settled_deeds {h : Handling} (hreach : Reaches (Handling.step mark attempt) (.start worker) h)
    (hsettled : h.phase = .settled) :
    endingOf mark worker.pending = .started ∨ h.deeds = fateDeeds worker.result attempt := by
  obtain ⟨h', hreach', hend⟩ : ∃ h', Reaches (Handling.step mark attempt) (.start worker) h' ∧
      (endingOf mark worker.pending).Describes h' worker.result attempt := handling_ends
  cases hending : endingOf mark worker.pending with
  | started => exact .inl rfl
  | lost =>
    rw [hending] at hend
    have heq := hreach.unique (rests_of_settled hsettled) (rests_of_panicked hend.1) hreach'
    exact absurd (hsettled.symm.trans (heq ▸ hend.1)) (by simp)
  | returned =>
    rw [hending] at hend
    have heq := hreach.unique (rests_of_settled hsettled) (rests_of_settled hend.1) hreach'
    exact .inr (heq ▸ hend.2.2)

theorem traced_of_answers {h : Handling} (hanswers : Answers (runLoopFor env)) (hperforms : Performs env worker)
    (hreach : Reaches (Handling.step mark attempt) (.start worker) h) (hsettled : h.phase = .settled)
    (hacked : Acked h.deeds) : Traced (runLoopFor env) h.deeds := by
  obtain ⟨hresult, hfires⟩ := hperforms
  rcases hanswers with hwal | hsaid | ⟨err, herr, htransient⟩
  · exact .inl hwal
  · exact .inr (.inl hsaid)
  · rcases settled_deeds hreach hsettled with hstarted | hdeeds
    · obtain ⟨invocation, hmem⟩ := fires_of_started hstarted
      exact .inl (hfires.mp ⟨invocation, List.mem_append_left _ hmem⟩)
    · rw [hresult, herr] at hdeeds
      rw [hdeeds] at hacked ⊢
      exact .inr (.inr ⟨err, deadLetter_of_acked htransient hacked⟩)

/-- A worker that returns in one poll. -/
def atOnce (result : RunResult) : WorkerRun := ⟨[], none, result⟩

theorem untraced_of_silent (hsilent : Silent (runLoopFor env)) :
    Performs env (atOnce (runLoopFor env).result) ∧
    ∃ h, Reaches (Handling.step true attempt) (.start (atOnce (runLoopFor env).result)) h ∧ h.phase = .settled ∧
      Acked h.deeds ∧ ¬ Traced (runLoopFor env) h.deeds := by
  obtain ⟨hwal, hsaid, hfate⟩ := hsilent
  refine ⟨⟨rfl, by simp [atOnce, hwal]⟩, ?_⟩
  obtain ⟨h, hreach, hphase, -, hdeeds⟩ : ∃ h, Reaches (Handling.step true attempt)
      (.start (atOnce (runLoopFor env).result)) h ∧
      (endingOf true []).Describes h (runLoopFor env).result attempt := handling_ends
  have hack : h.deeds = [.ack "invocation returned before durable start (permanent)"] := by
    rw [hdeeds]
    unfold fateDeeds
    rw [hfate attempt]
  refine ⟨h, hreach, hphase, ⟨_, hack ▸ List.mem_singleton_self _⟩, ?_⟩
  rintro (hrow | ⟨message, hmem⟩ | ⟨err, hmem⟩)
  · exact absurd hrow (by simp [hwal])
  · exact hsaid message hmem
  · simp [hack] at hmem

end Remains

/-- Every delivery that is acked leaves a trace, whatever the timing of the worker that
performs the run, exactly if the run is untroubled. -/
theorem acked_leaves_trace (env : Surroundings) (deliveryAttempt : Nat) :
    (∀ worker mark h, Performs env worker → Reaches (Handling.step mark deliveryAttempt) (.start worker) h →
      h.phase = .settled → Acked h.deeds → Traced (runLoopFor env) h.deeds) ↔ Untroubled env := by
  obtain ⟨hanswers, huntroubled⟩ | ⟨hsilent, htroubled⟩ := runLoopFor_cases env
  · refine iff_of_true (fun worker mark h hperforms hreach hsettled hacked => ?_) huntroubled
    exact traced_of_answers hanswers hperforms hreach hsettled hacked
  · refine iff_of_false (fun htraced => ?_) htroubled
    obtain ⟨hperforms, h, hreach, hsettled, hacked, huntraced⟩ := untraced_of_silent hsilent
    exact huntraced (htraced _ _ h hperforms hreach hsettled hacked)

/-- Everything succeeds, but a drain is requested before the first step boundary. -/
def drained : Surroundings where
  mcpDown := none
  provision := none
  toolSandbox := .ok ()
  publishTriggered := .ok ()
  notices := []
  draining := true
  reducerStep := .ok ()
  publishFailed := .ok ()
  closeFailed := .ok ()
  upsert := .ok ()
  later := ([], .ok .completed)

/-- The trigger that met the drain is acked.  Of its invocation there is the `triggered`
event and no row: recovery finds nothing to resume. -/
theorem drained_trigger_untraced :
    Performs drained (atOnce (.ok .suspended)) ∧ (runLoopFor drained).events = [.triggered] ∧
    ∃ h, Reaches (Handling.step true 1) (.start (atOnce (.ok .suspended))) h ∧ h.phase = .settled ∧
      Acked h.deeds ∧ ¬ Traced (runLoopFor drained) h.deeds := by
  have hevents : (runLoopFor drained).events = [.triggered] := rfl
  have hsilent : Silent (runLoopFor drained) := ⟨rfl, by simp [hevents], fun _ => rfl⟩
  obtain ⟨hperforms, hacked⟩ := untraced_of_silent hsilent
  exact ⟨hperforms, hevents, hacked⟩

end FactorQ.Dispatch
