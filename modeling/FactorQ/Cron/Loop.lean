/-
# `FactorQ.Cron.Loop` — the scheduler loop

`runScheduler` as a state machine.  Each turn of its loop plans from the rows of the configured
jobs, waits in one of two selects or goes straight on, and then serves the planned fires one
by one; a publish is retried with growing pauses until it is acknowledged, refused for good
or overtaken by the job's next slot.  What comes from outside (the passing of time, timers,
the broker's answers, reloads, cancellation) are the events; state-store calls succeed.

A timer may go off at any moment here.  The loop never takes a timer's word for the time: it
looks at the clock again after every one.

The log is an observer's.  It notes where each turn of the loop begins and what the turn
does: the two results below are about what stands between two beginnings, and about the
publications the log holds.
-/
import FactorQ.Cron.Plan
import FactorQ.Lib.Interleave

namespace FactorQ.Cron

open Lib

def initialRetryBackoff : Int := 250 * 1000000

def maximumRetryBackoff : Int := 30 * 1000000000

def nextBackoff (backoff : Int) : Int :=
  if backoff * 2 > maximumRetryBackoff then maximumRetryBackoff else backoff * 2

/-! ## Parked removals -/

/-- For each job that has left the configuration, when its fire state may be deleted. -/
abbrev Deadlines := Table String Int

namespace Deadlines

/-- A name already parked keeps its first deadline. -/
def park (deadlines : Deadlines) (names : List String) (deadline : Int) : Deadlines :=
  names.foldl (fun parked name => parked.insertNew name deadline) deadlines

/-- A job that is back in the configuration keeps its state. -/
def retain (deadlines : Deadlines) (config : Config) : Deadlines :=
  deadlines.delete fun name _ => name ∈ config.names

/-- The earliest deadline; `0` when nothing is parked. -/
def next (deadlines : Deadlines) : Int :=
  deadlines.rows.foldl (fun earliest row => if earliest = 0 ∨ row.2 < earliest then row.2 else earliest) 0

def due (deadlines : Deadlines) (now : Int) : List String :=
  sorted ((deadlines.rows.filter fun row => row.2 ≤ now).map Prod.fst)

def forget (deadlines : Deadlines) (names : List String) : Deadlines :=
  deadlines.delete fun name _ => name ∈ names

end Deadlines

def defaultRemovalConfirm : Int := 2 * (30 * 1000000000)

/-- `removalPolicy.Confirm`, resolved. -/
def confirmWindow (configured : Int) : Int :=
  if configured ≤ 0 then defaultRemovalConfirm else configured

/-! ## States and events -/

/-- Where the loop stands. -/
inductive Pc where
  /-- at its top -/
  | planning
  /-- in the select of a plan without fires; `valve` is when the valve opens, or `0` -/
  | idle (valve : Int)
  /-- in the select before the first of its fires; `state` is what was loaded for the plan -/
  | waiting (state : States) (fires : List Fire)
  /-- in `confirmRemovals` -/
  | confirming
  /-- at the head of the loop over the fires that are left -/
  | firing (state : States) (fires : List Fire)
  /-- in the publisher's call for the first of them; `nextSlot` ends the attempts -/
  | publishing (state : States) (fire : Fire) (fires : List Fire) (nextSlot backoff : Int)
  /-- in the pause before another attempt -/
  | pausing (state : States) (fire : Fire) (fires : List Fire) (nextSlot backoff : Int)
  | returned

/-- What an observer notes. -/
inductive Deed where
  /-- a turn of the loop begins -/
  | began
  /-- a select is entered -/
  | waited
  /-- a publication was recorded, with its instant -/
  | published (job : String) (publishedAt : Int)
  /-- a slot was recorded as overtaken -/
  | superseded (job : String)
  /-- a job that was not marked unhealthy has been -/
  | unhealthy (job : String)
deriving DecidableEq

structure Scheduler where
  clock : Int
  config : Config
  store : States
  unhealthy : List String
  deadlines : Deadlines
  /-- the reload channel is open -/
  reloads : Bool
  pc : Pc
  log : List Deed

/-- The answer of a publisher's call. -/
inductive PublishAnswer where
  | acked
  | permanent
  | failed

/-- The answer of `removal.Recheck`, if there is one. -/
inductive RecheckAnswer where
  | unset
  | accepted (event : ReloadEvent)
  | holds (current : Config)

inductive Event where
  /-- time passes -/
  | tick (elapsed : Nat)
  /-- the loop plans; `elapsed` is the time to its next look at the clock -/
  | plan (fuel elapsed : Nat)
  | valve
  | timer
  | confirm
  | recheck (answer : RecheckAnswer)
  | reload (event : ReloadEvent)
  /-- the reload channel is closed -/
  | closed
  | cancel
  /-- the loop over the fires takes its next -/
  | fire
  | answer (answer : PublishAnswer)
  | retry

/-! ## Steps -/

namespace Scheduler

def applyReload (window : Int) (event : ReloadEvent) (s : Scheduler) : Scheduler :=
  { s with
    deadlines := (s.deadlines.retain event.config).park event.diff.removed (s.clock + confirmWindow window)
    config := event.config
    unhealthy := [] }

/-- What follows the recheck: the parked removals that are due are dropped when the job is
back, and carried out when it is not. -/
def settleRemovals (authoritative : Config) (s : Scheduler) : Scheduler :=
  let due := s.deadlines.due s.clock
  let confirmed := due.filter fun name => name ∉ authoritative.names
  { s with
    deadlines := s.deadlines.forget due
    store := s.store.delete fun name _ => name ∈ confirmed
    pc := .planning }

def confirmRemovals (window : Int) (answer : RecheckAnswer) (s : Scheduler) : Scheduler :=
  match answer with
  | .unset => s.settleRemovals s.config
  | .accepted event => (s.applyReload window event).settleRemovals event.config
  | .holds current => s.settleRemovals current

/-- The top of the loop, up to its select or its fires. -/
def planned (lib : Libraries) (fuel elapsed : Nat) (s : Scheduler) : Scheduler :=
  let state := loadState s.config s.store
  match plan lib s.clock fuel s.config state with
  | none => s
  | some (fires, reopens) =>
    let s : Scheduler := { s with clock := s.clock + elapsed, log := s.log ++ [.began] }
    match fires with
    | [] => { s with pc := .idle reopens, log := s.log ++ [.waited] }
    | first :: _ =>
      if first.scheduledAt - s.clock > 0 then
        { s with pc := .waiting state fires, log := s.log ++ [.waited] }
      else { s with pc := .firing state fires }

/-- The head of the loop over the fires. -/
def takeFire (lib : Libraries) (state : States) (fires : List Fire) (s : Scheduler) : Scheduler :=
  match fires with
  | [] => { s with pc := .planning }
  | fire :: fires =>
    if fire.scheduledAt > s.clock ∨ fire.job ∈ s.unhealthy then { s with pc := .firing state fires }
    else
      match s.config.job? fire.job with
      | none => { s with pc := .firing state fires }
      | some job =>
        match lib.timetable job with
        -- a nil schedule; the planner has left such a job out
        | none => { s with pc := .returned }
        | some next =>
          { s with pc := .publishing state fire fires (next fire.scheduledAt) initialRetryBackoff }

def supersede (state : States) (fire : Fire) (fires : List Fire) (s : Scheduler) : Scheduler :=
  { s with
    store := s.store.set fire.job (supersedeFire (States.at state fire.job) fire.scheduledAt)
    pc := .firing state fires
    log := s.log ++ [.superseded fire.job] }

def record (state : States) (fire : Fire) (fires : List Fire) (s : Scheduler) : Scheduler :=
  { s with
    store := s.store.set fire.job
      (recordFire (States.at state fire.job) fire.scheduledAt s.clock s.config.maxFiresPerHour)
    pc := .firing state fires
    log := s.log ++ [.published fire.job s.clock] }

def markUnhealthy (state : States) (fire : Fire) (fires : List Fire) (s : Scheduler) : Scheduler :=
  { s with
    unhealthy := fire.job :: s.unhealthy
    pc := .firing state fires
    log := if fire.job ∈ s.unhealthy then s.log else s.log ++ [.unhealthy fire.job] }

/-- What `publishWithBackoff` and its caller make of an answer. -/
def answered (answer : PublishAnswer) (state : States) (fire : Fire) (fires : List Fire)
    (nextSlot backoff : Int) (s : Scheduler) : Scheduler :=
  match answer with
  | .acked => s.record state fire fires
  | .permanent => s.markUnhealthy state fire fires
  | .failed =>
    if nextSlot - s.clock ≤ 0 then s.supersede state fire fires
    else { s with pc := .pausing state fire fires nextSlot backoff }

def step (lib : Libraries) (window : Int) (s : Scheduler) : Event → Scheduler
  | .tick elapsed => { s with clock := s.clock + elapsed }
  | .plan fuel elapsed =>
    match s.pc with
    | .planning => s.planned lib fuel elapsed
    | _ => s
  | .valve =>
    match s.pc with
    -- the zero time makes a channel that never delivers
    | .idle valve => if valve = 0 then s else { s with pc := .planning }
    | _ => s
  | .timer =>
    match s.pc with
    | .waiting state fires => { s with pc := .firing state fires }
    | _ => s
  | .confirm =>
    match s.pc with
    | .idle _ | .waiting _ _ => if s.deadlines.next = 0 then s else { s with pc := .confirming }
    | _ => s
  | .recheck answer =>
    match s.pc with
    | .confirming => s.confirmRemovals window answer
    | _ => s
  | .reload event =>
    match s.pc with
    | .idle _ | .waiting _ _ => if s.reloads then { s.applyReload window event with pc := .planning } else s
    | _ => s
  | .closed =>
    match s.pc with
    | .idle _ | .waiting _ _ => if s.reloads then { s with reloads := false, pc := .planning } else s
    | _ => s
  | .cancel =>
    match s.pc with
    | .idle _ | .waiting _ _ | .confirming | .pausing .. => { s with pc := .returned }
    | _ => s
  | .fire =>
    match s.pc with
    | .firing state fires => s.takeFire lib state fires
    | _ => s
  | .answer answer =>
    match s.pc with
    | .publishing state fire fires nextSlot backoff => s.answered answer state fire fires nextSlot backoff
    | _ => s
  | .retry =>
    match s.pc with
    | .pausing state fire fires nextSlot backoff =>
      if s.clock < nextSlot then
        { s with pc := .publishing state fire fires nextSlot (nextBackoff backoff) }
      else s.supersede state fire fires
    | _ => s

/-- A scheduler that has just been started over a store. -/
def start (config : Config) (store : States) (clock : Int) : Scheduler :=
  ⟨clock, config, store, [], .empty, true, .planning, []⟩

end Scheduler

/-! ## What a step can do -/

/-- The selects of the loop. -/
def Pc.Selects : Pc → Prop
  | .idle _ | .waiting _ _ => True
  | _ => False

/-- What the publisher has been asked for, or is about to be. -/
def Pc.underway : Pc → Option (States × List Fire)
  | .waiting state fires | .firing state fires => some (state, fires)
  | .publishing state fire fires _ _ | .pausing state fire fires _ _ => some (state, fire :: fires)
  | _ => none

section Moves

variable (lib : Libraries) (window : Int)

/-- The moves of the loop, with what is known when each is made. -/
inductive Scheduler.Moves (s : Scheduler) : Event → Scheduler → Prop
  | stays (e : Event) : Moves s e s
  | tick (elapsed : Nat) : Moves s (.tick elapsed) { s with clock := s.clock + elapsed }
  /-- a plan was made and a select is entered -/
  | waits (fuel elapsed : Nat) (pc : Pc) (fires : List Fire) (reopens : Int)
      (hpc : s.pc = .planning)
      (hplan : plan lib s.clock fuel s.config (loadState s.config s.store) = some (fires, reopens))
      (hselects : pc.Selects)
      (hunder : ∀ u, pc.underway = some u → u = (loadState s.config s.store, fires) ∧ fires ≠ []) :
      Moves s (.plan fuel elapsed)
        { s with clock := s.clock + elapsed, pc := pc, log := s.log ++ [.began] ++ [.waited] }
  /-- a plan was made whose first slot has come -/
  | goes (fuel elapsed : Nat) (first : Fire) (fires : List Fire) (reopens : Int)
      (hpc : s.pc = .planning)
      (hplan : plan lib s.clock fuel s.config (loadState s.config s.store) = some (first :: fires, reopens))
      (hdue : first.scheduledAt ≤ s.clock + elapsed) :
      Moves s (.plan fuel elapsed)
        { s with
          clock := s.clock + elapsed
          pc := .firing (loadState s.config s.store) (first :: fires)
          log := s.log ++ [.began] }
  /-- back to the top from a select, with nothing changed but the channel -/
  | replans (e : Event) (reloads : Bool) (hpc : s.pc.Selects) (hopen : e = .closed ∨ reloads = s.reloads) :
      Moves s e { s with reloads := reloads, pc := .planning }
  | wakes (state : States) (fires : List Fire) (hpc : s.pc = .waiting state fires) :
      Moves s .timer { s with pc := .firing state fires }
  | confirms (hpc : s.pc.Selects) (hparked : s.deadlines.next ≠ 0) :
      Moves s .confirm { s with pc := .confirming }
  | settles (authoritative : Config) (answer : RecheckAnswer) (hpc : s.pc = .confirming)
      (hanswer : ∀ event, answer ≠ .accepted event) :
      Moves s (.recheck answer) (s.settleRemovals authoritative)
  | rechecks (event : ReloadEvent) (hpc : s.pc = .confirming) :
      Moves s (.recheck (.accepted event)) ((s.applyReload window event).settleRemovals event.config)
  | reloads (event : ReloadEvent) (hpc : s.pc.Selects) (hopen : s.reloads = true) :
      Moves s (.reload event) { s.applyReload window event with pc := .planning }
  | returns (e : Event) : Moves s e { s with pc := .returned }
  | done (state : States) (hpc : s.pc = .firing state []) : Moves s .fire { s with pc := .planning }
  | skips (state : States) (fire : Fire) (fires : List Fire) (hpc : s.pc = .firing state (fire :: fires))
      (hskip : s.clock < fire.scheduledAt ∨ fire.job ∈ s.unhealthy ∨ s.config.job? fire.job = none) :
      Moves s .fire { s with pc := .firing state fires }
  | publishes (state : States) (fire : Fire) (fires : List Fire) (nextSlot : Int)
      (hpc : s.pc = .firing state (fire :: fires)) (hhealthy : fire.job ∉ s.unhealthy) :
      Moves s .fire { s with pc := .publishing state fire fires nextSlot initialRetryBackoff }
  /-- on to the pause or to another attempt -/
  | attempts (e : Event) (pc : Pc) (state : States) (fire : Fire) (fires : List Fire)
      (hpc : ∃ nextSlot backoff, s.pc = .publishing state fire fires nextSlot backoff ∨
        s.pc = .pausing state fire fires nextSlot backoff)
      (hpc' : ∃ nextSlot backoff, pc = .publishing state fire fires nextSlot backoff ∨
        pc = .pausing state fire fires nextSlot backoff) :
      Moves s e { s with pc := pc }
  | records (state : States) (fire : Fire) (fires : List Fire) (nextSlot backoff : Int)
      (hpc : s.pc = .publishing state fire fires nextSlot backoff) :
      Moves s (.answer .acked) (s.record state fire fires)
  | supersedes (e : Event) (state : States) (fire : Fire) (fires : List Fire)
      (hpc : ∃ nextSlot backoff, s.pc = .publishing state fire fires nextSlot backoff ∨
        s.pc = .pausing state fire fires nextSlot backoff) :
      Moves s e (s.supersede state fire fires)
  | marks (state : States) (fire : Fire) (fires : List Fire) (nextSlot backoff : Int)
      (hpc : s.pc = .publishing state fire fires nextSlot backoff) :
      Moves s (.answer .permanent) (s.markUnhealthy state fire fires)

variable {lib window}

theorem Scheduler.planned_moves {s : Scheduler} (fuel elapsed : Nat) (hpc : s.pc = .planning) :
    s.Moves lib window (.plan fuel elapsed) (s.planned lib fuel elapsed) := by
  unfold planned
  dsimp only
  split
  next => exact .stays _
  next fires reopens hplan =>
    split
    next =>
      exact .waits fuel elapsed (.idle reopens) [] reopens hpc hplan trivial (fun _ h => nomatch h)
    next first rest =>
      split
      next =>
        refine .waits fuel elapsed (.waiting _ _) (first :: rest) reopens hpc hplan trivial (fun u h => ?_)
        exact ⟨(Option.some.inj h).symm, List.cons_ne_nil _ _⟩
      next hnot =>
        simp only [gt_iff_lt, Int.sub_pos, not_lt] at hnot
        exact .goes fuel elapsed first rest reopens hpc hplan hnot

theorem Scheduler.takeFire_moves {s : Scheduler} {state : States} {fires : List Fire}
    (hpc : s.pc = .firing state fires) : s.Moves lib window .fire (s.takeFire lib state fires) := by
  unfold takeFire
  split
  next => exact .done state hpc
  next fire rest =>
    split
    next hskip => exact .skips state fire rest hpc (hskip.imp_right .inl)
    next hgo =>
      split
      next hjob => exact .skips state fire rest hpc (.inr (.inr hjob))
      next job hjob =>
        split
        next => exact .returns _
        next next _ => exact .publishes state fire rest _ hpc (fun h => hgo (.inr h))

theorem Scheduler.step_moves (s : Scheduler) (e : Event) : s.Moves lib window e (s.step lib window e) := by
  cases e with
  | tick elapsed => exact .tick elapsed
  | plan fuel elapsed =>
    simp only [step]
    split
    next hpc => exact planned_moves fuel elapsed hpc
    next => exact .stays _
  | valve =>
    simp only [step]
    split
    next valve hpc =>
      split
      next => exact .stays _
      next => exact .replans .valve s.reloads (hpc ▸ trivial) (.inr rfl)
    next => exact .stays _
  | timer =>
    simp only [step]
    split
    next state fires hpc => exact .wakes state fires hpc
    next => exact .stays _
  | confirm =>
    simp only [step]
    split
    next hpc =>
      split
      next => exact .stays _
      next hparked => exact .confirms (hpc ▸ trivial) hparked
    next hpc =>
      split
      next => exact .stays _
      next hparked => exact .confirms (hpc ▸ trivial) hparked
    next => exact .stays _
  | recheck answer =>
    simp only [step]
    split
    next hpc =>
      cases answer with
      | unset => exact .settles s.config .unset hpc (fun _ h => nomatch h)
      | accepted event => exact .rechecks event hpc
      | holds current => exact .settles current (.holds current) hpc (fun _ h => nomatch h)
    next => exact .stays _
  | reload event =>
    simp only [step]
    split
    next hpc =>
      split
      next hopen => exact .reloads event (hpc ▸ trivial) hopen
      next => exact .stays _
    next hpc =>
      split
      next hopen => exact .reloads event (hpc ▸ trivial) hopen
      next => exact .stays _
    next => exact .stays _
  | closed =>
    simp only [step]
    split
    next hpc =>
      split
      next => exact .replans .closed false (hpc ▸ trivial) (.inl rfl)
      next => exact .stays _
    next hpc =>
      split
      next => exact .replans .closed false (hpc ▸ trivial) (.inl rfl)
      next => exact .stays _
    next => exact .stays _
  | cancel =>
    simp only [step]
    split
    next => exact .returns _
    next => exact .returns _
    next => exact .returns _
    next => exact .returns _
    next => exact .stays _
  | fire =>
    simp only [step]
    split
    next state fires hpc => exact takeFire_moves hpc
    next => exact .stays _
  | answer answer =>
    simp only [step]
    split
    next state fire fires nextSlot backoff hpc =>
      cases answer with
      | acked => exact .records state fire fires nextSlot backoff hpc
      | permanent => exact .marks state fire fires nextSlot backoff hpc
      | failed =>
        simp only [answered]
        split
        next => exact .supersedes _ state fire fires ⟨nextSlot, backoff, .inl hpc⟩
        next =>
          exact .attempts _ _ state fire fires ⟨nextSlot, backoff, .inl hpc⟩ ⟨nextSlot, backoff, .inr rfl⟩
    next => exact .stays _
  | retry =>
    simp only [step]
    split
    next state fire fires nextSlot backoff hpc =>
      split
      next =>
        exact .attempts _ _ state fire fires ⟨nextSlot, backoff, .inr hpc⟩ ⟨nextSlot, _, .inl rfl⟩
      next => exact .supersedes _ state fire fires ⟨nextSlot, backoff, .inr hpc⟩
    next => exact .stays _

/-! ## The configurations of a run -/

/-- The configuration that comes with an event. -/
def Event.config? : Event → Option Config
  | .reload event | .recheck (.accepted event) => some event.config
  | _ => none

/-- What can be in force in a run: the first configuration, and those that reloads bring. -/
def configurations (config : Config) (es : List Event) : List Config := config :: es.filterMap Event.config?

theorem Scheduler.Moves.config {s s' : Scheduler} {e : Event} (h : s.Moves lib window e s') :
    s'.config = s.config ∨ e.config? = some s'.config := by
  cases h with
  | rechecks => exact .inr rfl
  | reloads => exact .inr rfl
  | _ => exact .inl rfl

theorem configurations_step (s : Scheduler) (e : Event) (es : List Event) :
    configurations (s.step lib window e).config es ⊆ configurations s.config (e :: es) := by
  intro c hc
  rw [configurations, List.filterMap_cons, List.mem_cons]
  rcases List.mem_cons.mp hc with rfl | hc
  · rcases (Scheduler.step_moves s e).config with hsame | hnew
    · exact .inl hsame
    · rw [hnew]
      exact .inr List.mem_cons_self
  · refine .inr ?_
    split
    · exact hc
    · exact List.mem_cons_of_mem _ hc

theorem Scheduler.config_mem (s : Scheduler) (es : List Event) :
    (es.foldl (Scheduler.step lib window) s).config ∈ configurations s.config es := by
  induction es generalizing s with
  | nil => exact List.mem_cons_self
  | cons e es ih => exact configurations_step s e es (ih _)

theorem Scheduler.permitted_config {P : Config → Prop} {s : Scheduler} {es : List Event}
    (h : ∀ c ∈ configurations s.config es, P c) : Permitted (Scheduler.step lib window) (fun s _ => P s.config) s es := by
  induction es generalizing s with
  | nil => trivial
  | cons e es ih => exact ⟨h _ List.mem_cons_self, ih fun c hc => h c (configurations_step s e es hc)⟩

end Moves

end FactorQ.Cron
