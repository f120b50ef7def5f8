/-
# `FactorQ.Cron.Valve` — the ceiling on fires

The valve promises that no hour sees more publications than the ceiling.  It is judged by
what the loop records; the log holds every one, and the ledgers hold what is left of them.

Two things have to be carried through a run.  The ledgers are exact for the last hour: what
they have lost is older (`Exact`).  And a plan, once made, stays within the ceiling while it is served,
however long that takes: the publications of the last hour and the fires still to be served
are together no more than the ceiling (`Room`).  A fire that is recorded moves from the one
count to the other, and time only makes the first one smaller.
-/
import FactorQ.Cron.Loop

namespace FactorQ.Cron

open Lib

/-! ## Publications -/

def Deed.publication : Deed → Option (String × Int)
  | .published job publishedAt => some (job, publishedAt)
  | _ => none

/-- The recorded publications, oldest first. -/
def Scheduler.history (s : Scheduler) : List (String × Int) := s.log.filterMap Deed.publication

/-- The publication instants of one job. -/
def instantsOf (history : List (String × Int)) (name : String) : List Int :=
  (history.filter fun p => p.1 = name).map Prod.snd

theorem instantsOf_sublist (history : List (String × Int)) (name : String) :
    (instantsOf history name).Sublist (history.map Prod.snd) :=
  List.filter_sublist.map _

theorem instantsOf_concat_self (history : List (String × Int)) (name : String) (publishedAt : Int) :
    instantsOf (history ++ [(name, publishedAt)]) name = instantsOf history name ++ [publishedAt] := by
  simp [instantsOf, List.filter_append]

theorem instantsOf_concat_of_ne (history : List (String × Int)) {name job : String} (h : job ≠ name)
    (publishedAt : Int) : instantsOf (history ++ [(job, publishedAt)]) name = instantsOf history name := by
  simp [instantsOf, List.filter_append, h]

/-! ## The ledgers -/

/-- While the last hour holds fewer publications than the ceiling, the trim cuts nothing off. -/
theorem countedFires_recordFire {previous : FireState} {scheduled publishedAt limit : Int}
    (h : (since (publishedAt - valveWindow) (countedFires previous)).length < effectiveLimit limit) :
    countedFires (recordFire previous scheduled publishedAt limit) =
      since (publishedAt - valveWindow) (countedFires previous) ++ [publishedAt] := by
  have hlen : ¬ (since (publishedAt - valveWindow) (countedFires previous) ++ [publishedAt]).length
      > effectiveLimit limit := by
    rw [List.length_append, List.length_singleton]
    omega
  rw [countedFires, recordFire]
  simp only [if_neg hlen]
  rw [if_pos (by simp)]

/-- What is known of the store and the history, whatever the loop is doing. -/
structure Exact (limit clock : Int) (config : Config) (store : States) (history : List (String × Int)) : Prop where
  ceiling : config.maxFiresPerHour = limit
  past : ∀ p ∈ history, p.2 ≤ clock
  known : ∀ p ∈ history, p.1 ∈ config.names
  bounded : ∀ t, (window valveWindow t (history.map Prod.snd)).length ≤ effectiveLimit limit
  ledgers : ∀ name, since (clock - valveWindow) (countedFires (States.at store name)) =
    since (clock - valveWindow) (instantsOf history name)

/-- What is known of the fires still to be served from the rows `state`. -/
structure Room (limit clock : Int) (config : Config) (store : States) (history : List (String × Int))
    (state : States) (fires : List Fire) : Prop where
  room : (since (clock - valveWindow) (history.map Prod.snd)).length + fires.length ≤ effectiveLimit limit
  nodup : (fires.map Fire.job).Nodup
  current : ∀ fire ∈ fires, fire.job ∈ config.names ∧ state.get? fire.job = store.get? fire.job

section Exact

variable {limit clock : Int} {config : Config} {store : States} {history : List (String × Int)}

theorem Exact.start (limit clock : Int) (config : Config) (h : config.maxFiresPerHour = limit) :
    Exact limit clock config .empty [] :=
  ⟨h, fun _ => (nomatch ·), fun _ => (nomatch ·), fun _ => Nat.zero_le _, fun _ => rfl⟩

theorem Exact.instants_past (h : Exact limit clock config store history) :
    ∀ a ∈ history.map Prod.snd, a ≤ clock := by
  intro a ha
  obtain ⟨p, hp, rfl⟩ := List.mem_map.1 ha
  exact h.past p hp

theorem Exact.tick (h : Exact limit clock config store history) (elapsed : Nat) :
    Exact limit (clock + elapsed) config store history := by
  refine ⟨h.ceiling, fun p hp => ?_, h.known, h.bounded, fun name => ?_⟩
  · have := h.past p hp
    omega
  · have hle : clock - valveWindow ≤ clock + elapsed - valveWindow := by omega
    rw [← since_since hle (countedFires _), h.ledgers, since_since hle]

theorem Room.tick {state : States} {fires : List Fire} (h : Room limit clock config store history state fires)
    (elapsed : Nat) : Room limit (clock + elapsed) config store history state fires := by
  refine ⟨?_, h.nodup, h.current⟩
  have hle : clock - valveWindow ≤ clock + elapsed - valveWindow := by omega
  have := length_since_le hle (history.map Prod.snd)
  have := h.room
  omega

theorem Room.rest {state : States} {fire : Fire} {fires : List Fire}
    (h : Room limit clock config store history state (fire :: fires)) :
    Room limit clock config store history state fires := by
  refine ⟨?_, (List.nodup_cons.1 h.nodup).2, fun f hf => h.current f (List.mem_cons_of_mem _ hf)⟩
  have := h.room
  rw [List.length_cons] at this
  omega

theorem Exact.keep {config' : Config} (h : Exact limit clock config store history)
    (hlimit : config'.maxFiresPerHour = config.maxFiresPerHour)
    (hnames : ∀ name ∈ config.names, name ∈ config'.names) : Exact limit clock config' store history :=
  ⟨hlimit.trans h.ceiling, h.past, fun p hp => hnames _ (h.known p hp), h.bounded, h.ledgers⟩

/-- Writing the row of the fire at the head leaves the rows of the others. -/
theorem Room.write {state : States} {fire : Fire} {fires : List Fire}
    (h : Room limit clock config store history state (fire :: fires)) (row : FireState) :
    ∀ f ∈ fires, f.job ∈ config.names ∧ state.get? f.job = (store.set fire.job row).get? f.job := by
  intro f hf
  have hne : f.job ≠ fire.job := by
    intro heq
    exact (List.nodup_cons.1 h.nodup).1 (heq ▸ List.mem_map_of_mem hf)
  rw [Table.get?_set, if_neg hne]
  exact h.current f (List.mem_cons_of_mem _ hf)

theorem Room.row {state : States} {fire : Fire} {fires : List Fire}
    (h : Room limit clock config store history state (fire :: fires)) :
    States.at state fire.job = States.at store fire.job := by
  rw [States.at, States.at, (h.current fire (List.mem_cons_self ..)).2]

theorem States.at_set (store : States) (job name : String) (row : FireState) :
    States.at (store.set job row) name = if name = job then row else States.at store name := by
  rw [States.at, Table.get?_set]
  split <;> rfl

variable {state : States} {fire : Fire} {fires : List Fire}

theorem Exact.supersede (h : Exact limit clock config store history)
    (hroom : Room limit clock config store history state (fire :: fires)) :
    Exact limit clock config (store.set fire.job (supersedeFire (States.at state fire.job) fire.scheduledAt)) history := by
  refine ⟨h.ceiling, h.past, h.known, h.bounded, fun name => ?_⟩
  rw [States.at_set]
  split
  next hname =>
    subst hname
    rw [hroom.row]
    exact h.ledgers fire.job
  next => exact h.ledgers name

theorem Room.supersede (hroom : Room limit clock config store history state (fire :: fires)) :
    Room limit clock config (store.set fire.job (supersedeFire (States.at state fire.job) fire.scheduledAt))
      history state fires :=
  ⟨hroom.rest.room, hroom.rest.nodup, hroom.write _⟩

theorem valveWindow_pos : 0 < valveWindow := by decide

theorem since_now (clock : Int) : since (clock - valveWindow) [clock] = [clock] := by
  have : clock - valveWindow < clock := by
    have := valveWindow_pos
    omega
  simp [since, this]

theorem Exact.record (h : Exact limit clock config store history)
    (hroom : Room limit clock config store history state (fire :: fires)) :
    Exact limit clock config
      (store.set fire.job (recordFire (States.at state fire.job) fire.scheduledAt clock config.maxFiresPerHour))
      (history ++ [(fire.job, clock)]) := by
  have hfull : (since (clock - valveWindow) (history.map Prod.snd)).length < effectiveLimit limit := by
    have := hroom.room
    rw [List.length_cons] at this
    omega
  refine ⟨h.ceiling, ?_, ?_, ?_, fun name => ?_⟩
  · intro p hp
    rcases List.mem_append.1 hp with hp | hp
    · exact h.past p hp
    · rw [List.mem_singleton.1 hp]
  · intro p hp
    rcases List.mem_append.1 hp with hp | hp
    · exact h.known p hp
    · rw [List.mem_singleton.1 hp]
      exact (hroom.current fire (List.mem_cons_self ..)).1
  · rw [List.map_append]
    exact length_window_concat_le h.bounded hfull
  · rw [States.at_set]
    split
    next hname =>
      subst hname
      have hsub : (since (clock - valveWindow) (instantsOf history fire.job)).length
          ≤ (since (clock - valveWindow) (history.map Prod.snd)).length :=
        ((instantsOf_sublist history fire.job).filter _).length_le
      have htrim : (since (clock - valveWindow) (countedFires (States.at store fire.job))).length
          < effectiveLimit config.maxFiresPerHour := by
        rw [h.ledgers, h.ceiling]
        omega
      rw [hroom.row, countedFires_recordFire htrim, instantsOf_concat_self, since_append, since_append,
        since_since le_rfl, h.ledgers]
    next hname => rw [instantsOf_concat_of_ne _ (Ne.symm hname), h.ledgers]

theorem Room.record (hroom : Room limit clock config store history state (fire :: fires)) :
    Room limit clock config
      (store.set fire.job (recordFire (States.at state fire.job) fire.scheduledAt clock config.maxFiresPerHour))
      (history ++ [(fire.job, clock)]) state fires := by
  refine ⟨?_, hroom.rest.nodup, hroom.write _⟩
  have := hroom.room
  rw [List.length_cons] at this
  rw [List.map_append, since_append, List.length_append]
  change _ + (since (clock - valveWindow) [clock]).length + _ ≤ _
  rw [since_now, List.length_singleton]
  omega

/-! ## What the planner counts -/

section

variable (h : Exact limit clock config store history)
include h

/-- Exact ledgers hold the publications of the last hour. -/
theorem Exact.firesInWindow_perm :
    (firesInWindow (loadState config store) clock).Perm (window valveWindow clock (history.map Prod.snd)) := by
  -- the ledger of a name, whether there is a row for it or not
  have hledger : ∀ name ∈ config.names,
      (((loadState config store).get? name).toList.flatMap fun row => window valveWindow clock (countedFires row)) =
      window valveWindow clock (instantsOf history name) := by
    intro name hname
    have hpast : ∀ a ∈ instantsOf history name, a ≤ clock :=
      fun a ha => h.instants_past a ((instantsOf_sublist history name).subset ha)
    have hcut : window valveWindow clock (countedFires (States.at store name)) =
        since (clock - valveWindow) (countedFires (States.at store name)) := by
      rw [window, since]
      refine List.filter_congr fun a ha => ?_
      by_cases hin : clock - valveWindow < a
      · have : a ∈ since (clock - valveWindow) (countedFires (States.at store name)) :=
          List.mem_filter.2 ⟨ha, decide_eq_true hin⟩
        rw [h.ledgers] at this
        simp [hin, hpast a (List.mem_filter.1 this).1]
      · simp [hin]
    rw [window_eq_since hpast, ← h.ledgers, ← hcut, get?_loadState, if_pos hname, States.at]
    cases store.get? name with
    | none => rfl
    | some row => simp
  have hrows : ∀ name row, (loadState config store).get? name = some row → name ∈ config.names := by
    intro name row hrow
    rw [get?_loadState] at hrow
    by_contra hname
    rw [if_neg hname] at hrow
    cases hrow
  have hread : (firesInWindow (loadState config store) clock).Perm
      (config.names.flatMap fun name => window valveWindow clock (instantsOf history name)) := by
    rw [firesInWindow, ← List.flatMap_congr hledger]
    exact (List.perm_insertionSort _ _).trans (Table.flatMap_rows_perm config.distinct hrows
      fun row => window valveWindow clock (countedFires row))
  have hsplit : (config.names.flatMap fun name => window valveWindow clock (instantsOf history name)) =
      window valveWindow clock
        ((config.names.flatMap fun name => history.filter fun p => p.1 = name).map Prod.snd) := by
    rw [List.map_flatMap, window, List.filter_flatMap]
    rfl
  refine hread.trans ?_
  rw [hsplit]
  exact ((perm_flatMap_filter Prod.fst config.distinct h.known).map Prod.snd).filter _

theorem Exact.room {lib : Libraries} {fuel : Nat} {reopens : Int}
    (hplan : plan lib clock fuel config (loadState config store) = some (fires, reopens)) (hfires : fires ≠ []) :
    Room limit clock config store history (loadState config store) fires := by
  refine ⟨?_, plan_nodup hplan, fun fire hfire => ?_⟩
  · have hroom := plan_room hplan hfires
    rwa [h.firesInWindow_perm.length_eq, window_eq_since h.instants_past, h.ceiling] at hroom
  · obtain ⟨job, hjob, hcand⟩ := plan_mem hplan fire hfire
    have hname : fire.job ∈ config.names := (candidate_fire hcand).1 ▸ Config.mem_names hjob
    exact ⟨hname, by rw [get?_loadState, if_pos hname]⟩

/-- When the valve is closed, the planner says when it opens. -/
theorem Exact.reopens {lib : Libraries} {fuel : Nat} {reopens : Int}
    (hplan : plan lib clock fuel config (loadState config store) = some (fires, reopens)) (hr : reopens ≠ 0) :
    IsLeast {t | clock ≤ t ∧ (window valveWindow t (history.map Prod.snd)).length < effectiveLimit limit} reopens := by
  obtain ⟨_, _, hclosed | ⟨_, hzero, _⟩⟩ := plan_cases hplan
  · obtain ⟨hused, _, rfl⟩ := hclosed
    rw [h.ceiling] at hused ⊢
    have hpos := effectiveLimit_pos limit
    have hi : (firesInWindow (loadState config store) clock).length - effectiveLimit limit <
        (firesInWindow (loadState config store) clock).length := by omega
    rw [List.getD_eq_getElem?_getD, List.getElem?_eq_getElem hi, Option.getD_some]
    exact isLeast_reopening hpos h.instants_past h.firesInWindow_perm (List.pairwise_insertionSort _ _) hused
  · exact absurd hzero hr

end

end Exact

/-! ## Runs without removals -/

/-- A reload keeps the ceiling and drops no job. -/
def Keeps (s : Scheduler) : Event → Prop
  | .reload event | .recheck (.accepted event) =>
    event.config.maxFiresPerHour = s.config.maxFiresPerHour ∧
      (∀ name ∈ s.config.names, name ∈ event.config.names) ∧ event.diff.removed = []
  | _ => True

structure Scheduler.Bounded (limit : Int) (s : Scheduler) : Prop where
  unparked : s.deadlines.rows = []
  steady : s.pc ≠ .confirming
  exactly : Exact limit s.clock s.config s.store s.history
  room : ∀ state fires, s.pc.underway = some (state, fires) →
    Room limit s.clock s.config s.store s.history state fires

namespace Scheduler.Bounded

variable {lib : Libraries} {removal limit : Int} {s : Scheduler}

theorem start (config : Config) (clock : Int) :
    (Scheduler.start config .empty clock).Bounded config.maxFiresPerHour :=
  ⟨rfl, (nomatch ·), .start _ _ _ rfl, fun _ _ => (nomatch ·)⟩

theorem history_concat (log : List Deed) {d : Deed} (h : d.publication = none) :
    (log ++ [d]).filterMap Deed.publication = log.filterMap Deed.publication := by
  simp [List.filterMap_append, h]

theorem later (h : s.Bounded limit) {s' : Scheduler} {elapsed : Nat} (hd : s'.deadlines = s.deadlines)
    (hc : s'.clock = s.clock + elapsed) (hconfig : s'.config = s.config) (hs : s'.store = s.store)
    (hlog : s'.history = s.history) (hpc : s'.pc ≠ .confirming)
    (hroom : ∀ state fires, s'.pc.underway = some (state, fires) →
      Room limit s.clock s.config s.store s.history state fires) : s'.Bounded limit := by
  refine ⟨hd ▸ h.unparked, hpc, ?_, fun state fires hu => ?_⟩
  · rw [hc, hconfig, hs, hlog]
    exact h.exactly.tick elapsed
  · rw [hc, hconfig, hs, hlog]
    exact (hroom state fires hu).tick elapsed

theorem quiet (h : s.Bounded limit) {s' : Scheduler} (hd : s'.deadlines = s.deadlines) (hc : s'.clock = s.clock)
    (hconfig : s'.config = s.config) (hs : s'.store = s.store) (hlog : s'.history = s.history)
    (hpc : s'.pc ≠ .confirming)
    (hroom : ∀ state fires, s'.pc.underway = some (state, fires) →
      Room limit s.clock s.config s.store s.history state fires) : s'.Bounded limit :=
  h.later hd (hc.trans (Int.add_zero _).symm) hconfig hs hlog hpc hroom

theorem step (e : Event) (hok : Keeps s e) (h : s.Bounded limit) : (s.step lib removal e).Bounded limit := by
  have hm : s.Moves lib removal e (s.step lib removal e) := Scheduler.step_moves s e
  generalize s.step lib removal e = s' at hm
  cases hm with
  | stays => exact h
  | tick elapsed => exact h.later rfl rfl rfl rfl rfl h.steady h.room
  | waits fuel elapsed pc fires reopens hpc hplan hselects hunder =>
    have hhist : (s.log ++ [Deed.began] ++ [Deed.waited]).filterMap Deed.publication = s.history := by
      rw [history_concat _ rfl, history_concat _ rfl]
      rfl
    refine h.later rfl rfl rfl rfl hhist ?_ fun state fs hu => ?_
    · rintro rfl
      exact hselects
    · obtain ⟨heq, hne⟩ := hunder _ hu
      obtain ⟨rfl, rfl⟩ := Prod.mk.inj heq
      exact h.exactly.room hplan hne
  | goes fuel elapsed first fires reopens hpc hplan hdue =>
    have hhist : (s.log ++ [Deed.began]).filterMap Deed.publication = s.history := history_concat _ rfl
    refine h.later rfl rfl rfl rfl hhist (nomatch ·) fun state fs hu => ?_
    obtain ⟨rfl, rfl⟩ := Prod.mk.inj (Option.some.inj hu)
    exact h.exactly.room hplan (List.cons_ne_nil _ _)
  | replans _ reloads hpc _ => exact h.quiet rfl rfl rfl rfl rfl (nomatch ·) (fun _ _ => (nomatch ·))
  | wakes state fires hpc =>
    refine h.quiet rfl rfl rfl rfl rfl (nomatch ·) (fun state' fires' hu => h.room state' fires' ?_)
    rw [hpc]
    exact hu
  | confirms hpc hparked =>
    -- nothing is parked
    refine absurd ?_ hparked
    rw [Deadlines.next, h.unparked]
    rfl
  | settles authoritative answer hpc _ => exact absurd hpc h.steady
  | rechecks event hpc => exact absurd hpc h.steady
  | reloads event hpc _ =>
    obtain ⟨hlimit, hnames, hremoved⟩ := hok
    refine ⟨?_, (nomatch ·), h.exactly.keep hlimit hnames, fun _ _ => (nomatch ·)⟩
    change (Deadlines.park _ event.diff.removed _).rows = []
    rw [hremoved]
    change s.deadlines.rows.filter _ = []
    rw [h.unparked]
    rfl
  | returns => exact h.quiet rfl rfl rfl rfl rfl (nomatch ·) (fun _ _ => (nomatch ·))
  | done state hpc => exact h.quiet rfl rfl rfl rfl rfl (nomatch ·) (fun _ _ => (nomatch ·))
  | skips state fire fires hpc hskip =>
    refine h.quiet rfl rfl rfl rfl rfl (nomatch ·) (fun state' fires' hu => ?_)
    obtain ⟨rfl, rfl⟩ := Prod.mk.inj (Option.some.inj hu)
    exact (h.room state (fire :: fires) (by rw [hpc]; rfl)).rest
  | publishes state fire fires nextSlot hpc hhealthy =>
    refine h.quiet rfl rfl rfl rfl rfl (nomatch ·) (fun state' fires' hu => h.room state' fires' ?_)
    rw [hpc]
    exact hu
  | attempts _ pc state fire fires hpc hpc' =>
    have hunder : s.pc.underway = some (state, fire :: fires) := by
      obtain ⟨_, _, hp | hp⟩ := hpc <;> rw [hp] <;> rfl
    obtain ⟨_, _, rfl | rfl⟩ := hpc'
    · exact h.quiet rfl rfl rfl rfl rfl (nomatch ·) (fun st fs hu => h.room st fs (hunder.trans hu))
    · exact h.quiet rfl rfl rfl rfl rfl (nomatch ·) (fun st fs hu => h.room st fs (hunder.trans hu))
  | records state fire fires nextSlot backoff hpc =>
    have hroom := h.room state (fire :: fires) (by rw [hpc]; rfl)
    have hhist : (s.record state fire fires).history = s.history ++ [(fire.job, s.clock)] := by
      simp [record, history, Deed.publication, List.filterMap_append]
    refine ⟨h.unparked, (nomatch ·), ?_, fun state' fires' hu => ?_⟩
    · rw [hhist]
      exact h.exactly.record hroom
    · rw [hhist]
      obtain ⟨rfl, rfl⟩ := Prod.mk.inj (Option.some.inj hu)
      exact hroom.record
  | supersedes _ state fire fires hpc =>
    have hroom := h.room state (fire :: fires) (by obtain ⟨_, _, hp | hp⟩ := hpc <;> rw [hp] <;> rfl)
    have hhist : (s.supersede state fire fires).history = s.history := history_concat _ rfl
    refine ⟨h.unparked, (nomatch ·), ?_, fun state' fires' hu => ?_⟩
    · rw [hhist]
      exact h.exactly.supersede hroom
    · rw [hhist]
      obtain ⟨rfl, rfl⟩ := Prod.mk.inj (Option.some.inj hu)
      exact hroom.supersede
  | marks state fire fires nextSlot backoff hpc =>
    have hroom := h.room state (fire :: fires) (by rw [hpc]; rfl)
    have hhist : (s.markUnhealthy state fire fires).history = s.history := by
      unfold markUnhealthy history
      dsimp only
      split
      · rfl
      · exact history_concat _ rfl
    refine h.quiet rfl rfl rfl rfl hhist (nomatch ·) (fun state' fires' hu => ?_)
    obtain ⟨rfl, rfl⟩ := Prod.mk.inj (Option.some.inj hu)
    exact hroom.rest

end Scheduler.Bounded

/-- The valve bounds the file.  In a run that drops no job and keeps the ceiling, no hour holds more
publications than the ceiling; and a reopening instant that the planner reports is the first from now
on at which there is room again, if nothing more is published. -/
theorem valve_bounds_file (lib : Libraries) (removal : Int) (config : Config) (clock : Int) (es : List Event)
    (hes : Permitted (Scheduler.step lib removal) Keeps (.start config .empty clock) es) :
    let s := es.foldl (Scheduler.step lib removal) (.start config .empty clock)
    let count := fun t => (window valveWindow t (s.history.map Prod.snd)).length
    let limit := effectiveLimit config.maxFiresPerHour
    (∀ t, count t ≤ limit) ∧
      ∀ fuel fires reopens, plan lib s.clock fuel s.config (loadState s.config s.store) = some (fires, reopens) →
        reopens ≠ 0 → IsLeast {t | s.clock ≤ t ∧ count t < limit} reopens := by
  intro s count limit
  have h : s.Bounded config.maxFiresPerHour := hes.inv (fun _ e => Scheduler.Bounded.step e) (.start config clock)
  exact ⟨h.exactly.bounded, fun fuel fires reopens hplan hr => h.exactly.reopens hplan hr⟩

/-- A ceiling of one: the first publication closes the valve for an hour. -/
def oneAnHour : Config :=
  ⟨1, [⟨"report", "@hourly", "fq.trigger.report", "UTC", "skip", none, none, none, none⟩], by simp⟩

def everyMinute : Libraries where
  loadLocation _ := .ok ()
  parse _ := .ok fun _ t => t + minute
  parseDuration _ := .ok minute
  valid _ := true
  marshal _ := .ok ""
  format _ _ := ""
  quote text := text
  trimSpace text := text

/-- The schedule comes due every minute; a reload is taken while the valve is closed. -/
theorem oneAnHour_bounded :
    let s := [Event.plan 3 0, .tick minute.toNat, .timer, .fire, .answer .acked, .fire, .plan 3 0,
      .reload ⟨oneAnHour, [], [], []⟩].foldl (Scheduler.step everyMinute 0) (.start oneAnHour .empty minute)
    s.history = [("report", 2 * minute)] ∧
      (window valveWindow (3 * minute) (s.history.map Prod.snd)).length ≤ 1 ∧
      IsLeast {t | 2 * minute ≤ t ∧ (window valveWindow t (s.history.map Prod.snd)).length < 1}
        (2 * minute + valveWindow) := by
  have h := valve_bounds_file everyMinute 0 oneAnHour minute
    [Event.plan 3 0, .tick minute.toNat, .timer, .fire, .answer .acked, .fire, .plan 3 0,
      .reload ⟨oneAnHour, [], [], []⟩]
    ⟨trivial, trivial, trivial, trivial, trivial, trivial, trivial, ⟨rfl, fun _ => id, rfl⟩, trivial⟩
  exact ⟨rfl, h.1 _, h.2 3 [] _ rfl (by decide)⟩

end FactorQ.Cron
