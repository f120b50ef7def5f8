/-
# `FactorQ.Cron.Plan` — which slots to fire, and whether the valve lets them

A plan names at most one fire for each job.  The slot comes from the last one recorded for
the job: the next after it when that has not passed, and otherwise what the job's catch-up
policy makes of the slots that were missed.  Both policies walk the schedule until it passes
`now`, and for a schedule that never does the walk goes on for ever; the fuel stands for that,
and `plan_returns` says that schedules which move forward need only enough of it.

The valve counts publications of the last hour over all jobs.  It reads them from ledgers,
one for each job, that every publication rewrites and cuts back.
-/
import FactorQ.Cron.Config
import FactorQ.Lib.Table
import FactorQ.Lib.Window

namespace FactorQ.Cron

open Lib

def valveWindow : Int := 60 * minute

structure Fire where
  job : String
  subject : String
  payload : Option String
  scheduledAt : Int
deriving DecidableEq

structure FireState where
  lastScheduled : Int
  publishedAt : Int
  recentFires : List Int
deriving DecidableEq

/-- What a job without a row reads as. -/
def FireState.zero : FireState := ⟨0, 0, []⟩

abbrev States := Table String FireState

/-- `state[name]` -/
def States.at (state : States) (name : String) : FireState := (state.get? name).getD .zero

/-! ## Slots -/

/-- `for !next.After(now) { next = schedule.Next(next) }` -/
def skipMissed (next : Int → Int) (now : Int) : Nat → Int → Option Int
  | 0, _ => none
  | fuel + 1, slot => if now < slot then some slot else skipMissed next now fuel (next slot)

/-- Collapse every missed slot to the most recent one. -/
def latestMissed (next : Int → Int) (now : Int) : Nat → Int → Option Int
  | 0, _ => none
  | fuel + 1, slot =>
    let candidate := next slot
    if now < candidate then some slot else latestMissed next now fuel candidate

def chooseSlot (next : Int → Int) (catchUp : String) (now : Int) (fuel : Nat)
    (previous : Option FireState) : Option Int :=
  match previous with
  | none => some (next now)
  | some previous =>
    if previous.lastScheduled = 0 then some (next now)
    else
      let slot := next previous.lastScheduled
      if ¬ slot < now then some slot
      else if catchUp ≠ "once" then skipMissed next now fuel slot
      else latestMissed next now fuel slot

/-- The two substitutions. -/
def fill (stamp name text : String) : String :=
  (text.replace "\x7b\x7bscheduled_time\x7d\x7d" stamp).replace "\x7b\x7bjob\x7d\x7d" name

def renderPayload (lib : Libraries) (job : Job) (scheduled : Int) : Except String (Option String) :=
  let replace := fill (lib.format job.tz scheduled) job.name
  match job.payloadJson, job.payload with
  | some text, _ =>
    if lib.valid (replace text) then .ok (some (replace text))
    else .error ("job " ++ lib.quote job.name ++ ": rendered payload_json is not valid JSON")
  | none, none => .ok none
  | none, some table =>
    match lib.marshal (substitute replace table) with
    | .ok out => .ok (some out)
    | .error e => .error ("job " ++ lib.quote job.name ++ ": encode payload: " ++ e)

/-- The fire of one job, if it has one; outside, `none` is a walk that has not come back. -/
def candidate (lib : Libraries) (now : Int) (fuel : Nat) (state : States) (job : Job) :
    Option (Option Fire) :=
  if job.scheduled then
    match lib.timetable job with
    | none => some none
    | some next =>
      match chooseSlot next job.catchUp now fuel (state.get? job.name) with
      | none => none
      | some slot =>
        match renderPayload lib job slot with
        | .error _ => some none
        | .ok payload => some (some ⟨job.name, job.subject, payload, slot⟩)
  else some none

def candidates (lib : Libraries) (now : Int) (fuel : Nat) (state : States) : List Job → Option (List Fire)
  | [] => some []
  | job :: jobs =>
    match candidate lib now fuel state job, candidates lib now fuel state jobs with
    | some fire, some fires => some (fire.toList ++ fires)
    | _, _ => none

/-- The order in which candidates are served: by slot, then by name. -/
def Fire.before (a b : Fire) : Prop :=
  if a.scheduledAt = b.scheduledAt then a.job < b.job else a.scheduledAt < b.scheduledAt

instance (a b : Fire) : Decidable (a.before b) := by
  unfold Fire.before
  infer_instance

/-! ## The valve -/

def effectiveLimit (configured : Int) : Nat :=
  if configured ≤ 0 then defaultMaxFiresPerHour.toNat else configured.toNat

theorem effectiveLimit_pos (configured : Int) : 0 < effectiveLimit configured := by
  rw [effectiveLimit]
  split
  · decide
  · omega

/-- One job's fires as the valve reads them; a row from before the ledgers records one. -/
def countedFires (state : FireState) : List Int :=
  if state.recentFires ≠ [] then state.recentFires
  else if state.publishedAt = 0 then []
  else [state.publishedAt]

def firesInWindow (state : States) (now : Int) : List Int :=
  (state.rows.flatMap fun row => window valveWindow now (countedFires row.2)).insertionSort (· ≤ ·)

/-- The fires to wait for, or, when the valve is what holds them back, when it opens again. -/
def plan (lib : Libraries) (now : Int) (fuel : Nat) (config : Config) (state : States) :
    Option (List Fire × Int) :=
  match candidates lib now fuel state config.jobs with
  | none => none
  | some fires =>
    let fires := fires.insertionSort fun a b => ¬ b.before a
    let limit := effectiveLimit config.maxFiresPerHour
    let inWindow := firesInWindow state now
    let used := inWindow.length
    if used ≥ limit then some ([], inWindow.getD (used - limit) 0 + valveWindow)
    else some (fires.take (limit - used), 0)

/-- The state after a publish acknowledged at `publishedAt`. -/
def recordFire (previous : FireState) (scheduled publishedAt : Int) (configuredLimit : Int) : FireState :=
  let ledger := since (publishedAt - valveWindow) (countedFires previous) ++ [publishedAt]
  let limit := effectiveLimit configuredLimit
  ⟨scheduled, publishedAt, if ledger.length > limit then ledger.drop (ledger.length - limit) else ledger⟩

/-- The slot moves on, the history stays. -/
def supersedeFire (previous : FireState) (scheduled : Int) : FireState :=
  { previous with lastScheduled := scheduled }

/-- The rows of the configured jobs. -/
def loadState (config : Config) (store : States) : States :=
  config.jobs.foldl (fun state job =>
    match store.get? job.name with
    | some row => state.set job.name row
    | none => state) .empty

/-! ## What a plan holds -/

section Planned

variable {lib : Libraries} {now : Int} {fuel : Nat} {state : States}

theorem candidate_fire {job : Job} {fire : Fire} (h : candidate lib now fuel state job = some (some fire)) :
    fire.job = job.name ∧ job.scheduled = true ∧ ∃ next, lib.timetable job = some next ∧
      chooseSlot next job.catchUp now fuel (state.get? job.name) = some fire.scheduledAt := by
  unfold candidate at h
  split at h
  next hs =>
    split at h
    next => simp at h
    next next hn =>
      split at h
      next => simp at h
      next slot hslot =>
        split at h
        next => simp at h
        next payload _ =>
          obtain rfl := Option.some.inj (Option.some.inj h)
          exact ⟨rfl, hs, next, hn, hslot⟩
  next => simp at h

theorem candidates_cons {job : Job} {jobs : List Job} {fires : List Fire}
    (h : candidates lib now fuel state (job :: jobs) = some fires) :
    ∃ fire rest, candidate lib now fuel state job = some fire ∧
      candidates lib now fuel state jobs = some rest ∧ fires = fire.toList ++ rest := by
  unfold candidates at h
  split at h
  next fire rest hfire hrest => exact ⟨fire, rest, hfire, hrest, (Option.some.inj h).symm⟩
  next => exact nomatch h

theorem candidates_mem {jobs : List Job} : ∀ {fires : List Fire},
    candidates lib now fuel state jobs = some fires → ∀ fire ∈ fires,
      ∃ job ∈ jobs, candidate lib now fuel state job = some (some fire) := by
  induction jobs with
  | nil =>
    intro fires h fire hfire
    obtain rfl := Option.some.inj h
    exact nomatch hfire
  | cons job jobs ih =>
    intro fires h fire hfire
    obtain ⟨head, rest, hhead, hrest, rfl⟩ := candidates_cons h
    rcases List.mem_append.1 hfire with hm | hm
    · rw [Option.mem_toList] at hm
      exact ⟨job, List.mem_cons_self .., by rw [hhead, hm]⟩
    · obtain ⟨job', hjob', hc⟩ := ih hrest fire hm
      exact ⟨job', List.mem_cons_of_mem _ hjob', hc⟩

theorem candidates_sublist {jobs : List Job} : ∀ {fires : List Fire},
    candidates lib now fuel state jobs = some fires → (fires.map Fire.job).Sublist (jobs.map Job.name) := by
  induction jobs with
  | nil =>
    intro fires h
    obtain rfl := Option.some.inj h
    exact .slnil
  | cons job jobs ih =>
    intro fires h
    obtain ⟨head, rest, hhead, hrest, rfl⟩ := candidates_cons h
    cases head with
    | none => exact (ih hrest).cons _
    | some fire =>
      have hname : fire.job = job.name := (candidate_fire hhead).1
      simpa [hname] using (ih hrest).cons_cons job.name

variable {config : Config} {fires : List Fire} {reopens : Int}

section

variable (h : plan lib now fuel config state = some (fires, reopens))
include h

theorem plan_cases :
    ∃ found, candidates lib now fuel state config.jobs = some found ∧
      let limit := effectiveLimit config.maxFiresPerHour
      let inWindow := firesInWindow state now
      (limit ≤ inWindow.length ∧ fires = [] ∧ reopens = inWindow.getD (inWindow.length - limit) 0 + valveWindow) ∨
      (inWindow.length < limit ∧ reopens = 0 ∧
        fires = (found.insertionSort fun a b => ¬ b.before a).take (limit - inWindow.length)) := by
  unfold plan at h
  split at h
  next => exact nomatch h
  next found hfound =>
    refine ⟨found, hfound, ?_⟩
    simp only at h ⊢
    split at h
    next hused =>
      obtain ⟨rfl, rfl⟩ := Prod.mk.inj (Option.some.inj h)
      exact .inl ⟨hused, rfl, rfl⟩
    next hused =>
      obtain ⟨rfl, rfl⟩ := Prod.mk.inj (Option.some.inj h)
      exact .inr ⟨not_le.1 hused, rfl, rfl⟩

theorem plan_mem :
    ∀ fire ∈ fires, ∃ job ∈ config.jobs, candidate lib now fuel state job = some (some fire) := by
  obtain ⟨found, hfound, ⟨_, rfl, _⟩ | ⟨_, _, rfl⟩⟩ := plan_cases h
  · exact fun fire hfire => nomatch hfire
  · intro fire hfire
    have : fire ∈ found := (List.mem_insertionSort _).1 (List.mem_of_mem_take hfire)
    exact candidates_mem hfound fire this

theorem plan_nodup : (fires.map Fire.job).Nodup := by
  obtain ⟨found, hfound, ⟨_, rfl, _⟩ | ⟨_, _, rfl⟩⟩ := plan_cases h
  · exact List.nodup_nil
  · have hfound : (found.map Fire.job).Nodup := config.distinct.sublist (candidates_sublist hfound)
    have hsorted := ((List.perm_insertionSort (fun a b => ¬ b.before a) found).map Fire.job).nodup_iff.2 hfound
    exact hsorted.sublist ((List.take_sublist _ _).map _)

theorem plan_room (hfires : fires ≠ []) :
    (firesInWindow state now).length + fires.length ≤ effectiveLimit config.maxFiresPerHour := by
  obtain ⟨found, hfound, ⟨_, rfl, _⟩ | ⟨hused, _, rfl⟩⟩ := plan_cases h
  · exact absurd rfl hfires
  · have := List.length_take_le (effectiveLimit config.maxFiresPerHour - (firesInWindow state now).length)
      (found.insertionSort fun a b => ¬ b.before a)
    omega

end

end Planned

/-! ## Schedules that move forward -/

/-- The cron library documents a slot later than the instant it was asked for, or the zero time
when it finds none within five years.  For the enabled jobs of this file it always finds one. -/
def Config.Forward (lib : Libraries) (config : Config) : Prop :=
  ∀ job ∈ config.jobs, job.scheduled = true → ∀ next, lib.timetable job = some next → ∀ t, t < next t

section Walks

variable {next : Int → Int} {now : Int}

theorem skipMissed_after {fuel : Nat} {slot found : Int} (h : skipMissed next now fuel slot = some found) :
    now < found := by
  induction fuel generalizing slot with
  | zero => cases h
  | succ fuel ih =>
    rw [skipMissed] at h
    split at h
    next hlt =>
      cases h
      exact hlt
    next => exact ih h

variable (hnext : ∀ t, t < next t)

include hnext

theorem skipMissed_returns : ∀ {fuel : Nat} {slot : Int}, (now + 1 - slot).toNat < fuel →
    (skipMissed next now fuel slot).isSome := by
  intro fuel
  induction fuel with
  | zero => exact fun h => absurd h (Nat.not_lt_zero _)
  | succ fuel ih =>
    intro slot h
    rw [skipMissed]
    split
    · rfl
    · have := hnext slot
      exact ih (by omega)

theorem latestMissed_returns : ∀ {fuel : Nat} {slot : Int}, (now + 1 - slot).toNat < fuel →
    (latestMissed next now fuel slot).isSome := by
  intro fuel
  induction fuel with
  | zero => exact fun h => absurd h (Nat.not_lt_zero _)
  | succ fuel ih =>
    intro slot h
    rw [latestMissed]
    split
    · rfl
    · have := hnext slot
      exact ih (by omega)

/-- From `need` units of fuel on a slot is found. -/
theorem chooseSlot_returns (catchUp : String) (previous : Option FireState) :
    ∃ need, ∀ fuel, need < fuel → (chooseSlot next catchUp now fuel previous).isSome := by
  cases previous with
  | none => exact ⟨0, fun _ _ => rfl⟩
  | some previous =>
    refine ⟨(now + 1 - next previous.lastScheduled).toNat, fun fuel hfuel => ?_⟩
    rw [chooseSlot]
    simp only
    split
    · rfl
    · split
      · rfl
      · split
        · exact skipMissed_returns hnext hfuel
        · exact latestMissed_returns hnext hfuel

end Walks

theorem candidate_returns {lib : Libraries} (now : Int) (state : States) {job : Job}
    (hforward : job.scheduled = true → ∀ next, lib.timetable job = some next → ∀ t, t < next t) :
    ∃ need, ∀ fuel, need < fuel → (candidate lib now fuel state job).isSome := by
  by_cases hsched : job.scheduled = true
  · cases hn : lib.timetable job with
    | none =>
      refine ⟨0, fun fuel _ => ?_⟩
      rw [candidate, hn, if_pos hsched]
      rfl
    | some next =>
      obtain ⟨need, hneed⟩ : ∃ need, ∀ fuel, need < fuel →
          (chooseSlot next job.catchUp now fuel (state.get? job.name)).isSome :=
        chooseSlot_returns (hforward hsched next hn) job.catchUp (state.get? job.name)
      refine ⟨need, fun fuel hfuel => ?_⟩
      obtain ⟨slot, hslot⟩ := Option.isSome_iff_exists.1 (hneed fuel hfuel)
      rw [candidate, hn, if_pos hsched]
      simp only [hslot]
      split <;> rfl
  · refine ⟨0, fun fuel _ => ?_⟩
    rw [candidate, if_neg hsched]
    rfl

theorem candidates_returns {lib : Libraries} (now : Int) (state : States) {jobs : List Job}
    (hforward : ∀ job ∈ jobs, job.scheduled = true → ∀ next, lib.timetable job = some next → ∀ t, t < next t) :
    ∃ need, ∀ fuel, need < fuel → (candidates lib now fuel state jobs).isSome := by
  induction jobs with
  | nil => exact ⟨0, fun _ _ => rfl⟩
  | cons job jobs ih =>
    obtain ⟨need, hneed⟩ := candidate_returns now state (hforward job List.mem_cons_self)
    obtain ⟨need', hneed'⟩ := ih fun job hjob => hforward job (List.mem_cons_of_mem _ hjob)
    refine ⟨max need need', fun fuel hfuel => ?_⟩
    obtain ⟨fire, hfire⟩ := Option.isSome_iff_exists.1 (hneed fuel ((le_max_left _ _).trans_lt hfuel))
    obtain ⟨fires, hfires⟩ := Option.isSome_iff_exists.1 (hneed' fuel ((le_max_right _ _).trans_lt hfuel))
    rw [candidates, hfire, hfires]
    rfl

theorem plan_returns {lib : Libraries} {config : Config} (hforward : config.Forward lib) (now : Int) (state : States) :
    ∃ need, ∀ fuel, need < fuel → (plan lib now fuel config state).isSome := by
  obtain ⟨need, hneed⟩ := candidates_returns now state hforward
  refine ⟨need, fun fuel hfuel => ?_⟩
  obtain ⟨fires, hfires⟩ := Option.isSome_iff_exists.1 (hneed fuel hfuel)
  rw [plan, hfires]
  simp only
  split <;> rfl

/-! ## The rows a plan is made from -/

theorem get?_loadState (config : Config) (store : States) (name : String) :
    (loadState config store).get? name = if name ∈ config.names then store.get? name else none := by
  have hfold : ∀ (jobs : List Job) (state : States),
      (jobs.foldl (fun state job =>
        match store.get? job.name with
        | some row => state.set job.name row
        | none => state) state).get? name =
        if name ∈ jobs.map Job.name ∧ (store.get? name).isSome then store.get? name else state.get? name := by
    intro jobs
    induction jobs with
    | nil => intro state; simp
    | cons job jobs ih =>
      intro state
      rw [List.foldl_cons, ih]
      by_cases hlater : name ∈ jobs.map Job.name ∧ (store.get? name).isSome
      · rw [if_pos hlater, if_pos ⟨List.mem_cons_of_mem _ hlater.1, hlater.2⟩]
      · rw [if_neg hlater]
        by_cases hname : name = job.name
        · subst hname
          cases hrow : store.get? job.name with
          | none => simp
          | some row => simp [Table.get?_set]
        · have : ¬ (name ∈ (job :: jobs).map Job.name ∧ (store.get? name).isSome) := by
            rintro ⟨hmem, hsome⟩
            rcases List.mem_cons.1 hmem with h | h
            · exact hname h
            · exact hlater ⟨h, hsome⟩
          rw [if_neg this]
          cases store.get? job.name with
          | none => rfl
          | some row => rw [Table.get?_set, if_neg hname]
  rw [loadState, hfold, Config.names]
  cases hrow : store.get? name with
  | none => simp
  | some row => simp

/-! ## One schedule -/

/-- A job on the hour, with the given policy for slots that were missed. -/
def hourlyJob (name catchUp : String) : Job :=
  ⟨name, "@hourly", "fq.trigger.report", "UTC", catchUp, some true, some true, none, none⟩

/-- Libraries that know the one schedule. -/
def hourly : Libraries where
  loadLocation _ := .ok ()
  parse _ := .ok fun _ t => (t / valveWindow + 1) * valveWindow
  parseDuration _ := .ok valveWindow
  valid _ := true
  marshal _ := .ok ""
  format _ _ := ""
  quote text := text
  trimSpace text := text

theorem hourly_forward (config : Config) : config.Forward hourly := by
  intro job _ _ next hnext t
  cases hnext
  change t < (t / valveWindow + 1) * valveWindow
  simp only [valveWindow, minute]
  omega

end FactorQ.Cron
