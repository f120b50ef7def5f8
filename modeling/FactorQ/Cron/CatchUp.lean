/-
# `FactorQ.Cron.CatchUp` — which slot is planned after some were missed

The slots of a schedule are a set that has a next one after every instant.  `DueSlot` says
which of them is to be planned, without walking: the next after `now` for a job without
history; else the next after the recorded one if that has not passed, and otherwise the next
after `now` or the last that was missed, as the policy of the job says.

The row of a job that was never served has the zero time in it, which is before every clock the
adapter reads and so before every slot it plans.  Once a slot is recorded the next plan has the
slot that follows: however many were missed, one fire makes up for them.
-/
import FactorQ.Cron.Overtaking

namespace FactorQ.Cron

open Lib

/-- The slots of a schedule after an instant. -/
def slotsAfter (slots : Set Int) (t : Int) : Set Int := {slot | slot ∈ slots ∧ t < slot}

/-- `next` is the schedule of these slots. -/
def ScheduleOf (slots : Set Int) (next : Int → Int) : Prop := ∀ t, IsLeast (slotsAfter slots t) (next t)

/-- The schedule of each enabled job has a fixed set of slots, without a last one. -/
def Config.Slotted (lib : Libraries) (config : Config) : Prop :=
  ∀ job ∈ config.jobs, job.scheduled = true → ∀ next, lib.timetable job = some next → ∃ slots, ScheduleOf slots next

theorem Config.Slotted.forward {lib : Libraries} {config : Config} (h : config.Slotted lib) : config.Forward lib := by
  intro job hjob hsched next hnext t
  obtain ⟨slots, hslots⟩ := h job hjob hsched next hnext
  exact (hslots t).1.2

/-- The slot recorded for a job, if there is one. -/
def history (row : Option FireState) : Option Int :=
  row.bind fun row => if row.lastScheduled = 0 then none else some row.lastScheduled

/-- What is to be planned at `now` after the slot `last`. -/
def DueSlot (slots : Set Int) (catchUp : String) (now : Int) (last : Option Int) (slot : Int) : Prop :=
  match last with
  | none => IsLeast (slotsAfter slots now) slot
  | some last => ∃ n, IsLeast (slotsAfter slots last) n ∧
      (now ≤ n → slot = n) ∧
      (n < now → catchUp ≠ "once" → IsLeast (slotsAfter slots now) slot) ∧
      (n < now → catchUp = "once" → IsGreatest {s | s ∈ slots ∧ s ≤ now} slot)

section Walks

variable {slots : Set Int} {next : Int → Int} (hnext : ScheduleOf slots next) {now : Int} {fuel : Nat}

include hnext

/-- The walk never passes a slot that is still to come. -/
theorem skipMissed_isLeast {slot found : Int} (hslot : slot ∈ slots) (hle : ∀ s ∈ slots, now < s → slot ≤ s)
    (h : skipMissed next now fuel slot = some found) : IsLeast (slotsAfter slots now) found := by
  induction fuel generalizing slot with
  | zero => cases h
  | succ fuel ih =>
    rw [skipMissed] at h
    split at h
    · next hlt =>
      cases h
      exact ⟨⟨hslot, hlt⟩, fun s hs => hle s hs.1 hs.2⟩
    · next hge =>
      refine ih (hnext slot).1.1 (fun s hs hnow => ?_) h
      exact (hnext slot).2 ⟨hs, (not_lt.mp hge).trans_lt hnow⟩

theorem latestMissed_isGreatest {slot found : Int} (hslot : slot ∈ slots) (hle : slot ≤ now)
    (h : latestMissed next now fuel slot = some found) : IsGreatest {s | s ∈ slots ∧ s ≤ now} found := by
  induction fuel generalizing slot with
  | zero => cases h
  | succ fuel ih =>
    rw [latestMissed] at h
    split at h
    · next hlt =>
      cases h
      refine ⟨⟨hslot, hle⟩, fun s hs => ?_⟩
      by_contra hgt
      have hpast := (hnext found).2 ⟨hs.1, not_le.mp hgt⟩
      exact absurd (hlt.trans_le hpast) (not_lt.mpr hs.2)
    · next hge => exact ih (hnext slot).1.1 (not_lt.mp hge) h

theorem chooseSlot_due {catchUp : String} {row : Option FireState} {slot : Int}
    (h : chooseSlot next catchUp now fuel row = some slot) : DueSlot slots catchUp now (history row) slot := by
  cases row with
  | none =>
    cases h
    exact hnext now
  | some row =>
    rw [chooseSlot] at h
    dsimp only at h
    split at h
    · next hzero =>
      cases h
      rw [history, Option.bind_some, if_pos hzero]
      exact hnext now
    · next hlast =>
      rw [history, Option.bind_some, if_neg hlast]
      refine ⟨next row.lastScheduled, hnext _, ?_⟩
      split at h
      · next hahead =>
        cases h
        exact ⟨fun _ => rfl, fun hlt => absurd hlt hahead, fun hlt => absurd hlt hahead⟩
      · next hpassed =>
        have hlt := not_not.mp hpassed
        have hmem := (hnext row.lastScheduled).1.1
        split at h
        · next hskip =>
          refine ⟨fun hle => absurd hlt (not_lt.mpr hle), fun _ _ => ?_, fun _ honce => absurd honce hskip⟩
          exact skipMissed_isLeast hnext hmem (fun s _ hs => (hlt.trans hs).le) h
        · next honce =>
          refine ⟨fun hle => absurd hlt (not_lt.mpr hle), fun _ hskip => absurd hskip honce, fun _ _ => ?_⟩
          exact latestMissed_isGreatest hnext hmem hlt.le h

end Walks

/-- Before the slot that follows the recorded one, that is what is chosen. -/
theorem chooseSlot_following {next : Int → Int} {catchUp : String} {now : Int} {fuel : Nat} {row : FireState}
    (hlast : row.lastScheduled ≠ 0) (hnow : now < next row.lastScheduled) :
    chooseSlot next catchUp now fuel (some row) = some (next row.lastScheduled) := by
  rw [chooseSlot]
  dsimp only
  rw [if_neg hlast, if_pos (not_lt.mpr hnow.le)]

/-! ## Plans -/

section Plans

variable {lib : Libraries} {now : Int} {fuel : Nat} {config : Config} {state : States} {fires : List Fire} {reopens : Int}

/-- The payload of the job can be rendered, whatever the slot. -/
def Job.Renders (lib : Libraries) (job : Job) : Prop := ∀ slot, ∃ payload, renderPayload lib job slot = .ok payload

theorem plan_slot (hplan : plan lib now fuel config state = some (fires, reopens)) {job : Job} (hjob : job ∈ config.jobs)
    {next : Int → Int} (hnext : lib.timetable job = some next) {fire : Fire} (hfire : fire ∈ fires)
    (hname : fire.job = job.name) :
    job.scheduled = true ∧ chooseSlot next job.catchUp now fuel (state.get? job.name) = some fire.scheduledAt := by
  obtain ⟨job', hjob', hcand⟩ := plan_mem hplan fire hfire
  obtain ⟨hname', hsched, next', hnext', hslot⟩ := candidate_fire hcand
  obtain rfl : job' = job := List.inj_on_of_nodup_map config.distinct hjob' hjob (hname'.symm.trans hname)
  cases hnext.symm.trans hnext'
  exact ⟨hsched, hslot⟩

/-- A plan has the fire of an enabled job, if the valve is open and its payload renders. -/
theorem plan_serves (hplan : plan lib now fuel config state = some (fires, reopens)) {job : Job} (hjob : job ∈ config.jobs)
    {next : Int → Int} (hnext : lib.timetable job = some next) (hsched : job.scheduled = true)
    (hopen : ValveOpen lib now fuel config state) (hrender : job.Renders lib) :
    ∃ fire ∈ fires, fire.job = job.name := by
  obtain ⟨slot, -, hiff⟩ := plan_fire_iff hjob hsched hnext hrender hplan hopen
  obtain ⟨fire, hfire, hname, -⟩ := (hiff fun _ => True).mpr trivial
  exact ⟨fire, hfire, hname⟩

end Plans

/-- What is planned for a job that `slot` was just recorded for, at an instant before the slot
that follows: that one, and nothing else. -/
def FollowsUp (lib : Libraries) (config : Config) (job : Job) (next : Int → Int) (slot : Int) : Prop :=
  ∀ (previous row : FireState) (publishedAt limit now : Int) (state : States) (fuel : Nat) (fires : List Fire) (reopens : Int),
    row = recordFire previous slot publishedAt limit ∨ row = supersedeFire previous slot →
    state.get? job.name = some row → now < next slot → plan lib now fuel config state = some (fires, reopens) →
    (∀ fire ∈ fires, fire.job = job.name → fire.scheduledAt = next slot) ∧
      (ValveOpen lib now fuel config state → job.Renders lib → ∃ fire ∈ fires, fire.job = job.name)

/-- Planning comes to an end with at most one fire for each job.  The slot of each is the one
due, an enabled job has its fire unless the valve or its payload is in the way, and once a slot
other than the zero time is recorded the next plan has the slot that follows it. -/
theorem catch_up_semantics (lib : Libraries) (config : Config) (hslotted : config.Slotted lib) (state : States) (now : Int) :
    ∃ need, ∀ fuel, need < fuel → ∃ fires reopens, plan lib now fuel config state = some (fires, reopens) ∧
      (fires.map Fire.job).Nodup ∧
      ∀ job ∈ config.jobs, ∀ next slots, lib.timetable job = some next → ScheduleOf slots next →
        (job.scheduled = true → ValveOpen lib now fuel config state → job.Renders lib →
          ∃ fire ∈ fires, fire.job = job.name) ∧
        ∀ fire ∈ fires, fire.job = job.name → job.scheduled = true ∧
          DueSlot slots job.catchUp now (history (state.get? job.name)) fire.scheduledAt ∧
          (fire.scheduledAt ≠ 0 → FollowsUp lib config job next fire.scheduledAt) := by
  obtain ⟨need, hneed⟩ := plan_returns hslotted.forward now state
  refine ⟨need, fun fuel hfuel => ?_⟩
  obtain ⟨⟨fires, reopens⟩, hplan⟩ := Option.isSome_iff_exists.mp (hneed fuel hfuel)
  refine ⟨fires, reopens, hplan, plan_nodup hplan, fun job hjob next slots hnext hslots => ?_⟩
  refine ⟨plan_serves hplan hjob hnext, fun fire hfire hname => ?_⟩
  obtain ⟨hsched, hslot⟩ := plan_slot hplan hjob hnext hfire hname
  refine ⟨hsched, chooseSlot_due hslots hslot, fun hzero => ?_⟩
  intro previous row publishedAt limit now' state' fuel' fires' reopens' hrow hget hnow' hplan'
  have hlast : row.lastScheduled = fire.scheduledAt := by
    rcases hrow with rfl | rfl <;> rfl
  refine ⟨fun fire' hfire' hname' => ?_, plan_serves hplan' hjob hnext hsched⟩
  have hchosen := (plan_slot hplan' hjob hnext hfire' hname').2
  rw [hget, chooseSlot_following (by rwa [hlast]) (by rwa [hlast]), hlast] at hchosen
  exact (Option.some.inj hchosen).symm

/-- The full hours. -/
def hours : Set Int := {slot | ∃ k, slot = k * valveWindow}

theorem hourly_scheduleOf (job : Job) {next : Int → Int} (h : hourly.timetable job = some next) :
    ScheduleOf hours next := by
  cases h
  refine fun t => ⟨⟨⟨_, rfl⟩, ?_⟩, ?_⟩
  · change t < (t / valveWindow + 1) * valveWindow
    simp only [valveWindow, minute]
    omega
  · rintro _ ⟨⟨k, rfl⟩, hlt⟩
    change (t / valveWindow + 1) * valveWindow ≤ k * valveWindow
    simp only [valveWindow, minute] at hlt ⊢
    omega

theorem hourly_slotted (config : Config) : config.Slotted hourly :=
  fun _ _ _ _ hnext => ⟨hours, hourly_scheduleOf _ hnext⟩

/-- The slot of the first hour was published. -/
def servedFirst : States := Table.empty.set "report" (recordFire .zero valveWindow valveWindow 120)

/-- At half past three the slots of the second and the third hour were missed: the third is planned, and
after it the fourth. -/
theorem missed_hours_planned : ∃ need, ∀ fuel, need < fuel →
    ∃ fires reopens,
      plan hourly (3 * valveWindow + 30 * minute) fuel (hourlyFile "once") servedFirst = some (fires, reopens) ∧
      ∃ fire ∈ fires, fire.job = "report" ∧ fire.scheduledAt = 3 * valveWindow ∧
        FollowsUp hourly (hourlyFile "once") (hourlyJob "report" "once") (fun t => (t / valveWindow + 1) * valveWindow)
          (3 * valveWindow) := by
  obtain ⟨need, h⟩ := catch_up_semantics hourly (hourlyFile "once") (hourly_slotted _) servedFirst
    (3 * valveWindow + 30 * minute)
  refine ⟨need, fun fuel hfuel => ?_⟩
  obtain ⟨fires, reopens, hplan, -, hjobs⟩ := h fuel hfuel
  obtain ⟨hserved, hdue⟩ := hjobs (hourlyJob "report" "once") List.mem_cons_self _ hours rfl
    (hourly_scheduleOf (hourlyJob "report" "once") rfl)
  have hopen : ValveOpen hourly (3 * valveWindow + 30 * minute) fuel (hourlyFile "once") servedFirst := by
    intro found hfound
    have hone := (candidates_sublist hfound).length_le
    have hnone : (firesInWindow servedFirst (3 * valveWindow + 30 * minute)).length = 0 := by decide +kernel
    rw [List.length_map] at hone
    rw [hnone]
    exact (Nat.zero_add _).le.trans (hone.trans (by decide))
  obtain ⟨fire, hfire, hname⟩ := hserved rfl hopen fun _ => ⟨none, rfl⟩
  obtain ⟨-, ⟨n, hn, -, -, honce⟩, hfollows⟩ := hdue fire hfire hname
  have hsecond : n ≤ 2 * valveWindow := hn.2 ⟨⟨2, rfl⟩, by decide⟩
  have hgreatest : IsGreatest {s | s ∈ hours ∧ s ≤ 3 * valveWindow + 30 * minute} (3 * valveWindow) := by
    refine ⟨⟨⟨3, rfl⟩, by decide⟩, ?_⟩
    rintro _ ⟨⟨k, rfl⟩, hle⟩
    simp only [valveWindow, minute] at hle ⊢
    omega
  have hslot := (honce (hsecond.trans_lt (by decide)) rfl).unique hgreatest
  rw [hslot] at hfollows
  exact ⟨fires, reopens, hplan, fire, hfire, hname, hslot, hfollows (by decide)⟩

end FactorQ.Cron
