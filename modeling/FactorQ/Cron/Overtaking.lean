/-
# `FactorQ.Cron.Overtaking` — the slot that overtakes another

A fire whose publication keeps failing is given up when the job's next slot has come.  The
slot given up is recorded, and the plan that follows derives the next slot again, from the
row and from a later look at the clock.

Between the two looks time has passed, so for the planner the next slot is one that was missed
too, and the job's policy decides.  A job that catches up once gets it, or a later one
that has come; a job that skips what it missed waits for a slot ahead, unless the plan is made
at the very instant of the slot.  `superseding_slot_fired_iff` says that this is all there is
to it.

The design asks for more: the new fire takes the place of the old one, whatever the policy.
-/
import FactorQ.Cron.Slots

namespace FactorQ.Cron

open Lib

/-! ## What a plan holds for a job -/

/-- What is known of `json.Valid` with `Format`, and of `json.Marshal`: one timestamp makes a text
as valid as another does, and a table is encoded whatever its texts are. -/
structure Libraries.Uniform (lib : Libraries) : Prop where
  valid : ∀ tz name text slot slot',
    lib.valid (fill (lib.format tz slot) name text) = lib.valid (fill (lib.format tz slot') name text)
  marshal : ∀ table replace, (lib.marshal (substitute replace table)).isOk = (lib.marshal table).isOk

/-- Whether a payload can be rendered does not depend on the slot. -/
theorem Libraries.Uniform.renders {lib : Libraries} (hlib : lib.Uniform) {job : Job} {slot : Int}
    {payload : Option String} (h : renderPayload lib job slot = .ok payload) (slot' : Int) :
    ∃ payload', renderPayload lib job slot' = .ok payload' := by
  unfold renderPayload at h ⊢
  dsimp only at h ⊢
  cases hjson : job.payloadJson with
  | some text =>
    simp only [hjson, hlib.valid job.tz job.name text slot slot'] at h ⊢
    split at h
    · next hvalid => exact ⟨_, if_pos hvalid⟩
    · cases h
  | none =>
    cases htable : job.payload with
    | none => exact ⟨none, rfl⟩
    | some table =>
      simp only [hjson, htable] at h ⊢
      have hsame : (lib.marshal (substitute (fill (lib.format job.tz slot) job.name) table)).isOk =
          (lib.marshal (substitute (fill (lib.format job.tz slot') job.name) table)).isOk := by
        rw [hlib.marshal, hlib.marshal]
      split at h
      · next out hout =>
        rw [hout] at hsame
        cases hout' : lib.marshal (substitute (fill (lib.format job.tz slot') job.name) table) with
        | ok out' => exact ⟨some out', rfl⟩
        | error e =>
          rw [hout'] at hsame
          cases hsame
      · cases h

/-- The window has room for every fire there is. -/
def ValveOpen (lib : Libraries) (now : Int) (fuel : Nat) (config : Config) (state : States) : Prop :=
  ∀ found, candidates lib now fuel state config.jobs = some found →
    (firesInWindow state now).length + found.length ≤ effectiveLimit config.maxFiresPerHour

section Overtaking

variable {lib : Libraries} {now : Int} {fuel : Nat} {state : States} {config : Config}

/-- A slot that has been overtaken is planned if the job catches up, or if no time has
passed since. -/
theorem chooseSlot_overtaken {next : Int → Int} (hnext : ∀ t, t < next t) {catchUp : String} {row : FireState}
    {found : Int} (hdue : next row.lastScheduled ≤ now) (h : chooseSlot next catchUp now fuel (some row) = some found) :
    (next row.lastScheduled ≤ found ∧ found ≤ now) ↔
      row.lastScheduled ≠ 0 ∧ (catchUp = "once" ∨ now = next row.lastScheduled) := by
  unfold chooseSlot at h
  dsimp only at h
  split at h
  next hzero =>
    cases h
    exact iff_of_false (fun hf => absurd hf.2 (not_le.mpr (hnext now))) (fun hr => hr.1 hzero)
  next hzero =>
    split at h
    next hge =>
      cases h
      exact iff_of_true ⟨le_rfl, hdue⟩ ⟨hzero, .inr (le_antisymm (not_lt.mp hge) hdue)⟩
    next hlt =>
      rw [not_not] at hlt
      split at h
      next hskip =>
        refine iff_of_false (fun hf => absurd hf.2 (not_le.mpr (skipMissed_after h))) ?_
        rintro ⟨-, hcatch | heq⟩
        · exact hskip hcatch
        · exact hlt.ne' heq
      next hcatch =>
        exact iff_of_true ⟨latestMissed_ge hnext h, latestMissed_le h hdue⟩ ⟨hzero, .inl (not_not.mp hcatch)⟩

theorem candidate_rendered {job : Job} {fire : Fire} (h : candidate lib now fuel state job = some (some fire)) :
    ∃ payload, renderPayload lib job fire.scheduledAt = .ok payload := by
  unfold candidate at h
  split at h
  next =>
    split at h
    next => cases h
    next =>
      split at h
      next => cases h
      next =>
        split at h
        next => cases h
        next payload hpayload =>
          cases h
          exact ⟨payload, hpayload⟩
  next => cases h

theorem candidate_of_renders {job : Job} {next : Int → Int} {fire? : Option Fire} (hsched : job.scheduled = true)
    (hnext : lib.timetable job = some next) (hrender : ∀ slot, ∃ payload, renderPayload lib job slot = .ok payload)
    (h : candidate lib now fuel state job = some fire?) : ∃ fire, fire? = some fire ∧ fire.job = job.name ∧
      chooseSlot next job.catchUp now fuel (state.get? job.name) = some fire.scheduledAt := by
  unfold candidate at h
  rw [if_pos hsched, hnext] at h
  dsimp only at h
  cases hslot : chooseSlot next job.catchUp now fuel (state.get? job.name) with
  | none =>
    rw [hslot] at h
    cases h
  | some slot =>
    obtain ⟨payload, hpayload⟩ := hrender slot
    rw [hslot] at h
    dsimp only at h
    rw [hpayload] at h
    cases h
    exact ⟨_, rfl, rfl, rfl⟩

theorem candidates_complete {jobs : List Job} {found : List Fire} (h : candidates lib now fuel state jobs = some found)
    {job : Job} (hjob : job ∈ jobs) :
    ∃ fire?, candidate lib now fuel state job = some fire? ∧ ∀ fire, fire? = some fire → fire ∈ found := by
  induction jobs generalizing found with
  | nil => cases hjob
  | cons head jobs ih =>
    obtain ⟨first, rest, hfirst, hrest, rfl⟩ := candidates_cons h
    rcases List.mem_cons.mp hjob with rfl | hjob
    · refine ⟨first, hfirst, fun fire hfire => List.mem_append_left _ ?_⟩
      rw [hfire]
      exact List.mem_singleton_self fire
    · obtain ⟨fire?, hcand, hin⟩ := ih hrest hjob
      exact ⟨fire?, hcand, fun fire hfire => List.mem_append_right _ (hin fire hfire)⟩

theorem plan_open {fires : List Fire} {reopens : Int} (hplan : plan lib now fuel config state = some (fires, reopens))
    (hopen : ValveOpen lib now fuel config state) :
    ∃ found, candidates lib now fuel state config.jobs = some found ∧ ∀ fire, fire ∈ fires ↔ fire ∈ found := by
  obtain ⟨found, hfound, ⟨hfull, rfl, -⟩ | ⟨-, -, rfl⟩⟩ := plan_cases hplan
  · -- the window is full, so there is nothing to let through
    have hroom := hopen found hfound
    have hnone : found = [] := List.eq_nil_of_length_eq_zero (by omega)
    exact ⟨found, hfound, fun fire => by rw [hnone]⟩
  · have hroom := hopen found hfound
    refine ⟨found, hfound, fun fire => ?_⟩
    rw [List.take_of_length_le (by rw [List.length_insertionSort]; omega), List.mem_insertionSort]

/-- What a plan holds for one job, when the valve is open. -/
theorem plan_fire_iff {job : Job} {next : Int → Int} {fires : List Fire} {reopens : Int} (hjob : job ∈ config.jobs)
    (hsched : job.scheduled = true) (hnext : lib.timetable job = some next)
    (hrender : ∀ slot, ∃ payload, renderPayload lib job slot = .ok payload)
    (hplan : plan lib now fuel config state = some (fires, reopens)) (hopen : ValveOpen lib now fuel config state) :
    ∃ slot, chooseSlot next job.catchUp now fuel (state.get? job.name) = some slot ∧
      ∀ P : Int → Prop, (∃ fire ∈ fires, fire.job = job.name ∧ P fire.scheduledAt) ↔ P slot := by
  obtain ⟨found, hfound, hmem⟩ := plan_open hplan hopen
  obtain ⟨fire?, hcand, hin⟩ := candidates_complete hfound hjob
  obtain ⟨fire, rfl, hname, hslot⟩ := candidate_of_renders hsched hnext hrender hcand
  refine ⟨fire.scheduledAt, hslot, fun P => ⟨?_, fun hP => ⟨fire, (hmem fire).mpr (hin fire rfl), hname, hP⟩⟩⟩
  rintro ⟨fire', hfire', hname', hP⟩
  obtain ⟨job', hjob', hcand'⟩ := candidates_mem hfound fire' ((hmem fire').mp hfire')
  -- the names of a configuration are distinct
  have hsame : job' = job := List.inj_on_of_nodup_map config.distinct hjob' hjob
    ((candidate_fire hcand').1.symm.trans hname')
  subst hsame
  cases hcand.symm.trans hcand'
  exact hP

end Overtaking

/-! ## From giving up to the next plan -/

section GivingUp

variable {lib : Libraries} {window : Int} {s : Scheduler}

/-- A fire is given up when its next slot has come. -/
theorem Scheduler.gives_up {e : Event} {fire : Fire} {nextSlot : Int} (hcurrent : s.pc.current = some (fire, nextSlot))
    (hlog : (s.step lib window e).log = s.log ++ [.superseded fire.job]) :
    nextSlot ≤ s.clock ∧ ∃ state rest, s.pc.underway = some (state, fire :: rest) ∧
      s.step lib window e = s.supersede state fire rest := by
  have hno : ∀ {deeds : List Deed}, deeds = s.log → deeds ≠ s.log ++ [.superseded fire.job] := by
    rintro _ rfl heq
    exact absurd (List.self_eq_append_right.mp heq) (List.cons_ne_nil _ _)
  cases hpc : s.pc with
  | publishing state fire' rest nextSlot' backoff =>
    rw [hpc] at hcurrent
    cases hcurrent
    cases e with
    | answer answer =>
      cases answer with
      | acked => simp [Scheduler.step, hpc, answered, record] at hlog
      | permanent =>
        simp only [Scheduler.step, hpc, answered, markUnhealthy] at hlog
        split at hlog
        next => exact absurd hlog (hno rfl)
        next => simp at hlog
      | failed =>
        simp only [Scheduler.step, hpc, answered] at hlog ⊢
        split at hlog
        next hcome =>
          refine ⟨by omega, state, rest, rfl, ?_⟩
          rw [if_pos hcome]
        next => exact absurd hlog (hno rfl)
    | _ => exact absurd hlog (hno (by simp [Scheduler.step, hpc]))
  | pausing state fire' rest nextSlot' backoff =>
    rw [hpc] at hcurrent
    cases hcurrent
    cases e with
    | retry =>
      simp only [Scheduler.step, hpc] at hlog ⊢
      split at hlog
      next => exact absurd hlog (hno rfl)
      next hcome =>
        refine ⟨not_lt.mp hcome, state, rest, rfl, ?_⟩
        rw [if_neg hcome]
    | _ => exact absurd hlog (hno (by simp [Scheduler.step, hpc]))
  | _ =>
    rw [hpc] at hcurrent
    cases hcurrent

/-- What is known between a slot's giving up and the next plan: the row stands, nothing else
is served for the job, and the configuration is the same. -/
structure Scheduler.Given (config : Config) (name : String) (row : FireState) (clock : Int) (s : Scheduler) : Prop where
  config : s.config = config
  row : s.store.get? name = some row
  later : clock ≤ s.clock
  serves : s.pc = .planning ∨ s.pc = .returned ∨
    ∃ state fires, s.pc.underway = some (state, fires) ∧ ¬ s.pc.Selects ∧ name ∉ fires.map Fire.job

namespace Scheduler.Given

variable {config : Config} {name : String} {row : FireState} {clock : Int}

theorem not_selects (h : s.Given config name row clock) : ¬ s.pc.Selects := by
  intro hsel
  rcases h.serves with hpc | hpc | ⟨_, _, _, hno, _⟩
  · rw [hpc] at hsel
    exact hsel
  · rw [hpc] at hsel
    exact hsel
  · exact hno hsel

theorem fires (h : s.Given config name row clock) {state : States} {fires : List Fire}
    (hu : s.pc.underway = some (state, fires)) : name ∉ fires.map Fire.job := by
  rcases h.serves with hpc | hpc | ⟨_, _, hu', _, hnot⟩
  · rw [hpc] at hu
    cases hu
  · rw [hpc] at hu
    cases hu
  · cases hu'.symm.trans hu
    exact hnot

theorem step (e : Event) (hplan : s.pc ≠ .planning) (h : s.Given config name row clock) :
    (s.step lib window e).Given config name row clock := by
  have hm : s.Moves lib window e (s.step lib window e) := Scheduler.step_moves s e
  generalize s.step lib window e = s' at hm
  have hrest : ∀ {state : States} {fire : Fire} {rest : List Fire}, s.pc.underway = some (state, fire :: rest) →
      name ≠ fire.job ∧ name ∉ rest.map Fire.job := by
    intro state fire rest hu
    rw [← not_or, ← List.mem_cons, ← List.map_cons]
    exact h.fires hu
  cases hm with
  | stays => exact h
  | tick elapsed => exact ⟨h.config, h.row, h.later.trans (Int.le_add_of_nonneg_right (Int.natCast_nonneg _)), h.serves⟩
  | waits _ _ _ _ _ hpc => exact absurd hpc hplan
  | goes _ _ _ _ _ hpc => exact absurd hpc hplan
  | replans _ _ hpc => exact absurd hpc h.not_selects
  | wakes state fires hpc =>
    refine absurd ?_ h.not_selects
    rw [hpc]
    trivial
  | confirms hpc => exact absurd hpc h.not_selects
  | settles _ _ hpc =>
    rcases h.serves with hp | hp | ⟨_, _, hu, _⟩
    · exact absurd hp hplan
    · cases hpc.symm.trans hp
    · rw [hpc] at hu
      cases hu
  | rechecks _ hpc =>
    rcases h.serves with hp | hp | ⟨_, _, hu, _⟩
    · exact absurd hp hplan
    · cases hpc.symm.trans hp
    · rw [hpc] at hu
      cases hu
  | reloads _ hpc => exact absurd hpc h.not_selects
  | returns => exact ⟨h.config, h.row, h.later, .inr (.inl rfl)⟩
  | done => exact ⟨h.config, h.row, h.later, .inl rfl⟩
  | skips state fire rest hpc =>
    exact ⟨h.config, h.row, h.later, .inr (.inr ⟨state, rest, rfl, id, (hrest (by rw [hpc]; rfl)).2⟩)⟩
  | publishes state fire rest nextSlot hpc =>
    exact ⟨h.config, h.row, h.later, .inr (.inr ⟨state, fire :: rest, rfl, id, h.fires (by rw [hpc]; rfl)⟩)⟩
  | attempts _ pc state fire rest hpc hpc' =>
    have hnot : name ∉ (fire :: rest).map Fire.job := by
      obtain ⟨_, _, hp | hp⟩ := hpc <;> exact h.fires (by rw [hp]; rfl)
    obtain ⟨_, _, rfl | rfl⟩ := hpc' <;>
      exact ⟨h.config, h.row, h.later, .inr (.inr ⟨state, fire :: rest, rfl, id, hnot⟩)⟩
  | records state fire rest nextSlot backoff hpc =>
    obtain ⟨hne, hnot⟩ := hrest (by rw [hpc]; rfl : s.pc.underway = some (state, fire :: rest))
    refine ⟨h.config, ?_, h.later, .inr (.inr ⟨state, rest, rfl, id, hnot⟩)⟩
    show (s.store.set fire.job _).get? name = _
    rw [Table.get?_set, if_neg hne, h.row]
  | supersedes _ state fire rest hpc =>
    have hu : s.pc.underway = some (state, fire :: rest) := by
      obtain ⟨_, _, hp | hp⟩ := hpc <;> rw [hp] <;> rfl
    obtain ⟨hne, hnot⟩ := hrest hu
    refine ⟨h.config, ?_, h.later, .inr (.inr ⟨state, rest, rfl, id, hnot⟩)⟩
    show (s.store.set fire.job _).get? name = _
    rw [Table.get?_set, if_neg hne, h.row]
  | marks state fire rest nextSlot backoff hpc =>
    exact ⟨h.config, h.row, h.later, .inr (.inr ⟨state, rest, rfl, id, (hrest (by rw [hpc]; rfl)).2⟩)⟩

end Scheduler.Given

end GivingUp

/-- A fire is given up because its next slot has come, and `later` leads from there towards the
next plan.  The plan made then, when the valve is open, has a fire for the job with the next slot,
or with a later one that has come, exactly if the job catches up or the plan is made at the very
instant of the next slot; and the slot given up must not be the zero time, which a row cannot
record. -/
theorem superseding_slot_fired_iff (lib : Libraries) (hrender : lib.Uniform) (window : Int) (config : Config)
    (store : States) (clock : Int) (es : List Event) (hforward : ∀ c ∈ configurations config es, c.Forward lib)
    (e : Event) (later : List Event) (fire : Fire) (nextSlot : Int) (s s' : Scheduler)
    (hs : s = es.foldl (Scheduler.step lib window) (.start config store clock))
    (hcurrent : s.pc.current = some (fire, nextSlot))
    (hgives : (s.step lib window e).log = s.log ++ [.superseded fire.job])
    (hlater : Permitted (Scheduler.step lib window) (fun t _ => t.pc ≠ .planning) (s.step lib window e) later)
    (hs' : s' = later.foldl (Scheduler.step lib window) (s.step lib window e)) :
    ∃ job, s'.config.job? fire.job = some job ∧
      (∃ need, ∀ fuel, need < fuel → (plan lib s'.clock fuel s'.config (loadState s'.config s'.store)).isSome) ∧
      ∀ fuel fires reopens, plan lib s'.clock fuel s'.config (loadState s'.config s'.store) = some (fires, reopens) →
        ValveOpen lib s'.clock fuel s'.config (loadState s'.config s'.store) →
        ((∃ f ∈ fires, f.job = fire.job ∧ nextSlot ≤ f.scheduledAt ∧ f.scheduledAt ≤ s'.clock) ↔
          fire.scheduledAt ≠ 0 ∧ (job.catchUp = "once" ∨ s'.clock = nextSlot)) := by
  have hplanned : s.Planned lib := hs ▸ (Scheduler.Planned.start config store clock).run es
  have hforward : s.config.Forward lib := hforward _ (hs ▸ Scheduler.config_mem _ es)
  obtain ⟨hdue, state, rest, hunder, hstep⟩ := Scheduler.gives_up hcurrent hgives
  obtain ⟨-, job, next, hjob?, hnext, hslot⟩ := hplanned.serving fire nextSlot hcurrent
  obtain ⟨hjob, hname⟩ := Config.job?_mem hjob?
  -- the fire was planned for the job, so the job is enabled and its payload can be rendered
  obtain ⟨job', hjob', now, fuel', rows, hcand⟩ := hplanned.planned state _ hunder fire List.mem_cons_self
  have hsame : job' = job := List.inj_on_of_nodup_map s.config.distinct hjob' hjob
    ((candidate_fire hcand).1.symm.trans hname.symm)
  subst hsame
  obtain ⟨payload, hpayload⟩ := candidate_rendered hcand
  -- up to the next plan the row holds the slot that was given up
  have hfresh := (List.nodup_cons.mp (hplanned.nodup state _ hunder)).1
  have hstart : (s.step lib window e).Given s.config fire.job
      (supersedeFire (States.at state fire.job) fire.scheduledAt) s.clock := by
    rw [hstep]
    refine ⟨rfl, ?_, le_rfl, .inr (.inr ⟨state, rest, rfl, id, hfresh⟩)⟩
    show (s.store.set fire.job _).get? fire.job = _
    rw [Table.get?_set, if_pos rfl]
  have hgiven : s'.Given s.config fire.job (supersedeFire (States.at state fire.job) fire.scheduledAt) s.clock := by
    rw [hs']
    exact hlater.inv (fun t a hne => Scheduler.Given.step a hne) hstart
  refine ⟨job', by rw [hgiven.config, hjob?], plan_returns (hgiven.config ▸ hforward) _ _,
    fun fuel fires reopens hplan hopen => ?_⟩
  obtain ⟨slot, hchosen, hiff⟩ := plan_fire_iff (hgiven.config ▸ hjob) (candidate_fire hcand).2.1 hnext
    (hrender.renders hpayload) hplan hopen
  have hrow : (loadState s'.config s'.store).get? job'.name =
      some (supersedeFire (States.at state fire.job) fire.scheduledAt) := by
    rw [get?_loadState, hgiven.config, if_pos (Config.mem_names hjob), hname, hgiven.row]
  rw [hrow] at hchosen
  rw [← hname, hiff fun f => nextSlot ≤ f ∧ f ≤ s'.clock, hslot]
  refine chooseSlot_overtaken (hforward job' hjob (candidate_fire hcand).2.1 next hnext) ?_ hchosen
  show next fire.scheduledAt ≤ s'.clock
  rw [← hslot]
  exact hdue.trans hgiven.later

/-! ## An hour without a broker -/

/-- The first slot comes, the broker does not answer, and a minute ago the second slot came. -/
def hourWithoutBroker (catchUp : String) : Scheduler :=
  [Event.plan 3 0, .tick valveWindow.toNat, .timer, .fire, .answer .failed, .tick valveWindow.toNat].foldl
    (Scheduler.step hourly 0) (.start (hourlyFile catchUp) .empty minute)

/-- The fire is given up, and the loop is at its top again. -/
def afterwards (catchUp : String) : Scheduler :=
  [Event.fire].foldl (Scheduler.step hourly 0) ((hourWithoutBroker catchUp).step hourly 0 .retry)

theorem hourly_uniform : hourly.Uniform := ⟨fun _ _ _ _ _ => rfl, fun _ _ => rfl⟩

/-- A job that catches up: the second slot is planned. -/
theorem overtaking_slot_caught_up :
    ∃ fires reopens, plan hourly (afterwards "once").clock 3 (afterwards "once").config
        (loadState (afterwards "once").config (afterwards "once").store) = some (fires, reopens) ∧
      ∃ f ∈ fires, f.job = "report" ∧ 2 * valveWindow ≤ f.scheduledAt ∧ f.scheduledAt ≤ (afterwards "once").clock := by
  obtain ⟨job, hjob, -, hiff⟩ := superseding_slot_fired_iff hourly hourly_uniform 0 (hourlyFile "once") .empty minute
    [.plan 3 0, .tick valveWindow.toNat, .timer, .fire, .answer .failed, .tick valveWindow.toNat]
    (fun c _ => hourly_forward c) .retry [.fire]
    ⟨"report", "fq.trigger.report", none, valveWindow⟩ (2 * valveWindow) (hourWithoutBroker "once") (afterwards "once") rfl
    (by decide +kernel) (by decide +kernel) ⟨(fun h => by cases h), trivial⟩ rfl
  cases hjob
  refine ⟨_, _, rfl, (hiff 3 _ _ rfl ?_).mpr ⟨by decide, .inl rfl⟩⟩
  intro found hfound
  cases hfound
  decide +kernel

/-- A job that skips what it missed: the second slot overtakes the first, and is skipped as well. -/
theorem overtaking_slot_skipped :
    (hourWithoutBroker "skip").pc.current = some (⟨"report", "fq.trigger.report", none, valveWindow⟩, 2 * valveWindow) ∧
      ((hourWithoutBroker "skip").step hourly 0 .retry).log =
        (hourWithoutBroker "skip").log ++ [.superseded "report"] ∧
      (afterwards "skip").clock = minute + 2 * valveWindow ∧
      (plan hourly (afterwards "skip").clock 3 (afterwards "skip").config
        (loadState (afterwards "skip").config (afterwards "skip").store)).map
          (fun planned => planned.1.map fun f => (f.job, f.scheduledAt)) = some [("report", 3 * valveWindow)] := by
  decide +kernel

end FactorQ.Cron
