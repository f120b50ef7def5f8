/-
# `FactorQ.Cron.Slots` — the slots of a job

A slot is settled when it is recorded, as published or as overtaken by the next one.  The
row of a job keeps the last of its slots only, and the row itself can be lost: a job that
stays out of the configuration long enough has its row deleted, and when it comes back it
starts anew.  What keeps the slots in order all the same is the clock.  A slot is served once
it has come, so whatever has been recorded is past; and a job without a row gets a slot that
lies ahead.  `slots_strictly_increase`: the slots recorded for a name go up in every run.
-/
import FactorQ.Cron.Valve

namespace FactorQ.Cron

open Lib

/-! ## Slots that are chosen -/

section Walks

variable {next : Int → Int} {now : Int}

variable {fuel : Nat} {slot found : Int}

variable (hnext : ∀ t, t < next t)

include hnext

theorem skipMissed_ge (h : skipMissed next now fuel slot = some found) : slot ≤ found := by
  induction fuel generalizing slot with
  | zero => cases h
  | succ fuel ih =>
    rw [skipMissed] at h
    split at h
    next =>
      cases h
      exact le_rfl
    next => exact (hnext slot).le.trans (ih h)

theorem latestMissed_ge (h : latestMissed next now fuel slot = some found) : slot ≤ found := by
  induction fuel generalizing slot with
  | zero => cases h
  | succ fuel ih =>
    rw [latestMissed] at h
    split at h
    next =>
      cases h
      exact le_rfl
    next => exact (hnext slot).le.trans (ih h)

omit hnext in
theorem latestMissed_le (h : latestMissed next now fuel slot = some found) (hslot : slot ≤ now) : found ≤ now := by
  induction fuel generalizing slot with
  | zero => cases h
  | succ fuel ih =>
    rw [latestMissed] at h
    split at h
    next =>
      cases h
      exact hslot
    next hle => exact ih h (not_lt.mp hle)

/-- The slot of a plan lies after whatever is past and not after the row. -/
theorem chooseSlot_gt {catchUp : String} {previous : Option FireState} {found bound : Int}
    (h : chooseSlot next catchUp now fuel previous = some found) (hpast : bound ≤ now)
    (hrow : ∀ row, previous = some row → row.lastScheduled ≠ 0 → bound ≤ row.lastScheduled) : bound < found := by
  unfold chooseSlot at h
  split at h
  next =>
    cases h
    exact hpast.trans_lt (hnext now)
  next row =>
    split at h
    next =>
      cases h
      exact hpast.trans_lt (hnext now)
    next hne =>
      have hslot : bound < next row.lastScheduled := (hrow row rfl hne).trans_lt (hnext _)
      dsimp only at h
      split at h
      next =>
        cases h
        exact hslot
      next =>
        split at h
        next => exact hslot.trans_le (skipMissed_ge hnext h)
        next => exact hslot.trans_le (latestMissed_ge hnext h)

end Walks

/-! ## The fire that is served -/

/-- The fire the publisher is asked for, and the slot that ends the attempts. -/
def Pc.current : Pc → Option (Fire × Int)
  | .publishing _ fire _ nextSlot _ | .pausing _ fire _ nextSlot _ => some (fire, nextSlot)
  | _ => none

/-- A fire is served when its slot has come, for a job of the configuration, until the slot
after it. -/
def Scheduler.Serving (lib : Libraries) (s : Scheduler) : Prop :=
  ∀ fire nextSlot, s.pc.current = some (fire, nextSlot) → fire.scheduledAt ≤ s.clock ∧
    ∃ job next, s.config.job? fire.job = some job ∧ lib.timetable job = some next ∧ nextSlot = next fire.scheduledAt

namespace Scheduler.Serving

variable {lib : Libraries} {window : Int} {s : Scheduler}

theorem none (h : s.pc.current = none) : s.Serving lib := by
  intro fire nextSlot hc
  rw [h] at hc
  cases hc

theorem takeFire (s : Scheduler) (state : States) (fires : List Fire) : (s.takeFire lib state fires).Serving lib := by
  unfold Scheduler.takeFire
  split
  next => exact .none rfl
  next fire rest =>
    split
    next => exact .none rfl
    next hgo =>
      split
      next => exact .none rfl
      next job hjob =>
        split
        next => exact .none rfl
        next next hnext =>
          intro fire' nextSlot hc
          obtain ⟨rfl, rfl⟩ := Prod.mk.inj (Option.some.inj hc)
          exact ⟨not_lt.mp fun h => hgo (.inl h), job, next, hjob, hnext, rfl⟩

theorem planned (fuel elapsed : Nat) (hpc : s.pc = .planning) : (s.planned lib fuel elapsed).Serving lib := by
  unfold Scheduler.planned
  dsimp only
  split
  next => exact .none (by rw [hpc]; rfl)
  next =>
    split
    next => exact .none rfl
    next =>
      split
      next => exact .none rfl
      next => exact .none rfl

theorem step (e : Event) (h : s.Serving lib) : (s.step lib window e).Serving lib := by
  cases e with
  | tick elapsed =>
    intro fire nextSlot hc
    obtain ⟨hle, hjob⟩ := h fire nextSlot hc
    exact ⟨hle.trans (Int.le_add_of_nonneg_right (Int.natCast_nonneg elapsed)), hjob⟩
  | plan fuel elapsed =>
    simp only [Scheduler.step]
    split
    next hpc => exact planned fuel elapsed hpc
    next => exact h
  | valve =>
    simp only [Scheduler.step]
    split
    next =>
      split
      next => exact h
      next => exact .none rfl
    next => exact h
  | timer =>
    simp only [Scheduler.step]
    split
    next => exact .none rfl
    next => exact h
  | confirm =>
    simp only [Scheduler.step]
    split
    iterate 2
      next =>
        split
        next => exact h
        next => exact .none rfl
    next => exact h
  | recheck answer =>
    simp only [Scheduler.step]
    split
    next => cases answer <;> exact .none rfl
    next => exact h
  | reload event =>
    simp only [Scheduler.step]
    split
    iterate 2
      next =>
        split
        next => exact .none rfl
        next => exact h
    next => exact h
  | closed =>
    simp only [Scheduler.step]
    split
    iterate 2
      next =>
        split
        next => exact .none rfl
        next => exact h
    next => exact h
  | cancel =>
    simp only [Scheduler.step]
    split
    iterate 4 next => exact .none rfl
    next => exact h
  | fire =>
    simp only [Scheduler.step]
    split
    next => exact takeFire s _ _
    next => exact h
  | answer answer =>
    simp only [Scheduler.step]
    split
    next state fire fires nextSlot backoff hpc =>
      cases answer with
      | acked => exact .none rfl
      | permanent => exact .none rfl
      | failed =>
        simp only [answered]
        split
        next => exact .none rfl
        next => exact fun fire' nextSlot' hc => h fire' nextSlot' (by rw [hpc]; exact hc)
    next => exact h
  | retry =>
    simp only [Scheduler.step]
    split
    next state fire fires nextSlot backoff hpc =>
      split
      next => exact fun fire' nextSlot' hc => h fire' nextSlot' (by rw [hpc]; exact hc)
      next => exact .none rfl
    next => exact h

end Scheduler.Serving

/-! ## The fires of a plan -/

variable {fires : List Fire} {state : States}

/-- The fires there are to serve after a step were there before, or a plan has just been made. -/
theorem Scheduler.Moves.underway {lib : Libraries} {window : Int} {s s' : Scheduler} {e : Event}
    (hm : s.Moves lib window e s') (hu : s'.pc.underway = some (state, fires)) :
    s'.config = s.config ∧
      ((∃ before, s.pc.underway = some (state, before) ∧ fires.Sublist before) ∨
        ∃ fuel reopens, plan lib s.clock fuel s.config (loadState s.config s.store) = some (fires, reopens)) := by
  cases hm with
  | stays => exact ⟨rfl, .inl ⟨fires, hu, .refl _⟩⟩
  | tick => exact ⟨rfl, .inl ⟨fires, hu, .refl _⟩⟩
  | waits fuel elapsed pc planned reopens hpc hplan hselects hunder =>
    obtain ⟨heq, -⟩ := hunder _ hu
    cases heq
    exact ⟨rfl, .inr ⟨fuel, reopens, hplan⟩⟩
  | goes fuel elapsed first planned reopens hpc hplan hdue =>
    cases hu
    exact ⟨rfl, .inr ⟨fuel, reopens, hplan⟩⟩
  | wakes state fires hpc => exact ⟨rfl, .inl ⟨_, by rw [hpc]; exact hu, .refl _⟩⟩
  | skips state fire rest hpc hskip =>
    cases hu
    exact ⟨rfl, .inl ⟨fire :: fires, by rw [hpc]; rfl, List.sublist_cons_self _ _⟩⟩
  | publishes state fire rest nextSlot hpc hhealthy =>
    cases hu
    exact ⟨rfl, .inl ⟨fire :: rest, by rw [hpc]; rfl, .refl _⟩⟩
  | attempts _ pc state fire rest hpc hpc' =>
    have hafter : pc.underway = some (state, fire :: rest) := by
      obtain ⟨_, _, rfl | rfl⟩ := hpc' <;> rfl
    cases hafter.symm.trans hu
    refine ⟨rfl, .inl ⟨fire :: rest, ?_, .refl _⟩⟩
    obtain ⟨_, _, hp | hp⟩ := hpc <;> rw [hp] <;> rfl
  | records state fire rest nextSlot backoff hpc =>
    cases hu
    exact ⟨rfl, .inl ⟨fire :: fires, by rw [hpc]; rfl, List.sublist_cons_self _ _⟩⟩
  | supersedes _ state fire rest hpc =>
    cases hu
    refine ⟨rfl, .inl ⟨fire :: fires, ?_, List.sublist_cons_self _ _⟩⟩
    obtain ⟨_, _, hp | hp⟩ := hpc <;> rw [hp] <;> rfl
  | marks state fire rest nextSlot backoff hpc =>
    cases hu
    exact ⟨rfl, .inl ⟨fire :: fires, by rw [hpc]; rfl, List.sublist_cons_self _ _⟩⟩
  | replans => cases hu
  | confirms => cases hu
  | settles => cases hu
  | rechecks => cases hu
  | reloads => cases hu
  | returns => cases hu
  | done => cases hu

/-- Every fire there is to serve was planned for a job of the configuration, one each. -/
structure Scheduler.Planned (lib : Libraries) (s : Scheduler) : Prop where
  serving : s.Serving lib
  nodup : ∀ state fires, s.pc.underway = some (state, fires) → (fires.map Fire.job).Nodup
  planned : ∀ state fires, s.pc.underway = some (state, fires) → ∀ fire ∈ fires,
    ∃ job ∈ s.config.jobs, ∃ now fuel rows, candidate lib now fuel rows job = some (some fire)

namespace Scheduler.Planned

variable {lib : Libraries} {window : Int} {s : Scheduler}

theorem start (config : Config) (store : States) (clock : Int) : (Scheduler.start config store clock).Planned lib :=
  ⟨.none rfl, fun _ _ hu => (by cases hu), fun _ _ hu => (by cases hu)⟩

theorem step (e : Event) (h : s.Planned lib) : (s.step lib window e).Planned lib := by
  have hm : s.Moves lib window e (s.step lib window e) := Scheduler.step_moves s e
  refine ⟨h.serving.step e, fun state fires hu => ?_, fun state fires hu fire hfire => ?_⟩
  · obtain ⟨-, ⟨before, hb, hsub⟩ | ⟨fuel, reopens, hplan⟩⟩ := hm.underway hu
    · exact (h.nodup state before hb).sublist (hsub.map _)
    · exact plan_nodup hplan
  · obtain ⟨hconfig, hfrom⟩ := hm.underway hu
    rw [hconfig]
    obtain ⟨before, hb, hsub⟩ | ⟨fuel, reopens, hplan⟩ := hfrom
    · exact h.planned state before hb fire (hsub.subset hfire)
    · obtain ⟨job, hjob, hcand⟩ := plan_mem hplan fire hfire
      exact ⟨job, hjob, _, _, _, hcand⟩

theorem run (es : List Event) (h : s.Planned lib) : (es.foldl (Scheduler.step lib window) s).Planned lib := by
  induction es generalizing s with
  | nil => exact h
  | cons e es ih => exact ih (h.step e)

end Scheduler.Planned

/-! ## Recorded slots -/

/-- What a step has recorded: the job, and the slot that now stands in its row. -/
def recordedBy (s s' : Scheduler) : List (String × Int) :=
  match s'.log.drop s.log.length with
  | [.published job _] | [.superseded job] => [(job, (States.at s'.store job).lastScheduled)]
  | _ => []

/-- The slots recorded in a run, oldest first. -/
def recordings (lib : Libraries) (window : Int) : Scheduler → List Event → List (String × Int)
  | _, [] => []
  | s, e :: es => recordedBy s (s.step lib window e) ++ recordings lib window (s.step lib window e) es

section Records

variable {lib : Libraries} {window : Int} {s s' : Scheduler}

theorem recordedBy_quiet (h : s'.log = s.log) : recordedBy s s' = [] := by
  unfold recordedBy
  rw [h, List.drop_length]

theorem recordedBy_noted {deeds : List Deed} (h : s'.log = s.log ++ deeds)
    (hdeeds : deeds = [.began, .waited] ∨ deeds = [.began] ∨ ∃ job, deeds = [.unhealthy job]) : recordedBy s s' = [] := by
  unfold recordedBy
  rw [h, List.drop_left]
  rcases hdeeds with rfl | rfl | ⟨job, rfl⟩ <;> rfl

/-- The slot of `fire`, the first of those to serve, is put on record. -/
structure Scheduler.Settles (s s' : Scheduler) (state : States) (fire : Fire) (fires : List Fire) : Prop where
  before : s.pc.underway = some (state, fire :: fires)
  after : s'.pc = .firing state fires
  clock : s'.clock = s.clock
  store : ∃ row : FireState, row.lastScheduled = fire.scheduledAt ∧ s'.store = s.store.set fire.job row
  log : s'.log = s.log ++ [.published fire.job s.clock] ∨ s'.log = s.log ++ [.superseded fire.job]

theorem Scheduler.Settles.recordedBy {fire : Fire} (h : s.Settles s' state fire fires) :
    recordedBy s s' = [(fire.job, fire.scheduledAt)] := by
  obtain ⟨row, hrow, hstore⟩ := h.store
  have hat : (States.at s'.store fire.job).lastScheduled = fire.scheduledAt := by
    rw [hstore, States.at_set, if_pos rfl, hrow]
  unfold Cron.recordedBy
  rcases h.log with hlog | hlog
  · rw [hlog, List.drop_left]
    exact congrArg (fun slot => [(fire.job, slot)]) hat
  · rw [hlog, List.drop_left]
    exact congrArg (fun slot => [(fire.job, slot)]) hat

/-- A step that settles no slot writes no row; rows may be deleted. -/
theorem Scheduler.Moves.settles_or_quiet {e : Event} (hm : s.Moves lib window e s') :
    (∃ state fire fires nextSlot, s.Settles s' state fire fires ∧ s.pc.current = some (fire, nextSlot)) ∨
      (recordedBy s s' = [] ∧ s.clock ≤ s'.clock ∧
        ∀ name row, s'.store.get? name = some row → s.store.get? name = some row) := by
  have hlater : ∀ elapsed : Nat, s.clock ≤ s.clock + elapsed := fun elapsed =>
    Int.le_add_of_nonneg_right (Int.natCast_nonneg elapsed)
  have hdeleted : ∀ {p : String → FireState → Bool} name row, (s.store.delete p).get? name = some row →
      s.store.get? name = some row := by
    intro p name row hget
    rw [Table.get?_delete] at hget
    exact (Option.filter_eq_some_iff.mp hget).1
  cases hm with
  | tick elapsed => exact .inr ⟨recordedBy_quiet rfl, hlater elapsed, fun _ _ h => h⟩
  | waits fuel elapsed => exact .inr ⟨recordedBy_noted (List.append_assoc ..) (.inl rfl), hlater elapsed, fun _ _ h => h⟩
  | goes fuel elapsed => exact .inr ⟨recordedBy_noted rfl (.inr (.inl rfl)), hlater elapsed, fun _ _ h => h⟩
  | settles => exact .inr ⟨recordedBy_quiet rfl, le_rfl, hdeleted⟩
  | rechecks => exact .inr ⟨recordedBy_quiet rfl, le_rfl, hdeleted⟩
  | records state fire fires nextSlot backoff hpc =>
    exact .inl ⟨state, fire, fires, nextSlot, ⟨by rw [hpc]; rfl, rfl, rfl, ⟨_, rfl, rfl⟩, .inl rfl⟩, by rw [hpc]; rfl⟩
  | supersedes _ state fire fires hpc =>
    obtain ⟨nextSlot, _, hp | hp⟩ := hpc
    · exact .inl ⟨state, fire, fires, nextSlot, ⟨by rw [hp]; rfl, rfl, rfl, ⟨_, rfl, rfl⟩, .inr rfl⟩, by rw [hp]; rfl⟩
    · exact .inl ⟨state, fire, fires, nextSlot, ⟨by rw [hp]; rfl, rfl, rfl, ⟨_, rfl, rfl⟩, .inr rfl⟩, by rw [hp]; rfl⟩
  | marks state fire fires nextSlot backoff hpc =>
    refine .inr ⟨?_, le_rfl, fun _ _ h => h⟩
    by_cases hmarked : fire.job ∈ s.unhealthy
    · exact recordedBy_quiet (if_pos hmarked)
    · exact recordedBy_noted (if_neg hmarked) (.inr (.inr ⟨fire.job, rfl⟩))
  | _ => exact .inr ⟨recordedBy_quiet rfl, le_rfl, fun _ _ h => h⟩

end Records

/-! ## Slots go up -/

/-- What keeps the slots in order. -/
structure Ordered (lib : Libraries) (recorded : List (String × Int)) (s : Scheduler) : Prop where
  planned : s.Planned lib
  increasing : ∀ name, (instantsOf recorded name).Pairwise (· < ·)
  past : ∀ name, ∀ slot ∈ instantsOf recorded name, slot ≤ s.clock
  rows : ∀ name row, s.store.get? name = some row → row.lastScheduled ≠ 0 →
    ∀ slot ∈ instantsOf recorded name, slot ≤ row.lastScheduled
  ahead : ∀ state fires, s.pc.underway = some (state, fires) →
    ∀ fire ∈ fires, ∀ slot ∈ instantsOf recorded fire.job, slot < fire.scheduledAt

namespace Ordered

variable {lib : Libraries} {window : Int} {recorded : List (String × Int)} {s s' : Scheduler}

theorem start (config : Config) (store : States) (clock : Int) : Ordered lib [] (.start config store clock) where
  planned := .start config store clock
  increasing := fun _ => .nil
  past := fun _ _ hslot => by cases hslot
  rows := fun _ _ _ _ _ hslot => by cases hslot
  ahead := fun _ _ hu => by cases hu

theorem planned_ahead (hforward : s.config.Forward lib) (h : Ordered lib recorded s) {fuel : Nat} {reopens : Int}
    (hplan : plan lib s.clock fuel s.config (loadState s.config s.store) = some (fires, reopens)) :
    ∀ fire ∈ fires, ∀ slot ∈ instantsOf recorded fire.job, slot < fire.scheduledAt := by
  intro fire hfire slot hslot
  obtain ⟨job, hjob, hcand⟩ := plan_mem hplan fire hfire
  obtain ⟨hname, hsched, next, hnext, hchosen⟩ := candidate_fire hcand
  rw [get?_loadState, if_pos (Config.mem_names hjob)] at hchosen
  rw [hname] at hslot
  exact chooseSlot_gt (hforward job hjob hsched next hnext) hchosen (h.past _ slot hslot)
    fun row hrow hne => h.rows _ row hrow hne slot hslot

theorem instantsOf_concat (recorded : List (String × Int)) (job : String) (slot : Int) (name : String) :
    instantsOf (recorded ++ [(job, slot)]) name =
      if name = job then instantsOf recorded name ++ [slot] else instantsOf recorded name := by
  split
  next heq =>
    subst heq
    exact instantsOf_concat_self _ _ _
  next hne => exact instantsOf_concat_of_ne _ (Ne.symm hne) _

theorem settles {fire : Fire} (h : Ordered lib recorded s) (hplanned : s'.Planned lib)
    (hsettles : s.Settles s' state fire fires) (hdue : fire.scheduledAt ≤ s.clock) :
    Ordered lib (recorded ++ [(fire.job, fire.scheduledAt)]) s' := by
  obtain ⟨hfresh, -⟩ := List.nodup_cons.mp (h.planned.nodup _ _ hsettles.before)
  have hnew := h.ahead _ _ hsettles.before fire List.mem_cons_self
  obtain ⟨row, hrow, hstore⟩ := hsettles.store
  refine ⟨hplanned, fun name => ?_, fun name slot hslot => ?_, fun name row' hget hne slot hslot => ?_, ?_⟩
  · rw [instantsOf_concat]
    split
    next heq =>
      subst heq
      refine List.pairwise_append.mpr ⟨h.increasing _, List.pairwise_singleton _ _, fun a ha b hb => ?_⟩
      rw [List.mem_singleton.mp hb]
      exact hnew a ha
    next => exact h.increasing name
  · rw [hsettles.clock]
    rw [instantsOf_concat] at hslot
    split at hslot
    next =>
      rcases List.mem_append.mp hslot with hold | heq
      · exact h.past name slot hold
      · rw [List.mem_singleton.mp heq]
        exact hdue
    next => exact h.past name slot hslot
  · rw [hstore, Table.get?_set] at hget
    rw [instantsOf_concat] at hslot
    split at hget
    next heq =>
      subst heq
      cases hget
      rw [if_pos rfl] at hslot
      rw [hrow]
      rcases List.mem_append.mp hslot with hold | heq
      · exact (hnew slot hold).le
      · exact (List.mem_singleton.mp heq).le
    next hother =>
      rw [if_neg hother] at hslot
      exact h.rows name row' hget hne slot hslot
  · intro state' fires' hu fire' hfire' slot hslot
    rw [hsettles.after] at hu
    cases hu
    have hother : fire'.job ≠ fire.job := fun heq => hfresh (heq ▸ List.mem_map_of_mem hfire')
    rw [instantsOf_concat, if_neg hother] at hslot
    exact h.ahead _ _ hsettles.before fire' (List.mem_cons_of_mem _ hfire') slot hslot

theorem step (hforward : s.config.Forward lib) (e : Event) (h : Ordered lib recorded s) :
    Ordered lib (recorded ++ recordedBy s (s.step lib window e)) (s.step lib window e) := by
  have hplanned : (s.step lib window e).Planned lib := h.planned.step e
  have hm : s.Moves lib window e (s.step lib window e) := Scheduler.step_moves s e
  rcases hm.settles_or_quiet with ⟨state, fire, fires, nextSlot, hsettles, hcurrent⟩ | ⟨hquiet, hclock, hstore⟩
  · rw [hsettles.recordedBy]
    exact h.settles hplanned hsettles (h.planned.serving fire nextSlot hcurrent).1
  · rw [hquiet, List.append_nil]
    refine ⟨hplanned, h.increasing, fun name slot hslot => (h.past name slot hslot).trans hclock,
      fun name row hrow => h.rows name row (hstore name row hrow), fun state fires hu fire hfire => ?_⟩
    obtain ⟨-, ⟨before, hb, hsub⟩ | ⟨fuel, reopens, hplan⟩⟩ := hm.underway hu
    · exact h.ahead state before hb fire (hsub.subset hfire)
    · exact h.planned_ahead hforward hplan fire hfire

theorem run (es : List Event) (hforward : ∀ c ∈ configurations s.config es, c.Forward lib) (h : Ordered lib recorded s) :
    Ordered lib (recorded ++ recordings lib window s es) (es.foldl (Scheduler.step lib window) s) := by
  induction es generalizing recorded s with
  | nil =>
    rw [recordings, List.append_nil]
    exact h
  | cons e es ih =>
    rw [recordings, ← List.append_assoc]
    exact ih (fun c hc => hforward c (configurations_step s e es hc)) (h.step (hforward _ List.mem_cons_self) e)

end Ordered

/-- No slot is recorded twice, and none after a later one: the slots recorded for a name, as
published or as overtaken, increase strictly in every run from any store. -/
theorem slots_strictly_increase (lib : Libraries) (window : Int) (config : Config) (store : States) (clock : Int)
    (es : List Event) (hforward : ∀ c ∈ configurations config es, c.Forward lib) (name : String) :
    (instantsOf (recordings lib window (.start config store clock) es) name).Pairwise (· < ·) :=
  ((Ordered.start config store clock).run es hforward).increasing name

/-- A job on the hour, alone in the file. -/
def hourlyFile (catchUp : String) : Config := ⟨120, [hourlyJob "report" catchUp], List.nodup_singleton _⟩

/-- A file without jobs. -/
def noJobs : Config := ⟨120, [], by simp⟩

/-- The first slot is published; the job is dropped, its row deleted, and it comes back; its
next slot is overtaken. -/
def lostRow : List Event :=
  [.plan 3 0, .tick valveWindow.toNat, .timer, .fire, .answer .acked, .fire,
    .plan 3 0, .reload ⟨noJobs, diffConfigs (hourlyFile "skip") noJobs⟩,
    .plan 3 0, .tick defaultRemovalConfirm.toNat, .confirm, .recheck .unset,
    .plan 3 0, .reload ⟨hourlyFile "skip", diffConfigs noJobs (hourlyFile "skip")⟩,
    .plan 3 0, .tick valveWindow.toNat, .timer, .fire, .answer .failed, .tick valveWindow.toNat, .retry, .fire]

theorem lostRow_increases :
    recordings hourly 0 (.start (hourlyFile "skip") .empty minute) lostRow =
        [("report", valveWindow), ("report", 2 * valveWindow)] ∧
      (instantsOf (recordings hourly 0 (.start (hourlyFile "skip") .empty minute) lostRow) "report").Pairwise (· < ·) :=
  ⟨by decide +kernel, slots_strictly_increase hourly 0 (hourlyFile "skip") .empty minute lostRow
    (fun c _ => hourly_forward c) "report"⟩

end FactorQ.Cron
