/-
# `FactorQ.Cron.Progress` — a turn of the loop that does nothing

A turn of the scheduler's loop that neither waits nor writes is a turn too many: nothing has
changed when the next one begins, so it does the same, and the select in which a reload could
be taken is never entered.

A turn goes past the selects when the first planned slot has come, and then that fire is
served: unless its job is marked unhealthy.  The planner does not know the mark.  A job whose
slots are skipped when missed gets a slot that lies ahead, and the loop waits for it; a job
that catches up once gets the slot it missed, again and again.  A schedule that has run out of
slots is worse, for then the planner itself walks on for ever.  `never_spins` says that this is
all: while no slot of an unhealthy job has come and every schedule goes on, every turn does
something.
-/
import FactorQ.Cron.Loop

namespace FactorQ.Cron

open Lib

/-- Two turns do not begin one right after the other. -/
def Deed.Follows (a b : Deed) : Prop := ¬ (a = .began ∧ b = .began)

/-- The select takes a reload, the earliest deadline and a cancellation. -/
structure Scheduler.Offers (lib : Libraries) (window : Int) (s : Scheduler) : Prop where
  reload : s.reloads = true → ∀ event,
    s.step lib window (.reload event) = { s.applyReload window event with pc := .planning }
  confirm : s.deadlines.next ≠ 0 → s.step lib window .confirm = { s with pc := .confirming }
  cancel : s.step lib window .cancel = { s with pc := .returned }

theorem Scheduler.offers {lib : Libraries} {window : Int} {s : Scheduler} (h : s.pc.Selects) :
    s.Offers lib window := by
  cases hpc : s.pc with
  | idle valve => exact ⟨fun ho e => by simp [step, hpc, ho], fun hd => by simp [step, hpc, hd], by simp [step, hpc]⟩
  | waiting state fires =>
    exact ⟨fun ho e => by simp [step, hpc, ho], fun hd => by simp [step, hpc, hd], by simp [step, hpc]⟩
  | planning => exact absurd h (by simp [hpc, Pc.Selects])
  | confirming => exact absurd h (by simp [hpc, Pc.Selects])
  | firing => exact absurd h (by simp [hpc, Pc.Selects])
  | publishing => exact absurd h (by simp [hpc, Pc.Selects])
  | pausing => exact absurd h (by simp [hpc, Pc.Selects])
  | returned => exact absurd h (by simp [hpc, Pc.Selects])

/-- The slot after the recorded one is still ahead, or was missed and is not made up for. -/
def FireState.Rests (next : Int → Int) (catchUp : String) (now : Int) (row : FireState) : Prop :=
  row.lastScheduled = 0 ∨ now < next row.lastScheduled ∨ next row.lastScheduled < now ∧ catchUp ≠ "once"

instance (next : Int → Int) (catchUp : String) (now : Int) : DecidablePred (FireState.Rests next catchUp now) :=
  fun _ => inferInstanceAs (Decidable (_ ∨ _ ∨ _ ∧ _))

/-- When the loop plans, the rows of the scheduled jobs that are marked unhealthy rest, and none of
their slots comes before the next look at the clock. -/
def Rested (lib : Libraries) (s : Scheduler) : Event → Prop
  | .plan _ elapsed => ∀ job ∈ s.config.jobs, job.scheduled = true → job.name ∈ s.unhealthy →
      ∀ next ∈ lib.timetable job,
        (∀ row ∈ s.store.get? job.name, row.Rests next job.catchUp s.clock) ∧
          ∀ t, next t ≤ s.clock ∨ s.clock + elapsed < next t
  | _ => True

theorem skipMissed_slot {next : Int → Int} {now : Int} {fuel : Nat} {t found : Int}
    (h : skipMissed next now fuel (next t) = some found) : ∃ t', found = next t' := by
  induction fuel generalizing t with
  | zero => cases h
  | succ fuel ih =>
    rw [skipMissed] at h
    split at h
    · cases h
      exact ⟨t, rfl⟩
    · exact ih h

/-- The planner finds a slot ahead for a row that rests. -/
theorem chooseSlot_ahead {next : Int → Int} (hnext : ∀ t, t < next t) {catchUp : String} {now later : Int} {fuel : Nat}
    {row : Option FireState} {slot : Int} (hrow : ∀ r ∈ row, r.Rests next catchUp now)
    (hlater : ∀ t, next t ≤ now ∨ later < next t) (h : chooseSlot next catchUp now fuel row = some slot) :
    later < slot := by
  have hahead : ∀ t, now < next t → later < next t := fun t ht => (hlater t).resolve_left (not_le.mpr ht)
  cases row with
  | none =>
    cases h
    exact hahead now (hnext now)
  | some row =>
    rw [chooseSlot] at h
    dsimp only at h
    split at h
    · cases h
      exact hahead now (hnext now)
    · next hlast =>
      have hrests := (hrow row rfl).resolve_left hlast
      split at h
      · next hge =>
        cases h
        exact hahead _ (hrests.resolve_right fun hlt => hge hlt.1)
      · next hlt =>
        split at h
        · obtain ⟨t, rfl⟩ := skipMissed_slot h
          exact hahead t (skipMissed_after h)
        · next honce =>
          rcases hrests with hgt | ⟨-, hskip⟩
          · omega
          · exact absurd hskip honce

/-! ## The invariant -/

/-- Where the loop can be when a turn has begun and done nothing yet: at the first of its fires,
which will be served, or serving it. -/
def Scheduler.Serves (s : Scheduler) : Prop :=
  match s.pc with
  | .firing _ fires => ∃ first rest, fires = first :: rest ∧ first.scheduledAt ≤ s.clock ∧
      first.job ∉ s.unhealthy ∧ s.config.job? first.job ≠ none
  | .publishing .. | .pausing .. | .returned => True
  | _ => False

/-- The job of the fire that is being served. -/
def Pc.serving : Pc → Option String
  | .publishing _ fire _ _ _ | .pausing _ fire _ _ _ => some fire.job
  | _ => none

theorem Pc.Selects.not_serves {s : Scheduler} (h : s.pc.Selects) : ¬ s.Serves := by
  intro hs
  unfold Scheduler.Serves at hs
  cases hpc : s.pc <;> simp_all [Pc.Selects]

theorem Pc.Selects.serving {pc : Pc} (h : pc.Selects) : pc.serving = none := by
  cases pc <;> first | rfl | exact h.elim

structure Scheduler.Progresses (s : Scheduler) : Prop where
  chain : s.log.IsChain Deed.Follows
  serves : s.log.getLast? = some .began → s.Serves
  healthy : ∀ job, s.pc.serving = some job → job ∉ s.unhealthy

namespace Scheduler.Progresses

variable {lib : Libraries} {window : Int} {s : Scheduler}

theorem start (config : Config) (store : States) (clock : Int) : (Scheduler.start config store clock).Progresses :=
  ⟨List.isChain_nil, (nomatch ·), fun _ => (nomatch ·)⟩

/-- A deed other than a beginning may follow anything. -/
theorem chain_concat {log : List Deed} (h : log.IsChain Deed.Follows) {d : Deed} (hd : d ≠ .began) :
    (log ++ [d]).IsChain Deed.Follows := by
  refine h.append (List.isChain_singleton d) fun a _ b hb hab => ?_
  obtain rfl := Option.some.inj hb
  exact hd hab.2

theorem chain_began (h : s.Progresses) (hpc : s.pc = .planning) : (s.log ++ [Deed.began]).IsChain Deed.Follows := by
  refine h.chain.append (List.isChain_singleton _) fun a ha b _ hab => ?_
  have := h.serves (hab.1 ▸ ha)
  rw [Serves, hpc] at this
  exact this

/-- A step that notes nothing keeps the log; what is left is where it leads. -/
theorem quiet (h : s.Progresses) {s' : Scheduler} (hlog : s'.log = s.log)
    (hserves : s.Serves → s'.Serves) (hhealthy : ∀ job, s'.pc.serving = some job → job ∉ s'.unhealthy) :
    s'.Progresses :=
  ⟨hlog ▸ h.chain, fun hl => hserves (h.serves (hlog ▸ hl)), hhealthy⟩

theorem noted (h : s.Progresses) {s' : Scheduler} {d : Deed} (hlog : s'.log = s.log ++ [d])
    (hd : d ≠ .began) (hhealthy : ∀ job, s'.pc.serving = some job → job ∉ s'.unhealthy) : s'.Progresses := by
  refine ⟨hlog ▸ chain_concat h.chain hd, fun hl => ?_, hhealthy⟩
  rw [hlog, List.getLast?_concat] at hl
  exact absurd (Option.some.inj hl) hd

/-- The first of the fires is for a job that is not marked, when it has come. -/
theorem first_served {fuel elapsed : Nat} {first : Fire} {fires : List Fire} {reopens : Int}
    (hforward : s.config.Forward lib) (hok : Rested lib s (.plan fuel elapsed))
    (hplan : plan lib s.clock fuel s.config (loadState s.config s.store) = some (first :: fires, reopens))
    (hdue : first.scheduledAt ≤ s.clock + elapsed) :
    first.job ∉ s.unhealthy ∧ s.config.job? first.job ≠ none := by
  obtain ⟨job, hjob, hcand⟩ := plan_mem hplan first (List.mem_cons_self ..)
  obtain ⟨hname, hsched, next, hnext, hslot⟩ := candidate_fire hcand
  rw [get?_loadState, if_pos (Config.mem_names hjob)] at hslot
  constructor
  · intro hmarked
    obtain ⟨hrows, hlater⟩ := hok job hjob hsched (hname ▸ hmarked) next hnext
    have := chooseSlot_ahead (hforward job hjob hsched next hnext) hrows hlater hslot
    omega
  · rw [hname, Config.job?_of_mem hjob]
    exact Option.some_ne_none job

theorem step (e : Event) (hforward : s.config.Forward lib) (hok : Rested lib s e) (h : s.Progresses) :
    (s.step lib window e).Progresses := by
  have hm : s.Moves lib window e (s.step lib window e) := Scheduler.step_moves s e
  generalize s.step lib window e = s' at hm
  cases hm with
  | stays => exact h
  | tick elapsed =>
    refine h.quiet rfl (fun hs => ?_) h.healthy
    unfold Serves at hs ⊢
    dsimp only
    cases hpc : s.pc <;> simp only [hpc] at hs ⊢
    -- the clock moves on, and a slot that has come stays so
    obtain ⟨first, rest, hfires, hdue, hrest⟩ := hs
    exact ⟨first, rest, hfires, by omega, hrest⟩
  | waits fuel elapsed pc fires reopens hpc hplan hselects hunder =>
    refine ⟨chain_concat (h.chain_began hpc) Deed.noConfusion, fun hl => ?_, fun job hjob => ?_⟩
    · simp at hl
    · have hnone : pc.serving = some job := hjob
      rw [hselects.serving] at hnone
      exact nomatch hnone
  | goes fuel elapsed first fires reopens hpc hplan hdue =>
    refine ⟨h.chain_began hpc, fun _ => ?_, fun _ hjob => nomatch hjob⟩
    obtain ⟨hhealthy, hjob⟩ := first_served hforward hok hplan hdue
    exact ⟨first, fires, rfl, hdue, hhealthy, hjob⟩
  | replans _ reloads hpc _ =>
    exact h.quiet rfl (fun hs => absurd hs hpc.not_serves) (fun _ hjob => nomatch hjob)
  | wakes state fires hpc =>
    refine h.quiet rfl (fun hs => ?_) (fun _ hjob => nomatch hjob)
    simp [Serves, hpc] at hs
  | confirms hpc _ =>
    exact h.quiet rfl (fun hs => absurd hs hpc.not_serves) (fun _ hjob => nomatch hjob)
  | settles authoritative answer hpc _ =>
    refine h.quiet rfl (fun hs => ?_) (fun _ hjob => nomatch hjob)
    simp [Serves, hpc] at hs
  | rechecks event hpc =>
    refine h.quiet rfl (fun hs => ?_) (fun _ hjob => nomatch hjob)
    simp [Serves, hpc] at hs
  | reloads event hpc _ =>
    exact h.quiet rfl (fun hs => absurd hs hpc.not_serves) (fun _ hjob => nomatch hjob)
  | returns => exact h.quiet rfl (fun _ => trivial) (fun _ hjob => nomatch hjob)
  | done state hpc =>
    refine h.quiet rfl (fun hs => ?_) (fun _ hjob => nomatch hjob)
    simp [Serves, hpc] at hs
  | skips state fire fires hpc hskip =>
    refine h.quiet rfl (fun hs => ?_) (fun _ hjob => nomatch hjob)
    -- the fire at the head is not one that is passed over
    simp only [Serves, hpc, List.cons.injEq] at hs
    obtain ⟨first, rest, ⟨rfl, rfl⟩, hdue, hhealthy, hjob⟩ := hs
    rcases hskip with hlate | hmarked | hnone
    · omega
    · exact absurd hmarked hhealthy
    · exact absurd hnone hjob
  | publishes state fire fires nextSlot hpc hhealthy =>
    refine h.quiet rfl (fun _ => trivial) (fun job hjob => ?_)
    exact Option.some.inj hjob ▸ hhealthy
  | attempts _ pc state fire fires hpc hpc' =>
    have hserving : s.pc.serving = some fire.job := by
      obtain ⟨_, _, hp | hp⟩ := hpc <;> rw [hp] <;> rfl
    obtain ⟨_, _, rfl | rfl⟩ := hpc'
    · exact h.quiet rfl (fun _ => trivial) (fun job hjob => h.healthy job (hserving.trans hjob))
    · exact h.quiet rfl (fun _ => trivial) (fun job hjob => h.healthy job (hserving.trans hjob))
  | records state fire fires nextSlot backoff hpc =>
    exact h.noted rfl Deed.noConfusion (fun _ hjob => nomatch hjob)
  | supersedes _ state fire fires hpc =>
    exact h.noted rfl Deed.noConfusion (fun _ hjob => nomatch hjob)
  | marks state fire fires nextSlot backoff hpc =>
    have hnew : fire.job ∉ s.unhealthy := h.healthy fire.job (by rw [hpc]; rfl)
    exact h.noted (if_neg hnew) Deed.noConfusion (fun _ hjob => nomatch hjob)

end Scheduler.Progresses

/-! ## Every turn does something -/

/-- While every schedule goes on and the unhealthy jobs rest, the loop does something in every turn: between
two beginnings in the log there is another deed, and at the top of the loop one has been noted since the
last beginning.  A plan comes to an end, and a select takes what it is offered. -/
theorem never_spins (lib : Libraries) (window : Int) (config : Config) (store : States) (clock : Int) (es : List Event)
    (hforward : ∀ c ∈ configurations config es, c.Forward lib)
    (hes : Permitted (Scheduler.step lib window) (Rested lib) (.start config store clock) es) :
    let s := es.foldl (Scheduler.step lib window) (.start config store clock)
    s.log.IsChain Deed.Follows ∧ (s.pc = .planning → s.log.getLast? ≠ some .began) ∧
      (∃ need, ∀ fuel, need < fuel → (plan lib s.clock fuel s.config (loadState s.config s.store)).isSome) ∧
      (s.pc.Selects → s.Offers lib window) := by
  intro s
  have h : s.Progresses := ((Scheduler.permitted_config hforward).and hes).inv
    (fun _ e he => Scheduler.Progresses.step e he.1 he.2) (.start config store clock)
  refine ⟨h.chain, fun hpc hlast => ?_, plan_returns (hforward _ (Scheduler.config_mem _ es)) _ _, Scheduler.offers⟩
  have := h.serves hlast
  rw [Scheduler.Serves, hpc] at this
  exact this

/-- The first slot is published and recorded, the broker refuses the second for good. -/
def refusedOnce : List Event :=
  [.plan 3 0, .tick valveWindow.toNat, .timer, .fire, .answer .acked, .fire,
    .plan 3 0, .tick valveWindow.toNat, .timer, .fire, .answer .permanent, .fire]

/-- One more turn of the loop. -/
def turn : List Event := [.plan 3 0, .fire, .fire]

def hourlyConfig (catchUp : String) : Config := ⟨120, [hourlyJob "report" catchUp], by simp⟩

/-- No time passes between the two looks at the clock. -/
theorem rested_at_once {lib : Libraries} {s : Scheduler} {fuel : Nat}
    (h : ∀ job ∈ s.config.jobs, job.scheduled = true → job.name ∈ s.unhealthy → ∀ next ∈ lib.timetable job,
      ∀ row ∈ s.store.get? job.name, row.Rests next job.catchUp s.clock) : Rested lib s (.plan fuel 0) := by
  refine fun job hjob hsched hmarked next hnext => ⟨h job hjob hsched hmarked next hnext, fun t => ?_⟩
  rw [Int.natCast_zero, Int.add_zero]
  exact le_or_gt _ _

/-- A job that skips what it missed: the loop goes back to waiting. -/
theorem skipped_slot_waits :
    let s := (refusedOnce ++ [Event.plan 3 0]).foldl (Scheduler.step hourly 0) (.start (hourlyConfig "skip") .empty minute)
    (s.pc = .planning → s.log.getLast? ≠ some .began) ∧ s.Offers hourly 0 := by
  have h := never_spins hourly 0 (hourlyConfig "skip") .empty minute
    [.plan 3 0, .tick valveWindow.toNat, .timer, .fire, .answer .acked, .fire,
      .plan 3 0, .tick valveWindow.toNat, .timer, .fire, .answer .permanent, .fire, .plan 3 0]
    (fun c _ => hourly_forward c)
    ⟨rested_at_once (by decide +kernel), trivial, trivial, trivial, trivial, trivial, rested_at_once (by decide +kernel),
      trivial, trivial, trivial, trivial, trivial, rested_at_once (by decide +kernel), trivial⟩
  exact ⟨h.2.1, h.2.2.2 trivial⟩

/-- The loop at its top after the refusal. -/
def stuck (log : List Deed) : Scheduler :=
  ⟨minute + valveWindow + valveWindow, hourlyConfig "once",
    Table.empty.set "report" ⟨valveWindow, minute + valveWindow, [minute + valveWindow]⟩,
    ["report"], .empty, true, .planning, log⟩

theorem turn_stuck (log : List Deed) :
    turn.foldl (Scheduler.step hourly 0) (stuck log) = stuck (log ++ [.began]) := by
  rfl

theorem turns_stuck (n : Nat) (log : List Deed) :
    (List.replicate n turn).flatten.foldl (Scheduler.step hourly 0) (stuck log) = stuck (log ++ List.replicate n .began) := by
  induction n generalizing log with
  | zero => simp
  | succ n ih =>
    rw [List.replicate_succ, List.flatten_cons, List.foldl_append, turn_stuck, ih, List.replicate_succ,
      List.append_assoc, List.singleton_append]

/-- A job that catches up once: the slot it missed is planned again and passed over again, in
turn after turn, and no select is entered in any of them. -/
theorem refused_slot_spins (n : Nat) :
    ((refusedOnce ++ (List.replicate n turn).flatten).foldl (Scheduler.step hourly 0)
      (.start (hourlyConfig "once") .empty minute)).log =
      [.began, .waited, .published "report" (minute + valveWindow), .began, .waited, .unhealthy "report"] ++
        List.replicate n .began := by
  rw [List.foldl_append]
  exact congrArg Scheduler.log (turns_stuck n _)

/-- Three such turns, one right after the other. -/
theorem caught_up_slot_spins :
    ((refusedOnce ++ turn ++ turn ++ turn).foldl (Scheduler.step hourly 0)
      (.start (hourlyConfig "once") .empty minute)).log =
      [.began, .waited, .published "report" (minute + valveWindow), .began, .waited, .unhealthy "report",
        .began, .began, .began] :=
  refused_slot_spins 3

end FactorQ.Cron
