/-
# `FactorQ.Llm.Permits` — the permits of a model over a whole history

A permit is handed out by one look of `acquire` and given back once: settled with a verdict, or
dropped by a cancelled call.  It outlives the cap it was granted under and the pause its model
has since been given, so what the counters say at one moment is not read off the call that
moves them.

The state of a model is followed together with the permits out on it and with the number of
successes since its cap last rose or a rate limit last arrived.  One invariant over the three
carries every clause: what the counters are between events, and what the next event may do.

Instants come with the events and need not increase.  The addition of a pause to the present
instant is the only thing that can panic under the lock, so a lock that is sound after a
history is a history without such an overflow.
-/
import FactorQ.Llm.Throttle
import FactorQ.Lib.Handles

namespace FactorQ.Llm

open Lib

/-! ## Permits -/

structure Permits where
  throttle : ModelThrottle
  /-- the live permits, each with its model -/
  live : Handles String

inductive PermitEvent where
  | acquire (model : String) (now : Instant)
  | settle (permit : Nat) (verdict : CallVerdict) (now : Instant)
  | drop (permit : Nat) (now : Instant)

namespace Permits

def new (config : ThrottleConfig) (bounds : ThrottleBounds) : Permits := ⟨.new config bounds, .empty⟩

/-- A permit that is no longer held has nothing to settle. -/
def settle (s : Permits) (permit : Nat) (verdict : CallVerdict) (now : Instant) : Permits :=
  match s.live.get? permit with
  | none => s
  | some model => ⟨(s.throttle.settle model verdict now).1, s.live.surrender permit⟩

def step (s : Permits) : PermitEvent → Permits
  | .acquire model now =>
    match s.throttle.acquire model now with
    | (throttle, .ok .permit) => ⟨throttle, s.live.issue model⟩
    | (throttle, _) => ⟨throttle, s.live⟩
  | .settle permit verdict now => s.settle permit verdict now
  | .drop permit now => s.settle permit .failed now

def run (s : Permits) (history : List PermitEvent) : Permits := history.foldl step s

/-- What the model's state is, or would be at its first look. -/
def state (s : Permits) (model : String) : ModelState :=
  (s.throttle.models model).getD (.fresh s.throttle.bounds.ceiling)

def held (s : Permits) (model : String) : Nat := s.live.held (· = model)

/-- The verdict, and when, with which the event settles a live permit of the model. -/
def verdictOn (s : Permits) (model : String) : PermitEvent → Option (CallVerdict × Instant)
  | .acquire _ _ => none
  | .settle permit verdict now => if s.live.get? permit = some model then some (verdict, now) else none
  | .drop permit now => if s.live.get? permit = some model then some (.failed, now) else none

/-- The successes on the model since its cap last rose or a rate limit last arrived, given
their number before the event. -/
def earn (s : Permits) (model : String) (earned : Nat) (e : PermitEvent) : Nat :=
  match s.verdictOn model e with
  | some (.rateLimited _, _) => 0
  | some (.succeeded, _) => if (s.state model).cap < ((s.step e).state model).cap then 0 else earned + 1
  | _ => earned

def earned (model : String) : Permits → Nat → List PermitEvent → Nat
  | _, n, [] => n
  | s, n, e :: history => earned model (s.step e) (s.earn model n e) history

end Permits

namespace ModelThrottle

/-- What the verdict does to the model's state. -/
def judged (t : ModelThrottle) (state : ModelState) (now : Instant) : CallVerdict → Except Panic ModelState
  | .succeeded => .ok (t.succeed state)
  | .rateLimited retryAfter => t.limit state retryAfter now
  | .failed => .ok state

variable {t : ModelThrottle} {model : String} {now : Instant}

theorem locked_sound {α : Type}
    {body : (String → Option ModelState) → Except Panic ((String → Option ModelState) × α)}
    (h : (t.locked body).1.poisoned = false) :
    t.poisoned = false ∧ ∃ models a, body t.models = .ok (models, a) ∧ t.locked body = ({ t with models }, .ok a) := by
  unfold locked at h ⊢
  cases hp : t.poisoned with
  | true =>
    rw [hp, if_pos rfl] at h
    rw [h] at hp
    cases hp
  | false =>
    rw [hp] at h
    cases hbody : body t.models with
    | error p =>
      rw [hbody] at h
      cases h
    | ok r => exact ⟨rfl, r.1, r.2, rfl, rfl⟩

/-- A look that leaves the lock sound either takes a permit, which it may, or changes nothing
but that the model is known. -/
theorem acquire_cases (henabled : t.config.enabled = true) (h : (t.acquire model now).1.poisoned = false)
    {state : ModelState} (hstate : (t.models model).getD (.fresh t.bounds.ceiling) = state) :
    t.poisoned = false ∧
    ((state.pauseRemaining now = none ∧ state.inFlight < state.cap ∧
        t.acquire model now =
          ({ t with models := Function.update t.models model (some { state with inFlight := state.inFlight + 1 }) },
            .ok .permit)) ∨
      ∃ finish, t.acquire model now =
        ({ t with models := Function.update t.models model (some state) }, .ok (.wait finish))) := by
  unfold acquire at h ⊢
  rw [if_pos henabled] at h ⊢
  obtain ⟨hsound, models, look, hbody, hresult⟩ := locked_sound h
  refine ⟨hsound, ?_⟩
  rw [hresult]
  dsimp only at hbody
  rw [hstate] at hbody
  split at hbody
  · next hfree =>
    rw [Bool.and_eq_true, Option.isNone_iff_eq_none, decide_eq_true_eq] at hfree
    cases hbody
    exact .inl ⟨hfree.1, hfree.2, rfl⟩
  · cases hpause : state.pauseRemaining now with
    | none =>
      rw [hpause] at hbody
      cases hbody
      exact .inr ⟨none, rfl⟩
    | some remaining =>
      obtain ⟨finish, hfinish⟩ := add_pauseRemaining hpause
      rw [hpause] at hbody
      simp only [hfinish] at hbody
      cases hbody
      exact .inr ⟨some finish, rfl⟩

theorem settle_cases (henabled : t.config.enabled = true) {verdict : CallVerdict} {state : ModelState}
    (hstate : t.models model = some state) (h : (t.settle model verdict now).1.poisoned = false) :
    t.poisoned = false ∧ ∃ state',
      t.judged { state with inFlight := state.inFlight - 1 } now verdict = .ok state' ∧
      (t.settle model verdict now).1 = { t with models := Function.update t.models model (some state') } := by
  unfold settle at h ⊢
  rw [if_pos henabled] at h ⊢
  obtain ⟨hsound, models, look, hbody, hresult⟩ := locked_sound h
  refine ⟨hsound, ?_⟩
  rw [hresult]
  simp only [hstate] at hbody
  cases verdict with
  | succeeded =>
    cases hbody
    exact ⟨_, rfl, rfl⟩
  | failed =>
    cases hbody
    exact ⟨_, rfl, rfl⟩
  | rateLimited retryAfter =>
    cases hlimit : t.limit { state with inFlight := state.inFlight - 1 } retryAfter now with
    | error p =>
      simp only [hlimit] at hbody
      cases hbody
    | ok state' =>
      simp only [hlimit] at hbody
      cases hbody
      exact ⟨state', hlimit, rfl⟩

end ModelThrottle

/-! ## What one event does to one model -/

namespace Permits

/-- Nothing; a permit taken while it may be; or one given back with a verdict. -/
inductive Change (s : Permits) (model : String) (e : PermitEvent) : ModelState → Nat → Prop where
  | idle (hverdict : s.verdictOn model e = none) : Change s model e (s.state model) (s.held model)
  | granted (now : Instant) (hevent : e = .acquire model now)
      (hpause : (s.state model).pauseRemaining now = none)
      (hcap : (s.state model).inFlight < (s.state model).cap) :
      Change s model e { s.state model with inFlight := (s.state model).inFlight + 1 } (s.held model + 1)
  | settled (verdict : CallVerdict) (now : Instant) (hverdict : s.verdictOn model e = some (verdict, now))
      (state' : ModelState) (n : Nat) (hheld : s.held model = n + 1)
      (hjudged : s.throttle.judged { s.state model with inFlight := (s.state model).inFlight - 1 } now verdict = .ok state') :
      Change s model e state' n

variable {s : Permits} {model : String} {e : PermitEvent}

/-- Between events: the lock is sound, the throttle is on, and the count of each model is that of
its permits. -/
structure Counted (s : Permits) : Prop where
  enabled : s.throttle.config.enabled = true
  inFlight : ∀ model, (s.state model).inFlight = s.held model

theorem state_update (t : ModelThrottle) (live live' : Handles String) (model' : String) (state : ModelState) :
    Permits.state ⟨{ t with models := Function.update t.models model' (some state) }, live'⟩ model =
      if model = model' then state else Permits.state ⟨t, live⟩ model := by
  dsimp only [Permits.state]
  by_cases hmodel : model = model'
  · rw [hmodel, Function.update_self, if_pos rfl, Option.getD_some]
  · rw [Function.update_of_ne hmodel, if_neg hmodel]

theorem held_issue (live : Handles String) (model' model : String) :
    (live.issue model').held (· = model) = live.held (· = model) + if model = model' then 1 else 0 := by
  rw [Handles.held_issue]
  simp [eq_comm]

theorem held_surrender {live : Handles String} {permit : Nat} {model' : String}
    (hpermit : live.get? permit = some model') (model : String) :
    live.held (· = model) = (live.surrender permit).held (· = model) + if model = model' then 1 else 0 := by
  rw [Handles.held_surrender hpermit]
  simp [eq_comm]

theorem Counted.known (hs : Counted s) {permit : Nat} (hpermit : s.live.get? permit = some model) :
    s.throttle.models model = some (s.state model) := by
  cases hmodel : s.throttle.models model with
  | some state => simp [Permits.state, hmodel]
  | none =>
    have hzero : s.held model = 0 := by
      rw [← hs.inFlight model, Permits.state, hmodel]
      rfl
    have hpos := held_surrender hpermit model
    rw [if_pos rfl] at hpos
    exact absurd (hpos.symm.trans hzero) (Nat.succ_ne_zero _)

/-- The throttle keeps its settings, and every model changes as `Change` says. -/
structure Steps (s : Permits) (e : PermitEvent) (s' : Permits) : Prop where
  config : s'.throttle.config = s.throttle.config
  bounds : s'.throttle.bounds = s.throttle.bounds
  sound : s.throttle.poisoned = false
  change : ∀ model, Change s model e (s'.state model) (s'.held model)

theorem steps_acquire (hs : Counted s) {model' : String} {now : Instant}
    (h : (s.step (.acquire model' now)).throttle.poisoned = false) :
    Steps s (.acquire model' now) (s.step (.acquire model' now)) := by
  obtain ⟨t, live⟩ := s
  have hthrottle : (step ⟨t, live⟩ (.acquire model' now)).throttle = (t.acquire model' now).1 := by
    dsimp only [step]
    split <;> next heq => exact (congrArg Prod.fst heq).symm
  rw [hthrottle] at h
  obtain ⟨hsound, ⟨hpause, hcap, hacquire⟩ | ⟨finish, hacquire⟩⟩ := ModelThrottle.acquire_cases hs.enabled h rfl
  · simp only [step, hacquire]
    refine ⟨rfl, rfl, hsound, fun model => ?_⟩
    have hheld := held_issue live model' model
    rw [state_update t live]
    dsimp only [held]
    rw [hheld]
    by_cases hmodel : model = model'
    · subst hmodel
      rw [if_pos rfl, if_pos rfl]
      exact .granted now rfl hpause hcap
    · rw [if_neg hmodel, if_neg hmodel]
      exact .idle rfl
  · simp only [step, hacquire]
    refine ⟨rfl, rfl, hsound, fun model => ?_⟩
    rw [state_update t live]
    have hsame : (if model = model' then (t.models model').getD (.fresh t.bounds.ceiling)
        else Permits.state ⟨t, live⟩ model) = Permits.state ⟨t, live⟩ model := by
      split
      · next heq => rw [heq]; rfl
      · rfl
    rw [hsame]
    exact .idle rfl

/-- The two events that give a permit back differ in the verdict alone. -/
theorem steps_settle (hs : Counted s) {permit : Nat} {verdict : CallVerdict} {now : Instant}
    (hverdict : ∀ model, s.verdictOn model e = if s.live.get? permit = some model then some (verdict, now) else none)
    (hsound : s.throttle.poisoned = false) (h : (s.settle permit verdict now).throttle.poisoned = false) :
    Steps s e (s.settle permit verdict now) := by
  cases hpermit : s.live.get? permit with
  | none =>
    have hsame : s.settle permit verdict now = s := by simp only [settle, hpermit]
    rw [hsame]
    refine ⟨rfl, rfl, hsound, fun model => .idle ?_⟩
    rw [hverdict, hpermit, if_neg nofun]
  | some model' =>
    have hstep : s.settle permit verdict now =
        ⟨(s.throttle.settle model' verdict now).1, s.live.surrender permit⟩ := by
      simp only [settle, hpermit]
    rw [hstep] at h ⊢
    obtain ⟨-, state', hjudged, hsettle⟩ := ModelThrottle.settle_cases hs.enabled (hs.known hpermit) h
    rw [hsettle]
    refine ⟨rfl, rfl, hsound, fun model => ?_⟩
    have hheld := held_surrender hpermit model
    rw [state_update s.throttle s.live]
    by_cases hmodel : model = model'
    · subst hmodel
      rw [if_pos rfl] at hheld ⊢
      exact .settled verdict now (by rw [hverdict, if_pos hpermit]) state' _ hheld hjudged
    · rw [if_neg hmodel] at hheld ⊢
      dsimp only [held]
      rw [← Nat.add_zero ((s.live.surrender permit).held _), ← hheld]
      refine .idle ?_
      rw [hverdict, hpermit, if_neg]
      exact fun heq => hmodel (Option.some.inj heq).symm

theorem steps (hs : Counted s) (hsound : s.throttle.poisoned = false)
    (h : (s.step e).throttle.poisoned = false) : Steps s e (s.step e) := by
  cases e with
  | acquire model now => exact steps_acquire hs h
  | settle permit verdict now => exact steps_settle hs (fun _ => rfl) hsound h
  | drop permit now => exact steps_settle hs (fun _ => rfl) hsound h

/-- A poisoned lock stays poisoned: whoever comes next only panics. -/
theorem poisoned_step (h : s.throttle.poisoned = true) : (s.step e).throttle.poisoned = true := by
  have hlocked {α : Type} (body : (String → Option ModelState) → Except Panic ((String → Option ModelState) × α)) :
      (s.throttle.locked body).1.poisoned = true := by
    unfold ModelThrottle.locked
    rw [if_pos h]
    exact h
  have hsettle (permit : Nat) (verdict : CallVerdict) (now : Instant) :
      (s.settle permit verdict now).throttle.poisoned = true := by
    unfold settle
    split
    · exact h
    · dsimp only [ModelThrottle.settle]
      split
      · exact hlocked _
      · exact h
  cases e with
  | acquire model now =>
    have hacquire : (s.throttle.acquire model now).1.poisoned = true := by
      unfold ModelThrottle.acquire
      split
      · exact hlocked _
      · exact h
    dsimp only [step]
    split <;> next heq => exact (congrArg (·.1.poisoned) heq).symm.trans hacquire
  | settle permit verdict now => exact hsettle permit verdict now
  | drop permit now => exact hsettle permit .failed now

end Permits

/-! ## The verdicts -/

namespace ModelThrottle

variable {t : ModelThrottle} {state state' : ModelState} {now : Instant}

theorem succeed_inFlight : (t.succeed state).inFlight = state.inFlight := by
  dsimp only [succeed]
  split <;> rfl

theorem succeed_pausedUntil : (t.succeed state).pausedUntil = state.pausedUntil := by
  dsimp only [succeed]
  split <;> rfl

/-- A success either completes a window, which raises a cap that is below the ceiling, or is
counted towards one. -/
theorem succeed_cases (hceiling : t.bounds.ceiling + 1 < 2 ^ 64) (hcap : state.cap ≤ max t.bounds.ceiling 1) :
    (max t.config.successWindow 1 ≤ state.successesInWindow + 1 ∧ (t.succeed state).successesInWindow = 0 ∧
      (t.succeed state).cap = min (state.cap + 1) (max t.bounds.ceiling 1)) ∨
    (state.successesInWindow + 1 < max t.config.successWindow 1 ∧
      (t.succeed state).successesInWindow = state.successesInWindow + 1 ∧ (t.succeed state).cap = state.cap) := by
  unfold succeed
  dsimp only
  split
  · next hwindow =>
    refine .inl ⟨hwindow, rfl, ?_⟩
    have hfits : state.cap + 1 < 2 ^ 64 := by omega
    dsimp only
    rw [Nat.mod_eq_of_lt hfits]
  · next hwindow => exact .inr ⟨Nat.lt_of_not_le hwindow, rfl, rfl⟩

theorem limit_spec {retryAfter : Option Duration} (h : t.limit state retryAfter now = .ok state') :
    state'.inFlight = state.inFlight ∧ state'.successesInWindow = 0 ∧
    state'.cap = (if (state.pauseRemaining now).isSome then state.cap else max (state.cap / 2) 1) ∧
    ∀ finish, state.pausedUntil = some finish →
      ∃ finish', state'.pausedUntil = some finish' ∧ finish.nanos ≤ finish'.nanos := by
  dsimp only [limit, bind, Except.bind] at h
  split at h
  · cases h
  · next finish' hadd =>
    cases h
    refine ⟨rfl, rfl, ?_, fun finish hfinish => ⟨finish.later finish', ?_, ?_⟩⟩
    · cases state.pauseRemaining now <;> rfl
    · rw [hfinish]
      rfl
    · unfold Instant.later
      split
      · assumption
      · exact Nat.le_refl _

end ModelThrottle

namespace Permits

/-! ## The invariant -/

/-- One model between events, with the successes it has to its credit. -/
structure Inv (t : ModelThrottle) (state : ModelState) (held earned : Nat) : Prop where
  cap_pos : 1 ≤ state.cap
  cap_le : state.cap ≤ max 1 t.bounds.ceiling
  inFlight : state.inFlight = held
  inFlight_le : state.inFlight ≤ max 1 t.bounds.ceiling
  credit : state.successesInWindow ≤ earned

/-- What the next event may do to one model. -/
structure Lawful (s : Permits) (model : String) (e : PermitEvent) (earned : Nat) : Prop where
  /-- a permit is granted only to a model that is not paused and has room -/
  granted : s.held model < (s.step e).held model →
    ∃ now, e = .acquire model now ∧ (s.state model).pauseRemaining now = none ∧
      (s.state model).inFlight < (s.state model).cap
  /-- the end of a pause is never moved to an earlier instant -/
  pause : ∀ finish, (s.state model).pausedUntil = some finish →
    ∃ finish', ((s.step e).state model).pausedUntil = some finish' ∧ finish.nanos ≤ finish'.nanos
  /-- one halving for each wave of rate limits -/
  limited : ∀ retryAfter now, s.verdictOn model e = some (.rateLimited retryAfter, now) →
    ((s.step e).state model).cap =
      if ((s.state model).pauseRemaining now).isSome then (s.state model).cap else max ((s.state model).cap / 2) 1
  /-- a rise is by one, and earned by a full window of successes, the event's own included -/
  raised : (s.state model).cap < ((s.step e).state model).cap →
    ((s.step e).state model).cap = (s.state model).cap + 1 ∧
      (∃ now, s.verdictOn model e = some (.succeeded, now)) ∧
      max 1 s.throttle.config.successWindow ≤ earned + 1

variable {s : Permits} {model : String} {e : PermitEvent} {earned : Nat}

theorem earn_of_none (h : s.verdictOn model e = none) : s.earn model earned e = earned := by simp only [earn, h]

theorem earn_of_failed {now : Instant} (h : s.verdictOn model e = some (.failed, now)) :
    s.earn model earned e = earned := by
  simp only [earn, h]

theorem le_earn_of_succeeded {now : Instant} (h : s.verdictOn model e = some (.succeeded, now))
    (hcap : ((s.step e).state model).cap = (s.state model).cap) : earned + 1 ≤ s.earn model earned e := by
  simp only [earn, h]
  rw [if_neg (by omega)]

section Verdicts

variable {t : ModelThrottle} {state state' : ModelState} {n earned' : Nat}

theorem Inv.returned (hinv : Inv t state (n + 1) earned) : Inv t { state with inFlight := state.inFlight - 1 } n earned :=
  ⟨hinv.cap_pos, hinv.cap_le, by simp [hinv.inFlight], (Nat.sub_le _ _).trans hinv.inFlight_le, hinv.credit⟩

theorem Inv.limit (hinv : Inv t state n earned) {retryAfter : Option Duration} {now : Instant}
    (h : t.limit state retryAfter now = .ok state') : Inv t state' n earned' := by
  obtain ⟨hpos, hle, hflight, hflight_le, -⟩ := hinv
  obtain ⟨hsame, hzero, hcap, -⟩ := ModelThrottle.limit_spec h
  have hbounds : 1 ≤ state'.cap ∧ state'.cap ≤ max 1 t.bounds.ceiling := by
    rw [hcap]
    split <;> omega
  exact ⟨hbounds.1, hbounds.2, hsame.trans hflight, hsame ▸ hflight_le, hzero ▸ Nat.zero_le _⟩

theorem Inv.succeed (hinv : Inv t state n earned) (hceiling : t.bounds.ceiling + 1 < 2 ^ 64)
    (hearned : (t.succeed state).cap = state.cap → earned + 1 ≤ earned') : Inv t (t.succeed state) n earned' := by
  obtain ⟨hpos, hle, hflight, hflight_le, hcredit⟩ := hinv
  have hsame : (t.succeed state).inFlight = state.inFlight := ModelThrottle.succeed_inFlight
  have hcap_le : state.cap ≤ max t.bounds.ceiling 1 := by omega
  rcases ModelThrottle.succeed_cases hceiling hcap_le with ⟨-, hzero, hcap⟩ | ⟨-, hone, hcap⟩
  · exact ⟨by omega, by omega, by omega, by omega, by omega⟩
  · have := hearned hcap
    exact ⟨by omega, by omega, by omega, by omega, by omega⟩

/-- A success that raises the cap raises it by one, and is the last of a full window. -/
theorem Inv.raised (hinv : Inv t state n earned) (hceiling : t.bounds.ceiling + 1 < 2 ^ 64)
    (hlt : state.cap < (t.succeed state).cap) :
    (t.succeed state).cap = state.cap + 1 ∧ max 1 t.config.successWindow ≤ earned + 1 := by
  have hcredit := hinv.credit
  have hcap_le : state.cap ≤ max t.bounds.ceiling 1 := max_comm 1 _ ▸ hinv.cap_le
  rcases ModelThrottle.succeed_cases hceiling hcap_le with ⟨hwindow, -, hcap⟩ | ⟨-, -, hcap⟩
  · exact ⟨by omega, by omega⟩
  · omega

end Verdicts

theorem inv_of_change (hceiling : s.throttle.bounds.ceiling + 1 < 2 ^ 64)
    (hinv : Inv s.throttle (s.state model) (s.held model) earned) {state' : ModelState} {held' : Nat}
    (hchange : Change s model e state' held') (hstate : (s.step e).state model = state') :
    Inv s.throttle state' held' (s.earn model earned e) := by
  cases hchange with
  | idle hverdict =>
    rw [earn_of_none hverdict]
    exact hinv
  | granted now hevent hpause hcap =>
    rw [earn_of_none (by rw [hevent]; rfl)]
    exact ⟨hinv.cap_pos, hinv.cap_le, congrArg (· + 1) hinv.inFlight, Nat.lt_of_lt_of_le hcap hinv.cap_le, hinv.credit⟩
  | settled verdict now hverdict _ n hheld hjudged =>
    have hreturned := (hheld ▸ hinv).returned
    cases verdict with
    | failed =>
      rw [earn_of_failed hverdict]
      cases hjudged
      exact hreturned
    | rateLimited retryAfter => exact hreturned.limit hjudged
    | succeeded =>
      cases hjudged
      exact hreturned.succeed hceiling fun hcap => le_earn_of_succeeded hverdict (by rw [hstate, hcap])

theorem lawful_of_change (hceiling : s.throttle.bounds.ceiling + 1 < 2 ^ 64)
    (hinv : Inv s.throttle (s.state model) (s.held model) earned) {state' : ModelState} {held' : Nat}
    (hchange : Change s model e state' held') (hstate : (s.step e).state model = state')
    (hheld : (s.step e).held model = held') : Lawful s model e earned := by
  have hkept (h : state'.pausedUntil = (s.state model).pausedUntil) (finish : Instant)
      (hfinish : (s.state model).pausedUntil = some finish) :
      ∃ finish', ((s.step e).state model).pausedUntil = some finish' ∧ finish.nanos ≤ finish'.nanos :=
    ⟨finish, by rw [hstate, h, hfinish], Nat.le_refl _⟩
  cases hchange with
  | idle hverdict =>
    refine ⟨fun hlt => ?_, hkept rfl, fun _ _ h => ?_, fun hlt => ?_⟩
    · omega
    · cases hverdict.symm.trans h
    · rw [hstate] at hlt
      exact absurd hlt (Nat.lt_irrefl _)
  | granted now hevent hpause hcap =>
    refine ⟨fun _ => ⟨now, hevent, hpause, hcap⟩, hkept rfl, fun _ _ h => ?_, fun hlt => ?_⟩
    · rw [hevent] at h
      cases h
    · rw [hstate] at hlt
      exact absurd hlt (Nat.lt_irrefl _)
  | settled verdict now hverdict _ n hn hjudged =>
    have hno : ¬ s.held model < (s.step e).held model := by omega
    cases verdict with
    | failed =>
      cases hjudged
      refine ⟨fun hlt => absurd hlt hno, hkept rfl, fun _ _ h => ?_, fun hlt => ?_⟩
      · cases hverdict.symm.trans h
      · rw [hstate] at hlt
        exact absurd hlt (Nat.lt_irrefl _)
    | rateLimited retryAfter =>
      obtain ⟨-, -, hcap, hlater⟩ := ModelThrottle.limit_spec hjudged
      refine ⟨fun hlt => absurd hlt hno, hstate ▸ hlater, fun _ _ h => ?_, fun hlt => ?_⟩
      · cases hverdict.symm.trans h
        rw [hstate]
        exact hcap
      · have hpos := hinv.cap_pos
        rw [hstate, hcap] at hlt
        split at hlt <;> dsimp only at hlt <;> omega
    | succeeded =>
      cases hjudged
      refine ⟨fun hlt => absurd hlt hno, hkept ModelThrottle.succeed_pausedUntil, fun _ _ h => ?_, fun hlt => ?_⟩
      · cases hverdict.symm.trans h
      · rw [hstate] at hlt ⊢
        obtain ⟨hone, hwindow⟩ := (hn ▸ hinv).returned.raised hceiling hlt
        exact ⟨hone, ⟨now, hverdict⟩, hwindow⟩

/-! ## Histories -/

/-- The whole throttle between events. -/
structure Kept (config : ThrottleConfig) (bounds : ThrottleBounds) (s : Permits) (earned : String → Nat) : Prop where
  config : s.throttle.config = config
  bounds : s.throttle.bounds = bounds
  inv : ∀ model, Inv s.throttle (s.state model) (s.held model) (earned model)

variable {config : ThrottleConfig} {bounds : ThrottleBounds}

theorem Kept.counted {earned : String → Nat} (hkept : Kept config bounds s earned) (henabled : config.enabled = true) :
    Counted s :=
  ⟨hkept.config ▸ henabled, fun model => (hkept.inv model).inFlight⟩

theorem kept_new : Kept config bounds (new config bounds) fun _ => 0 := by
  refine ⟨rfl, rfl, fun model => ⟨?_, ?_, rfl, ?_, Nat.le_refl _⟩⟩
  · exact Nat.le_max_right _ _
  · exact Nat.le_of_eq (Nat.max_comm _ _)
  · exact Nat.zero_le _

theorem Kept.step {earned : String → Nat} (hkept : Kept config bounds s earned) (henabled : config.enabled = true)
    (hceiling : bounds.ceiling + 1 < 2 ^ 64) (hsound : s.throttle.poisoned = false)
    (h : (s.step e).throttle.poisoned = false) :
    Kept config bounds (s.step e) fun model => s.earn model (earned model) e := by
  have hsteps := steps (hkept.counted henabled) hsound h
  refine ⟨hsteps.config.trans hkept.config, hsteps.bounds.trans hkept.bounds, fun model => ?_⟩
  have hinv := inv_of_change (hkept.bounds ▸ hceiling) (hkept.inv model) (hsteps.change model) rfl
  exact ⟨hinv.cap_pos, hsteps.bounds ▸ hinv.cap_le, hinv.inFlight, hsteps.bounds ▸ hinv.inFlight_le, hinv.credit⟩

theorem poisoned_run (history : List PermitEvent) (h : s.throttle.poisoned = true) :
    (s.run history).throttle.poisoned = true := by
  induction history generalizing s with
  | nil => exact h
  | cons e history ih => exact ih (poisoned_step h)

theorem Kept.run (henabled : config.enabled = true) (hceiling : bounds.ceiling + 1 < 2 ^ 64)
    {history : List PermitEvent} {earned : String → Nat} (hkept : Kept config bounds s earned)
    (h : (s.run history).throttle.poisoned = false) :
    Kept config bounds (s.run history) fun model => Permits.earned model s (earned model) history := by
  -- the lock of a sound end was sound all along
  have hbefore {s : Permits} {history : List PermitEvent} (h : (s.run history).throttle.poisoned = false) :
      s.throttle.poisoned = false := by
    cases hp : s.throttle.poisoned with
    | false => rfl
    | true => cases h.symm.trans (poisoned_run history hp)
  induction history generalizing s earned with
  | nil => exact hkept
  | cons e history ih =>
    have hrest : ((s.step e).run history).throttle.poisoned = false := h
    exact ih (hkept.step henabled hceiling (hbefore h) (hbefore hrest)) hrest

/-- After every history, on every model: the cap is between one and the ceiling, the count is
that of the live permits and within the ceiling, and whatever event comes next grants, pauses,
halves and raises only as `Lawful` says. -/
theorem throttle_invariants (henabled : config.enabled = true) (hceiling : bounds.ceiling + 1 < 2 ^ 64)
    (history : List PermitEvent) (hsound : ((new config bounds).run history).throttle.poisoned = false)
    (model : String) :
    (1 ≤ (((new config bounds).run history).state model).cap ∧
      (((new config bounds).run history).state model).cap ≤ max 1 bounds.ceiling) ∧
    ((((new config bounds).run history).state model).inFlight = ((new config bounds).run history).held model ∧
      (((new config bounds).run history).state model).inFlight ≤ max 1 bounds.ceiling) ∧
    ∀ e, (((new config bounds).run history).step e).throttle.poisoned = false →
      Lawful ((new config bounds).run history) model e (Permits.earned model (new config bounds) 0 history) := by
  have hkept := kept_new.run henabled hceiling hsound
  have hinv := hkept.inv model
  have hbounds := hkept.bounds
  refine ⟨⟨hinv.cap_pos, ?_⟩, ⟨hinv.inFlight, ?_⟩, fun e h => ?_⟩
  · rw [← congrArg ThrottleBounds.ceiling hbounds]
    exact hinv.cap_le
  · rw [← congrArg ThrottleBounds.ceiling hbounds]
    exact hinv.inFlight_le
  · have hsteps := steps (hkept.counted henabled) hsound h
    refine lawful_of_change ?_ hinv (hsteps.change model) rfl rfl
    rw [congrArg ThrottleBounds.ceiling hbounds]
    exact hceiling

/-- Two permits out, one settled with a rate limit and the other, during the pause, with a
success. -/
theorem throttle_invariants_two :
    let config : ThrottleConfig := ⟨true, 30000, 10⟩
    let bounds : ThrottleBounds := ⟨4, Duration.fromSecs 300⟩
    let history : List PermitEvent :=
      [.acquire "m" ⟨0, by decide⟩, .acquire "m" ⟨1, by decide⟩,
        .settle 0 (.rateLimited none) ⟨2, by decide⟩, .settle 1 .succeeded ⟨3, by decide⟩]
    ((new config bounds).run history).throttle.poisoned = false ∧
    (((new config bounds).run history).state "m").inFlight = ((new config bounds).run history).held "m" :=
  ⟨rfl, (throttle_invariants rfl (by decide) _ rfl "m").2.1.1⟩

end Permits

end FactorQ.Llm
