/-
# `FactorQ.Llm.Throttle` — the per-model throttle, and what can take it down

Every call to a provider takes a permit of its model and settles it with the answer.  A rate
limit pauses the model, for as long as the provider asked, and halves the number of permits;
successes raise it again.  All of that happens under one lock for the whole process, so a
panic while it is held ends every later call, whatever its model.

Two places compute with the provider's number.  The pause ends at the present instant plus
the wait, computed under the lock; and a wait in a body is turned into a duration before.
The theorem says that nothing else can panic: a history of calls in which every asked-for
wait ends within the range of the clock leaves the lock sound.

Counters wrap, as in a release build.
-/
import FactorQ.Llm.Errors

namespace FactorQ.Llm

/-! ## Retries -/

structure RetryConfig where
  maxAttempts : Nat
  timeoutMaxAttempts : Nat
  baseDelayMs : U64
  maxDelayMs : U64
  maxRetryAfterMs : U64

namespace RetryConfig

def attemptCapFor (config : RetryConfig) : LlmError → Nat
  | .timeout _ => config.timeoutMaxAttempts
  | _ => config.maxAttempts

end RetryConfig

def saturatingMul (a : U64) (b : Nat) : U64 := if h : a.val * b < 2 ^ 64 then ⟨a.val * b, h⟩ else Fin.last (2 ^ 64 - 1)

/-- A random delay up to the ceiling.  One more than the largest number is no modulus. -/
def backoffDelay (attempt : Nat) (config : RetryConfig) (jitter : Nat) : Except Panic Duration :=
  let ceiling := min (saturatingMul config.baseDelayMs (2 ^ min (attempt - 1) 20)) config.maxDelayMs
  if ceiling.val = 0 then .ok .zero
  else if h : ceiling.val + 1 < 2 ^ 64 then
    .ok (Duration.fromMillis ⟨jitter % (ceiling.val + 1), (Nat.mod_lt _ (Nat.succ_pos _)).trans h⟩)
  else .error .remainder

/-- Nothing if the provider asked for longer than the policy holds a worker. -/
def retryDelay (err : LlmError) (attempt : Nat) (config : RetryConfig) (jitter : Nat) :
    Except Panic (Option Duration) := do
  let backoff ← backoffDelay attempt config jitter
  match err with
  | .rateLimited _ (some asked) =>
    if (Duration.fromMillis config.maxRetryAfterMs).nanos < asked.nanos then .ok none
    else (asked.add backoff).map some
  | _ => .ok (some backoff)

/-! ## The throttle -/

structure ThrottleConfig where
  enabled : Bool
  defaultPauseMs : U64
  successWindow : Nat

structure ThrottleBounds where
  ceiling : Nat
  maxPause : Duration

inductive CallVerdict where
  | succeeded
  | rateLimited (retryAfter : Option Duration)
  | failed

structure ModelState where
  pausedUntil : Option Instant
  waves : Nat
  cap : Nat
  inFlight : Nat
  successesInWindow : Nat
  rateLimitedInWindow : Nat

namespace ModelState

def fresh (ceiling : Nat) : ModelState := ⟨none, 0, max ceiling 1, 0, 0, 0⟩

def pauseRemaining (state : ModelState) (now : Instant) : Option Duration :=
  (state.pausedUntil.filter fun finish => now.nanos < finish.nanos).map fun finish => finish.since now

end ModelState

structure ModelThrottle where
  config : ThrottleConfig
  bounds : ThrottleBounds
  models : String → Option ModelState
  poisoned : Bool

namespace ModelThrottle

def new (config : ThrottleConfig) (bounds : ThrottleBounds) : ModelThrottle := ⟨config, bounds, fun _ => none, false⟩

/-- With the lock held.  A panic poisons it, and then every later attempt to take it panics;
what the models were left as is never read again. -/
def locked {α : Type} (t : ModelThrottle)
    (body : (String → Option ModelState) → Except Panic ((String → Option ModelState) × α)) :
    ModelThrottle × Except Panic α :=
  if t.poisoned then (t, .error .lockPoisoned)
  else
    match body t.models with
    | .ok (models, a) => ({ t with models }, .ok a)
    | .error p => ({ t with poisoned := true }, .error p)

inductive Look where
  | permit
  | wait (finish : Option Instant)

/-- One look of `acquire`: a permit, or what to wait for. -/
def acquire (t : ModelThrottle) (model : String) (now : Instant) : ModelThrottle × Except Panic Look :=
  if t.config.enabled then
    t.locked fun models =>
      let state := (models model).getD (.fresh t.bounds.ceiling)
      let pause := state.pauseRemaining now
      if pause.isNone && state.inFlight < state.cap then
        .ok (Function.update models model (some { state with inFlight := state.inFlight + 1 }), .permit)
      else
        match pause with
        | none => .ok (Function.update models model (some state), .wait none)
        | some remaining => do
            let finish ← now.add remaining
            return (Function.update models model (some state), .wait (some finish))
  else (t, .ok .permit)

/-- The default pause of the wave, doubled with every wave. -/
def escalatedDefault (t : ModelThrottle) (wave : Nat) : Duration :=
  (Duration.fromMillis (saturatingMul t.config.defaultPauseMs (2 ^ min (wave - 1) 20))).min t.bounds.maxPause

def deferralDelay (t : ModelThrottle) (model : String) (retryAfter : Option Duration) (now : Instant) :
    ModelThrottle × Except Panic Duration :=
  t.locked fun models =>
    let waves := ((models model).map ModelState.waves).getD 0
    let remaining := (models model).bind fun state => state.pauseRemaining now
    .ok (models, ((retryAfter.getD .zero).max (t.escalatedDefault (max waves 1))).max (remaining.getD .zero))

def succeed (t : ModelThrottle) (state : ModelState) : ModelState :=
  let successes := state.successesInWindow + 1
  if max t.config.successWindow 1 ≤ successes then
    { state with
      waves := 0
      successesInWindow := 0
      rateLimitedInWindow := 0
      cap := min ((state.cap + 1) % 2 ^ 64) (max t.bounds.ceiling 1) }
  else { state with waves := 0, successesInWindow := successes }

/-- A rate limit during a pause belongs to the wave that set the pause. -/
def limit (t : ModelThrottle) (state : ModelState) (retryAfter : Option Duration) (now : Instant) :
    Except Panic ModelState := do
  let newWave := (state.pauseRemaining now).isNone
  let waves := if newWave then (state.waves + 1) % 2 ^ 32 else state.waves
  let cap := if newWave then max (state.cap / 2) 1 else state.cap
  let pause := retryAfter.getD (t.escalatedDefault waves)
  let finish ← now.add pause
  return { state with
    waves
    cap
    pausedUntil := some ((state.pausedUntil.map fun u => u.later finish).getD finish)
    rateLimitedInWindow := (state.rateLimitedInWindow + 1) % 2 ^ 32
    successesInWindow := 0 }

def settle (t : ModelThrottle) (model : String) (verdict : CallVerdict) (now : Instant) :
    ModelThrottle × Except Panic Unit :=
  if t.config.enabled then
    t.locked fun models =>
      match models model with
      | none => .ok (models, ())
      | some state => do
          let state := { state with inFlight := state.inFlight - 1 }
          let state ← match verdict with
            | .succeeded => .ok (t.succeed state)
            | .rateLimited retryAfter => t.limit state retryAfter now
            | .failed => .ok state
          return (Function.update models model (some state), ())
  else (t, .ok ())

end ModelThrottle

/-! ## Histories of calls -/

/-- What surrounds the throttle. -/
structure Client where
  readers : Readers
  retry : RetryConfig
  budget : Duration

inductive Call where
  | acquire (model : String) (now : Instant)
  | succeeded (model : String) (now : Instant)
  /-- the provider failed the `attempt`-th attempt -/
  | failed (model : String) (now : Instant) (err : ProviderError) (message : String) (attempt jitter : Nat)
  /-- the call was cancelled and its permit dropped -/
  | dropped (model : String) (now : Instant)
  | deferral (model : String) (now : Instant) (retryAfter : Option Duration)

/-- What the caller gets. -/
inductive Reply where
  | look (l : ModelThrottle.Look)
  | done
  | retry (delay : Duration)
  | giveUp (err : LlmError)
  | deferral (delay : Duration)

def verdictOf : LlmError → CallVerdict
  | .rateLimited _ retryAfter => .rateLimited retryAfter
  | _ => .failed

/-- `RetryingLlmClient::chat` after a failed attempt. -/
def afterFailure (config : RetryConfig) (err : LlmError) (attempt jitter : Nat) : Except Panic Reply :=
  if err.isTransient && attempt < config.attemptCapFor err then
    (retryDelay err attempt config jitter).map fun delay => delay.elim (.giveUp err) .retry
  else .ok (.giveUp err)

def step (client : Client) (t : ModelThrottle) : Call → ModelThrottle × Except Panic Reply
  | .acquire model now => (t.acquire model now).map id (·.map .look)
  | .succeeded model now => (t.settle model .succeeded now).map id (·.map fun _ => .done)
  | .dropped model now => (t.settle model .failed now).map id (·.map fun _ => .done)
  | .deferral model now retryAfter => (t.deferralDelay model retryAfter now).map id (·.map .deferral)
  | .failed model now err message attempt jitter =>
    match mapError client.readers model client.budget err message with
    -- the panic unwinds through the call, which drops the permit
    | .error p => ((t.settle model .failed now).1, .error p)
    | .ok e =>
      match t.settle model (verdictOf e) now with
      | (t, .error p) => (t, .error p)
      | (t, .ok ()) => (t, afterFailure client.retry e attempt jitter)

/-- A history: the throttle after it, and every reply. -/
def run (client : Client) (t : ModelThrottle) : List Call → ModelThrottle × List (Except Panic Reply)
  | [] => (t, [])
  | c :: calls =>
    let (t, reply) := step client t c
    let (t, replies) := run client t calls
    (t, reply :: replies)

/-! ## What cannot panic -/

/-- The operation returned, and left the lock sound and the settings alone. -/
structure Returns {α : Type} (t : ModelThrottle) (result : ModelThrottle × Except Panic α) : Prop where
  sound : result.1.poisoned = false
  settings : result.1.config = t.config ∧ result.1.bounds = t.bounds
  reply : ∃ a, result.2 = .ok a

section Returns

variable {t : ModelThrottle} {now : Instant} {model : String}

theorem returns_locked {α : Type} {body : (String → Option ModelState) → Except Panic ((String → Option ModelState) × α)}
    (hsound : t.poisoned = false) (h : ∃ models a, body t.models = .ok (models, a)) : Returns t (t.locked body) := by
  obtain ⟨models, a, hbody⟩ := h
  have hlocked : t.locked body = ({ t with models }, .ok a) := by simp [ModelThrottle.locked, hsound, hbody]
  rw [hlocked]
  exact ⟨hsound, ⟨rfl, rfl⟩, a, rfl⟩

theorem Returns.map {α β : Type} {result : ModelThrottle × Except Panic α} {f : α → β} (h : Returns t result) :
    Returns t (result.map id (·.map f)) := by
  obtain ⟨hsound, hsettings, a, ha⟩ := h
  refine ⟨hsound, hsettings, f a, ?_⟩
  show result.2.map f = _
  rw [ha]
  rfl

/-- The end of a pause that is in force is in range: it is in the state already. -/
theorem add_pauseRemaining {state : ModelState} {remaining : Duration} (h : state.pauseRemaining now = some remaining) :
    ∃ finish, now.add remaining = .ok finish := by
  obtain ⟨finish, hfinish, rfl⟩ := Option.map_eq_some_iff.mp h
  have hlater : now.nanos < finish.nanos := by simpa using (Option.filter_eq_some_iff.mp hfinish).2
  have hsum : now.nanos + (finish.since now).nanos < 2 ^ 63 * second := by
    have := finish.fits
    simp only [Instant.since]
    omega
  exact ⟨_, dif_pos hsum⟩

theorem returns_acquire (hsound : t.poisoned = false) : Returns t (t.acquire model now) := by
  unfold ModelThrottle.acquire
  split
  · refine returns_locked hsound ?_
    dsimp only
    split
    · exact ⟨_, _, rfl⟩
    · cases hpause : ((t.models model).getD (.fresh t.bounds.ceiling)).pauseRemaining now with
      | none => exact ⟨_, _, rfl⟩
      | some remaining =>
        obtain ⟨finish, hfinish⟩ := add_pauseRemaining hpause
        simp only [hfinish]
        exact ⟨_, _, rfl⟩
  · exact ⟨hsound, ⟨rfl, rfl⟩, _, rfl⟩

theorem returns_deferralDelay {retryAfter : Option Duration} (hsound : t.poisoned = false) :
    Returns t (t.deferralDelay model retryAfter now) :=
  returns_locked hsound ⟨_, _, rfl⟩

/-- A pause that the verdict sets, whatever the wave, is no longer than the longest it may. -/
theorem pause_fits {retryAfter : Option Duration} (wave : Nat)
    (hpause : now.nanos + (retryAfter.map Duration.nanos).getD t.bounds.maxPause.nanos < 2 ^ 63 * second) :
    now.nanos + (retryAfter.getD (t.escalatedDefault wave)).nanos < 2 ^ 63 * second := by
  cases retryAfter with
  | some asked =>
    rw [Option.map_some, Option.getD_some] at hpause
    rw [Option.getD_some]
    exact hpause
  | none =>
    have hle : (t.escalatedDefault wave).nanos ≤ t.bounds.maxPause.nanos := by
      rw [ModelThrottle.escalatedDefault]
      exact Duration.min_nanos_le _ _
    rw [Option.map_none, Option.getD_none] at hpause
    rw [Option.getD_none]
    exact (Nat.add_le_add_left hle _).trans_lt hpause

theorem limit_ok {retryAfter : Option Duration} (state : ModelState)
    (hpause : now.nanos + (retryAfter.map Duration.nanos).getD t.bounds.maxPause.nanos < 2 ^ 63 * second) :
    ∃ state', t.limit state retryAfter now = .ok state' := by
  unfold ModelThrottle.limit
  simp only [Instant.add, dif_pos (pause_fits _ hpause)]
  exact ⟨_, rfl⟩

/-- Settling a permit of a throttle that is switched on returns if the pause that the verdict sets ends in range. -/
theorem returns_settle {verdict : CallVerdict} (hsound : t.poisoned = false)
    (hpause : t.config.enabled = true → ∀ retryAfter, verdict = .rateLimited retryAfter →
      now.nanos + (retryAfter.map Duration.nanos).getD t.bounds.maxPause.nanos < 2 ^ 63 * second) :
    Returns t (t.settle model verdict now) := by
  unfold ModelThrottle.settle
  split
  · next henabled =>
    refine returns_locked hsound ?_
    cases t.models model with
    | none => exact ⟨_, _, rfl⟩
    | some state =>
      cases verdict with
      | succeeded => exact ⟨_, _, rfl⟩
      | failed => exact ⟨_, _, rfl⟩
      | rateLimited retryAfter =>
        obtain ⟨state', hstate'⟩ := limit_ok { state with inFlight := state.inFlight - 1 }
          (hpause henabled retryAfter rfl)
        refine ⟨Function.update t.models model (some state'), (), ?_⟩
        show (t.limit _ retryAfter now >>= _) = _
        rw [hstate']
        rfl
  · exact ⟨hsound, ⟨rfl, rfl⟩, _, rfl⟩

end Returns

section Retry

variable {config : RetryConfig}

/-- The attempt's ceiling is not the largest number. -/
def RetryConfig.Bounded (config : RetryConfig) (attempt : Nat) : Prop :=
  (min (saturatingMul config.baseDelayMs (2 ^ min (attempt - 1) 20)) config.maxDelayMs).val + 1 < 2 ^ 64

theorem backoffDelay_ok {attempt : Nat} (jitter : Nat) (hceiling : config.Bounded attempt) :
    ∃ delay, backoffDelay attempt config jitter = .ok delay ∧ delay.nanos < 2 ^ 64 * 10 ^ 6 := by
  unfold RetryConfig.Bounded at hceiling
  unfold backoffDelay
  dsimp only
  split
  · exact ⟨_, rfl, by decide⟩
  · refine ⟨_, rfl, ?_⟩
    refine Nat.mul_lt_mul_of_pos_right ?_ (by decide)
    exact (Nat.mod_lt _ (Nat.succ_pos _)).trans hceiling

/-- The provider's wait is added to only where the policy waits it out, and then the sum is
far from the largest duration. -/
theorem retryDelay_ok (err : LlmError) {attempt : Nat} (jitter : Nat) (hceiling : config.Bounded attempt) :
    ∃ delay, retryDelay err attempt config jitter = .ok delay := by
  obtain ⟨backoff, hbackoff, hlt⟩ := backoffDelay_ok jitter hceiling
  unfold retryDelay
  rw [hbackoff]
  dsimp only [bind, Except.bind]
  split
  · next asked =>
    split
    · exact ⟨_, rfl⟩
    · next hle =>
      have hasked : asked.nanos < 2 ^ 64 * 10 ^ 6 := by
        have hmillis : (Duration.fromMillis config.maxRetryAfterMs).nanos < 2 ^ 64 * 10 ^ 6 :=
          Nat.mul_lt_mul_of_pos_right config.maxRetryAfterMs.isLt (by decide)
        omega
      have hsum : asked.nanos + backoff.nanos < 2 ^ 64 * second := by
        unfold second
        omega
      exact ⟨some ⟨_, hsum⟩, by simp only [Duration.add, dif_pos hsum]; rfl⟩
  · exact ⟨_, rfl⟩

end Retry

/-! ## Histories in range -/

/-- If the provider answers 429, the wait it asks for is a duration, and if the throttle is switched on
the pause that follows, which is that wait or else at most the longest default, ends within the
range of the clock. -/
def Call.InRange (client : Client) (config : ThrottleConfig) (bounds : ThrottleBounds) : Call → Prop
  | .failed _ now err _ attempt _ =>
    (err.status = some 429 →
      (∀ n, nanosAsked client.readers err = some n → n < 2 ^ 64 * second) ∧
      (config.enabled = true →
        now.nanos + (nanosAsked client.readers err).getD bounds.maxPause.nanos < 2 ^ 63 * second)) ∧
    client.retry.Bounded attempt
  | _ => True

theorem returns_step {client : Client} {t : ModelThrottle} {c : Call} (hsound : t.poisoned = false)
    (hrange : c.InRange client t.config t.bounds) : Returns t (step client t c) := by
  cases c with
  | acquire model now => exact (returns_acquire hsound).map
  | succeeded model now =>
    have hsettle : Returns t (t.settle model .succeeded now) := returns_settle hsound fun _ _ h => nomatch h
    exact hsettle.map
  | dropped model now =>
    have hsettle : Returns t (t.settle model .failed now) := returns_settle hsound fun _ _ h => nomatch h
    exact hsettle.map
  | deferral model now retryAfter => exact (returns_deferralDelay hsound).map
  | failed model now err message attempt jitter =>
    obtain ⟨hasked, hceiling⟩ := hrange
    obtain ⟨e, he, hwait⟩ := mapError_ok model client.budget message fun hstatus => (hasked hstatus).1
    have hsettle : Returns t (t.settle model (verdictOf e) now) := by
      refine returns_settle hsound fun henabled retryAfter hverdict => ?_
      cases e with
      | rateLimited m wait =>
        cases hverdict
        obtain ⟨hstatus, hnanos⟩ := hwait m _ rfl
        rw [hnanos]
        exact (hasked hstatus).2 henabled
      | _ => cases hverdict
    have hafter : ∃ reply, afterFailure client.retry e attempt jitter = .ok reply := by
      unfold afterFailure
      split
      · obtain ⟨delay, hdelay⟩ := retryDelay_ok e jitter hceiling
        exact ⟨_, by rw [hdelay]; rfl⟩
      · exact ⟨_, rfl⟩
    have heq : step client t (.failed model now err message attempt jitter) =
        ((t.settle model (verdictOf e) now).1, afterFailure client.retry e attempt jitter) := by
      simp only [step, he]
      obtain ⟨⟨⟩, hreply⟩ := hsettle.reply
      cases hresult : t.settle model (verdictOf e) now with
      | mk t' reply =>
        rw [hresult] at hreply
        cases hreply
        rfl
    rw [heq]
    exact ⟨hsettle.sound, hsettle.settings, hafter⟩

theorem returns_run {client : Client} {calls : List Call} {t : ModelThrottle}
    (hrange : ∀ c ∈ calls, c.InRange client t.config t.bounds) (hsound : t.poisoned = false) :
    (run client t calls).1.poisoned = false ∧ ∀ reply ∈ (run client t calls).2, ∃ r, reply = .ok r := by
  induction calls generalizing t with
  | nil => exact ⟨hsound, nofun⟩
  | cons c calls ih =>
    have hstep := returns_step hsound (hrange c List.mem_cons_self)
    have hlater : ∀ c' ∈ calls, c'.InRange client (step client t c).1.config (step client t c).1.bounds := by
      rw [hstep.settings.1, hstep.settings.2]
      exact fun c' hc' => hrange c' (List.mem_cons_of_mem c hc')
    have hrest := ih hlater hstep.sound
    refine ⟨hrest.1, fun reply hreply => ?_⟩
    rcases List.mem_cons.mp hreply with rfl | hreply
    · exact hstep.reply
    · exact hrest.2 reply hreply

/-- In a history of calls whose pauses end within the range of the clock, every call returns,
the lock is never poisoned, and a further look for a permit of any model returns too. -/
theorem answers_leave_throttle_sound (client : Client) (config : ThrottleConfig) (bounds : ThrottleBounds)
    (calls : List Call) (hrange : ∀ c ∈ calls, c.InRange client config bounds) :
    (∀ reply ∈ (run client (.new config bounds) calls).2, ∃ r, reply = .ok r) ∧
    (run client (.new config bounds) calls).1.poisoned = false ∧
    ∀ model now, ∃ look, ((run client (.new config bounds) calls).1.acquire model now).2 = .ok look := by
  obtain ⟨hsound, hreplies⟩ := returns_run (t := .new config bounds) hrange rfl
  exact ⟨hreplies, hsound, fun model now => (returns_acquire hsound).reply⟩

/-! ## A wait past the end of the clock -/

def plainReaders : Readers := ⟨id, fun _ => none, fun _ => none, fun _ => none, nofun⟩

def plainClient : Client := ⟨plainReaders, ⟨4, 2, 500, 30000, 120000⟩, .fromSecs 600⟩

def plainConfig : ThrottleConfig := ⟨true, 30000, 10⟩

def plainBounds : ThrottleBounds := ⟨4, .fromMillis 120000⟩

def startOfClock : Instant := ⟨0, by decide⟩

/-- A 429 that asks for so many seconds. -/
def tooMany (secs : String) : ProviderError :=
  .httpError ⟨429, fun name => if name = "retry-after" then some secs else none, ""⟩

theorem seven_seconds_leave_throttle_sound :
    (run plainClient (.new plainConfig plainBounds)
      [.acquire "m" startOfClock, .failed "m" startOfClock (tooMany "7") "" 1 0]).1.poisoned = false := by
  refine (answers_leave_throttle_sound plainClient plainConfig plainBounds _ fun c hc => ?_).2.1
  rcases List.mem_cons.mp hc with rfl | hc
  · trivial
  · cases List.mem_singleton.mp hc
    refine ⟨fun _ => ⟨fun n hn => ?_, fun _ => by decide +kernel⟩, ?_⟩
    · have hseven : nanosAsked plainReaders (tooMany "7") = some (7 * second) := by decide +kernel
      cases hseven.symm.trans hn
      decide
    · unfold RetryConfig.Bounded
      decide

/-- One model's provider asks for the largest number of seconds that can be read.  The sum
with the present instant is out of range, the panic poisons the lock, and the next look for
a permit of another model panics. -/
theorem throttle_taken_down :
    (run plainClient (.new plainConfig plainBounds)
      [.acquire "m" startOfClock, .failed "m" startOfClock (tooMany "18446744073709551615") "" 1 0,
        .acquire "other" startOfClock]).2.map (fun reply => reply.map fun _ => ()) =
      [.ok (), .error .instantAdd, .error .lockPoisoned] := by
  decide +kernel

end FactorQ.Llm
