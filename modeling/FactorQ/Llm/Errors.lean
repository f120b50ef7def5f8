/-
# `FactorQ.Llm.Errors` — what a failed provider call means

A failed call is mapped on one question: can the same request succeed if it is sent again,
and if the provider said how long to wait, how long?  The wait is read from three places,
each with its own range: a header in milliseconds, a header in seconds or as a date, and a
decimal number in the body.

Rust's arithmetic on time does not return an error where the result does not fit; it
panics.  Here a function that can do so returns in `Except Panic`.  The readers of JSON, of
decimal numbers and of dates are the libraries' and enter as parameters.
-/
import Mathlib.Data.List.DropRight
import Mathlib.Tactic

namespace FactorQ.Llm

/-! ## Time -/

inductive Panic where
  /-- `Duration::from_secs_f64` above the largest duration -/
  | floatDuration
  /-- `Duration + Duration` -/
  | durationAdd
  /-- `Instant + Duration` -/
  | instantAdd
  /-- `n % (u64::MAX + 1)` -/
  | remainder
  /-- `expect("throttle lock poisoned")` -/
  | lockPoisoned
deriving DecidableEq, Repr

abbrev U64 := Fin (2 ^ 64)

scoped instance neZeroU64 : NeZero (2 ^ 64) := ⟨by decide⟩

def second : Nat := 10 ^ 9

@[ext] structure Duration where
  nanos : Nat
  fits : nanos < 2 ^ 64 * second
deriving DecidableEq

namespace Duration

def zero : Duration := ⟨0, by decide⟩

def fromSecs (secs : U64) : Duration := ⟨secs.val * second, Nat.mul_lt_mul_of_pos_right secs.isLt (by decide)⟩

def fromMillis (millis : U64) : Duration :=
  ⟨millis.val * 10 ^ 6, (Nat.mul_lt_mul_of_pos_right millis.isLt (by decide)).trans (by decide)⟩

/-- The nearest whole number of nanoseconds, the even one of two. -/
def nanosOf (secs : ℚ) : Nat :=
  let exact := secs * second
  let below := ⌊exact⌋.toNat
  let rest := exact - ⌊exact⌋
  if rest < 1 / 2 then below
  else if 1 / 2 < rest then below + 1
  else if below % 2 = 0 then below
  else below + 1

def fromSecsF64 (secs : ℚ) : Except Panic Duration :=
  if h : nanosOf secs < 2 ^ 64 * second then .ok ⟨nanosOf secs, h⟩ else .error .floatDuration

def add (a b : Duration) : Except Panic Duration :=
  if h : a.nanos + b.nanos < 2 ^ 64 * second then .ok ⟨a.nanos + b.nanos, h⟩ else .error .durationAdd

def max (a b : Duration) : Duration := if a.nanos ≤ b.nanos then b else a

def min (a b : Duration) : Duration := if a.nanos ≤ b.nanos then a else b

theorem min_nanos_le (a b : Duration) : (min a b).nanos ≤ b.nanos := by
  unfold min
  split
  · assumption
  · exact le_rfl

end Duration

/-- A reading of the monotonic clock, in signed 64-bit seconds. -/
structure Instant where
  nanos : Nat
  fits : nanos < 2 ^ 63 * second
deriving DecidableEq

namespace Instant

def add (now : Instant) (d : Duration) : Except Panic Instant :=
  if h : now.nanos + d.nanos < 2 ^ 63 * second then .ok ⟨now.nanos + d.nanos, h⟩ else .error .instantAdd

def later (a b : Instant) : Instant := if a.nanos ≤ b.nanos then b else a

/-- `finish - now`, which does not go below zero. -/
def since (finish now : Instant) : Duration :=
  ⟨finish.nanos - now.nanos, (Nat.sub_le _ _).trans_lt (finish.fits.trans (by decide))⟩

end Instant

/-! ## Failed calls -/

inductive LlmError where
  | auth (message : String)
  | rateLimited (model : String) (retryAfter : Option Duration)
  | invalidResponse (message : String)
  | rejected (message : String)
  | requestFailed (message : String)
  | timeout (budget : Duration)
  | unpricedModel (model : String)
deriving DecidableEq

def LlmError.isTransient : LlmError → Bool
  | rateLimited _ _ => true
  | requestFailed _ => true
  | timeout _ => true
  | _ => false

/-- A response with a failed status.  A header that is no readable text counts as absent. -/
structure FailedResponse where
  status : Nat
  headers : String → Option String
  body : String

inductive WebcError where
  | responseFailedStatus (response : FailedResponse)
  | reqwest (isTimeout : Bool)
  | other

inductive ProviderError where
  | httpError (response : FailedResponse)
  | webModelCall (webcError : WebcError)
  | webAdapterCall (webcError : WebcError)
  | requiresApiKey
  | noAuthResolver
  | noAuthData
  | resolver
  | other

namespace ProviderError

def response : ProviderError → Option FailedResponse
  | httpError r => some r
  | webModelCall (.responseFailedStatus r) => some r
  | webAdapterCall (.responseFailedStatus r) => some r
  | _ => none

def status (err : ProviderError) : Option Nat := err.response.map FailedResponse.status

end ProviderError

def timedOut : WebcError → Bool
  | .reqwest isTimeout => isTimeout
  | _ => false

/-! ## Reading the wait -/

inductive Json where
  | null
  | bool (b : Bool)
  | num (n : ℚ)
  | str (s : String)
  | arr (elems : List Json)
  | obj (fields : List (String × Json))

namespace Json

def get (key : String) : Json → Option Json
  | obj fields => fields.lookup key
  | _ => none

def asArray : Json → Option (List Json)
  | arr elems => some elems
  | _ => none

def asStr : Json → Option String
  | str s => some s
  | _ => none

end Json

inductive F64 where
  | finite (q : ℚ)
  | infinite
  | nan

/-- The libraries' readers.  A date is read as the nanoseconds from now until then, and such
a difference fits in signed 64-bit milliseconds. -/
structure Readers where
  trim : String → String
  fromJson : String → Option Json
  parseF64 : String → Option F64
  untilDate : String → Option Int
  untilDate_lt : ∀ s wait, untilDate s = some wait → wait < 2 ^ 63 * 10 ^ 6

def isDigit (c : Char) : Bool := '0' ≤ c && c ≤ '9'

/-- `str::parse::<u64>` -/
def parseU64 (s : String) : Option U64 :=
  let digits := match s.toList with
    | '+' :: rest => rest
    | chars => chars
  if digits.isEmpty || !digits.all isDigit then none
  else
    let n := digits.foldl (fun n c => n * 10 + (c.toNat - '0'.toNat)) 0
    if h : n < 2 ^ 64 then some ⟨n, h⟩ else none

def parseRetryAfter (readers : Readers) (headers : String → Option String) : Option Duration :=
  let text (name : String) := (headers name).map readers.trim
  match (text "retry-after-ms").bind parseU64 with
  | some millis => some (Duration.fromMillis millis)
  | none =>
    match text "retry-after" with
    | none => none
    | some value =>
      match parseU64 value with
      | some secs => some (Duration.fromSecs secs)
      | none =>
        match h : readers.untilDate value with
        | none => none
        | some wait =>
          some ⟨wait.toNat, by
            have := readers.untilDate_lt value wait h
            unfold second
            omega⟩

/-- The `retryDelay` of the first `RetryInfo` detail that has one. -/
def retryDelayText (json : Json) : Option String := do
  let details ← (← (← json.get "error").get "details").asArray
  details.findSome? fun detail => do
    let kind ← (← detail.get "@type").asStr
    if kind.endsWith "google.rpc.RetryInfo" then (← detail.get "retryDelay").asStr else none

/-- The decimal seconds of the body, if they are a finite number that is not negative. -/
def retryDelaySecs (readers : Readers) (body : String) : Option ℚ := do
  let delay ← retryDelayText (← readers.fromJson body)
  match (readers.trim delay).toList.reverse with
  | 's' :: rest =>
    match readers.parseF64 (String.ofList rest.reverse) with
    | some (.finite secs) => if 0 ≤ secs then some secs else none
    | _ => none
  | _ => none

def parseRetryDelay (readers : Readers) (body : String) : Except Panic (Option Duration) :=
  match retryDelaySecs readers body with
  | none => .ok none
  | some secs => (Duration.fromSecsF64 secs).map some

/-- The header first, then the body. -/
def retryAfter (readers : Readers) (err : ProviderError) : Except Panic (Option Duration) :=
  match err.response with
  | none => .ok none
  | some r =>
    match parseRetryAfter readers r.headers with
    | some wait => .ok (some wait)
    | none => parseRetryDelay readers r.body

def mapError (readers : Readers) (model : String) (budget : Duration) (err : ProviderError) (message : String) :
    Except Panic LlmError :=
  match err.status with
  | some 429 => (retryAfter readers err).map (.rateLimited model)
  | some 401 => .ok (.auth message)
  | some 403 => .ok (.auth message)
  | some 408 => .ok (.requestFailed message)
  | some status => .ok (if 400 ≤ status ∧ status ≤ 499 then .rejected message else .requestFailed message)
  | none =>
    match err with
    | .requiresApiKey => .ok (.auth message)
    | .noAuthResolver => .ok (.auth message)
    | .noAuthData => .ok (.auth message)
    | .resolver => .ok (.auth message)
    | .webModelCall webcError => .ok (if timedOut webcError then .timeout budget else .requestFailed message)
    | .webAdapterCall webcError => .ok (if timedOut webcError then .timeout budget else .requestFailed message)
    | _ => .ok (.requestFailed message)

/-! ## The wait a response asks for, whatever its size -/

/-- In nanoseconds, with no bound. -/
def nanosAsked (readers : Readers) (err : ProviderError) : Option Nat :=
  err.response.bind fun r =>
    match parseRetryAfter readers r.headers with
    | some wait => some wait.nanos
    | none => (retryDelaySecs readers r.body).map Duration.nanosOf

/-- If what is asked for fits a duration, that is what is read. -/
theorem retryAfter_ok {readers : Readers} {err : ProviderError}
    (h : ∀ n, nanosAsked readers err = some n → n < 2 ^ 64 * second) :
    ∃ wait, retryAfter readers err = .ok wait ∧ wait.map Duration.nanos = nanosAsked readers err := by
  unfold retryAfter
  unfold nanosAsked at h ⊢
  cases hresponse : err.response with
  | none => exact ⟨none, rfl, rfl⟩
  | some r =>
    rw [hresponse, Option.bind_some] at h
    rw [Option.bind_some]
    cases hheader : parseRetryAfter readers r.headers with
    | some wait => exact ⟨some wait, by simp only [hheader], rfl⟩
    | none =>
      simp only [hheader] at h ⊢
      unfold parseRetryDelay
      cases hsecs : retryDelaySecs readers r.body with
      | none => exact ⟨none, rfl, rfl⟩
      | some secs =>
        rw [hsecs] at h
        have hfits : Duration.nanosOf secs < 2 ^ 64 * second := h _ rfl
        refine ⟨some ⟨_, hfits⟩, ?_, rfl⟩
        simp only [Duration.fromSecsF64, dif_pos hfits]
        rfl

/-- The mapping panics nowhere else; a rate limit is a 429 and carries the wait that was
asked for. -/
theorem mapError_ok {readers : Readers} {err : ProviderError} (model : String) (budget : Duration) (message : String)
    (h : err.status = some 429 → ∀ n, nanosAsked readers err = some n → n < 2 ^ 64 * second) :
    ∃ e, mapError readers model budget err message = .ok e ∧
      ∀ m wait, e = .rateLimited m wait →
        err.status = some 429 ∧ wait.map Duration.nanos = nanosAsked readers err := by
  unfold mapError
  split
  · next hstatus =>
    obtain ⟨wait, hwait, hnanos⟩ := retryAfter_ok (h hstatus)
    refine ⟨.rateLimited model wait, by rw [hwait]; rfl, ?_⟩
    rintro m wait' heq
    cases heq
    exact ⟨hstatus, hnanos⟩
  · exact ⟨_, rfl, nofun⟩
  · exact ⟨_, rfl, nofun⟩
  · exact ⟨_, rfl, nofun⟩
  · refine ⟨_, rfl, ?_⟩
    intro m wait' heq
    split at heq <;> cases heq
  · split
    · exact ⟨_, rfl, nofun⟩
    · exact ⟨_, rfl, nofun⟩
    · exact ⟨_, rfl, nofun⟩
    · exact ⟨_, rfl, nofun⟩
    · refine ⟨_, rfl, ?_⟩
      intro m wait' heq
      split at heq <;> cases heq
    · refine ⟨_, rfl, ?_⟩
      intro m wait' heq
      split at heq <;> cases heq
    · exact ⟨_, rfl, nofun⟩

end FactorQ.Llm
