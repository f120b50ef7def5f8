/-
# `FactorQ.Projection.Floor` — where a replay starts

A projection that has to be rebuilt replays the event stream, and the stream may still hold
messages in an envelope version this build does not read.  The replay starts above them, at the
first sequence whose message the build reads: the floor.  It is found by binary search between
the first and the last sequence of the stream.

Not every sequence answers the question.  A deleted one and a message that declares no version
are stepped over, so a probe at a position is answered by the first message at or after it that
declares a version.  What the search keeps is stated in those terms: no message below `lo` is
one this build reads, and the recorded answer is the first classifiable message from `hi` on.

Sequences are natural numbers.  The code's are 64 bits wide, and that the one after the last
still fits is a field of the stream.
-/
import Mathlib.Tactic

namespace FactorQ.Projection

/-! ## The stream -/

def schemaVersion : Nat := 3

def supportedSchemaVersions : List Nat := [schemaVersion]

/-- A stream as the search sees it: of each message it holds, the envelope version declared, if
one is. -/
structure Stream where
  firstSequence : Nat
  lastSequence : Nat
  message : Nat → Option (Option Nat)
  inside : ∀ seq, (message seq).isSome → firstSequence ≤ seq ∧ seq ≤ lastSequence
  fits : lastSequence + 1 < 2 ^ 64

namespace Stream

def messages (stream : Stream) : Nat :=
  (List.range' stream.firstSequence (stream.lastSequence + 1 - stream.firstSequence)).countP
    fun seq => (stream.message seq).isSome

/-- The version the message at the sequence declares; nothing for a deleted or versionless one. -/
def version (stream : Stream) (seq : Nat) : Option Nat := (stream.message seq).join

def Supported (stream : Stream) (seq : Nat) : Prop := ∃ v, stream.version seq = some v ∧ v ∈ supportedSchemaVersions

def Unsupported (stream : Stream) (seq : Nat) : Prop := ∃ v, stream.version seq = some v ∧ v ∉ supportedSchemaVersions

/-- Every message in a version this build does not read comes before every one it reads. -/
def Monotone (stream : Stream) : Prop :=
  ∀ old new, stream.Unsupported old → stream.Supported new → old < new

end Stream

/-! ## The search -/

inductive Verdict where
  | supported (seq : Nat)
  | unsupported (seq : Nat)
  | nothing
deriving DecidableEq

namespace Stream

/-- The loop of `classify_from`, with the sequences left to look at. -/
def classifyLoop (stream : Stream) : Nat → Nat → Verdict
  | 0, _ => .nothing
  | left + 1, seq =>
    match stream.message seq with
    | some (some version) => if version ∈ supportedSchemaVersions then .supported seq else .unsupported seq
    | _ => stream.classifyLoop left (seq + 1)

def classifyFrom (stream : Stream) (start last : Nat) : Verdict := stream.classifyLoop (last + 1 - start) start

structure Search where
  lo : Nat
  hi : Nat
  floorAtHi : Option Nat

/-- One turn of the loop. -/
def probe (stream : Stream) (s : Search) : Search :=
  let mid := s.lo + (s.hi - s.lo) / 2
  match stream.classifyFrom mid stream.lastSequence with
  | .supported seq => { s with hi := mid, floorAtHi := some seq }
  | .unsupported seq => { s with lo := seq + 1 }
  | .nothing => { s with hi := mid, floorAtHi := none }

/-! ## What a probe finds -/

variable {stream : Stream}

/-- What the answer to a probe at a position says. -/
def Answers (stream : Stream) (start : Nat) : Verdict → Prop
  | .supported seq => start ≤ seq ∧ stream.Supported seq ∧ ∀ q, start ≤ q → q < seq → stream.version q = none
  | .unsupported seq => start ≤ seq ∧ stream.Unsupported seq ∧ ∀ q, start ≤ q → q < seq → stream.version q = none
  | .nothing => ∀ q, start ≤ q → stream.version q = none

theorem Answers.step {start : Nat} {verdict : Verdict} (hstart : stream.version start = none)
    (h : stream.Answers (start + 1) verdict) : stream.Answers start verdict := by
  have hgap {q : Nat} (hq : start ≤ q) (h : start + 1 ≤ q → stream.version q = none) : stream.version q = none := by
    rcases Nat.eq_or_lt_of_le hq with rfl | hlt
    · exact hstart
    · exact h hlt
  cases verdict with
  | supported seq =>
    obtain ⟨hle, hseq, hbetween⟩ := h
    exact ⟨Nat.le_of_succ_le hle, hseq, fun q hq hlt => hgap hq fun hq => hbetween q hq hlt⟩
  | unsupported seq =>
    obtain ⟨hle, hseq, hbetween⟩ := h
    exact ⟨Nat.le_of_succ_le hle, hseq, fun q hq hlt => hgap hq fun hq => hbetween q hq hlt⟩
  | nothing => exact fun q hq => hgap hq (h q)

theorem version_none_of_last_lt {seq : Nat} (h : stream.lastSequence < seq) : stream.version seq = none := by
  cases hmessage : stream.message seq with
  | none => simp [version, hmessage]
  | some v =>
    have hinside := stream.inside seq (by rw [hmessage]; rfl)
    omega

theorem answers_classifyLoop {left start : Nat} (h : stream.lastSequence < start + left) :
    stream.Answers start (stream.classifyLoop left start) := by
  induction left generalizing start with
  | zero => exact fun q hq => version_none_of_last_lt (by omega)
  | succ left ih =>
    unfold classifyLoop
    split
    · next version hmessage =>
      have hversion : stream.version start = some version := by simp [Stream.version, hmessage]
      split
      · next hin => exact ⟨Nat.le_refl _, ⟨version, hversion, hin⟩, fun q hq hlt => absurd hq (by omega)⟩
      · next hout => exact ⟨Nat.le_refl _, ⟨version, hversion, hout⟩, fun q hq hlt => absurd hq (by omega)⟩
    · next hmessage =>
      have hversion : stream.version start = none := by
        unfold Stream.version
        cases hstart : stream.message start with
        | none => rfl
        | some v =>
          cases v with
          | none => rfl
          | some version => exact absurd hstart (hmessage version)
      exact (ih (by omega)).step hversion

theorem answers_classifyFrom (stream : Stream) (start : Nat) :
    stream.Answers start (stream.classifyFrom start stream.lastSequence) :=
  answers_classifyLoop (by omega)

/-- A probe leaves at most half of the positions. -/
theorem probe_halves (stream : Stream) {s : Search} (h : s.lo < s.hi) :
    (stream.probe s).hi - (stream.probe s).lo ≤ (s.hi - s.lo) / 2 := by
  have hanswers := answers_classifyFrom stream (s.lo + (s.hi - s.lo) / 2)
  unfold probe
  dsimp only
  split
  · dsimp only
    omega
  · next seq hverdict =>
    rw [hverdict] at hanswers
    have hle : s.lo + (s.hi - s.lo) / 2 ≤ seq := hanswers.1
    dsimp only
    omega
  · dsimp only
    omega

/-- The loop, with the number of its turns: each calls `classify_from` once. -/
def search (stream : Stream) (s : Search) : Search × Nat :=
  if h : s.lo < s.hi then
    have : (stream.probe s).hi - (stream.probe s).lo < s.hi - s.lo := by
      have := probe_halves stream h
      omega
    let r := stream.search (stream.probe s)
    (r.1, r.2 + 1)
  else (s, 0)
termination_by s.hi - s.lo

structure ReplayFloor where
  floor : Nat
  firstSequence : Nat
  lastSequence : Nat

/-- The floor, and the number of calls of `classify_from` it took. -/
def replayFloor (stream : Stream) : ReplayFloor × Nat :=
  if stream.messages = 0 then
    (⟨stream.lastSequence + 1, stream.firstSequence, stream.lastSequence⟩, 0)
  else
    let (s, calls) := stream.search ⟨stream.firstSequence, stream.lastSequence + 1, none⟩
    (⟨s.floorAtHi.getD (stream.lastSequence + 1), stream.firstSequence, stream.lastSequence⟩, calls)

/-! ## The invariant -/

/-- No message below `lo` is one this build reads, and the recorded answer is the one for `hi`. -/
structure Inv (stream : Stream) (s : Search) : Prop where
  below : ∀ q, q < s.lo → ¬ stream.Supported q
  above : stream.Answers s.hi (s.floorAtHi.elim .nothing .supported)

theorem inv_probe (hmono : stream.Monotone) {s : Search} (hinv : stream.Inv s) : stream.Inv (stream.probe s) := by
  have hanswers := answers_classifyFrom stream (s.lo + (s.hi - s.lo) / 2)
  unfold probe
  dsimp only
  split
  · next seq hverdict =>
    rw [hverdict] at hanswers
    exact ⟨hinv.below, hanswers⟩
  · next seq hverdict =>
    rw [hverdict] at hanswers
    refine ⟨fun q hq hsupported => ?_, hinv.above⟩
    -- what is unsupported at `seq` has nothing supported before it
    have hlt : seq < q := hmono seq q hanswers.2.1 hsupported
    dsimp only at hq
    omega
  · next hverdict =>
    rw [hverdict] at hanswers
    exact ⟨hinv.below, hanswers⟩

theorem inv_search (hmono : stream.Monotone) (s : Search) (hinv : stream.Inv s) :
    stream.Inv (stream.search s).1 ∧ (stream.search s).1.hi ≤ (stream.search s).1.lo := by
  fun_induction stream.search s with
  | case1 s hlt _ r ih => exact ih (inv_probe hmono hinv)
  | case2 s hdone => exact ⟨hinv, Nat.le_of_not_lt hdone⟩

/-- As many turns as halvings take fewer than `2 ^ k` positions to none. -/
theorem search_calls (stream : Stream) (s : Search) :
    ∀ k, s.hi - s.lo < 2 ^ k → (stream.search s).2 ≤ k := by
  fun_induction stream.search s with
  | case1 s hlt _ r ih =>
    intro k hsize
    cases k with
    | zero =>
      rw [Nat.pow_zero] at hsize
      omega
    | succ k =>
      have hhalf := probe_halves stream hlt
      rw [Nat.pow_succ] at hsize
      exact Nat.succ_le_succ (ih k (by omega))
  | case2 s hdone => exact fun k _ => Nat.zero_le k

theorem inv_start (stream : Stream) : stream.Inv ⟨stream.firstSequence, stream.lastSequence + 1, none⟩ := by
  refine ⟨fun q hq ⟨v, hv, _⟩ => ?_, fun q hq => version_none_of_last_lt (by dsimp only at hq; omega)⟩
  cases hmessage : stream.message q with
  | none => simp [version, hmessage] at hv
  | some _ =>
    have hinside := stream.inside q (by rw [hmessage]; rfl)
    dsimp only at hq
    omega

/-- Where the search ends, the recorded answer is the first message this build reads. -/
theorem Inv.floor {s : Search} (hinv : stream.Inv s) (hdone : s.hi ≤ s.lo) (default : Nat) :
    ((∃ seq, stream.Supported seq) → IsLeast {seq | stream.Supported seq} (s.floorAtHi.getD default)) ∧
    ((∀ seq, ¬ stream.Supported seq) → s.floorAtHi.getD default = default) := by
  have hfrom {q : Nat} (hq : stream.Supported q) : s.hi ≤ q :=
    Nat.le_trans hdone (Nat.le_of_not_lt fun hlt => hinv.below q hlt hq)
  have habove := hinv.above
  cases hfloor : s.floorAtHi with
  | none =>
    rw [hfloor] at habove
    refine ⟨fun ⟨q, hq⟩ => ?_, fun _ => rfl⟩
    obtain ⟨v, hv, hin⟩ := hq
    cases hv.symm.trans (habove q (hfrom ⟨v, hv, hin⟩))
  | some floor =>
    rw [hfloor] at habove
    obtain ⟨-, hsupported, hgap⟩ := habove
    refine ⟨fun _ => ⟨hsupported, fun q hq => ?_⟩, fun hno => absurd hsupported (hno floor)⟩
    refine Nat.le_of_not_lt fun hlt => ?_
    obtain ⟨v, hv, hin⟩ := hq
    cases hv.symm.trans (hgap q (hfrom ⟨v, hv, hin⟩) hlt)

theorem not_supported_of_messages_eq_zero (h : stream.messages = 0) (seq : Nat) : ¬ stream.Supported seq := by
  intro ⟨v, hv, _⟩
  cases hmessage : stream.message seq with
  | none => simp [version, hmessage] at hv
  | some _ =>
    have hinside := stream.inside seq (by rw [hmessage]; rfl)
    refine List.countP_eq_zero.mp h seq ?_ (by rw [hmessage]; rfl)
    rw [List.mem_range'_1]
    omega

/-- The floor is the first message this build reads, or lies behind the last one. -/
theorem replayFloor_least (hmono : stream.Monotone) :
    ((∃ seq, stream.Supported seq) → IsLeast {seq | stream.Supported seq} stream.replayFloor.1.floor) ∧
    ((∀ seq, ¬ stream.Supported seq) → stream.replayFloor.1.floor = stream.lastSequence + 1) := by
  unfold replayFloor
  split
  · next hempty =>
    refine ⟨fun ⟨seq, hseq⟩ => ?_, fun _ => rfl⟩
    exact absurd hseq (not_supported_of_messages_eq_zero hempty seq)
  · obtain ⟨hinv, hdone⟩ := inv_search hmono _ (inv_start stream)
    exact hinv.floor hdone _

theorem replayFloor_le (hmono : stream.Monotone) {seq : Nat} (h : stream.Supported seq) :
    stream.replayFloor.1.floor ≤ seq :=
  ((replayFloor_least hmono).1 ⟨seq, h⟩).2 h

/-- The search ends after at most one call more than the binary logarithm of the number of
sequences, at the least sequence whose message this build reads; or behind the last one, if
there is none. -/
theorem replay_floor_exact (stream : Stream) (hmono : stream.Monotone) :
    stream.replayFloor.2 ≤ Nat.log2 (stream.lastSequence + 1 - stream.firstSequence) + 1 ∧
    ((∃ seq, stream.Supported seq) → IsLeast {seq | stream.Supported seq} stream.replayFloor.1.floor) ∧
    ((∀ seq, ¬ stream.Supported seq) → stream.replayFloor.1.floor = stream.lastSequence + 1) := by
  refine ⟨?_, replayFloor_least hmono⟩
  unfold replayFloor
  split
  · exact Nat.zero_le _
  · exact search_calls stream _ _ Nat.lt_log2_self

/-- An old message, a deleted one, one that is no event, and one this build reads. -/
def fourSequences : Stream where
  firstSequence := 5
  lastSequence := 8
  message seq := if seq = 5 then some (some 2) else if seq = 7 then some none else if seq = 8 then some (some 3) else none
  inside seq h := by
    split at h
    · omega
    · split at h
      · omega
      · split at h
        · omega
        · cases h
  fits := by decide

theorem fourSequences_supported (seq : Nat) : fourSequences.Supported seq ↔ seq = 8 := by
  constructor
  · rintro ⟨v, hv, hin⟩
    simp only [version, fourSequences] at hv
    split at hv
    · cases hv
      exact absurd hin (by decide)
    · split at hv
      · cases hv
      · split at hv
        · assumption
        · cases hv
  · rintro rfl
    exact ⟨3, rfl, by decide⟩

theorem fourSequences_monotone : fourSequences.Monotone := by
  intro old new ⟨v, hv, hout⟩ hnew
  rw [(fourSequences_supported new).mp hnew]
  have hinside := fourSequences.inside old (by
    cases hmessage : fourSequences.message old with
    | none => simp [version, hmessage] at hv
    | some _ => rfl)
  have hne : old ≠ 8 := by
    rintro rfl
    cases hv
    exact hout (by decide)
  have hle : old ≤ 8 := hinside.2
  omega

theorem fourSequences_floor :
    fourSequences.Monotone ∧ IsLeast {seq | fourSequences.Supported seq} fourSequences.replayFloor.1.floor :=
  ⟨fourSequences_monotone,
    (replay_floor_exact fourSequences fourSequences_monotone).2.1 ⟨8, (fourSequences_supported 8).mpr rfl⟩⟩

end Stream

end FactorQ.Projection
