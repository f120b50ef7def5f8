/-
# `FactorQ.Tools.Output` — what is kept of a child's output

A stream is read in pieces of at most 8192 bytes until its end, an error or the signal to
stop.  The head capture keeps what fits under the cap; the tail capture lets its window grow
to twice the cap before it cuts it back.  The invariant of the tail is `Tail`: the buffer ends
what was read, and it is all of it or at least the cap.

Sizes are `usize` and wrap, as in the shipped build; `none` is a `drain` of a range the buffer
does not have.  Neither happens for a stream and a cap that `capture_exact` allows, and the cap
of the one caller is `maxOutputBytes`.  `String::from_utf8_lossy` is a parameter.
-/
import Mathlib.Tactic

namespace FactorQ.Tools

/-- How to bound what is shown beyond the byte cap. -/
inductive LineLimit where
  | none
  | head (n : Nat)
  | tail (n : Nat)
deriving DecidableEq

/-- What the loop can wake up to; a read of no bytes is the end of the stream. -/
inductive Wake where
  | read (scratch : List UInt8)
  | readError
  | stopChanged (stop : Bool)
  | stopClosed
deriving DecidableEq

structure Capture where
  buf : List UInt8
  total : Nat
deriving DecidableEq

def Capture.init : Capture := ⟨[], 0⟩

def usizeSize : Nat := 2 ^ 64

/-- The scratch buffer of a read. -/
def scratchSize : Nat := 8 * 1024

/-- The `max_output_bytes` that every shell is configured with. -/
def maxOutputBytes : Nat := 100 * 1024

def keepHead (maxBytes : Nat) (c : Capture) (scratch : List UInt8) : Option Capture :=
  some {
    total := (c.total + scratch.length) % usizeSize
    buf := if c.buf.length < maxBytes then c.buf ++ scratch.take (min (maxBytes - c.buf.length) scratch.length)
      else c.buf }

def keepTail (maxBytes : Nat) (c : Capture) (scratch : List UInt8) : Option Capture :=
  let total := (c.total + scratch.length) % usizeSize
  let buf := c.buf ++ scratch
  if 2 * maxBytes % usizeSize < buf.length then
    -- the difference wraps to more than the buffer has
    if buf.length < maxBytes then none else some ⟨buf.drop (buf.length - maxBytes), total⟩
  else some ⟨buf, total⟩

/-- The loop of both captures; the flag says that the signal cut it. -/
def readLoop (keep : Capture → List UInt8 → Option Capture) (c : Capture) : List Wake → Option (Capture × Bool)
  | [] | .read [] :: _ | .readError :: _ => some (c, false)
  | .stopChanged true :: _ | .stopClosed :: _ => some (c, true)
  | .stopChanged false :: wakes => readLoop keep c wakes
  | .read scratch :: wakes => (keep c scratch).bind fun c => readLoop keep c wakes

def readCapped (maxBytes : Nat) (wakes : List Wake) : Option (List UInt8 × Nat × Bool) :=
  (readLoop (keepHead maxBytes) .init wakes).map fun (c, cut) => (c.buf, c.total, cut)

def readCappedTail (maxBytes : Nat) (wakes : List Wake) : Option (List UInt8 × Nat × Bool) :=
  (readLoop (keepTail maxBytes) .init wakes).map fun (c, cut) =>
    (if maxBytes < c.buf.length then c.buf.drop (c.buf.length - maxBytes) else c.buf, c.total, cut)

/-! ## The text shown -/

def humanBytes (n : Nat) : String :=
  let kib := 1024
  let mib := 1024 * 1024
  if mib ≤ n then s!"{n / mib}.{(n % mib) * 10 / mib} MiB"
  else if kib ≤ n then s!"{n / kib}.{(n % kib) * 10 / kib} KiB"
  else s!"{n} B"

/-- The pieces of a text, each with the line feed that ends it. -/
def splitInclusive : List Char → List (List Char)
  | [] => []
  | c :: text =>
    if c = '\n' then [c] :: splitInclusive text
    else match splitInclusive text with
      | [] => [[c]]
      | line :: lines => (c :: line) :: lines

/-- A line feed goes, and a carriage return before it. -/
def stripEol (line : List Char) : List Char :=
  if line.getLast? = some '\n' then
    if line.dropLast.getLast? = some '\r' then line.dropLast.dropLast else line.dropLast
  else line

/-- `str::lines`. -/
def lines (text : List Char) : List (List Char) := (splitInclusive text).map stripEol

def firstLines (text : List Char) (n : Nat) : List Char × Bool :=
  (['\n'].intercalate ((lines text).take n), !((lines text).drop n).isEmpty)

def lastLines (text : List Char) (n : Nat) : List Char × Bool :=
  let all := lines text
  (['\n'].intercalate (all.drop (all.length - n)), n < all.length)

def renderStream (lossy : List UInt8 → List Char) (bytes : List UInt8) (total : Nat) :
    LineLimit → List Char × Option String
  | .none =>
    (lossy bytes, if bytes.length < total then
      some (s!"truncated at the byte cap: kept {humanBytes bytes.length} of {humanBytes total} — " ++
        "use max_lines / tail_lines to choose what you keep") else none)
  | .head n =>
    let (shown, more) := firstLines (lossy bytes) n
    (shown, if more || bytes.length < total then
      some s!"showing the first {n} line(s); more output followed" else none)
  | .tail n =>
    let (shown, more) := lastLines (lossy bytes) n
    (shown, if more || bytes.length < total then
      some s!"showing the last {n} line(s); earlier output omitted" else none)

/-! ## What the output is for -/

/-- The lines a limit leaves, and those it hides. -/
def LineLimit.split : LineLimit → List (List Char) → List (List Char) × List (List Char)
  | .none, all => (all, [])
  | .head n, all => (all.take n, all.drop n)
  | .tail n, all => (all.drop (all.length - n), all.take (all.length - n))

/-- The text of the lines a limit leaves is shown, and a note stands exactly if a byte was not
captured or a line is hidden. -/
def Announced (lossy : List UInt8 → List Char) (bytes : List UInt8) (total : Nat) (limit : LineLimit) : Prop :=
  (renderStream lossy bytes total limit).1 =
      (if limit = .none then lossy bytes else ['\n'].intercalate (limit.split (lines (lossy bytes))).1) ∧
    ((renderStream lossy bytes total limit).2.isSome = true ↔
      bytes.length < total ∨ (limit.split (lines (lossy bytes))).2 ≠ [])

theorem renderStream_announced (lossy : List UInt8 → List Char) (bytes : List UInt8) (total : Nat)
    (limit : LineLimit) : Announced lossy bytes total limit := by
  cases limit with
  | none => simp [Announced, renderStream, LineLimit.split]
  | head n => simp [Announced, renderStream, LineLimit.split, firstLines, or_comm]
  | tail n =>
    refine ⟨by simp [renderStream, LineLimit.split, lastLines], ?_⟩
    have hhidden : (lines (lossy bytes)).take ((lines (lossy bytes)).length - n) ≠ [] ↔
        n < (lines (lossy bytes)).length := by
      rw [← List.length_pos_iff, List.length_take]
      omega
    simp only [LineLimit.split, hhidden]
    simp [renderStream, lastLines, or_comm]

/-- The pieces read, in order. -/
def pieces : List Wake → List (List UInt8)
  | [] => []
  | .read scratch :: wakes => scratch :: pieces wakes
  | _ :: wakes => pieces wakes

/-- The loop goes on: a read has bytes, no more than fit the scratch buffer, and no signal
stops it. -/
def Wake.Continues : Wake → Prop
  | .read scratch => 0 < scratch.length ∧ scratch.length ≤ scratchSize
  | .stopChanged stop => stop = false
  | .readError | .stopClosed => False

/-- The capture goes on to the end of the stream. -/
def ToEnd (wakes : List Wake) : Prop := ∀ wake ∈ wakes, wake.Continues

variable {wakes : List Wake} {keep : Capture → List UInt8 → Option Capture}

theorem readLoop_toEnd (h : ToEnd wakes) (c : Capture) :
    readLoop keep c wakes = ((pieces wakes).foldlM keep c).map (·, false) := by
  induction wakes generalizing c with
  | nil => rfl
  | cons wake wakes ih =>
    have hwake := h wake List.mem_cons_self
    have hrest : ToEnd wakes := fun w hw => h w (List.mem_cons_of_mem _ hw)
    cases wake with
    | read scratch =>
      cases scratch with
      | nil => exact absurd hwake.1 (lt_irrefl 0)
      | cons b scratch =>
        rw [readLoop, pieces, List.foldlM_cons]
        · cases keep c (b :: scratch) with
          | none => rfl
          | some c => exact ih hrest c
        · rintro ⟨⟩
    | readError => exact hwake.elim
    | stopChanged stop =>
      obtain rfl : stop = false := hwake
      exact ih hrest c
    | stopClosed => exact hwake.elim

theorem pieces_append (before after : List Wake) : pieces (before ++ after) = pieces before ++ pieces after := by
  induction before with
  | nil => rfl
  | cons wake before ih =>
    cases wake with
    | read scratch => exact congrArg (scratch :: ·) ih
    | readError => exact ih
    | stopChanged stop => exact ih
    | stopClosed => exact ih

/-! ## The head -/

theorem foldlM_keepHead (maxBytes : Nat) (reads : List (List UInt8)) (w : List UInt8)
    (hfit : (w ++ reads.flatten).length < usizeSize) :
    reads.foldlM (keepHead maxBytes) ⟨w.take maxBytes, w.length⟩ =
      some ⟨(w ++ reads.flatten).take maxBytes, (w ++ reads.flatten).length⟩ := by
  induction reads generalizing w with
  | nil => simp
  | cons scratch reads ih =>
    rw [List.flatten_cons, ← List.append_assoc] at hfit ⊢
    have htotal : (w.length + scratch.length) % usizeSize = (w ++ scratch).length := by
      rw [List.length_append] at hfit ⊢
      exact Nat.mod_eq_of_lt (by rw [List.length_append] at hfit; omega)
    rw [List.foldlM_cons, keepHead]
    have hbuf : (if (w.take maxBytes).length < maxBytes then
        w.take maxBytes ++ scratch.take (min (maxBytes - (w.take maxBytes).length) scratch.length)
        else w.take maxBytes) = (w ++ scratch).take maxBytes := by
      rw [List.take_append, List.length_take]
      split
      · next hlt =>
        rw [show maxBytes - min maxBytes w.length = maxBytes - w.length by omega, ← List.take_eq_take_min]
      · next hge => rw [show maxBytes - w.length = 0 by omega, List.take_zero, List.append_nil]
    dsimp only [Option.bind_eq_bind, Option.bind_some]
    rw [hbuf, htotal]
    exact ih (w ++ scratch) hfit

/-! ## The tail -/

/-- The window after `w` was read. -/
structure Tail (maxBytes : Nat) (w : List UInt8) (c : Capture) : Prop where
  total : c.total = w.length
  ends : c.buf <:+ w
  enough : c.buf = w ∨ maxBytes ≤ c.buf.length
  small : c.buf.length ≤ 2 * maxBytes

theorem Tail.init (maxBytes : Nat) : Tail maxBytes [] .init :=
  ⟨rfl, List.suffix_rfl, .inl rfl, Nat.zero_le _⟩

variable {maxBytes : Nat} {w : List UInt8} {c : Capture}

theorem Tail.keepTail (hc : Tail maxBytes w c) (scratch : List UInt8) (hcap : 2 * maxBytes < usizeSize)
    (hfit : (w ++ scratch).length < usizeSize) :
    ∃ c', Tools.keepTail maxBytes c scratch = some c' ∧ Tail maxBytes (w ++ scratch) c' := by
  have hends : c.buf ++ scratch <:+ w ++ scratch := by
    obtain ⟨before, h⟩ := hc.ends
    exact ⟨before, by rw [← List.append_assoc, h]⟩
  have htotal : (c.total + scratch.length) % usizeSize = (w ++ scratch).length := by
    rw [hc.total, ← List.length_append]
    exact Nat.mod_eq_of_lt hfit
  rw [Tools.keepTail, Nat.mod_eq_of_lt hcap]
  split
  · next hcut =>
    have hlen : ((c.buf ++ scratch).drop ((c.buf ++ scratch).length - maxBytes)).length = maxBytes := by
      rw [List.length_drop]
      omega
    rw [if_neg (by omega)]
    refine ⟨_, rfl, htotal, (List.drop_suffix _ _).trans hends, .inr hlen.ge, ?_⟩
    rw [hlen]
    omega
  · next hle =>
    refine ⟨_, rfl, htotal, hends, ?_, not_lt.mp hle⟩
    rcases hc.enough with heq | hge
    · exact .inl (by rw [heq])
    · refine .inr ?_
      rw [List.length_append]
      omega

theorem Tail.foldlM (hcap : 2 * maxBytes < usizeSize) (reads : List (List UInt8)) (hc : Tail maxBytes w c)
    (hfit : (w ++ reads.flatten).length < usizeSize) :
    ∃ c', reads.foldlM (Tools.keepTail maxBytes) c = some c' ∧ Tail maxBytes (w ++ reads.flatten) c' := by
  induction reads generalizing w c with
  | nil => exact ⟨c, rfl, by simpa using hc⟩
  | cons scratch reads ih =>
    rw [List.flatten_cons, ← List.append_assoc] at hfit ⊢
    have hfit₁ : (w ++ scratch).length < usizeSize := by
      rw [List.length_append] at hfit
      omega
    obtain ⟨c₁, h₁, hc₁⟩ := hc.keepTail scratch hcap hfit₁
    rw [List.foldlM_cons, h₁]
    exact ih hc₁ hfit

/-- The last trim leaves the end of the stream. -/
theorem Tail.trimmed (hc : Tail maxBytes w c) :
    (if maxBytes < c.buf.length then c.buf.drop (c.buf.length - maxBytes) else c.buf) =
      w.drop (w.length - maxBytes) := by
  obtain ⟨before, h⟩ := hc.ends
  split
  · next hlt =>
    rw [← h, List.drop_append, List.length_append,
      List.drop_of_length_le (l := before) (by omega), List.nil_append]
    congr 1
    omega
  · next hle =>
    rcases hc.enough with heq | hge
    · rw [heq] at hle ⊢
      rw [show w.length - maxBytes = 0 by omega, List.drop_zero]
    · rw [← h, List.length_append, show before.length + c.buf.length - maxBytes = before.length by omega,
        List.drop_left]

/-! ## The capture as a whole -/

/-- The output of a child is captured under `maxBytes` and announced under `limit` as it
should be, for a capture that goes on to the end of the stream. -/
structure Exact (lossy : List UInt8 → List Char) (maxBytes : Nat) (limit : LineLimit) (wakes : List Wake) : Prop where
  head : readCapped maxBytes wakes =
    some ((pieces wakes).flatten.take (min maxBytes (pieces wakes).flatten.length),
      (pieces wakes).flatten.length, false)
  tail : readCappedTail maxBytes wakes =
    some ((pieces wakes).flatten.drop ((pieces wakes).flatten.length - min maxBytes (pieces wakes).flatten.length),
      (pieces wakes).flatten.length, false)
  /-- The buffer of the tail before and after each read. -/
  bounded : ∀ before scratch after c, wakes = before ++ Wake.read scratch :: after →
    readLoop (keepTail maxBytes) .init before = some (c, false) →
    (c.buf ++ scratch).length ≤ 2 * maxBytes + scratchSize
  announced : ∀ bytes total cut, readCapped maxBytes wakes = some (bytes, total, cut) ∨
    readCappedTail maxBytes wakes = some (bytes, total, cut) → Announced lossy bytes total limit

theorem tail_run (hfit : (pieces wakes).flatten.length < usizeSize) (hcap : 2 * maxBytes < usizeSize) :
    ∃ c, (pieces wakes).foldlM (keepTail maxBytes) .init = some c ∧ Tail maxBytes (pieces wakes).flatten c :=
  (Tail.init maxBytes).foldlM hcap (pieces wakes) hfit

/-- Of a capture to the end of the stream everything holds, if its length is a `usize` and so is
twice the cap. -/
theorem capture_exact (lossy : List UInt8 → List Char) (maxBytes : Nat) (limit : LineLimit) (wakes : List Wake)
    (hend : ToEnd wakes) (hfit : (pieces wakes).flatten.length < usizeSize) (hcap : 2 * maxBytes < usizeSize) :
    Exact lossy maxBytes limit wakes where
  head := by
    rw [readCapped, readLoop_toEnd hend, show Capture.init = ⟨[].take maxBytes, [].length⟩ by rw [List.take_nil]; rfl,
      foldlM_keepHead maxBytes _ [] hfit, ← List.take_eq_take_min]
    rfl
  tail := by
    obtain ⟨c, hc, htail⟩ := tail_run hfit hcap
    have hdrop : (pieces wakes).flatten.length - min maxBytes (pieces wakes).flatten.length =
        (pieces wakes).flatten.length - maxBytes := by omega
    rw [readCappedTail, readLoop_toEnd hend, hc, hdrop, ← htail.trimmed, ← htail.total]
    rfl
  bounded := by
    rintro before scratch after c rfl hrun
    have hbefore : ToEnd before := fun w hw => hend w (List.mem_append_left _ hw)
    have hscratch := hend (.read scratch) (by simp)
    rw [pieces_append, List.flatten_append] at hfit
    have hfit₁ : (pieces before).flatten.length < usizeSize := by
      rw [List.length_append] at hfit
      omega
    obtain ⟨c', hc', htail⟩ := tail_run hfit₁ hcap
    rw [readLoop_toEnd hbefore, hc'] at hrun
    cases hrun
    rw [List.length_append]
    exact Nat.add_le_add htail.small hscratch.2
  announced := fun bytes total _ _ => renderStream_announced lossy bytes total limit

/-- Three bytes in two reads, under a cap of two and under the cap of the program. -/
theorem short_stream_captured :
    Exact (List.map fun b => Char.ofNat b.toNat) 2 (.tail 1) [.read [1, 2], .stopChanged false, .read [3]] ∧
    Exact (List.map fun b => Char.ofNat b.toNat) maxOutputBytes .none [.read [1, 2], .stopChanged false, .read [3]] :=
  have hend : ToEnd [.read [1, 2], .stopChanged false, .read [3]] := by simp [ToEnd, Wake.Continues, scratchSize]
  ⟨capture_exact _ 2 (.tail 1) _ hend (by decide) (by decide),
    capture_exact _ maxOutputBytes .none _ hend (by decide) (by decide)⟩

end FactorQ.Tools
