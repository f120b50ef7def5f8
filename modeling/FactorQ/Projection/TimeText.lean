/-
# `FactorQ.Projection.TimeText` — stored times compare like times

An instant is a number of nanoseconds from the start of the year 0.  What is stored is its text
in UTC as `chrono` prints it, with as many groups of three digits of the second as it needs and no more:

    2026-03-01T09:30:00+00:00
    2026-03-01T09:30:00.250+00:00

A text of one length is compared with a text of another in the sweeps and in the order of the
pane.  Up to the seconds all texts have one length (`Lib.FixedText`).  After that the character
that ends the shorter text is a plus sign, which comes before the point and before every digit.
The printer is a parameter of which just this is known (`Prints`); `gregorian` is one.
-/
import FactorQ.Lib.FixedText
import FactorQ.Projection.Store

namespace FactorQ.Projection

open Lib

/-! ## The calendar -/

def isLeap (year : Nat) : Bool := year % 4 = 0 && (year % 100 ≠ 0 || year % 400 = 0)

/-- The days before a year. -/
def yearStart (year : Nat) : Nat := 365 * year + (year + 3) / 4 - (year + 99) / 100 + (year + 399) / 400

/-- The days of a year before a month, counted from 0. -/
def monthStart (leap : Bool) (month : Nat) : Nat :=
  [0, 31, 59, 90, 120, 151, 181, 212, 243, 273, 304, 334, 365].getD month 0 + if leap && 2 ≤ month then 1 else 0

def dayText (leap : Bool) (day : Nat) : List Char :=
  let month := partAt (monthStart leap) 11 day
  pad 2 (month + 1) ++ ['-'] ++ pad 2 (day - monthStart leap month + 1)

def dateText (day : Nat) : List Char :=
  let year := partAt yearStart 9999 day
  pad 4 year ++ ['-'] ++ dayText (isLeap year) (day - yearStart year)

def clockText (second : Nat) : List Char :=
  pad 2 (second / 60 / 60) ++ [':'] ++ pad 2 (second / 60 % 60) ++ [':'] ++ pad 2 (second % 60)

/-- The fewest groups of three digits that are exact. -/
def fractionText (nanos : Nat) : List Char :=
  if nanos = 0 then []
  else if nanos % 10 ^ 6 = 0 then '.' :: pad 3 (nanos / 10 ^ 6)
  else if nanos % 10 ^ 3 = 0 then '.' :: pad 6 (nanos / 10 ^ 3)
  else '.' :: pad 9 nanos

def utcOffset : List Char := "+00:00".toList

def secondText (second : Nat) : List Char := dateText (second / 86400) ++ ['T'] ++ clockText (second % 86400)

/-- The first instant of the year 10000. -/
def endOfTime : Nat := yearStart 10000 * 86400 * 10 ^ 9

/-- `to_rfc3339` prints the date and the time of day, in texts of one length that order like the
seconds, then a fraction of 0, 3, 6 or 9 digits and the offset. -/
def Prints (toRfc3339 : Nat → String) : Prop :=
  ∃ secondText, Fixed (yearStart 10000 * 86400) 19 secondText ∧ ∀ instant < endOfTime, toRfc3339 instant =
    String.ofList (secondText (instant / 10 ^ 9) ++ (fractionText (instant % 10 ^ 9) ++ utcOffset))

def gregorian (instant : Nat) : String :=
  String.ofList (secondText (instant / 10 ^ 9) ++ (fractionText (instant % 10 ^ 9) ++ utcOffset))

/-! ## The order of the texts -/

theorem yearStart_succ (year : Nat) : yearStart (year + 1) = yearStart year + (if isLeap year then 366 else 365) := by
  -- each of the three counts goes up after a year that it counts
  have h4 : (year + 1 + 3) / 4 = (year + 3) / 4 + if year % 4 = 0 then 1 else 0 := by split <;> omega
  have h100 : (year + 1 + 99) / 100 = (year + 99) / 100 + if year % 100 = 0 then 1 else 0 := by split <;> omega
  have h400 : (year + 1 + 399) / 400 = (year + 399) / 400 + if year % 400 = 0 then 1 else 0 := by split <;> omega
  have hle : (year + 99) / 100 ≤ (year + 3) / 4 := by omega
  have hcenturies : year % 100 = 0 → year % 4 = 0 := by omega
  have hfourth : year % 400 = 0 → year % 100 = 0 := by omega
  rw [yearStart, yearStart, h4, h100, h400]
  generalize (year + 3) / 4 = a at *
  generalize (year + 99) / 100 = b at *
  generalize (year + 399) / 400 = c at *
  by_cases hfour : year % 4 = 0
  · by_cases hhundred : year % 100 = 0
    · by_cases hfourhundred : year % 400 = 0
      · simp only [isLeap, hfour, hhundred, hfourhundred, decide_true, if_true, Bool.or_true, Bool.and_self]
        omega
      · simp [isLeap, hfour, hhundred, hfourhundred]
        omega
    · have hfourhundred : year % 400 ≠ 0 := fun h => hhundred (hfourth h)
      simp [isLeap, hfour, hhundred, hfourhundred]
      omega
  · have hhundred : year % 100 ≠ 0 := fun h => hfour (hcenturies h)
    have hfourhundred : year % 400 ≠ 0 := fun h => hhundred (hfourth h)
    simp [isLeap, hfour, hhundred, hfourhundred]
    omega

theorem fixed_dayText (leap : Bool) : Fixed (monthStart leap 12) 5 (dayText leap) := by
  have hmonth : Fixed (11 + 1) 2 fun month => pad 2 (month + 1) :=
    ((fixed_pad 2).restrict (by decide : 13 ≤ 10 ^ 2)).shift
  have hday : ∀ i < 11 + 1, Fixed (monthStart leap (i + 1) - monthStart leap i) 2 fun day => pad 2 (day + 1) := by
    intro i hi
    have hsize : monthStart leap (i + 1) - monthStart leap i + 1 ≤ 10 ^ 2 := by
      revert i
      cases leap <;> decide
    exact ((fixed_pad 2).restrict hsize).shift
  have h0 : monthStart leap 0 = 0 := by cases leap <;> rfl
  exact hmonth.search ['-'] h0 hday

theorem fixed_dateText : Fixed (yearStart 10000) 10 dateText := by
  have hyear : Fixed (9999 + 1) 4 (pad 4) := fixed_pad 4
  have hday : ∀ year < 9999 + 1, Fixed (yearStart (year + 1) - yearStart year) 5 (dayText (isLeap year)) := by
    intro year _
    have hsize : yearStart (year + 1) - yearStart year = monthStart (isLeap year) 12 := by
      rw [yearStart_succ, Nat.add_sub_cancel_left]
      cases isLeap year <;> rfl
    rw [hsize]
    exact fixed_dayText (isLeap year)
  exact hyear.search ['-'] rfl hday

theorem fixed_clockText : Fixed 86400 8 clockText := by
  have hpart : Fixed 60 2 (pad 2) := (fixed_pad 2).restrict (by decide)
  have hhour : Fixed 24 2 (pad 2) := (fixed_pad 2).restrict (by decide)
  exact (hhour.divMod [':'] hpart (by decide)).divMod [':'] hpart (by decide)

theorem fixed_secondText : Fixed (yearStart 10000 * 86400) 19 secondText :=
  fixed_dateText.divMod ['T'] fixed_clockText (by decide)

theorem gregorian_prints : Prints gregorian := ⟨secondText, fixed_secondText, fun _ _ => rfl⟩

/-! ## Fractions -/

/-- The groups of a fraction one after another; where the rest is zero the offset follows. -/
def groupsText : Nat → Nat → List Char
  | 0, _ => utcOffset
  | groups + 1, rest =>
    if rest = 0 then utcOffset
    else pad 3 (rest / 1000 ^ groups) ++ groupsText groups (rest % 1000 ^ groups)

theorem utcOffset_lt_pad (n : Nat) (rest : List Char) : utcOffset < pad 3 n ++ rest := by
  have hdigit : ∀ d < 10, '+' < Nat.digitChar d := by decide
  have hhead : ∃ d < 10, ∃ tail, pad 3 n = Nat.digitChar d :: tail :=
    ⟨n / 10 / 10 % 10, Nat.mod_lt _ (by decide), _, rfl⟩
  obtain ⟨d, hd, tail, htail⟩ := hhead
  rw [htail]
  exact List.cons_lt_cons_iff.2 (.inl (hdigit d hd))

theorem groupsText_mono (groups : Nat) {x y : Nat} (hxy : x < y) (hy : y < 1000 ^ groups) :
    groupsText groups x < groupsText groups y := by
  induction groups generalizing x y with
  | zero =>
    rw [pow_zero] at hy
    omega
  | succ groups ih =>
    have hsize : ∀ z < 1000 ^ (groups + 1), z / 1000 ^ groups < 10 ^ 3 := by
      intro z hz
      rw [pow_succ, Nat.mul_comm] at hz
      exact Nat.div_lt_of_lt_mul (by rwa [Nat.mul_comm])
    have hpos : 0 < 1000 ^ groups := Nat.pow_pos (by decide)
    rw [groupsText, groupsText, if_neg (show y ≠ 0 by omega)]
    split
    · exact utcOffset_lt_pad _ _
    · rcases (Nat.div_le_div_right (c := 1000 ^ groups) hxy.le).lt_or_eq with hlt | heq
      · have hlen := ((fixed_pad 3).length _ (hsize x (hxy.trans hy))).trans
          ((fixed_pad 3).length _ (hsize y hy)).symm
        exact append_lt_append hlen ((fixed_pad 3).mono _ _ hlt (hsize y hy)) _ _
      · rw [heq]
        refine List.append_left_lt (ih ?_ (Nat.mod_lt _ hpos))
        have hx := Nat.div_add_mod x (1000 ^ groups)
        have hy' := Nat.div_add_mod y (1000 ^ groups)
        rw [heq] at hx
        omega

theorem fractionText_eq (nanos : Nat) :
    fractionText nanos ++ utcOffset = if nanos = 0 then utcOffset else '.' :: groupsText 3 nanos := by
  rw [fractionText]
  by_cases h0 : nanos = 0
  · rw [if_pos h0, if_pos h0, List.nil_append]
  rw [if_neg h0, if_neg h0, groupsText, if_neg h0, groupsText]
  by_cases h6 : nanos % 10 ^ 6 = 0
  · rw [if_pos h6, if_pos (show nanos % 1000 ^ 2 = 0 from h6)]
    rfl
  rw [if_neg h6, if_neg (show ¬ nanos % 1000 ^ 2 = 0 from h6), groupsText]
  have hsplit : nanos % 1000 ^ 2 % 1000 ^ 1 = nanos % 10 ^ 3 := by omega
  have hmid : nanos / 10 ^ 3 % 10 ^ 3 = nanos % 1000 ^ 2 / 1000 ^ 1 := by omega
  have htop : nanos / 10 ^ 3 / 10 ^ 3 = nanos / 1000 ^ 2 := by omega
  rw [hsplit]
  by_cases h3 : nanos % 10 ^ 3 = 0
  · rw [if_pos h3, if_pos h3, pad_add 3 3, hmid, htop, List.cons_append, List.append_assoc]
  · rw [if_neg h3, if_neg h3, pad_add 6 3, pad_add 3 3, hmid, htop, groupsText]
    simp [List.append_assoc]

theorem fraction_mono {x y : Nat} (hxy : x < y) (hy : y < 10 ^ 9) :
    fractionText x ++ utcOffset < fractionText y ++ utcOffset := by
  rw [fractionText_eq, fractionText_eq, if_neg (show y ≠ 0 by omega)]
  split
  · exact List.cons_lt_cons_iff.2 (.inl (by decide))
  · exact List.cons_lt_cons_iff.2 (.inr ⟨rfl, groupsText_mono 3 hxy hy⟩)

section Printers

variable {toRfc3339 : Nat → String} (hprints : Prints toRfc3339)

include hprints

theorem toRfc3339_mono {x y : Nat} (hxy : x < y) (hy : y < endOfTime) : toRfc3339 x < toRfc3339 y := by
  obtain ⟨secondText, hfixed, htext⟩ := hprints
  rw [htext x (hxy.trans hy), htext y hy, String.lt_iff_toList_lt, String.toList_ofList, String.toList_ofList]
  have hsecond : ∀ z < endOfTime, z / 10 ^ 9 < yearStart 10000 * 86400 := by
    intro z hz
    exact Nat.div_lt_of_lt_mul (by rwa [Nat.mul_comm])
  rcases (Nat.div_le_div_right (c := 10 ^ 9) hxy.le).lt_or_eq with hlt | heq
  · have hlen := (hfixed.length _ (hsecond x (hxy.trans hy))).trans (hfixed.length _ (hsecond y hy)).symm
    exact append_lt_append hlen (hfixed.mono _ _ hlt (hsecond y hy)) _ _
  · rw [heq]
    refine List.append_left_lt (fraction_mono ?_ (Nat.mod_lt _ (by decide)))
    omega

/-- Stored times order like the instants they stand for. -/
theorem toRfc3339_lt_iff {x y : Nat} (hx : x < endOfTime) (hy : y < endOfTime) :
    toRfc3339 x < toRfc3339 y ↔ x < y := by
  refine ⟨fun h => ?_, fun h => toRfc3339_mono hprints h hy⟩
  by_contra hle
  rcases (not_lt.1 hle).lt_or_eq with hlt | rfl
  · exact lt_asymm h (toRfc3339_mono hprints hlt hx)
  · exact lt_irrefl _ h

theorem toRfc3339_inj {x y : Nat} (hx : x < endOfTime) (hy : y < endOfTime) :
    toRfc3339 x = toRfc3339 y ↔ x = y := by
  refine ⟨fun h => ?_, congrArg toRfc3339⟩
  rcases lt_trichotomy x y with hlt | heq | hlt
  · exact absurd h (toRfc3339_mono hprints hlt hy).ne
  · exact heq
  · exact absurd h (toRfc3339_mono hprints hlt hx).ne'

end Printers

/-! ## The sweeps and the order of the pane -/

/-- The instant of a time in milliseconds since 1970. -/
def ofMillis (millis : Int) : Nat := ((yearStart 1970 * 86400 * 1000 : Nat) + millis).toNat * 10 ^ 6

/-- The years 0 to 9999. -/
def InRange (millis : Int) : Prop :=
  0 ≤ ((yearStart 1970 * 86400 * 1000 : Nat) + millis : Int) ∧ ofMillis millis < endOfTime

namespace Store

def sweepEventsBatched (toRfc3339 : Nat → String) (cutoffMs : Int) (batch : Nat) (hbatch : 0 < batch)
    (s : Store) : Store :=
  { s with
    events := s.events.deleteBatched
      (fun _ row => row.columns.timestamp < toRfc3339 (ofMillis cutoffMs) && row.columns.fields.totalCost.isNone)
      batch hbatch }

def sweepOperatorSignalsBatched (toRfc3339 : Nat → String) (cutoffMs : Int) (batch : Nat) (hbatch : 0 < batch)
    (s : Store) : Store :=
  { s with
    operatorSignals := s.operatorSignals.deleteBatched
      (fun _ row => row.columns.timestamp < toRfc3339 (ofMillis cutoffMs) && row.columns.severity ≠ .alert &&
        row.columns.resolves.isNone) batch hbatch }

/-- The times of the rows are the texts of these instants. -/
structure Timed (toRfc3339 : Nat → String) (s : Store) (eventAt signalAt : EventId → Nat) : Prop where
  events : ∀ id row, s.events.get? id = some row → eventAt id < endOfTime ∧
    row.columns.timestamp = toRfc3339 (eventAt id)
  signals : ∀ id row, s.operatorSignals.get? id = some row → signalAt id < endOfTime ∧
    row.columns.timestamp = toRfc3339 (signalAt id)

end Store

/-- The signals that come after `s`, by instant and then by id, and resolve its kind. -/
def closers (signals : List (EventId × SignalColumns)) (signalAt : EventId → Nat) (s : EventId × SignalColumns) :
    Set EventId :=
  {id | ∃ r ∈ signals, r.1 = id ∧ r.2.kind = s.2.kind ∧ r.2.resolves.isSome = true ∧
    toLex (signalAt s.1, s.1) < toLex (signalAt r.1, r.1)}

section Pane

variable {toRfc3339 : Nat → String} {signals : List (EventId × SignalColumns)} {signalAt : EventId → Nat}
  (hprints : Prints toRfc3339)
  (htimes : ∀ r ∈ signals, signalAt r.1 < endOfTime ∧ r.2.timestamp = toRfc3339 (signalAt r.1))

include hprints htimes

theorem toLex_time_le {r r' : EventId × SignalColumns} (hr : r ∈ signals) (hr' : r' ∈ signals) :
    toLex (r.2.timestamp, r.1) ≤ toLex (r'.2.timestamp, r'.1) ↔
      toLex (signalAt r.1, r.1) ≤ toLex (signalAt r'.1, r'.1) := by
  obtain ⟨hx, hxt⟩ := htimes r hr
  obtain ⟨hy, hyt⟩ := htimes r' hr'
  rw [Prod.Lex.toLex_le_toLex, Prod.Lex.toLex_le_toLex]
  dsimp only
  rw [hxt, hyt, toRfc3339_lt_iff hprints hx hy, toRfc3339_inj hprints hx hy]

theorem resolutionMatch_iff {s r : EventId × SignalColumns} (hs : s ∈ signals) (hr : r ∈ signals) :
    Signals.resolutionMatch s r = true ↔ r.2.kind = s.2.kind ∧ r.2.resolves.isSome = true ∧
      toLex (signalAt s.1, s.1) < toLex (signalAt r.1, r.1) := by
  obtain ⟨hx, hxt⟩ := htimes s hs
  obtain ⟨hy, hyt⟩ := htimes r hr
  rw [Prod.Lex.toLex_lt_toLex]
  simp only [Signals.resolutionMatch, Bool.and_eq_true, Bool.or_eq_true, decide_eq_true_eq, and_assoc]
  rw [hxt, hyt, toRfc3339_lt_iff hprints hx hy, toRfc3339_inj hprints hy hx, eq_comm (a := signalAt r.1)]

/-- What is reported as closing a signal is the first of its closers. -/
theorem resolvedBy_iff {s : EventId × SignalColumns} (hs : s ∈ signals) (id : EventId) :
    Signals.resolvedBy signals s = some id ↔ id ∈ closers signals signalAt s ∧
      ∀ id' ∈ closers signals signalAt s, toLex (signalAt id, id) ≤ toLex (signalAt id', id') := by
  have hmem : ∀ first, first ∈ (signals.filter (Signals.resolutionMatch s)).map (fun r => toLex (r.2.timestamp, r.1)) ↔
      ∃ r ∈ signals, (r.2.kind = s.2.kind ∧ r.2.resolves.isSome = true ∧
        toLex (signalAt s.1, s.1) < toLex (signalAt r.1, r.1)) ∧ toLex (r.2.timestamp, r.1) = first := by
    intro first
    simp only [List.mem_map, List.mem_filter, and_assoc]
    refine exists_congr fun r => and_congr_right fun hr => ?_
    rw [resolutionMatch_iff hprints htimes hs hr]
    simp only [and_assoc]
  rw [Signals.resolvedBy, Option.map_eq_some_iff]
  simp only [List.min?_eq_some_iff, hmem]
  constructor
  · rintro ⟨_, ⟨⟨r, hr, hclose, rfl⟩, hleast⟩, rfl⟩
    refine ⟨⟨r, hr, rfl, hclose⟩, ?_⟩
    rintro _ ⟨r', hr', rfl, hclose'⟩
    exact (toLex_time_le hprints htimes hr hr').1 (hleast _ ⟨r', hr', hclose', rfl⟩)
  · rintro ⟨⟨r, hr, rfl, hclose⟩, hleast⟩
    refine ⟨_, ⟨⟨r, hr, hclose, rfl⟩, ?_⟩, rfl⟩
    rintro _ ⟨r', hr', hclose', rfl⟩
    exact (toLex_time_le hprints htimes hr hr').2 (hleast r'.1 ⟨r', hr', rfl, hclose'⟩)

theorem resolvedBy_eq_none {s : EventId × SignalColumns} (hs : s ∈ signals) :
    Signals.resolvedBy signals s = none ↔ closers signals signalAt s = ∅ := by
  rw [Signals.resolvedBy, Option.map_eq_none_iff, List.min?_eq_none_iff, List.map_eq_nil_iff, List.filter_eq_nil_iff,
    Set.eq_empty_iff_forall_notMem]
  constructor
  · rintro hnone _ ⟨r, hr, rfl, hclose⟩
    exact hnone r hr ((resolutionMatch_iff hprints htimes hs hr).2 hclose)
  · intro hempty r hr hmatch
    exact hempty r.1 ⟨r, hr, rfl, (resolutionMatch_iff hprints htimes hs hr).1 hmatch⟩

end Pane

/-- A batched delete of what a text puts before the cutoff deletes what is before it in time. -/
theorem get?_swept {toRfc3339 : Nat → String} (hprints : Prints toRfc3339) {ν : Type} {t : Table EventId ν}
    {time : ν → String} {at' : EventId → Nat}
    (htimes : ∀ id row, t.get? id = some row → at' id < endOfTime ∧ time row = toRfc3339 (at' id)) {cutoff : Nat}
    (hcutoff : cutoff < endOfTime) (p : ν → Bool) (batch : Nat) (hbatch : 0 < batch) (id : EventId) :
    (t.deleteBatched (fun _ row => time row < toRfc3339 cutoff && p row) batch hbatch).get? id =
      (t.get? id).filter fun row => !(decide (at' id < cutoff) && p row) := by
  rw [Table.deleteBatched_eq, Table.get?_delete]
  cases hrow : t.get? id with
  | none => rfl
  | some row =>
    obtain ⟨hlt, htext⟩ := htimes id row hrow
    have hsame : decide (time row < toRfc3339 cutoff) = decide (at' id < cutoff) := by
      rw [htext, decide_eq_decide]
      exact toRfc3339_lt_iff hprints hlt hcutoff
    rw [Option.filter_some, Option.filter_some, hsame]

/-- Over any stored rows, for any cutoff and any batch: the sweeps delete the rows whose instant is
before the cutoff and that are not exempt, and the signal that closes another is the first, by
instant and id, of those that come after it and resolve its kind. -/
theorem stored_times_order (toRfc3339 : Nat → String) (hprints : Prints toRfc3339) (s : Store)
    (eventAt signalAt : EventId → Nat) (htimed : s.Timed toRfc3339 eventAt signalAt) (cutoffMs : Int)
    (hcutoff : InRange cutoffMs) (batch : Nat) (hbatch : 0 < batch) :
    (∀ id, (s.sweepEventsBatched toRfc3339 cutoffMs batch hbatch).events.get? id =
      (s.events.get? id).filter fun row =>
        !(decide (eventAt id < ofMillis cutoffMs) && row.columns.fields.totalCost.isNone)) ∧
    (∀ id, (s.sweepOperatorSignalsBatched toRfc3339 cutoffMs batch hbatch).operatorSignals.get? id =
      (s.operatorSignals.get? id).filter fun row =>
        !(decide (signalAt id < ofMillis cutoffMs) && (decide (row.columns.severity ≠ .alert) && row.columns.resolves.isNone))) ∧
    ∀ signal ∈ s.signalRows,
      (Signals.resolvedBy s.signalRows signal = none ↔ closers s.signalRows signalAt signal = ∅) ∧
      ∀ id, Signals.resolvedBy s.signalRows signal = some id ↔ id ∈ closers s.signalRows signalAt signal ∧
        ∀ id' ∈ closers s.signalRows signalAt signal, toLex (signalAt id, id) ≤ toLex (signalAt id', id') := by
  have hrows : ∀ r ∈ s.signalRows, signalAt r.1 < endOfTime ∧ r.2.timestamp = toRfc3339 (signalAt r.1) := by
    intro r hr
    obtain ⟨row, hrow, rfl⟩ := List.mem_map.1 hr
    exact htimed.signals row.1 row.2 (Table.mem_rows.1 hrow)
  refine ⟨get?_swept hprints htimed.events hcutoff.2 _ batch hbatch, fun id => ?_, fun signal hsignal => ?_⟩
  · have hswept := get?_swept hprints htimed.signals hcutoff.2
      (fun row => decide (row.columns.severity ≠ .alert) && row.columns.resolves.isNone) batch hbatch id
    simpa only [Store.sweepOperatorSignalsBatched, Bool.and_assoc] using hswept
  · exact ⟨resolvedBy_eq_none hprints hrows hsignal, resolvedBy_iff hprints hrows hsignal⟩

/-! ## Around one cutoff -/

/-- Nanoseconds of 1970. -/
def nearCutoff (id : EventId) : Nat :=
  ofMillis 0 + if id = "alert" then 500000000 else if id = "resolver" then 500000001 else 999999999

def signal (severity : SignalSeverity) (resolves : Option EventId) (id : EventId) : SignalRow :=
  ⟨none, gregorian (nearCutoff id), "", "", severity, "", "disk.full", "", none, none, resolves⟩

/-- An event in the last nanosecond before the cutoff, and before it an alert and its resolver. -/
def aroundCutoff : Store :=
  { Store.empty with
    events := Table.empty.set "event" ⟨none, gregorian (nearCutoff "event"), "", "", "tool_call", .default⟩
    operatorSignals := (Table.empty.set "alert" (signal .alert none "alert")).set "resolver"
      (signal .notification (some "alert") "resolver") }

theorem aroundCutoff_timed : aroundCutoff.Timed gregorian nearCutoff nearCutoff := by
  have hrange : ∀ id, nearCutoff id < endOfTime := by
    intro id
    unfold nearCutoff
    split_ifs <;> decide
  constructor
  · intro id row h
    simp only [aroundCutoff, Table.get?_set] at h
    split_ifs at h with hid
    · subst hid; cases h; exact ⟨hrange _, rfl⟩
    · cases h
  · intro id row h
    simp only [aroundCutoff, Table.get?_set] at h
    split_ifs at h with hid hid'
    · subst hid; cases h; exact ⟨hrange _, rfl⟩
    · subst hid'; cases h; exact ⟨hrange _, rfl⟩
    · cases h

/-- The event has nine digits and the cutoff none; the alert, with three, is kept, and closed by a
signal with nine. -/
theorem aroundCutoff_swept :
    (aroundCutoff.sweepEventsBatched gregorian 1000 1 Nat.one_pos).events.get? "event" = none ∧
    (aroundCutoff.sweepOperatorSignalsBatched gregorian 1000 1 Nat.one_pos).operatorSignals.get? "alert" =
      some (signal .alert none "alert") ∧
    Signals.resolvedBy aroundCutoff.signalRows ("alert", (signal .alert none "alert").columns) = some "resolver" := by
  obtain ⟨hevents, hsignals, hpane⟩ := stored_times_order gregorian gregorian_prints aroundCutoff nearCutoff nearCutoff
    aroundCutoff_timed 1000 ⟨by decide, by decide⟩ 1 Nat.one_pos
  have hrow : ∀ id row, aroundCutoff.operatorSignals.get? id = some row → (id, row.columns) ∈ aroundCutoff.signalRows :=
    fun _ _ h => List.mem_map.2 ⟨_, Table.mem_rows.2 h, rfl⟩
  have hresolver := hrow "resolver" (signal .notification (some "alert") "resolver") rfl
  rw [hevents, hsignals]
  refine ⟨by decide +kernel, by rfl, ((hpane _ (hrow "alert" _ rfl)).2 "resolver").mpr
    ⟨⟨_, hresolver, rfl, rfl, rfl, ?_⟩, ?_⟩⟩
  · exact Prod.Lex.left _ _ (by decide +kernel)
  rintro _ ⟨r, hr, rfl, -, hresolves, -⟩
  obtain ⟨⟨id, row⟩, hmem, rfl⟩ := List.mem_map.1 hr
  have hget := Table.mem_rows.1 hmem
  simp only [aroundCutoff, Table.get?_set] at hget
  split_ifs at hget with hid hid'
  · exact (congrArg (fun id => toLex (nearCutoff id, id)) hid.symm).le
  · cases hget
    exact nomatch hresolves
  · exact nomatch hget

end FactorQ.Projection
