/-
# `Lib.FixedText` — texts of one length that order like the numbers they print

Texts compare character by character.  A printer whose texts are all of one length, and which
prints a greater number as a greater text, can be put before another: the pair compares by the
first number and then by the second.  So numbers written in parts, each of a fixed width and the
most significant first, compare as texts the way they compare as numbers.

The parts come from a division (`Fixed.divMod`) or from a table of where each part starts
(`Fixed.search`), as the months of a year do.
-/
import Mathlib.Data.String.Basic
import Mathlib.Tactic

namespace Lib

theorem append_lt_append {a b : List Char} (hlen : a.length = b.length) (h : a < b) (x y : List Char) :
    a ++ x < b ++ y := by
  induction a generalizing b with
  | nil =>
    cases b with
    | nil => exact absurd h (lt_irrefl _)
    | cons d b => cases hlen
  | cons c a ih =>
    cases b with
    | nil => cases hlen
    | cons d b =>
      rw [List.cons_append, List.cons_append, List.cons_lt_cons_iff]
      rcases List.cons_lt_cons_iff.1 h with hlt | ⟨heq, hlt⟩
      · exact .inl hlt
      · exact .inr ⟨heq, ih (Nat.succ.inj hlen) hlt⟩

/-- Below `bound`, the texts of `print` have the length `width` and order like the numbers. -/
structure Fixed (bound width : ℕ) (print : ℕ → List Char) : Prop where
  length : ∀ x < bound, (print x).length = width
  mono : ∀ x y, x < y → y < bound → print x < print y

namespace Fixed

variable {bound width bound' width' : ℕ} {print : ℕ → List Char}

theorem restrict (h : Fixed bound width print) (hle : bound' ≤ bound) : Fixed bound' width print :=
  ⟨fun x hx => h.length x (hx.trans_le hle), fun x y hxy hy => h.mono x y hxy (hy.trans_le hle)⟩

/-- One more in front of every number. -/
theorem shift (h : Fixed (bound + 1) width print) : Fixed bound width fun x => print (x + 1) :=
  ⟨fun x hx => h.length (x + 1) (by omega), fun x y hxy hy => h.mono (x + 1) (y + 1) (by omega) (by omega)⟩

/-- Two parts.  The second may be printed, and bounded, in a way that depends on the first. -/
theorem lex {n : ℕ} {part rest : ℕ → ℕ} {size : ℕ → ℕ} {inner : ℕ → ℕ → List Char} (sep : List Char)
    (h : Fixed bound width print) (hinner : ∀ i < bound, Fixed (size i) width' (inner i))
    (hpart : ∀ x < n, part x < bound ∧ rest x < size (part x))
    (hlex : ∀ x y, x < y → y < n → part x < part y ∨ part x = part y ∧ rest x < rest y) :
    Fixed n (width + sep.length + width') fun x => print (part x) ++ sep ++ inner (part x) (rest x) := by
  refine ⟨fun x hx => ?_, fun x y hxy hy => ?_⟩
  · obtain ⟨hp, hr⟩ := hpart x hx
    rw [List.length_append, List.length_append, h.length _ hp, (hinner _ hp).length _ hr]
  · obtain ⟨hpx, -⟩ := hpart x (hxy.trans hy)
    obtain ⟨hpy, hry⟩ := hpart y hy
    rw [List.append_assoc, List.append_assoc]
    rcases hlex x y hxy hy with hlt | ⟨heq, hlt⟩
    · exact append_lt_append ((h.length _ hpx).trans (h.length _ hpy).symm) (h.mono _ _ hlt hpy) _ _
    · rw [heq]
      exact List.append_left_lt (List.append_left_lt ((hinner _ hpy).mono _ _ hlt hry))

theorem divMod {k : ℕ} {inner : ℕ → List Char} (sep : List Char) (h : Fixed bound width print)
    (hinner : Fixed k width' inner) (hk : 0 < k) :
    Fixed (bound * k) (width + sep.length + width') fun x => print (x / k) ++ sep ++ inner (x % k) := by
  refine h.lex sep (fun _ _ => hinner) (fun x hx => ⟨Nat.div_lt_of_lt_mul (by rwa [Nat.mul_comm]), Nat.mod_lt x hk⟩) ?_
  intro x y hxy _
  rcases (Nat.div_le_div_right (c := k) hxy.le).lt_or_eq with hlt | heq
  · exact .inl hlt
  · refine .inr ⟨heq, ?_⟩
    have hx := Nat.div_add_mod x k
    have hy := Nat.div_add_mod y k
    rw [heq] at hx
    omega

end Fixed

/-- The last of the parts `0, …, last` that has started at `x`. -/
def partAt (start : ℕ → ℕ) (last x : ℕ) : ℕ := Nat.findGreatest (fun i => start i ≤ x) last

section Search

variable {start : ℕ → ℕ} {last x : ℕ}

theorem partAt_le (start : ℕ → ℕ) (last x : ℕ) : partAt start last x ≤ last := Nat.findGreatest_le last

theorem start_partAt_le (h0 : start 0 = 0) (last x : ℕ) : start (partAt start last x) ≤ x :=
  Nat.findGreatest_spec (P := fun i => start i ≤ x) (Nat.zero_le last) (by rw [h0]; exact Nat.zero_le x)

theorem lt_start_partAt (hx : x < start (last + 1)) : x < start (partAt start last x + 1) := by
  rcases (partAt_le start last x).lt_or_eq with hlt | heq
  · exact not_le.1 (Nat.findGreatest_is_greatest (P := fun i => start i ≤ x) (Nat.lt_succ_self _) hlt)
  · rwa [heq]

theorem Fixed.search {width width' : ℕ} {print : ℕ → List Char} {inner : ℕ → ℕ → List Char} (sep : List Char)
    (h : Fixed (last + 1) width print) (h0 : start 0 = 0)
    (hinner : ∀ i < last + 1, Fixed (start (i + 1) - start i) width' (inner i)) :
    Fixed (start (last + 1)) (width + sep.length + width') fun x =>
      print (partAt start last x) ++ sep ++ inner (partAt start last x) (x - start (partAt start last x)) := by
  refine h.lex sep hinner (fun x hx => ⟨Nat.lt_succ_of_le (partAt_le start last x), ?_⟩) ?_
  · have hlt := lt_start_partAt hx
    have hle := start_partAt_le h0 last x
    omega
  · intro x y hxy _
    have hmono : partAt start last x ≤ partAt start last y :=
      Nat.findGreatest_mono_left (fun i hi => hi.trans hxy.le) last
    rcases hmono.lt_or_eq with hlt | heq
    · exact .inl hlt
    · refine .inr ⟨heq, ?_⟩
      have hle := start_partAt_le h0 last x
      rw [← heq]
      omega

end Search

/-! ## Decimal digits -/

/-- The last `width` decimal digits of `n`. -/
def pad : ℕ → ℕ → List Char
  | 0, _ => []
  | width + 1, n => pad width (n / 10) ++ [Nat.digitChar (n % 10)]

theorem digitChar_lt : ∀ x < 10, ∀ y < x, Nat.digitChar y < Nat.digitChar x := by decide

theorem fixed_pad (width : ℕ) : Fixed (10 ^ width) width (pad width) := by
  induction width with
  | zero =>
    refine ⟨fun _ _ => rfl, fun x y hxy hy => ?_⟩
    rw [pow_zero] at hy
    omega
  | succ width ih =>
    have hdigit : Fixed 10 1 fun d => [Nat.digitChar d] := by
      refine ⟨fun _ _ => rfl, fun x y hxy hy => ?_⟩
      exact List.cons_lt_cons_iff.2 (.inl (digitChar_lt y hy x hxy))
    have h := ih.divMod [] hdigit (by decide)
    simpa [pow_succ, pad] using h

theorem pad_add (v w n : ℕ) : pad (v + w) n = pad v (n / 10 ^ w) ++ pad w (n % 10 ^ w) := by
  induction w generalizing n with
  | zero => simp [pad]
  | succ w ih =>
    have hdiv : n / 10 / 10 ^ w = n / 10 ^ (w + 1) := by
      rw [Nat.div_div_eq_div_mul, pow_succ, Nat.mul_comm]
    have hmod : n / 10 % 10 ^ w = n % 10 ^ (w + 1) / 10 := by
      rw [pow_succ, Nat.mul_comm, Nat.mod_mul_right_div_self]
    have hlast : n % 10 ^ (w + 1) % 10 = n % 10 := Nat.mod_mod_of_dvd n (dvd_pow_self 10 (Nat.succ_ne_zero w))
    rw [← Nat.add_assoc, pad, ih, pad, hdiv, hmod, hlast, List.append_assoc]

end Lib
