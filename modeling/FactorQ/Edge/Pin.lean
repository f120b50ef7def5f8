/-
# `FactorQ.Edge.Pin` — the textual form of a certificate pin

A pin is the 32 bytes of a fingerprint, written as 64 lowercase hexadecimal digits.  The
parser trims the text, wants it to be 64 ASCII characters and reads them two by two with the
library's number parser.  That parser takes a sign: `+f` is a byte.  So a text with a plus
sign in front of a digit is read as a pin although no pin is written so;
`pin_textual_form` says that these are the only ones.

A slice of a text is taken by byte positions and has to fall between characters; one that
does not would be a panic, `none` here.
-/
import Mathlib

namespace FactorQ.Edge

/-- `char::is_whitespace`. -/
def isWhitespace (c : Char) : Bool :=
  (9 ≤ c.val && c.val ≤ 13) || (0x2000 ≤ c.val && c.val ≤ 0x200a) ||
    c.val ∈ [0x20, 0x85, 0xa0, 0x1680, 0x2028, 0x2029, 0x202f, 0x205f, 0x3000]

def trim (s : List Char) : List Char := ((s.dropWhile isWhitespace).reverse.dropWhile isWhitespace).reverse

structure Fingerprint where
  bytes : List UInt8
  size : bytes.length = 32

def hexDigits : List Char := "0123456789abcdef".toList

/-- `char::to_digit(16)`. -/
def toDigit (c : Char) : Option Nat := hexDigits.idxOf? c.toLower

/-- `{b:02x}`. -/
def hexByte (b : UInt8) : List Char := [hexDigits.getD (b.toNat / 16) '0', hexDigits.getD (b.toNat % 16) '0']

def fingerprintHex (f : Fingerprint) : List Char := f.bytes.flatMap hexByte

/-- Digits with no sign; a number that is no byte is an error. -/
def magnitude (digits : List Char) : Option UInt8 :=
  (digits.mapM toDigit).bind fun ds =>
    let n := ds.foldl (fun n d => 16 * n + d) 0
    if n < 256 then some (UInt8.ofNat n) else none

/-- `u8::from_str_radix(src, 16)`. -/
def fromStrRadix16 : List Char → Option UInt8
  | [] | ['+'] | ['-'] => none
  | '+' :: digits => magnitude digits
  | digits => magnitude digits

/-- The text from byte `n` on. -/
def dropBytes : Nat → List Char → Option (List Char)
  | 0, s => some s
  | _ + 1, [] => none
  | n + 1, c :: s => if c.utf8Size ≤ n + 1 then dropBytes (n + 1 - c.utf8Size) s else none

/-- The text up to byte `n`. -/
def takeBytes : Nat → List Char → Option (List Char)
  | 0, _ => some []
  | _ + 1, [] => none
  | n + 1, c :: s => if c.utf8Size ≤ n + 1 then (takeBytes (n + 1 - c.utf8Size) s).map (c :: ·) else none

inductive PinError where
  | notHex (hex : List Char)
  | length (chars : Nat)
deriving DecidableEq

/-- The loop over the bytes from `i` on; outside, `none` is a panic. -/
def parseBytes (hex : List Char) : Nat → Nat → Option (Except PinError (List UInt8))
  | _, 0 => some (.ok [])
  | i, n + 1 =>
    match (dropBytes (2 * i) hex).bind (takeBytes 2) with
    | none => none
    | some pair =>
      match fromStrRadix16 pair with
      | none => some (.error (.notHex hex))
      | some byte => (parseBytes hex (i + 1) n).map (Except.map (byte :: ·))

def parseFingerprintHex (hex : String) : Option (Except PinError (List UInt8)) :=
  let hex := trim hex.toList
  if !hex.all fun c => c.val < 128 then some (.error (.notHex hex))
  else if (hex.map Char.utf8Size).sum ≠ 64 then some (.error (.length (hex.map Char.utf8Size).sum))
  else parseBytes hex 0 32

/-! ## Digits and pairs of digits -/

def isHex (c : Char) : Bool := c.toLower ∈ hexDigits

variable {c : Char}

theorem toDigit_eq_some {d : Nat} : toDigit c = some d ↔ d < 16 ∧ c.toLower = hexDigits.getD d '0' := by
  have hinj : ∀ i < 16, ∀ j < i, hexDigits.getD j '0' ≠ hexDigits.getD i '0' := by decide
  rw [toDigit, List.idxOf?_eq_some_iff]
  constructor
  · rintro ⟨hd, he, -⟩
    exact ⟨hd, by rw [← he, List.getElem_eq_getD '0']⟩
  · rintro ⟨hd, he⟩
    have hd' : d < hexDigits.length := hd
    refine ⟨hd', by rw [he, List.getElem_eq_getD '0'], fun j hj hjd => hinj d hd j hj ?_⟩
    rw [← he, ← hjd, List.getElem_eq_getD '0']

theorem getD_mem_hexDigits {d : Nat} (hd : d < 16) : hexDigits.getD d '0' ∈ hexDigits := by
  have hmem : ∀ n < 16, hexDigits.getD n '0' ∈ hexDigits := by decide
  exact hmem d hd

theorem isHex_iff : isHex c = true ↔ ∃ d, toDigit c = some d := by
  rw [isHex, decide_eq_true_eq]
  constructor
  · intro h
    obtain ⟨d, hd, he⟩ := List.mem_iff_getElem.mp h
    exact ⟨d, toDigit_eq_some.mpr ⟨hd, by rw [← he, List.getElem_eq_getD '0']⟩⟩
  · rintro ⟨d, h⟩
    obtain ⟨hd, he⟩ := toDigit_eq_some.mp h
    rw [he]
    exact getD_mem_hexDigits hd

theorem magnitude_single (b : Char) : magnitude [b] = (toDigit b).map UInt8.ofNat := by
  rcases hb : toDigit b with _ | y
  · simp [magnitude, hb]
  · have := (toDigit_eq_some.mp hb).1
    simp [magnitude, hb]
    omega

theorem magnitude_pair (a b : Char) :
    magnitude [a, b] = (toDigit a).bind fun x => (toDigit b).map fun y => UInt8.ofNat (16 * x + y) := by
  rcases ha : toDigit a with _ | x
  · simp [magnitude, ha]
  rcases hb : toDigit b with _ | y
  · simp [magnitude, ha, hb]
  have hx := (toDigit_eq_some.mp ha).1
  have hy := (toDigit_eq_some.mp hb).1
  simp [magnitude, ha, hb]
  omega

theorem fromStrRadix16_plus (b : Char) : fromStrRadix16 ['+', b] = (toDigit b).map UInt8.ofNat :=
  magnitude_single b

theorem fromStrRadix16_pair {a : Char} (ha : a ≠ '+') (b : Char) :
    fromStrRadix16 [a, b] = (toDigit a).bind fun x => (toDigit b).map fun y => UInt8.ofNat (16 * x + y) := by
  rw [← magnitude_pair, fromStrRadix16]
  all_goals simp_all

/-- Without the sign a pair is a byte exactly if it is how the byte is written. -/
theorem fromStrRadix16_eq_some {a : Char} (ha : a ≠ '+') (b : Char) (byte : UInt8) :
    fromStrRadix16 [a, b] = some byte ↔ [a, b].map Char.toLower = hexByte byte := by
  simp only [fromStrRadix16_pair ha, Option.bind_eq_some_iff, Option.map_eq_some_iff, toDigit_eq_some,
    hexByte, List.map_cons, List.map_nil, List.cons.injEq, and_true]
  constructor
  · rintro ⟨x, ⟨hx, hax⟩, y, ⟨hy, hby⟩, rfl⟩
    have hn : (UInt8.ofNat (16 * x + y)).toNat = 16 * x + y := by
      rw [UInt8.toNat_ofNat']
      omega
    rw [hn, show (16 * x + y) / 16 = x by omega, show (16 * x + y) % 16 = y by omega]
    exact ⟨hax, hby⟩
  · rintro ⟨hax, hby⟩
    have hlt := byte.toNat_lt
    refine ⟨byte.toNat / 16, ⟨by omega, hax⟩, byte.toNat % 16, ⟨by omega, hby⟩, ?_⟩
    rw [Nat.div_add_mod, UInt8.ofNat_toNat]

/-- The text as bytes, two characters each. -/
def decode : List Char → Option (List UInt8)
  | a :: b :: rest => (fromStrRadix16 [a, b]).bind fun byte => (decode rest).map (byte :: ·)
  | [] => some []
  | [_] => none

/-- Pairs the number parser reads: two digits, or a sign and a digit. -/
def Pairs : List Char → Prop
  | a :: b :: rest => (a = '+' ∨ isHex a = true) ∧ isHex b = true ∧ Pairs rest
  | [] => True
  | [_] => False

theorem decode_isSome (t : List Char) : (∃ bytes, decode t = some bytes) ↔ Pairs t := by
  induction t using decode.induct with
  | case1 a b rest ih =>
    have hpair : (∃ byte, fromStrRadix16 [a, b] = some byte) ↔ (a = '+' ∨ isHex a = true) ∧ isHex b = true := by
      by_cases ha : a = '+'
      · subst ha
        simp [fromStrRadix16_plus, isHex_iff]
      · simp only [fromStrRadix16_pair ha, Option.bind_eq_some_iff, Option.map_eq_some_iff, isHex_iff, ha, false_or]
        constructor
        · rintro ⟨_, x, hx, y, hy, -⟩
          exact ⟨⟨x, hx⟩, y, hy⟩
        · rintro ⟨⟨x, hx⟩, y, hy⟩
          exact ⟨_, x, hx, y, hy, rfl⟩
    rw [Pairs, ← and_assoc, ← hpair, ← ih, decode]
    simp only [Option.bind_eq_some_iff, Option.map_eq_some_iff]
    constructor
    · rintro ⟨_, byte, hb, bytes, hbs, -⟩
      exact ⟨⟨byte, hb⟩, bytes, hbs⟩
    · rintro ⟨⟨byte, hb⟩, bytes, hbs⟩
      exact ⟨_, byte, hb, bytes, hbs, rfl⟩
  | case2 => simp [decode, Pairs]
  | case3 c => simp [decode, Pairs]

theorem hexByte_eq (byte : UInt8) : ∃ x y, x ∈ hexDigits ∧ y ∈ hexDigits ∧ hexByte byte = [x, y] := by
  have hlt := byte.toNat_lt
  exact ⟨_, _, getD_mem_hexDigits (by omega), getD_mem_hexDigits (by omega), rfl⟩

variable {t : List Char}

theorem decode_eq_some (ht : '+' ∉ t) (bytes : List UInt8) :
    decode t = some bytes ↔ t.map Char.toLower = bytes.flatMap hexByte := by
  induction t using decode.induct generalizing bytes with
  | case1 a b rest ih =>
    simp only [List.mem_cons, not_or] at ht
    simp only [decode, Option.bind_eq_some_iff, Option.map_eq_some_iff, ih ht.2.2,
      fromStrRadix16_eq_some (Ne.symm ht.1)]
    constructor
    · rintro ⟨byte, hb, bytes, hbs, rfl⟩
      rw [List.flatMap_cons, ← hb, ← hbs]
      rfl
    · intro h
      cases bytes with
      | nil => cases h
      | cons byte bytes =>
        obtain ⟨x, y, -, -, hxy⟩ := hexByte_eq byte
        rw [List.flatMap_cons, hxy] at h
        obtain ⟨hx, h⟩ := List.cons.inj h
        obtain ⟨hy, h⟩ := List.cons.inj h
        exact ⟨byte, by rw [hxy, ← hx, ← hy]; rfl, bytes, h, rfl⟩
  | case2 =>
    cases bytes with
    | nil => simp [decode]
    | cons byte bytes => simp [decode, hexByte]
  | case3 c =>
    cases bytes with
    | nil => simp [decode]
    | cons byte bytes => simp [decode, hexByte]

theorem length_decode {bytes : List UInt8} (h : decode t = some bytes) :
    2 * bytes.length = t.length := by
  induction t using decode.induct generalizing bytes with
  | case1 a b rest ih =>
    simp only [decode, Option.bind_eq_some_iff, Option.map_eq_some_iff] at h
    obtain ⟨byte, -, bytes, hbs, rfl⟩ := h
    have hlen := ih hbs
    simp only [List.length_cons]
    omega
  | case2 =>
    cases h
    rfl
  | case3 c => cases h

/-! ## The loop on an ASCII text -/

def Ascii (t : List Char) : Prop := ∀ c ∈ t, c.utf8Size = 1

theorem dropBytes_ascii (ht : Ascii t) {n : Nat} (hn : n ≤ t.length) :
    dropBytes n t = some (t.drop n) := by
  induction t generalizing n with
  | nil =>
    obtain rfl := Nat.le_zero.mp hn
    rfl
  | cons c t ih =>
    cases n with
    | zero => rfl
    | succ n =>
      have hc := ht c List.mem_cons_self
      rw [dropBytes, hc, if_pos (Nat.le_add_left 1 n), Nat.add_sub_cancel]
      exact ih (fun c hc => ht c (List.mem_cons_of_mem _ hc)) (Nat.le_of_succ_le_succ hn)

theorem takeBytes_two {a b : Char} (ha : a.utf8Size = 1) (hb : b.utf8Size = 1) (rest : List Char) :
    takeBytes 2 (a :: b :: rest) = some [a, b] := by
  simp [takeBytes, ha, hb]

/-- From byte `i` on the loop decodes what is left of the text. -/
theorem parseBytes_eq {hex : List Char} (ht : Ascii hex) (n i : Nat) (hn : 2 * (i + n) = hex.length) :
    parseBytes hex i n = some ((decode (hex.drop (2 * i))).elim (.error (.notHex hex)) .ok) := by
  induction n generalizing i with
  | zero =>
    rw [List.drop_of_length_le (by omega)]
    rfl
  | succ n ih =>
    have hsplit : hex.drop (2 * i) = hex[2 * i] :: hex[2 * i + 1] :: hex.drop (2 * (i + 1)) := by
      rw [List.drop_eq_getElem_cons (by omega), List.drop_eq_getElem_cons (by omega)]
      rfl
    rw [parseBytes, dropBytes_ascii ht (by omega), Option.bind_some, hsplit,
      takeBytes_two (ht _ (List.getElem_mem _)) (ht _ (List.getElem_mem _)), decode, ih (i + 1) (by omega)]
    dsimp only
    cases fromStrRadix16 [hex[2 * i], hex[2 * i + 1]] with
    | none => rfl
    | some byte =>
      cases decode (hex.drop (2 * (i + 1))) with
      | none => rfl
      | some bytes => rfl

theorem sum_utf8Size (ht : Ascii t) : (t.map Char.utf8Size).sum = t.length := by
  induction t with
  | nil => rfl
  | cons c t ih =>
    rw [List.map_cons, List.sum_cons, ht c List.mem_cons_self,
      ih fun c hc => ht c (List.mem_cons_of_mem _ hc), List.length_cons, Nat.add_comm]

theorem all_ascii (t : List Char) : (t.all fun c => c.val < 128) = true ↔ Ascii t := by
  simp only [List.all_eq_true, decide_eq_true_eq, Ascii, Char.utf8Size_eq_one_iff]
  refine forall₂_congr fun c _ => ?_
  simp only [UInt32.lt_iff_toNat_lt, UInt32.le_iff_toNat_le]
  exact Nat.lt_succ_iff

/-! ## The textual form -/

/-- The texts that are read as a pin because the number parser takes a sign. -/
def SignedPin (t : List Char) : Prop := t.length = 64 ∧ Pairs t ∧ '+' ∈ t

/-- What the parser returns, without its loop. -/
theorem parseFingerprintHex_eq (s : String) :
    (∃ e, parseFingerprintHex s = some (.error e)) ∧ ¬ (Ascii (trim s.toList) ∧ (trim s.toList).length = 64) ∨
    Ascii (trim s.toList) ∧ (trim s.toList).length = 64 ∧ parseFingerprintHex s =
      some ((decode (trim s.toList)).elim (.error (.notHex (trim s.toList))) .ok) := by
  unfold parseFingerprintHex
  dsimp only
  by_cases hascii : Ascii (trim s.toList)
  · rw [(all_ascii _).mpr hascii, sum_utf8Size hascii]
    by_cases hlen : (trim s.toList).length = 64
    · refine .inr ⟨hascii, hlen, ?_⟩
      simp only [Bool.not_true, Bool.false_eq_true, if_false, hlen, ne_eq, not_true]
      exact parseBytes_eq hascii 32 0 (by omega)
    · exact .inl ⟨by simp [hlen], fun h => hlen h.2⟩
  · refine .inl ⟨?_, fun h => hascii h.1⟩
    have hall := mt (all_ascii _).mp hascii
    rw [Bool.not_eq_true] at hall
    simp [hall]

theorem length_fingerprintHex (bytes : List UInt8) : (bytes.flatMap hexByte).length = 2 * bytes.length := by
  induction bytes with
  | nil => rfl
  | cons byte bytes ih =>
    rw [List.flatMap_cons, List.length_append, ih, List.length_cons]
    change 2 + _ = _
    omega

theorem mem_fingerprintHex {bytes : List UInt8} (h : c ∈ bytes.flatMap hexByte) : c ∈ hexDigits := by
  obtain ⟨byte, -, hc⟩ := List.mem_flatMap.mp h
  obtain ⟨x, y, hx, hy, hxy⟩ := hexByte_eq byte
  rw [hxy] at hc
  simp only [List.mem_cons, List.not_mem_nil, or_false] at hc
  rcases hc with rfl | rfl
  · exact hx
  · exact hy

theorem utf8Size_of_toLower (h : c.toLower ∈ hexDigits) : c.utf8Size = 1 := by
  have hlow : hexDigits.all (fun d => d.utf8Size == 1) = true := by decide
  have hsize := eq_of_beq (List.all_eq_true.mp hlow _ h)
  rw [Char.toLower] at hsize
  split at hsize
  · next hupper =>
    rw [Char.utf8Size_eq_one_iff, UInt32.le_iff_toNat_le]
    have hZ := UInt32.le_iff_toNat_le.mp hupper.2
    exact hZ.trans (by decide)
  · exact hsize

theorem ascii_of_pairs (h : Pairs t) : Ascii t := by
  induction t using decode.induct with
  | case1 a b rest ih =>
    intro c hc
    simp only [List.mem_cons] at hc
    rcases hc with rfl | rfl | hc
    · rcases h.1 with rfl | ha
      · rfl
      · exact utf8Size_of_toLower (of_decide_eq_true ha)
    · exact utf8Size_of_toLower (of_decide_eq_true h.2.1)
    · exact ih h.2.2 c hc
  | case2 => exact fun c hc => absurd hc List.not_mem_nil
  | case3 c => exact h.elim

/-- A text written like a fingerprint is ASCII, of 64 characters and without a sign. -/
theorem shape_of_hex {f : Fingerprint} (h : t.map Char.toLower = fingerprintHex f) :
    Ascii t ∧ t.length = 64 ∧ '+' ∉ t := by
  have hmem : ∀ c ∈ t, c.toLower ∈ hexDigits := by
    intro c hc
    have hc' := List.mem_map_of_mem (f := Char.toLower) hc
    rw [h] at hc'
    exact mem_fingerprintHex hc'
  refine ⟨fun c hc => utf8Size_of_toLower (hmem c hc), ?_, ?_⟩
  · rw [← List.length_map Char.toLower, h, fingerprintHex, length_fingerprintHex, f.size]
  · intro hplus
    exact absurd (hmem '+' hplus) (by decide)

/-- Every text is answered, and with 32 bytes or an error; what is accepted is what is written
like a fingerprint, unless there is a sign in it. -/
theorem pin_textual_form (s : String) : ∃ answer, parseFingerprintHex s = some answer ∧
    (∀ bytes, answer = .ok bytes → bytes.length = 32) ∧
    ((∀ f : Fingerprint, answer = .ok f.bytes ↔ (trim s.toList).map Char.toLower = fingerprintHex f) ↔
      ¬ SignedPin (trim s.toList)) := by
  rcases parseFingerprintHex_eq s with ⟨⟨e, he⟩, hshape⟩ | ⟨hascii, hlen, he⟩
  · refine ⟨_, he, fun bytes h => (by cases h), ?_⟩
    constructor
    · rintro - ⟨hlen, hpairs, -⟩
      exact hshape ⟨ascii_of_pairs hpairs, hlen⟩
    · intro _ f
      constructor
      · intro h
        cases h
      · intro h
        exact absurd ⟨(shape_of_hex h).1, (shape_of_hex h).2.1⟩ hshape
  · have hok : ∀ bytes, (decode (trim s.toList)).elim (.error (.notHex (trim s.toList))) .ok =
        (.ok bytes : Except PinError (List UInt8)) ↔ decode (trim s.toList) = some bytes := by
      intro bytes
      cases decode (trim s.toList) with
      | none => simp
      | some bytes' => simp
    refine ⟨_, he, ?_, ?_⟩
    · intro bytes h
      have hsize := length_decode ((hok bytes).mp h)
      omega
    simp only [hok]
    constructor
    · rintro hform ⟨-, hpairs, hplus⟩
      -- a text with a sign is read, so it would be written like what it is read as
      obtain ⟨bytes, hbytes⟩ := (decode_isSome _).mpr hpairs
      have hsize := length_decode hbytes
      exact (shape_of_hex ((hform ⟨bytes, by omega⟩).mp hbytes)).2.2 hplus
    · intro hsigned f
      constructor
      · intro h
        have hplus : '+' ∉ trim s.toList := fun hplus =>
          hsigned ⟨hlen, (decode_isSome _).mp ⟨f.bytes, h⟩, hplus⟩
        exact (decode_eq_some hplus f.bytes).mp h
      · intro h
        exact (decode_eq_some (shape_of_hex h).2.2 f.bytes).mpr h

/-- Thirty-two times `+0` is read as the fingerprint of zeros; it is not how one is written. -/
theorem signed_pin_accepted :
    parseFingerprintHex (String.ofList (List.replicate 32 ['+', '0']).flatten) =
      some (.ok (List.replicate 32 0)) ∧
    (trim (List.replicate 32 ['+', '0']).flatten).map Char.toLower ≠
      fingerprintHex ⟨List.replicate 32 0, List.length_replicate⟩ := by
  decide +kernel

end FactorQ.Edge
