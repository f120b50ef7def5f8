/-
# `FactorQ.Store.Ranges` — reading part of an object

`get_range` walks the blocks of the manifest, keeping the position at which each begins.
Blocks that end before the range are skipped without being read, the walk stops at the first
one that begins behind it, and what is read is cut to the range.

The walk is written with the machine's arithmetic: sums saturate at the largest 64-bit
number, a difference that would be negative is an overflow, and a slice has to lie within
its bytes.  Beside the bytes it returns which blocks it read and where they begin.  How much
memory is set aside is not modelled.

For a recorded content no fault occurs, the bytes are those of the range, and the blocks read
are exactly those that overlap it (`range_read_is_slice`).
-/
import FactorQ.Store.Repository

namespace FactorQ.Store

open Lib

variable {Cid : Type}

/-! ## Arithmetic -/

/-- `u64::saturating_add`. -/
def saturatingAdd (a b : Nat) : Nat := min (a + b) (2 ^ 64 - 1)

theorem saturatingAdd_eq {a b : Nat} (h : a + b < 2 ^ 64) : saturatingAdd a b = a + b :=
  Nat.min_eq_left (by omega)

/-- Why a read ends without an answer. -/
inductive Fault (Cid : Type) where
  | store (err : StoreError Cid)
  /-- a subtraction below zero -/
  | overflow
  /-- a slice beyond the end, or one that ends before it starts -/
  | outOfBounds
deriving DecidableEq

/-- The operator `-` on `u64`. -/
def checkedSub (a b : Nat) : Except (Fault Cid) Nat := if b ≤ a then .ok (a - b) else .error .overflow

/-- `&data[from..to]`. -/
def sliceIndex (data : Bytes) (start stop : Nat) : Except (Fault Cid) Bytes :=
  if start ≤ stop ∧ stop ≤ data.length then .ok ((data.take stop).drop start) else .error .outOfBounds

/-! ## The walk -/

/-- The blocks with the positions at which they begin. -/
def spans : Nat → List (BlockRef Cid) → List (Nat × BlockRef Cid)
  | _, [] => []
  | start, block :: rest => (start, block) :: spans (start + block.len) rest

namespace Disk

variable [DecidableEq Cid]

/-- What a block contributes: its bytes, cut to the range. -/
def readPart (H : Hasher Cid) (d : Disk Cid) (cid : Cid) (offset stop blockStart : Nat) (block : BlockRef Cid) :
    Except (Fault Cid) Bytes := do
  let data ← (d.readBlock H cid block).mapError .store
  -- a manifest may record more than the file holds
  let start := min (offset - blockStart) data.length
  let upto := min (min (← checkedSub stop blockStart) block.len) data.length
  sliceIndex data start (max upto start)

/-- The loop of `get_range`: the blocks read, and the bytes. -/
def walkRange (H : Hasher Cid) (d : Disk Cid) (cid : Cid) (offset stop : Nat) :
    Nat → Bytes → List (BlockRef Cid) → List (Nat × BlockRef Cid) × Except (Fault Cid) Bytes
  | _, out, [] => ([], .ok out)
  | pos, out, block :: rest =>
    let blockStart := pos
    let blockEnd := saturatingAdd pos block.len
    if blockEnd ≤ offset then walkRange H d cid offset stop blockEnd out rest
    else if stop ≤ blockStart then ([], .ok out)
    else
      match d.readPart H cid offset stop blockStart block with
      | .error fault => ([(blockStart, block)], .error fault)
      | .ok part =>
        let (read, result) := walkRange H d cid offset stop blockEnd (out ++ part) rest
        ((blockStart, block) :: read, result)

def getRange (H : Hasher Cid) (d : Disk Cid) (cid : Cid) (offset len : UInt64) :
    List (Nat × BlockRef Cid) × Except (Fault Cid) Bytes :=
  match d.readManifest cid with
  | .error err => ([], .error (.store err))
  | .ok manifest =>
    let stop := min (saturatingAdd offset.toNat len.toNat) manifest.size
    if manifest.size ≤ offset.toNat ∨ stop ≤ offset.toNat then ([], .ok [])
    else walkRange H d cid offset.toNat stop 0 [] manifest.blocks

end Disk

/-! ## Recorded contents -/

section Recorded

variable [DecidableEq Cid]

/-- The block is nonempty, has the length recorded for it, and its file holds it. -/
structure Intact (d : Disk Cid) (block : BlockRef Cid) (piece : Bytes) : Prop where
  nonempty : piece ≠ []
  len : block.len = piece.length
  file : ∃ mtime, d.blockFiles.get? block.key = some (piece, mtime)

/-- The manifest of `cid` records `content`, in the pieces its blocks hold. -/
structure Records (d : Disk Cid) (cid : Cid) (content : Bytes) (blocks : List (BlockRef Cid)) : Prop where
  manifest : d.readManifest cid = .ok ⟨content.length, blocks⟩
  pieces : ∃ pieces, List.Forall₂ (Intact d) blocks pieces ∧ pieces.flatten = content
  /-- `size` is a `u64` -/
  fits : content.length < 2 ^ 64

variable {d : Disk Cid}

theorem Intact.readBlock {block : BlockRef Cid} {piece : Bytes} (h : Intact d block piece) (H : Hasher Cid)
    (cid : Cid) : d.readBlock H cid block = .ok piece := by
  obtain ⟨mtime, hfile⟩ := h.file
  unfold Disk.readBlock
  rw [hfile]

variable {blocks : List (BlockRef Cid)}

theorem Records.get {cid : Cid} {content : Bytes} (h : Records d cid content blocks) (H : Hasher Cid) :
    d.get H cid = .ok content := by
  obtain ⟨pieces, hpieces, rfl⟩ := h.pieces
  have hread : blocks.mapM (d.readBlock H cid) = .ok pieces := by
    clear h
    induction hpieces with
    | nil => rfl
    | cons hblock _ ih =>
      rw [List.mapM_cons, hblock.readBlock H cid, ih]
      rfl
  unfold Disk.get
  rw [h.manifest]
  show (do let parts ← blocks.mapM (d.readBlock H cid); return parts.flatten) = _
  rw [hread]
  rfl

/-- The block has a byte at a position from `offset` up to `stop`. -/
def Overlaps (offset stop : Nat) (span : Nat × BlockRef Cid) : Prop :=
  ∃ k, offset ≤ k ∧ k < stop ∧ span.1 ≤ k ∧ k < span.1 + span.2.len

omit [DecidableEq Cid] in
theorem overlaps_iff {offset stop : Nat} {span : Nat × BlockRef Cid} :
    Overlaps offset stop span ↔ max offset span.1 < min stop (span.1 + span.2.len) := by
  constructor
  · rintro ⟨k, h⟩
    omega
  · intro h
    exact ⟨max offset span.1, by omega⟩

instance decidableOverlaps (offset stop : Nat) (span : Nat × BlockRef Cid) : Decidable (Overlaps offset stop span) :=
  decidable_of_iff _ overlaps_iff.symm

omit [DecidableEq Cid] in
theorem le_of_mem_spans {start : Nat} {span : Nat × BlockRef Cid} (h : span ∈ spans start blocks) :
    start ≤ span.1 := by
  induction blocks generalizing start with
  | nil => cases h
  | cons block rest ih =>
    rcases List.mem_cons.mp h with rfl | h
    · exact le_rfl
    · exact le_trans (Nat.le_add_right start block.len) (ih h)

omit [DecidableEq Cid] in
theorem filter_spans_behind {offset stop start : Nat} (h : stop ≤ start) (blocks : List (BlockRef Cid)) :
    (spans start blocks).filter (fun span => Overlaps offset stop span) = [] := by
  refine List.filter_eq_nil_iff.mpr fun span hspan hover => ?_
  have hle := le_of_mem_spans hspan
  rw [decide_eq_true_iff, overlaps_iff] at hover
  omega

/-! ## The walk over recorded blocks -/

/-- A block that reaches into the range gives the bytes they have in common. -/
theorem readPart_eq {H : Hasher Cid} {cid : Cid} {offset stop pos : Nat} {block : BlockRef Cid} {piece : Bytes}
    (hintact : Intact d block piece) (hrange : offset < stop) (hin : offset < pos + piece.length)
    (hstart : pos < stop) :
    d.readPart H cid offset stop pos block = .ok ((piece.take (stop - pos)).drop (offset - pos)) := by
  have hsub : (checkedSub stop pos : Except (Fault Cid) Nat) = .ok (stop - pos) := if_pos hstart.le
  unfold Disk.readPart
  rw [hintact.readBlock H cid, hsub, hintact.len]
  show sliceIndex piece (min (offset - pos) piece.length)
    (max (min (min (stop - pos) piece.length) piece.length) (min (offset - pos) piece.length)) = _
  have hfrom : min (offset - pos) piece.length = offset - pos := by omega
  have hto : max (min (min (stop - pos) piece.length) piece.length) (offset - pos) = min (stop - pos) piece.length := by
    omega
  rw [hfrom, hto, sliceIndex, if_pos (by omega), ← List.take_eq_take_min]

/-- From position `pos` on, the walk reads the blocks that overlap the range and appends the
bytes of the range that they hold. -/
theorem walkRange_eq (H : Hasher Cid) (cid : Cid) {offset stop : Nat} (hrange : offset < stop)
    {pieces : List Bytes} (hblocks : List.Forall₂ (Intact d) blocks pieces) {pos : Nat}
    (hfits : pos + pieces.flatten.length < 2 ^ 64) (out : Bytes) :
    d.walkRange H cid offset stop pos out blocks =
      ((spans pos blocks).filter (fun span => Overlaps offset stop span),
        .ok (out ++ (pieces.flatten.take (stop - pos)).drop (offset - pos))) := by
  induction hblocks generalizing pos out with
  | nil => simp [Disk.walkRange, spans]
  | @cons block piece blocks pieces hintact _ ih =>
    rw [List.flatten_cons, List.length_append] at hfits
    have hpos : 0 < piece.length := List.length_pos_of_ne_nil hintact.nonempty
    have hend : saturatingAdd pos block.len = pos + piece.length := by
      rw [hintact.len]
      exact saturatingAdd_eq (by omega)
    have hnext := @ih (pos + piece.length) (by omega)
    have hover : Overlaps offset stop (pos, block) ↔ offset < pos + piece.length ∧ pos < stop := by
      rw [overlaps_iff, hintact.len]
      omega
    unfold Disk.walkRange
    dsimp only
    rw [hend, List.flatten_cons, spans, hintact.len]
    by_cases hbefore : pos + piece.length ≤ offset
    · -- the block lies before the range: its bytes are dropped with those before it
      rw [if_pos hbefore, hnext, List.filter_cons_of_neg (by rw [decide_eq_true_iff, hover]; omega)]
      have hcut : stop - pos = piece.length + (stop - (pos + piece.length)) := by omega
      have hskip : offset - pos = piece.length + (offset - (pos + piece.length)) := by omega
      rw [hcut, hskip, List.take_length_add_append, List.drop_length_add_append]
    · rw [if_neg hbefore]
      by_cases hbehind : stop ≤ pos
      · rw [if_pos hbehind, Nat.sub_eq_zero_of_le hbehind, List.take_zero, List.drop_nil, List.append_nil,
          List.filter_cons_of_neg (by rw [decide_eq_true_iff, hover]; omega),
          filter_spans_behind (by omega)]
      · rw [if_neg hbehind, readPart_eq hintact hrange (by omega) (by omega)]
        dsimp only
        rw [hnext, List.filter_cons_of_pos (by rw [decide_eq_true_iff, hover]; omega)]
        have hsplit : ((piece ++ pieces.flatten).take (stop - pos)).drop (offset - pos) =
            (piece.take (stop - pos)).drop (offset - pos) ++ pieces.flatten.take (stop - (pos + piece.length)) := by
          rw [List.take_append, List.drop_append_of_le_length (by rw [List.length_take]; omega), Nat.sub_sub]
        rw [hsplit, Nat.sub_eq_zero_of_le (by omega : offset ≤ pos + piece.length), List.drop_zero, List.append_assoc]

/-- Every range of a recorded content reads as its bytes from the offset to the end of the
range or of the content, whichever comes first; no fault occurs, and the blocks read are, in
order and once each, those that overlap the range. -/
theorem range_read_is_slice (H : Hasher Cid) (d : Disk Cid) (cid : Cid) (content : Bytes) (blocks : List (BlockRef Cid))
    (h : Records d cid content blocks) (offset len : UInt64) :
    d.get H cid = .ok content ∧
      d.getRange H cid offset len =
        ((spans 0 blocks).filter
            (fun span => Overlaps offset.toNat (min (offset.toNat + len.toNat) content.length) span),
          .ok ((content.take (min (offset.toNat + len.toNat) content.length)).drop offset.toNat)) ∧
      (content.length ≤ offset.toNat → (d.getRange H cid offset len).2 = .ok []) := by
  have hstop : min (saturatingAdd offset.toNat len.toNat) content.length =
      min (offset.toNat + len.toNat) content.length := by
    have hfits := h.fits
    unfold saturatingAdd
    omega
  have hslice : d.getRange H cid offset len =
      ((spans 0 blocks).filter
          (fun span => Overlaps offset.toNat (min (offset.toNat + len.toNat) content.length) span),
        .ok ((content.take (min (offset.toNat + len.toNat) content.length)).drop offset.toNat)) := by
    unfold Disk.getRange
    rw [h.manifest]
    dsimp only
    rw [hstop]
    have hle := Nat.min_le_right (offset.toNat + len.toNat) content.length
    generalize min (offset.toNat + len.toNat) content.length = stop at hle
    split
    · next hempty =>
      -- the range has no positions
      have hstop : stop ≤ offset.toNat := by omega
      rw [List.drop_eq_nil_of_le (by rw [List.length_take]; omega), List.filter_eq_nil_iff.mpr]
      intro span _ hover
      obtain ⟨k, hfrom, hto, -⟩ := of_decide_eq_true hover
      omega
    · next hsome =>
      obtain ⟨pieces, hpieces, hflat⟩ := h.pieces
      rw [walkRange_eq H cid (by omega) hpieces (by rw [hflat]; have := h.fits; omega), hflat]
      rfl
  refine ⟨h.get H, hslice, fun hpast => ?_⟩
  rw [hslice, List.drop_eq_nil_of_le (by rw [List.length_take]; omega)]

end Recorded

/-! ## An object in three blocks -/

/-- Five bytes in blocks of two, one and two. -/
def threeBlocks : Disk Nat where
  blockFiles := ((Table.empty.insertNew (1, 0) ([10, 11], 0)).insertNew (2, 0) ([12], 0)).insertNew (3, 4) ([13, 14], 0)
  manifests := Table.empty.set 9 (⟨5, [⟨1, 2, 0⟩, ⟨2, 1, 0⟩, ⟨3, 2, 4⟩]⟩, 0)
  staging := []

theorem threeBlocks_records :
    Records threeBlocks 9 [10, 11, 12, 13, 14] [⟨1, 2, 0⟩, ⟨2, 1, 0⟩, ⟨3, 2, 4⟩] where
  manifest := by rfl
  pieces := by
    refine ⟨[[10, 11], [12], [13, 14]], ?_, rfl⟩
    exact .cons ⟨by decide, rfl, 0, by rfl⟩ (.cons ⟨by decide, rfl, 0, by rfl⟩ (.cons ⟨by decide, rfl, 0, by rfl⟩ .nil))
  fits := by decide

/-- A range that reaches the largest offset there is: the first block is not read. -/
theorem threeBlocks_tail :
    (threeBlocks.getRange Hasher.numerals 9 2 18446744073709551615).2 = .ok [12, 13, 14] ∧
      (threeBlocks.getRange Hasher.numerals 9 2 18446744073709551615).1 = [(2, ⟨2, 1, 0⟩), (3, ⟨3, 2, 4⟩)] := by
  obtain ⟨-, hrange, -⟩ := range_read_is_slice Hasher.numerals threeBlocks 9 _ _ threeBlocks_records 2
    18446744073709551615
  rw [hrange]
  decide +kernel

end FactorQ.Store
