/-
# `FactorQ.Store.NameList` — the names below a prefix

The index lists a namespace with one range over its names: those equal to the prefix, and
those from the prefix with a dot up to, but not including, the prefix with a slash.  The
slash is the byte after the dot, and the database compares texts byte by byte, so the range
holds the names that go on after the prefix with a dot, and no others.

Texts are compared as UTF-8 here, as the database does.  A text begins another exactly if
its bytes begin the other's (`bytes_prefix_iff`), so what the range says about bytes is what
the rule for namespaces says about characters.
-/
import FactorQ.Store.Index

namespace FactorQ.Store

open Lib

/-! ## Bytes -/

/-- The bytes of a text, as numbers. -/
def bytes (s : String) : List Nat := s.toByteArray.data.toList.map UInt8.toNat

theorem bytes_append (s t : String) : bytes (s ++ t) = bytes s ++ bytes t := by
  simp [bytes, String.toByteArray_append, ByteArray.data_append]

theorem bytes_prefix_iff {s t : String} : bytes s <+: bytes t ↔ s.toList <+: t.toList := by
  constructor
  · rintro ⟨rest, hrest⟩
    have hpre : s.toByteArray.data.toList <+: t.toByteArray.data.toList := by
      have hinj : Function.Injective UInt8.toNat := fun a b h => UInt8.toNat_inj.mp h
      exact (List.prefix_map_iff_of_injective hinj).mp ⟨rest, hrest⟩
    obtain ⟨tail, htail⟩ := hpre
    refine List.isPrefix_of_utf8Encode_append_eq_utf8Encode tail.toByteArray ?_
    rw [String.utf8Encode_toList, String.utf8Encode_toList]
    refine ByteArray.ext ?_
    rw [ByteArray.data_append, List.data_toByteArray]
    exact Array.ext' (by simpa using htail)
  · rintro ⟨rest, hrest⟩
    have ht : t = s ++ String.ofList rest := by
      apply String.toList_inj.mp
      rw [String.toList_append, String.toList_ofList, hrest]
    rw [ht, bytes_append]
    exact List.prefix_append _ _

theorem bytes_injective : Function.Injective bytes := by
  intro s t h
  have hst := (bytes_prefix_iff (s := s) (t := t)).mp (h ▸ List.prefix_refl _)
  have hts := (bytes_prefix_iff (s := t) (t := s)).mp (h ▸ List.prefix_refl _)
  exact String.toList_inj.mp (hst.eq_of_length (Nat.le_antisymm hst.length_le hts.length_le))

/-! ## Ranges -/

section Range

variable {α : Type} [LinearOrder α] {a b : α}

/-- From `p` with `a` up to `p` with `b`, where nothing lies between the two, is what begins
with `p` and `a`. -/
theorem range_iff_prefix (hab : a < b) (hnext : ∀ x, a ≤ x → x < b → x = a) (p s : List α) :
    (p ++ [a] ≤ s ∧ s < p ++ [b]) ↔ p ++ [a] <+: s := by
  rw [← not_lt]
  induction p generalizing s with
  | nil =>
    cases s with
    | nil => simp
    | cons x t =>
      have hcut : ∀ y : α, x :: t < [y] ↔ x < y := by
        intro y
        rw [List.cons_lt_cons_iff, or_iff_left fun h => List.not_lt_nil t h.2]
      rw [List.nil_append, List.nil_append, hcut, hcut, List.cons_prefix_cons, not_lt]
      constructor
      · rintro ⟨hle, hlt⟩
        exact ⟨(hnext x hle hlt).symm, List.nil_prefix⟩
      · rintro ⟨rfl, -⟩
        exact ⟨le_rfl, hab⟩
  | cons c p ih =>
    cases s with
    | nil => simp
    | cons x t =>
      rw [List.cons_append, List.cons_append, List.cons_lt_cons_iff, List.cons_lt_cons_iff, List.cons_prefix_cons,
        ← ih t]
      constructor
      · rintro ⟨hge, hlt | ⟨rfl, hlt⟩⟩
        · exact absurd (.inl hlt) hge
        · exact ⟨rfl, fun h => hge (.inr ⟨rfl, h⟩), hlt⟩
      · rintro ⟨rfl, hge, hlt⟩
        exact ⟨fun h => h.elim (lt_irrefl c) fun h => hge h.2, .inr ⟨rfl, hlt⟩⟩

end Range

/-! ## The list -/

namespace Index

variable {Cid : Type}

/-- The names that have a version, as many times as they have one. -/
def boundNames (ix : Index Cid) : List Name := ix.nameVersions.rows.map fun r => r.1.1

/-- `name = ? OR (name >= ? AND name < ?)` -/
def inRange (pre name : Name) : Bool :=
  name = pre || (bytes (pre ++ ".") ≤ bytes name && bytes name < bytes (pre ++ "/"))

/-- `SELECT DISTINCT name … ORDER BY name`; the empty prefix lists everything. -/
def list (ix : Index Cid) (pre : Name) : List Name :=
  let names := if pre = "" then ix.boundNames else ix.boundNames.filter (inRange pre)
  names.dedup.insertionSort fun a b => bytes a ≤ bytes b

theorem inRange_iff {pre name : Name} :
    inRange pre name = true ↔ name = pre ∨ pre.toList ++ ['.'] <+: name.toList := by
  have hdot : bytes (pre ++ ".") = bytes pre ++ [46] := bytes_append pre "."
  have hslash : bytes (pre ++ "/") = bytes pre ++ [47] := bytes_append pre "/"
  have hchars : (pre ++ ".").toList = pre.toList ++ ['.'] := String.toList_append
  rw [inRange, Bool.or_eq_true, Bool.and_eq_true, decide_eq_true_iff, decide_eq_true_iff, decide_eq_true_iff, hdot,
    hslash, range_iff_prefix (by decide) (fun x hle hlt => by omega), ← hdot, bytes_prefix_iff, hchars]

theorem mem_list {ix : Index Cid} {pre name : Name} (hpre : pre ≠ "") :
    name ∈ ix.list pre ↔ name ∈ ix.boundNames ∧ inRange pre name = true := by
  rw [list, if_neg hpre, List.mem_insertionSort, List.mem_dedup, List.mem_filter]

theorem list_sorted (ix : Index Cid) (pre : Name) : (ix.list pre).Pairwise fun a b => bytes a < bytes b := by
  unfold list
  have hle := List.pairwise_insertionSort (fun a b : Name => bytes a ≤ bytes b)
    (if pre = "" then ix.boundNames else ix.boundNames.filter (inRange pre)).dedup
  have hne := (List.perm_insertionSort (fun a b : Name => bytes a ≤ bytes b)
    (if pre = "" then ix.boundNames else ix.boundNames.filter (inRange pre)).dedup).nodup_iff.mpr (List.nodup_dedup _)
  exact (hle.and hne).imp fun h => lt_of_le_of_ne h.1 fun heq => h.2 (bytes_injective heq)

end Index

end FactorQ.Store
