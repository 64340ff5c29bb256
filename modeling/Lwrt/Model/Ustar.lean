import Mathlib.Tactic.IntervalCases
import Mathlib.Tactic.Ring
import Lwrt.Library.Bytes
import Lwrt.Library.Text

/-! The ustar archive format: a header of 512 bytes for every member, content in whole blocks, and
two blocks of zeros at the end. -/

namespace Lwrt.Ustar

open Library Text Utf8

/-- The lowest `width` octal digits of a number, leading zeros included. -/
def octalDigits : ℕ → ℕ → Text
  | 0, _ => []
  | width + 1, n => octalDigits width (n / 8) ++ [Nat.digitChar (n % 8)]

/-- A member. What its header holds besides the name, the size and the type is arbitrary: `owner`
is mode and owner, `stamp` is time and checksum, `rest` is all after the type. -/
structure Entry where
  name : Text
  typeflag : UInt8
  content : List UInt8
  owner : Vector UInt8 24
  terminator : UInt8
  stamp : Vector UInt8 20
  rest : Vector UInt8 355
  name_ne_nil : name ≠ []
  nul_not_mem : Char.ofNat 0 ∉ name
  length_encode_name : (Utf8.encode name).length ≤ 100
  terminator_eq : terminator = 0 ∨ terminator = 32

namespace Entry

variable (e : Entry)

def nameField : List UInt8 :=
  Utf8.encode e.name ++ List.replicate (100 - (Utf8.encode e.name).length) 0

def sizeField : List UInt8 :=
  (octalDigits 11 e.content.length).map byte ++ [e.terminator]

def header : List UInt8 :=
  e.nameField ++ (e.owner.toList ++ (e.sizeField ++ (e.stamp.toList ++
    (e.typeflag :: e.rest.toList))))

/-- Zeros up to a whole number of blocks. -/
def padding : List UInt8 :=
  List.replicate ((512 - e.content.length % 512) % 512) 0

def encode : List UInt8 :=
  e.header ++ (e.content ++ e.padding)

/-- What stands behind link name, magic, owner names and device numbers. -/
def prefixField : List UInt8 :=
  extract e.rest.toList 188 155

end Entry

/-- A member whose path is split over the two fields for it. -/
structure PathEntry extends Entry where
  pre : Text
  nul_not_mem_pre : Char.ofNat 0 ∉ pre
  length_encode_pre : (Utf8.encode pre).length ≤ 155
  prefixField_eq : toEntry.prefixField =
    Utf8.encode pre ++ List.replicate (155 - (Utf8.encode pre).length) 0

/-- An empty prefix does not count. -/
def PathEntry.path (e : PathEntry) : Text :=
  if e.pre = [] then e.name else e.pre ++ '/' :: e.name

/-- The members, the end mark, and whatever follows it. -/
def archive (es : List Entry) (tail : List UInt8) : List UInt8 :=
  es.flatMap Entry.encode ++ (List.replicate 1024 0 ++ tail)

/-! ## Digits -/

theorem length_octalDigits (width n : ℕ) : (octalDigits width n).length = width := by
  induction width generalizing n with
  | zero => rfl
  | succ width ih => rw [octalDigits, List.length_append, ih, List.length_singleton]

theorem digitChar_cases {d : ℕ} (h : d < 8) :
    '0' ≤ Nat.digitChar d ∧ Nat.digitChar d ≤ '7' ∧ (Nat.digitChar d).toNat = 48 + d := by
  interval_cases d <;> decide

theorem octalDigits_bounds {width n : ℕ} {c : Char} (h : c ∈ octalDigits width n) :
    '0' ≤ c ∧ c ≤ '7' := by
  induction width generalizing n with
  | zero => cases h
  | succ width ih =>
      rcases List.mem_append.mp h with h | h
      · exact ih h
      · rw [List.mem_singleton.mp h]
        have hd := digitChar_cases (Nat.mod_lt n (by decide : 0 < 8))
        exact ⟨hd.1, hd.2.1⟩

/-- The digits, read from the left, are the number. -/
theorem foldl_octalDigits {width n : ℕ} (h : n < 8 ^ width) :
    (octalDigits width n).foldl (fun acc c => acc * 8 + (c.toNat - '0'.toNat)) 0 = n := by
  induction width generalizing n with
  | zero =>
      rw [pow_zero, Nat.lt_one_iff] at h
      exact h.symm
  | succ width ih =>
      have hlt : n / 8 < 8 ^ width := by
        rw [pow_succ] at h
        exact Nat.div_lt_of_lt_mul (by omega)
      have hd := (digitChar_cases (Nat.mod_lt n (by decide : 0 < 8))).2.2
      have hzero : '0'.toNat = 48 := rfl
      rw [octalDigits, List.foldl_append, ih hlt, List.foldl_cons, List.foldl_nil, hd, hzero]
      omega

/-! ## Lengths -/

section Length

variable (e : Entry)

theorem length_nameField : e.nameField.length = 100 := by
  have h := e.length_encode_name
  rw [Entry.nameField, List.length_append, List.length_replicate]
  omega

theorem length_sizeField : e.sizeField.length = 12 := by
  rw [Entry.sizeField, List.length_append, List.length_map, length_octalDigits]
  rfl

theorem length_header : e.header.length = 512 := by
  simp [Entry.header, length_nameField, length_sizeField]

theorem length_padding : e.padding.length = (512 - e.content.length % 512) % 512 :=
  List.length_replicate

theorem length_encode :
    e.encode.length = 512 + (e.content.length + (512 - e.content.length % 512) % 512) := by
  rw [Entry.encode, List.length_append, List.length_append, length_header, length_padding]

end Length

theorem length_archive (es : List Entry) (tail : List UInt8) :
    (archive es tail).length = (es.map fun e => e.encode.length).sum + (1024 + tail.length) := by
  rw [archive, List.length_append, List.length_flatMap, List.length_append, List.length_replicate]

end Lwrt.Ustar
