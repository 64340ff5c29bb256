import Lwrt.Library.Text

/-! The format `application/x-www-form-urlencoded`, as a browser writes it. -/

namespace Lwrt.Urlencoded

open Library Text

/-- ASCII letters and digits, `*`, `-`, `.` and `_`. -/
def unreserved (b : UInt8) : Bool :=
  (48 ≤ b && b ≤ 57) || (65 ≤ b && b ≤ 90) || (97 ≤ b && b ≤ 122) ||
    b == 42 || b == 45 || b == 46 || b == 95

def hexDigit (n : ℕ) : Char :=
  "0123456789ABCDEF".toList.getD n '0'

def encodeByte (b : UInt8) : Text :=
  if b = 32 then ['+']
  else if unreserved b then [Char.ofNat b.toNat]
  else ['%', hexDigit (b.toNat / 16), hexDigit (b.toNat % 16)]

/-- A name or a value. -/
def component (s : Text) : Text :=
  (Utf8.encode s).flatMap encodeByte

def pair (kv : Text × Text) : Text :=
  component kv.1 ++ '=' :: component kv.2

def serialize (form : List (Text × Text)) : Text :=
  ['&'].intercalate (form.map pair)

/-- What is written for a byte is ASCII and separates nothing. -/
theorem encodeByte_plain {b : UInt8} {c : Char} (h : c ∈ encodeByte b) :
    c.toNat < 0x80 ∧ c ≠ '&' ∧ c ≠ '=' := by
  have hdigit : ∀ n < 16, (hexDigit n).toNat < 0x80 ∧ hexDigit n ≠ '&' ∧ hexDigit n ≠ '=' := by
    decide +kernel
  have hkept : ∀ n < 256, unreserved (UInt8.ofNat n) = true →
      (Char.ofNat n).toNat < 0x80 ∧ Char.ofNat n ≠ '&' ∧ Char.ofNat n ≠ '=' := by
    decide +kernel
  have hb := b.toNat_lt
  rw [encodeByte] at h
  split at h
  case isTrue =>
    rw [List.mem_singleton.mp h]
    decide
  case isFalse =>
    split at h
    case isTrue hun =>
      rw [List.mem_singleton.mp h]
      exact hkept b.toNat hb (by rwa [UInt8.ofNat_toNat])
    case isFalse =>
      simp only [List.mem_cons, List.not_mem_nil, or_false] at h
      rcases h with rfl | rfl | rfl
      · decide
      · exact hdigit _ (by omega)
      · exact hdigit _ (by omega)

theorem component_plain {s : Text} {c : Char} (h : c ∈ component s) :
    c.toNat < 0x80 ∧ c ≠ '&' ∧ c ≠ '=' := by
  obtain ⟨b, -, hb⟩ := List.mem_flatMap.mp h
  exact encodeByte_plain hb

theorem pair_ampersand (kv : Text × Text) : '&' ∉ pair kv := by
  rw [pair, List.mem_append, List.mem_cons]
  rintro (h | h | h)
  · exact (component_plain h).2.1 rfl
  · cases h
  · exact (component_plain h).2.1 rfl

theorem pair_ne_nil (kv : Text × Text) : pair kv ≠ [] := by
  simp [pair]

end Lwrt.Urlencoded
