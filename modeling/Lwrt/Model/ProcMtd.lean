import Lwrt.Library.Numerals

/-! The partition table of the kernel, as `/proc/mtd` shows it. -/

namespace Lwrt.ProcMtd

open Library Text

/-- The line over the table. The kernel prints `dev:    size   erasesize  name`. -/
structure Header where
  text : Text
  newline_not_mem : '\n' ∉ text
  quote_not_mem : '"' ∉ text

structure Partition where
  index : ℕ
  size : ℕ
  erasesize : ℕ
  name : Text
  newline_not_mem : '\n' ∉ name
  quote_not_mem : '"' ∉ name

/-- `%8.8x`. -/
def hex8 (n : ℕ) : Text :=
  List.replicate (8 - (Nat.toDigits 16 n).length) '0' ++ Nat.toDigits 16 n

/-- The device, without `/dev/`. -/
def Partition.device (p : Partition) : Text :=
  "mtd".toList ++ decimal p.index

/-- The columns between the device and the name. -/
def Partition.sizes (p : Partition) : Text :=
  ' ' :: hex8 p.size ++ ' ' :: hex8 p.erasesize ++ [' ']

/-- `mtd%d: %8.8x %8.8x "%s"`. -/
def Partition.line (p : Partition) : Text :=
  p.device ++ ':' :: (p.sizes ++ '"' :: (p.name ++ ['"']))

def table (header : Header) (ps : List Partition) : Text :=
  unlines (header.text :: ps.map Partition.line)

/-! ## Characters of a line -/

theorem exists_digitChar {n : ℕ} {c : Char} (h : c ∈ Nat.toDigits 16 n) :
    ∃ d < 16, c = Nat.digitChar d := by
  induction n using Nat.base_induction 16 (by decide) with
  | single m hm =>
      rw [Nat.toDigits_of_lt_base hm, List.mem_singleton] at h
      exact ⟨m, hm, h⟩
  | digit m k hk hm ih =>
      rw [← Nat.toDigits_append_toDigits (by decide) hm hk, Nat.toDigits_of_lt_base hk,
        List.mem_append, List.mem_singleton] at h
      cases h with
      | inl h => exact ih h
      | inr h => exact ⟨k, hk, h⟩

/-- No digit is a quote or ends a line. -/
theorem hex8_plain {n : ℕ} {c : Char} (h : c ∈ hex8 n) : c ≠ '"' ∧ c ≠ '\n' := by
  rcases List.mem_append.mp h with h | h
  · rw [(List.mem_replicate.mp h).2]
    decide
  · obtain ⟨d, hd, rfl⟩ := exists_digitChar h
    interval_cases d <;> decide

theorem Partition.sizes_plain (p : Partition) {c : Char} (h : c ∈ p.sizes) :
    c ≠ '"' ∧ c ≠ '\n' := by
  simp only [sizes, List.cons_append, List.append_assoc, List.mem_cons, List.mem_append,
    List.not_mem_nil, or_false] at h
  rcases h with rfl | h | rfl | h | rfl
  · decide
  · exact hex8_plain h
  · decide
  · exact hex8_plain h
  · decide

theorem Partition.isToken_device (p : Partition) : IsToken p.device :=
  IsToken.append (by decide) (isToken_decimal p.index)

theorem Partition.colon_not_mem_device (p : Partition) : ':' ∉ p.device := by
  rw [device, List.mem_append, not_or]
  refine ⟨by decide, ?_⟩
  intro h
  have hdigit := Nat.isDigit_of_mem_toDigits (by decide) (by decide) h
  exact absurd hdigit (by decide)

theorem Partition.newline_not_mem_line (p : Partition) : '\n' ∉ p.line := by
  have hsizes : '\n' ∉ p.sizes := fun h => (p.sizes_plain h).2 rfl
  simp [line, p.isToken_device.newline_not_mem, hsizes, p.newline_not_mem]

end Lwrt.ProcMtd
