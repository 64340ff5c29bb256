import Mathlib.Tactic.IntervalCases
import Lwrt.Library.Text

/-! Decimal numbers in text: which texts are read as a number, and which of them is the one that
is written for it. -/

namespace Lwrt.Library.Text

/-- Digits after an optional plus sign. -/
def Numeral (s : Text) (n : ℕ) : Prop :=
  ∃ digits, (s = digits ∨ s = '+' :: digits) ∧ digits ≠ [] ∧ (∀ c ∈ digits, c.isDigit) ∧
    Nat.ofDigitChars 10 digits 0 = n

theorem Numeral.not_mem {s : Text} {n : ℕ} (h : Numeral s n) {c : Char} (hdigit : c.isDigit = false)
    (hplus : c ≠ '+') : c ∉ s := by
  obtain ⟨digits, hs, -, hall, -⟩ := h
  have hdigits : c ∉ digits := by
    intro hmem
    rw [hall c hmem] at hdigit
    cases hdigit
  rcases hs with rfl | rfl
  · exact hdigits
  · simp [hplus, hdigits]

theorem foldl_digits (digits : Text) (init : ℕ) :
    digits.foldl (fun acc c => acc * 10 + (c.toNat - '0'.toNat)) init =
      Nat.ofDigitChars 10 digits init := by
  induction digits generalizing init with
  | nil => rfl
  | cons c digits ih => rw [List.foldl_cons, ih, Nat.ofDigitChars_cons, Nat.mul_comm]

theorem parseUnsigned_eq_some_iff {bound : ℕ} {s : Text} {n : ℕ} :
    parseUnsigned bound s = some n ↔ Numeral s n ∧ n < bound := by
  have hplus : ¬ '+'.isDigit := by decide
  simp only [parseUnsigned, foldl_digits, List.all_eq_true]
  constructor
  · intro h
    split at h
    case isFalse => cases h
    case isTrue hdigits =>
      obtain ⟨hne, hall, hlt⟩ := hdigits
      obtain rfl := Option.some.inj h
      refine ⟨⟨_, ?_, hne, hall, rfl⟩, hlt⟩
      cases s with
      | nil => exact Or.inl rfl
      | cons c s =>
          by_cases hc : c = '+'
          · exact Or.inr (by simp [stripPrefix, hc])
          · exact Or.inl (by simp [stripPrefix, hc])
  · intro h
    obtain ⟨⟨digits, hs, hne, hall, rfl⟩, hlt⟩ := h
    have hdigits : (stripPrefix '+' s).getD s = digits := by
      cases hs with
      | inr hs => rw [hs, stripPrefix, if_pos rfl, Option.getD_some]
      | inl hs =>
          obtain ⟨c, rest, hcons⟩ := List.exists_cons_of_ne_nil hne
          have hc : c ≠ '+' := by
            intro heq
            exact hplus (heq ▸ hall c (hcons ▸ List.mem_cons_self))
          rw [hs, hcons, stripPrefix, if_neg hc, Option.getD_none]
    rw [hdigits, if_pos ⟨hne, hall, hlt⟩]

theorem Numeral.unique {s : Text} {n k : ℕ} (hn : Numeral s n) (hk : Numeral s k) : n = k := by
  have hn' := parseUnsigned_eq_some_iff.mpr ⟨hn, (by omega : n < n + k + 1)⟩
  have hk' := parseUnsigned_eq_some_iff.mpr ⟨hk, (by omega : k < n + k + 1)⟩
  exact Option.some.inj (hn'.symm.trans hk')

/-- Numerals have no white space and no letters. -/
theorem Numeral.plain {s : Text} {n : ℕ} (h : Numeral s n) :
    ∀ c ∈ s, isWhitespace c = false ∧ c.toLower = c := by
  intro c hc
  have hrange : 43 ≤ c.toNat ∧ c.toNat ≤ 57 := by
    by_cases hplus : c = '+'
    · rw [hplus]
      decide
    · cases hdigit : c.isDigit with
      | false => exact absurd hc (h.not_mem hdigit hplus)
      | true =>
          simp only [Char.isDigit, Bool.and_eq_true, decide_eq_true_eq] at hdigit
          have hlo : 48 ≤ c.toNat := UInt32.le_iff_toNat_le.mp hdigit.1
          have hhi : c.toNat ≤ 57 := UInt32.le_iff_toNat_le.mp hdigit.2
          omega
  refine ⟨isWhitespace_eq_false_of_le (by omega) (by omega), ?_⟩
  rcases toLower_cases c with hlower | ⟨hge, -, -⟩
  · exact hlower
  · omega

theorem parseU16_eq_some_iff {s : Text} {n : UInt16} :
    (parseUnsigned (2 ^ 16) s).map UInt16.ofNat = some n ↔ Numeral s n.toNat := by
  rw [Option.map_eq_some_iff]
  constructor
  · intro h
    obtain ⟨k, hk, rfl⟩ := h
    obtain ⟨hnumeral, hlt⟩ := parseUnsigned_eq_some_iff.mp hk
    rwa [UInt16.toNat_ofNat_of_lt' hlt]
  · intro h
    exact ⟨n.toNat, parseUnsigned_eq_some_iff.mpr ⟨h, n.toNat_lt⟩, UInt16.ofNat_toNat⟩

/-! ## Canonical numbers -/

theorem numeral_decimal (n : ℕ) : Numeral (decimal n) n :=
  ⟨decimal n, Or.inl rfl, Nat.toDigits_ne_nil,
    fun _ hc => Nat.isDigit_of_mem_toDigits (by decide) (by decide) hc, Nat.ofDigitChars_ten_toDigits⟩

/-- A number is read back. -/
theorem parseUnsigned_decimal {bound n : ℕ} (h : n < bound) :
    parseUnsigned bound (decimal n) = some n :=
  parseUnsigned_eq_some_iff.mpr ⟨numeral_decimal n, h⟩

theorem digitChar_toNat_sub {c : Char} (h : c.isDigit) :
    c.toNat - '0'.toNat < 10 ∧ Nat.toDigits 10 (c.toNat - '0'.toNat) = [c] := by
  simp only [Char.isDigit, Bool.and_eq_true, decide_eq_true_eq] at h
  have hlo : 48 ≤ c.toNat := UInt32.le_iff_toNat_le.mp h.1
  have hhi : c.toNat ≤ 57 := UInt32.le_iff_toNat_le.mp h.2
  have hof : c = Char.ofNat c.toNat := (Char.ofNat_toNat c).symm
  rw [hof]
  generalize c.toNat = n at hlo hhi
  interval_cases n <;> decide

/-- Digits without a leading zero are the way that their number is written. -/
theorem decimal_ofDigitChars {digits : Text} (hne : digits ≠ []) (hall : ∀ c ∈ digits, c.isDigit)
    (hzero : ¬ (digits.head? = some '0' ∧ 1 < digits.length)) :
    decimal (Nat.ofDigitChars 10 digits 0) = digits := by
  induction digits using List.reverseRecOn with
  | nil => exact absurd rfl hne
  | append_singleton front c ih =>
      obtain ⟨hlt, hc⟩ := digitChar_toNat_sub (hall c (by simp))
      rw [Nat.ofDigitChars_append, Nat.ofDigitChars_cons, Nat.ofDigitChars_nil, decimal]
      by_cases hfront : front = []
      · rw [hfront, Nat.ofDigitChars_nil, Nat.mul_zero, Nat.zero_add, hc, List.nil_append]
      · obtain ⟨d, rest, hcons⟩ := List.exists_cons_of_ne_nil hfront
        have hd : d ≠ '0' := by
          intro heq
          refine hzero ⟨by simp [hcons, heq], ?_⟩
          have := List.length_pos_iff.mpr hfront
          rw [List.length_append, List.length_singleton]
          omega
        have hwritten := ih hfront (fun x hx => hall x (by simp [hx])) (by simp [hcons, hd])
        have hpos : 0 < Nat.ofDigitChars 10 front 0 := by
          rw [Nat.pos_iff_ne_zero]
          intro hnil
          rw [hnil, hcons] at hwritten
          exact hd (List.cons.inj hwritten).1.symm
        rw [← Nat.toDigits_append_toDigits (by decide) hpos hlt, hc]
        exact congrArg (· ++ [c]) hwritten

/-- The digits that are written for a number have no leading zero. -/
theorem decimal_leading (n : ℕ) :
    ¬ ((decimal n).head? = some '0' ∧ 1 < (decimal n).length) := by
  unfold decimal
  induction n using Nat.base_induction 10 (by decide) with
  | single m hm =>
      rw [Nat.toDigits_of_lt_base hm]
      simp
  | digit m k hk hm ih =>
      obtain ⟨c, rest, hcons⟩ := List.exists_cons_of_ne_nil (Nat.toDigits_ne_nil (b := 10) (n := m))
      rw [← Nat.toDigits_append_toDigits (by decide) hm hk, hcons]
      rw [hcons] at ih
      rintro ⟨hzero, -⟩
      obtain rfl : c = '0' := by simpa using hzero
      cases rest with
      | cons d rest => exact ih ⟨rfl, by simp⟩
      | nil =>
          have hm0 := congrArg (fun t => Nat.ofDigitChars 10 t 0) hcons
          rw [Nat.ofDigitChars_ten_toDigits] at hm0
          exact absurd hm0 (Nat.ne_of_gt hm)

end Lwrt.Library.Text
