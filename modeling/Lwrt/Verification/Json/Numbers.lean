import Lwrt.Library.Shortest
import Lwrt.Model.JsonText
import Lwrt.Verification.Json.Completeness

/-! # The numbers that the parser takes

Which texts of the characters of a number `str::parse` accepts, and the text of any finite number
among them. -/

namespace Lwrt.JsonText

open Library Library.Text

/-! ## The parts of a number -/

/-- The first part of a text ends where something else starts. -/
theorem takeWhile_of_stop {α : Type} {p : α → Bool} {xs ys : List α} (hxs : ∀ x ∈ xs, p x = true)
    (hys : ∀ y, ys.head? = some y → p y = false) :
    (xs ++ ys).takeWhile p = xs ∧ (xs ++ ys).dropWhile p = ys := by
  rw [List.takeWhile_append_of_pos hxs, List.dropWhile_append_of_pos hxs]
  cases ys with
  | nil => simp
  | cons y ys =>
      have hy := hys y rfl
      simp [hy]

theorem takeSign_cases (s : Text) :
    (∃ t, s = '-' :: t ∧ F64.takeSign s = (true, t)) ∨
      (∃ t, s = '+' :: t ∧ F64.takeSign s = (false, t)) ∨ F64.takeSign s = (false, s) := by
  unfold F64.takeSign
  split
  · exact Or.inl ⟨_, rfl, rfl⟩
  · exact Or.inr (Or.inl ⟨_, rfl, rfl⟩)
  · exact Or.inr (Or.inr rfl)

theorem exponent_iff {t : Text} {e : ℤ} : F64.parseExponent t = some e ↔ Exponent t e := by
  constructor
  · intro h
    cases t with
    | nil =>
        obtain rfl := Option.some.inj h
        exact .none
    | cons mark s =>
        simp only [F64.parseExponent] at h
        split at h
        · rename_i hcond
          obtain rfl := Option.some.inj h
          obtain ⟨hmark, hne, hall⟩ := hcond
          rw [List.all_eq_true] at hall
          rcases takeSign_cases s with ⟨digits, rfl, hs⟩ | ⟨digits, rfl, hs⟩ | hs
          · rw [hs] at hne hall ⊢
            exact .minus hmark hne hall
          · rw [hs] at hne hall ⊢
            exact .plus hmark hne hall
          · rw [hs] at hne hall ⊢
            exact .mark hmark hne hall
        · cases h
  · intro h
    cases h with
    | none => rfl
    | @mark mark digits hmark hne hall =>
        obtain ⟨c, s, rfl⟩ := List.exists_cons_of_ne_nil hne
        have hsign := F64.takeSign_of_isDigit (hall c (by simp)) s
        simp only [F64.parseExponent, hsign]
        rw [if_pos ⟨hmark, hne, List.all_eq_true.mpr hall⟩]
        rfl
    | plus hmark hne hall =>
        simp only [F64.parseExponent, F64.takeSign]
        rw [if_pos ⟨hmark, hne, List.all_eq_true.mpr hall⟩]
        rfl
    | minus hmark hne hall =>
        simp only [F64.parseExponent, F64.takeSign]
        rw [if_pos ⟨hmark, hne, List.all_eq_true.mpr hall⟩]
        rfl

/-- An exponent starts with neither a digit nor a point. -/
theorem Exponent.head {t : Text} {e : ℤ} (h : Exponent t e) {c : Char} (hc : t.head? = some c) :
    c.isDigit = false ∧ c ≠ '.' := by
  cases h with
  | none => cases hc
  | mark hmark | plus hmark | minus hmark =>
      obtain rfl := Option.some.inj hc
      rcases hmark with rfl | rfl <;> decide

/-- Digits and what follows them, where `parseNumber` parts the two. -/
theorem parseNumber_mantissa {digits exponent : Text} {m places : ℕ} {e : ℤ} (neg : Bool)
    (h : Mantissa digits m places) (he : Exponent exponent e) :
    F64.parseNumber neg (digits ++ exponent) = some (.ofDecimal neg m (e - places)) := by
  have hstop : ∀ c, exponent.head? = some c → c.isDigit = false := fun c hc => (he.head hc).1
  have hpoint : exponent.head? ≠ some '.' := fun hc => (he.head hc).2 rfl
  cases h with
  | whole hne hall =>
      obtain ⟨htake, hdrop⟩ := takeWhile_of_stop hall hstop
      simp only [F64.parseNumber, htake, hdrop, hpoint, if_false, hne, false_and,
        exponent_iff.mpr he, Option.map_some, List.append_nil, List.length_nil]
  | @point whole fraction hne hall hfraction =>
      have hdot : ∀ c, ('.' :: (fraction ++ exponent)).head? = some c → c.isDigit = false := by
        intro c hc
        obtain rfl := Option.some.inj hc
        decide
      obtain ⟨htake, hdrop⟩ := takeWhile_of_stop hall hdot
      obtain ⟨htake', hdrop'⟩ := takeWhile_of_stop hfraction hstop
      rw [List.append_assoc, List.cons_append]
      simp only [F64.parseNumber, htake, hdrop, List.head?_cons, List.tail_cons, if_true, htake',
        hdrop', hne, if_false, exponent_iff.mpr he, Option.map_some]

theorem parseNumber_iff {neg : Bool} {s : Text} {n : F64} :
    F64.parseNumber neg s = some n ↔ ∃ digits exponent m places e, s = digits ++ exponent ∧
      Mantissa digits m places ∧ Exponent exponent e ∧ n = .ofDecimal neg m (e - places) := by
  constructor
  · intro h
    have hwhole : ∀ c ∈ s.takeWhile Char.isDigit, c.isDigit := fun c hc => List.mem_takeWhile_imp hc
    have hsplit : s.takeWhile Char.isDigit ++ s.dropWhile Char.isDigit = s :=
      List.takeWhile_append_dropWhile
    unfold F64.parseNumber at h
    generalize s.takeWhile Char.isDigit = whole at h hwhole hsplit
    generalize s.dropWhile Char.isDigit = rest at h hsplit
    by_cases hpoint : rest.head? = some '.'
    · obtain ⟨tail, rfl⟩ := List.head?_eq_some_iff.mp hpoint
      simp only [List.head?_cons, if_true, List.tail_cons] at h
      split at h
      · cases h
      · rename_i hne
        obtain ⟨e, he, rfl⟩ := Option.map_eq_some_iff.mp h
        refine ⟨whole ++ '.' :: tail.takeWhile Char.isDigit, tail.dropWhile Char.isDigit, _, _, e,
          ?_, .point hne hwhole fun c hc => List.mem_takeWhile_imp hc, exponent_iff.mp he, rfl⟩
        rw [List.append_assoc, List.cons_append, List.takeWhile_append_dropWhile, hsplit]
    · simp only [hpoint, if_false, and_true, List.append_nil, List.length_nil] at h
      split at h
      · cases h
      · rename_i hne
        obtain ⟨e, he, rfl⟩ := Option.map_eq_some_iff.mp h
        exact ⟨whole, rest, _, 0, e, hsplit.symm, .whole hne hwhole, exponent_iff.mp he, rfl⟩
  · rintro ⟨digits, exponent, m, places, e, rfl, hmantissa, hexponent, rfl⟩
    exact parseNumber_mantissa neg hmantissa hexponent

/-! ## Numbers as whole tokens -/

/-- The characters that may occur in a number. -/
def IsNumberChar (c : Char) : Prop :=
  c.isDigit ∨ c ∈ ['.', 'e', 'E', '+', '-']

theorem Exponent.chars {t : Text} {e : ℤ} (h : Exponent t e) : ∀ c ∈ t, IsNumberChar c := by
  cases h with
  | none => simp
  | mark hmark hne hall =>
      rintro c (_ | ⟨_, hc⟩)
      · rcases hmark with rfl | rfl <;> simp [IsNumberChar]
      · exact Or.inl (hall c hc)
  | plus hmark hne hall | minus hmark hne hall =>
      rintro c (_ | ⟨_, _ | ⟨_, hc⟩⟩)
      · rcases hmark with rfl | rfl <;> simp [IsNumberChar]
      · simp [IsNumberChar]
      · exact Or.inl (hall c hc)

theorem Mantissa.chars {t : Text} {m places : ℕ} (h : Mantissa t m places) :
    t ≠ [] ∧ ∀ c ∈ t, c.isDigit ∨ c = '.' := by
  cases h with
  | whole hne hall => exact ⟨hne, fun c hc => Or.inl (hall c hc)⟩
  | point hne hall hfraction =>
      refine ⟨by simp, ?_⟩
      intro c hc
      rcases List.mem_append.mp hc with hc | hc
      · exact Or.inl (hall c hc)
      · rcases List.mem_cons.mp hc with rfl | hc
        · exact Or.inr rfl
        · exact Or.inl (hfraction c hc)

/-- No number starts as `inf` or `nan` does. -/
theorem IsNumberChar.toLower_ne {c : Char} (h : IsNumberChar c) :
    c.toLower ≠ 'i' ∧ c.toLower ≠ 'n' := by
  rcases h with hc | hc
  · rw [F64.toLower_of_isDigit hc]
    constructor
    · rintro rfl
      exact absurd hc (by decide)
    · rintro rfl
      exact absurd hc (by decide)
  · simp only [List.mem_cons, List.not_mem_nil, or_false] at hc
    rcases hc with rfl | rfl | rfl | rfl | rfl <;> decide

/-- A sign or a digit, as the parser tells a number from the other values. -/
def StartsNumber (t : Text) : Prop :=
  ∃ c s, t = c :: s ∧ (c = '-' ∨ c.isDigit = true)

theorem isNumberChar_of_mantissa {c : Char} (h : c.isDigit ∨ c = '.') : IsNumberChar c := by
  rcases h with h | rfl
  · exact Or.inl h
  · simp [IsNumberChar]

theorem Number.chars {t : Text} {n : F64} (h : Number t n) :
    StartsNumber t ∧ ∀ c ∈ t, IsNumberChar c := by
  cases h with
  | @plain digits exponent m places e h hstart he =>
      obtain ⟨hne, hall⟩ := h.chars
      refine ⟨?_, ?_⟩
      · obtain ⟨c, s, rfl⟩ := List.exists_cons_of_ne_nil hne
        have hc : c ≠ '.' := fun hc => hstart (by rw [hc, List.head?_cons])
        exact ⟨c, s ++ exponent, rfl, Or.inr ((hall c (by simp)).resolve_right hc)⟩
      · intro c hc
        rcases List.mem_append.mp hc with hc | hc
        · exact isNumberChar_of_mantissa (hall c hc)
        · exact he.chars c hc
  | minus h he =>
      refine ⟨⟨'-', _, rfl, Or.inl rfl⟩, ?_⟩
      rintro c (_ | ⟨_, hc⟩)
      · simp [IsNumberChar]
      · rcases List.mem_append.mp hc with hc | hc
        · exact isNumberChar_of_mantissa (h.chars.2 c hc)
        · exact he.chars c hc

theorem Number.parse {t : Text} {n : F64} (h : Number t n) : F64.parse t = some n := by
  obtain ⟨hstart, hchars⟩ := h.chars
  cases h with
  | @plain digits exponent m places e h hpoint he =>
      rw [← parseNumber_mantissa false h he]
      obtain ⟨c, s, hcons⟩ := List.exists_cons_of_ne_nil h.chars.1
      have hc : c ≠ '.' := fun hc => hpoint (by rw [hcons, hc, List.head?_cons])
      have hdigit := (h.chars.2 c (by simp [hcons])).resolve_right hc
      rw [hcons]
      exact F64.parse_of_isDigit false hdigit
  | @minus digits exponent m places e h he =>
      rw [← parseNumber_mantissa true h he]
      obtain ⟨c, s, hcons⟩ := List.exists_cons_of_ne_nil h.chars.1
      obtain ⟨hi, hn⟩ := (hchars c (by simp [hcons])).toLower_ne
      rw [hcons]
      exact F64.parse_of_head rfl hi hn

/-- What `parse` accepts among the texts of a number's characters is a number. -/
theorem number_of_parse {t : Text} {n : F64} (hstart : StartsNumber t)
    (hchars : ∀ c ∈ t, IsNumberChar c) (h : F64.parse t = some n) : Number t n := by
  obtain ⟨c, s, rfl, rfl | hdigit⟩ := hstart
  · cases s with
    | nil => cases h
    | cons d s =>
        obtain ⟨hi, hn⟩ := (hchars d (by simp)).toLower_ne
        rw [F64.parse_of_head (c := d) (t := s) rfl hi hn, parseNumber_iff] at h
        obtain ⟨digits, exponent, m, places, e, hsplit, hmantissa, he, rfl⟩ := h
        rw [hsplit]
        exact .minus hmantissa he
  · have hparse := F64.parse_of_isDigit false (t := s) hdigit
    simp only [Bool.false_eq_true, if_false] at hparse
    rw [hparse, parseNumber_iff] at h
    obtain ⟨digits, exponent, m, places, e, hsplit, hmantissa, he, rfl⟩ := h
    rw [hsplit]
    refine .plain hmantissa ?_ he
    obtain ⟨d, w, rfl⟩ := List.exists_cons_of_ne_nil hmantissa.chars.1
    obtain rfl := (List.cons.inj hsplit).1
    intro hhead
    rw [Option.some.inj hhead] at hdigit
    exact absurd hdigit (by decide)

theorem positional_chars (m : ℕ) (e : ℤ) :
    StartsNumber (F64.positional m e) ∧ ∀ c ∈ F64.positional m e, IsNumberChar c := by
  obtain ⟨c, t, hcons, hdigit⟩ := F64.positional_eq_cons m e
  refine ⟨⟨c, t, hcons, Or.inr hdigit⟩, ?_⟩
  obtain ⟨whole, fraction, -, hwhole, hfraction, ⟨htext, -⟩ | ⟨htext, -⟩⟩ :=
    F64.positional_cases m e
  · intro c hc
    rw [htext] at hc
    exact Or.inl (hwhole c hc)
  · intro c hc
    rw [htext, List.mem_append, List.mem_cons] at hc
    rcases hc with hc | rfl | hc
    · exact Or.inl (hwhole c hc)
    · simp [IsNumberChar]
    · exact Or.inl (hfraction c hc)

/-- The text of a finite number that is not zero. -/
theorem number_display {x : F64} {units : ℤ} (hx : x.units? = some units) (h0 : units ≠ 0) :
    Number x.display x := by
  have hparse := F64.parse_display hx h0
  cases x with
  | nan => cases hx
  | inf neg => cases hx
  | finite u h =>
      obtain ⟨hstart, hchars⟩ :=
        positional_chars (F64.shortest u.natAbs).1 (F64.shortest u.natAbs).2
      simp only [F64.display] at hparse ⊢
      split
      · rename_i hneg
        rw [if_pos hneg] at hparse
        refine number_of_parse ⟨'-', _, rfl, Or.inl rfl⟩ ?_ hparse
        rintro c (_ | ⟨_, hc⟩)
        · simp [IsNumberChar]
        · exact hchars c hc
      · rename_i hnonneg
        rw [if_neg hnonneg] at hparse
        exact number_of_parse hstart hchars hparse

end Lwrt.JsonText
