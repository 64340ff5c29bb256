import Lwrt.Library.Float64
import Mathlib.Tactic.Positivity

/-! # The shortest decimal of a binary64 number

Seventeen significant digits identify a number, so that the search for the shortest decimal that
reads back ends, and the text of a number is read back exactly. -/

namespace Lwrt.Library

namespace F64

/-! ## Rounding what is close -/

/-- Anything less than half way to the next integer is rounded back. -/
theorem roundHalfEven_of_close {n d k : ℕ} (hup : 2 * n < 2 * (k * d) + d)
    (hdown : 2 * (k * d) < 2 * n + d) : roundHalfEven n d = k := by
  have hd : 0 < d := by omega
  by_cases hle : k * d ≤ n
  · have hdiv : n / d = k := by
      rw [Nat.div_eq_iff hd]
      omega
    have hmod := Nat.div_add_mod' n d
    rw [hdiv] at hmod
    rw [roundHalfEven, hdiv, if_neg (by omega)]
  · obtain ⟨j, rfl⟩ : ∃ j, k = j + 1 := Nat.exists_eq_succ_of_ne_zero (by rintro rfl; omega)
    rw [Nat.add_mul, Nat.one_mul] at hup hdown hle
    have hdiv : n / d = j := by
      rw [Nat.div_eq_iff hd]
      omega
    have hmod := Nat.div_add_mod' n d
    rw [hdiv] at hmod
    rw [roundHalfEven, hdiv, if_pos (by omega)]

theorem roundHalfEven_mul_mul (n d : ℕ) {c : ℕ} (hc : 0 < c) :
    roundHalfEven (n * c) (d * c) = roundHalfEven n d := by
  have hmod : n * c % (d * c) = n % d * c := Nat.mul_mod_mul_right c n d
  have hlt : d * c < 2 * (n % d * c) ↔ d < 2 * (n % d) := by
    rw [← Nat.mul_assoc]
    exact Nat.mul_lt_mul_right hc
  have heq : d * c = 2 * (n % d * c) ↔ d = 2 * (n % d) := by
    rw [← Nat.mul_assoc]
    exact Nat.mul_left_inj hc.ne'
  simp only [roundHalfEven, hmod, Nat.mul_div_mul_right _ _ hc, hlt, heq]

/-- Only the ratio counts. -/
theorem nearest_mul_mul (n d : ℕ) {c : ℕ} (hc : 0 < c) :
    nearest (n * c) (d * c) = nearest n d := by
  have hnum : n * c * one = n * one * c := Nat.mul_right_comm n c one
  have hden : ∀ s, d * c * 2 ^ s = d * 2 ^ s * c := fun s => Nat.mul_right_comm d c (2 ^ s)
  simp only [nearest, hnum, hden, Nat.mul_div_mul_right _ _ hc, roundHalfEven_mul_mul _ _ hc]

/-- A magnitude of at most 53 significant bits. -/
def Significant (units : ℕ) : Prop :=
  ∃ m s : ℕ, m ≤ 2 ^ 53 ∧ units = m * 2 ^ s

/-- The bits below the 53 significant ones are zeros. -/
theorem Significant.dvd {u : ℕ} (h : Significant u) : 2 ^ excess u ∣ u := by
  obtain ⟨m, s, hm, rfl⟩ := h
  by_cases h0 : m = 0
  · simp [h0]
  rcases hm.lt_or_eq with hm | rfl
  · have hlog : (m * 2 ^ s).log2 < 53 + s := by
      rw [Nat.log2_lt (Nat.mul_ne_zero h0 (Nat.two_pow_pos s).ne'), pow_add]
      exact Nat.mul_lt_mul_of_pos_right hm (Nat.two_pow_pos s)
    apply Dvd.dvd.mul_left
    apply Nat.pow_dvd_pow
    unfold excess
    omega
  · rw [← pow_add]
    apply Nat.pow_dvd_pow
    rw [excess, Nat.log2_two_pow]
    omega

theorem lt_mul_of_excess (q : ℕ) : q < 2 ^ 53 * 2 ^ excess q := by
  exact Nat.lt_mul_of_div_lt (div_excess_lt q) (Nat.two_pow_pos _)

theorem excess_le_of_lt {q t : ℕ} (h : q < 2 ^ 53 * 2 ^ t) : excess q ≤ t := by
  by_cases h0 : q = 0
  · simp [h0, excess]
  · rw [← pow_add, ← Nat.log2_lt h0] at h
    unfold excess
    omega

/-- A ratio that is off by less than one part in 2^54 is rounded to the number it is close to. -/
theorem nearest_of_close {n d u : ℕ} (hu : Significant u)
    (hup : 2 ^ 54 * (n * one) < 2 ^ 54 * (u * d) + u * d)
    (hdown : 2 ^ 54 * (u * d) < 2 ^ 54 * (n * one) + u * d) : nearest n d = u := by
  have hd : 0 < d := by
    rcases Nat.eq_zero_or_pos d with rfl | hd
    · omega
    · exact hd
  unfold nearest
  generalize n * one = N at hup hdown ⊢
  have hfloor : N / d * d ≤ N := Nat.div_mul_le_self N d
  have hceil : N < N / d * d + d := Nat.lt_div_mul_add hd
  generalize N / d = q at hfloor hceil ⊢
  have hq := lt_mul_of_excess q
  have hs : 2 ^ excess q ∣ u := by
    apply (Nat.pow_dvd_pow 2 _).trans hu.dvd
    apply excess_le_of_lt
    obtain ⟨k, hk⟩ := hu.dvd
    have hbound := lt_mul_of_excess u
    generalize 2 ^ excess u = S at hk hbound ⊢
    have hk53 : u + S ≤ 2 ^ 53 * S := by
      rw [hk, Nat.mul_comm S k] at hbound ⊢
      have hlt : k < 2 ^ 53 := Nat.lt_of_mul_lt_mul_right hbound
      calc
        k * S + S = (k + 1) * S := (Nat.succ_mul k S).symm
        _ ≤ 2 ^ 53 * S := Nat.mul_le_mul_right S hlt
    have hqu : 2 ^ 54 * q < 2 ^ 54 * u + u := by
      apply Nat.lt_of_mul_lt_mul_right (a := d)
      rw [Nat.add_mul, Nat.mul_assoc, Nat.mul_assoc]
      omega
    omega
  have hfine : u ≤ 2 ^ 53 * 2 ^ excess q := by
    by_contra hgt
    have hcoarse : excess q + 1 ≤ excess u := by
      have hlog : 53 + excess q ≤ u.log2 := by
        rw [Nat.le_log2 (by omega), pow_add]
        omega
      unfold excess at hlog ⊢
      omega
    obtain ⟨k, hk⟩ := (Nat.pow_dvd_pow 2 hcoarse).trans hu.dvd
    rw [pow_succ] at hk
    generalize 2 ^ excess q = S at hk hgt hq
    have hk52 : 2 ^ 52 < k := by
      apply Nat.lt_of_mul_lt_mul_left (a := S * 2)
      omega
    have hnext : S * 2 * (2 ^ 52 + 1) ≤ u := by
      rw [hk]
      exact Nat.mul_le_mul_left _ hk52
    have hqu : (2 ^ 54 - 1) * u < 2 ^ 54 * (q + 1) := by
      apply Nat.lt_of_mul_lt_mul_right (a := d)
      rw [Nat.mul_assoc, Nat.mul_assoc, Nat.add_mul]
      omega
    omega
  obtain ⟨k, rfl⟩ := hs
  simp only
  generalize 2 ^ excess q = S at hfine hup hdown ⊢
  have hprod : S * k * d = k * (d * S) := by ring
  have hbound : S * k * d ≤ 2 ^ 53 * (d * S) := by
    calc
      S * k * d ≤ 2 ^ 53 * S * d := Nat.mul_le_mul_right d hfine
      _ = 2 ^ 53 * (d * S) := by ring
  rw [hprod] at hup hdown hbound
  rw [roundHalfEven_of_close (k := k) (by omega) (by omega), Nat.mul_comm]

/-! ## Decimals that read back -/

/-- A decimal as a ratio. -/
theorem ofDecimal_eq (neg : Bool) (m : ℕ) (e : ℤ) :
    ofDecimal neg m e = ofRatio neg (m * 10 ^ e.toNat) (10 ^ (-e).toNat) := by
  unfold ofDecimal
  split
  · have hneg : (-e).toNat = 0 := by omega
    rw [hneg, pow_zero]
  · have hpos : e.toNat = 0 := by omega
    rw [hpos, pow_zero, Nat.mul_one]

theorem ofRatio_mul_mul (neg : Bool) (n d : ℕ) {c : ℕ} (hc : 0 < c) :
    ofRatio neg (n * c) (d * c) = ofRatio neg n d := by
  simp only [ofRatio, nearest_mul_mul n d hc]

/-- A zero at the end is the same as one more in the exponent. -/
theorem ofDecimal_mul_ten (neg : Bool) (m : ℕ) (e : ℤ) :
    ofDecimal neg (m * 10) e = ofDecimal neg m (e + 1) := by
  rw [ofDecimal_eq, ofDecimal_eq]
  by_cases he : 0 ≤ e
  · have hnum : (e + 1).toNat = e.toNat + 1 := by omega
    have hden : (-e).toNat = (-(e + 1)).toNat := by omega
    rw [hnum, hden, pow_succ, Nat.mul_assoc, Nat.mul_comm 10]
  · have hnum : e.toNat = (e + 1).toNat := by omega
    have hden : (-e).toNat = (-(e + 1)).toNat + 1 := by omega
    rw [hnum, hden, pow_succ, Nat.mul_right_comm, ofRatio_mul_mul _ _ _ (by omega)]

theorem readsBack_iff {u m : ℕ} {e : ℤ} :
    readsBack u m e = true ↔ (ofDecimal false m e).units? = some (u : ℤ) := by
  unfold readsBack
  split
  · rename_i heq
    simp [heq, units?]
  · rename_i hne
    cases h : ofDecimal false m e with
    | finite v hv => exact absurd h (hne v hv)
    | _ => simp [units?]

theorem readsBack_of_close {u m : ℕ} {e : ℤ} (hu : Significant u) (hlimit : u < limit)
    (hup : 2 ^ 54 * (m * (one * 10 ^ e.toNat)) <
      2 ^ 54 * (u * 10 ^ (-e).toNat) + u * 10 ^ (-e).toNat)
    (hdown : 2 ^ 54 * (u * 10 ^ (-e).toNat) <
      2 ^ 54 * (m * (one * 10 ^ e.toNat)) + u * 10 ^ (-e).toNat) :
    readsBack u m e = true := by
  have hnum : m * 10 ^ e.toNat * one = m * (one * 10 ^ e.toNat) := by ring
  have hnear : nearest (m * 10 ^ e.toNat) (10 ^ (-e).toNat) = u := by
    apply nearest_of_close hu
    · rwa [hnum]
    · rwa [hnum]
  rw [readsBack_iff, ofDecimal_eq, ofRatio, dif_pos (by rwa [hnear]), units?, hnear]
  simp [signed]

/-! ## Seventeen digits -/

theorem two_pow_le_ten_pow {b k : ℕ} (h : b ≤ 3 * k) : 2 ^ b ≤ 10 ^ k := by
  calc
    2 ^ b ≤ 2 ^ (3 * k) := Nat.pow_le_pow_right (by omega) h
    _ = (2 ^ 3) ^ k := pow_mul 2 3 k
    _ ≤ 10 ^ k := Nat.pow_le_pow_left (by omega) k

theorem one_le_pow : one ≤ 10 ^ 400 := by
  apply two_pow_le_ten_pow
  unfold unitBits
  omega

/-- The decimal exponent is that of the first digit. -/
theorem pow_decimalExponent_le {u : ℕ} (hu : 0 < u) {l : ℕ}
    (hl : decimalExponent u = (l + 1 : ℕ) - 400) : 10 ^ l * one ≤ u * 10 ^ 400 := by
  have hlen : (Text.decimal (u * 10 ^ 400 / one)).length = l + 1 := by
    unfold decimalExponent at hl
    omega
  have hge : 10 ^ l ≤ u * 10 ^ 400 / one := by
    by_contra hlt
    rcases Nat.eq_zero_or_pos l with rfl | hl0
    · have hpos : 0 < u * 10 ^ 400 / one :=
        Nat.div_pos (one_le_pow.trans (Nat.le_mul_of_pos_left _ hu)) one_pos
      omega
    · have hle := (Nat.length_toDigits_le_iff (n := u * 10 ^ 400 / one) (by omega) hl0).mpr
        (Nat.lt_of_not_le hlt)
      rw [Text.decimal] at hlen
      omega
  calc
    10 ^ l * one ≤ u * 10 ^ 400 / one * one := Nat.mul_le_mul_right one hge
    _ ≤ u * 10 ^ 400 := Nat.div_mul_le_self _ _

theorem exists_decimalExponent (u : ℕ) : ∃ l : ℕ, decimalExponent u = (l + 1 : ℕ) - 400 := by
  have hpos : 0 < (Text.decimal (u * 10 ^ 400 / one)).length := Nat.length_toDigits_pos
  obtain ⟨l, hl⟩ := Nat.exists_eq_succ_of_ne_zero hpos.ne'
  exact ⟨l, by rw [decimalExponent, hl]⟩

theorem pow_mul_le_of_exponents {a b k l p x u : ℕ} (hexp : a + p + k = b + l)
    (h : 10 ^ l * x ≤ u * 10 ^ k) : 10 ^ p * (x * 10 ^ a) ≤ u * 10 ^ b := by
  apply Nat.le_of_mul_le_mul_right (c := 10 ^ k) _ (by positivity)
  calc
    10 ^ p * (x * 10 ^ a) * 10 ^ k = x * 10 ^ (a + p + k) := by ring
    _ = 10 ^ l * x * 10 ^ b := by
      rw [hexp]
      ring
    _ ≤ u * 10 ^ k * 10 ^ b := Nat.mul_le_mul_right _ h
    _ = u * 10 ^ b * 10 ^ k := by ring

/-- Scaled so that `p` more digits than the first lie before the point, a number has as many. -/
theorem pow_le_scaled {u : ℕ} (hu : 0 < u) (p : ℕ) {e : ℤ}
    (he : e = decimalExponent u - (p + 1 : ℕ)) :
    10 ^ p * (one * 10 ^ e.toNat) ≤ u * 10 ^ (-e).toNat := by
  obtain ⟨l, hl⟩ := exists_decimalExponent u
  exact pow_mul_le_of_exponents (l := l) (k := 400) (by omega) (pow_decimalExponent_le hu hl)

/-- `n / d` to the nearest integer, ties up. -/
def neighbour (n d : ℕ) : ℕ :=
  if d ≤ 2 * (n % d) then n / d + 1 else n / d

theorem neighbour_close (n : ℕ) {d : ℕ} (hd : 0 < d) :
    2 * (neighbour n d * d) ≤ 2 * n + d ∧ 2 * n ≤ 2 * (neighbour n d * d) + d := by
  have hmod := Nat.div_add_mod' n d
  have hlt := Nat.mod_lt n hd
  unfold neighbour
  split
  · rw [Nat.add_mul, Nat.one_mul]
    omega
  · omega

/-- Of the decimals with 17 digits the nearest one reads back. -/
theorem readsBack_neighbour {u : ℕ} (hpos : 0 < u) (hu : Significant u) (hlimit : u < limit)
    {e : ℤ} (he : e = decimalExponent u - (17 : ℕ)) :
    readsBack u (neighbour (u * 10 ^ (-e).toNat) (one * 10 ^ e.toNat)) e = true := by
  have hd : 0 < one * 10 ^ e.toNat := Nat.mul_pos one_pos (by positivity)
  have hdigits := pow_le_scaled hpos 16 he
  obtain ⟨hle, hge⟩ := neighbour_close (u * 10 ^ (-e).toNat) hd
  apply readsBack_of_close hu hlimit
  · omega
  · omega

theorem withDigits_reads {u p m : ℕ} {e : ℤ} (h : withDigits u p = some (m, e)) :
    (ofDecimal false m e).units? = some (u : ℤ) := by
  unfold withDigits at h
  obtain ⟨n, hfind, hn⟩ := Option.map_eq_some_iff.mp h
  have hback : readsBack u n (decimalExponent u - p) = true := by
    have hsome := List.find?_some hfind
    exact hsome
  have hreads := readsBack_iff.mp hback
  split at hn
  · rename_i hten
    obtain ⟨rfl, rfl⟩ := Prod.mk.inj hn
    have hmul := ofDecimal_mul_ten false 1 (decimalExponent u - p)
    rw [Nat.one_mul] at hmul
    rwa [← hmul, ← hten]
  · obtain ⟨rfl, rfl⟩ := Prod.mk.inj hn
    exact hreads

theorem withDigits_isSome {u : ℕ} (hpos : 0 < u) (hu : Significant u) (hlimit : u < limit) :
    (withDigits u 17).isSome = true := by
  have hreads := readsBack_neighbour hpos hu hlimit rfl
  unfold neighbour at hreads
  rw [withDigits, Option.isSome_map, List.find?_isSome]
  split
  · rename_i hup
    rw [if_pos hup] at hreads
    exact ⟨_, List.mem_cons_self, hreads⟩
  · rename_i hup
    rw [if_neg hup] at hreads
    exact ⟨_, List.mem_cons_self, hreads⟩

/-- The search ends with a decimal that reads back. -/
theorem shortest_reads {u : ℕ} (hpos : 0 < u) (hu : Significant u) (hlimit : u < limit) :
    (ofDecimal false (shortest u).1 (shortest u).2).units? = some (u : ℤ) := by
  have hsome : ((List.range 17).findSome? fun p => withDigits u (p + 1)).isSome = true := by
    rw [List.findSome?_isSome_iff]
    exact ⟨16, by simp, withDigits_isSome hpos hu hlimit⟩
  obtain ⟨d, hd⟩ := Option.isSome_iff_exists.mp hsome
  obtain ⟨p, -, hp⟩ := List.exists_of_findSome?_eq_some hd
  rw [shortest, hd]
  exact withDigits_reads hp

/-! ## The text of a number -/

/-- Digits, then perhaps a point and more digits. -/
theorem parseNumber_digits (neg : Bool) {whole : Text} (hne : whole ≠ [])
    (hwhole : ∀ c ∈ whole, c.isDigit = true) :
    parseNumber neg whole = some (ofDecimal neg (Nat.ofDigitChars 10 whole 0) 0) := by
  have htake : whole.takeWhile Char.isDigit = whole := List.takeWhile_eq_self_iff.mpr hwhole
  have hdrop : whole.dropWhile Char.isDigit = [] := List.dropWhile_eq_nil_iff.mpr hwhole
  simp only [parseNumber, htake, hdrop, List.head?_nil, reduceCtorEq, if_false, hne, false_and,
    parseExponent, Option.map_some, List.append_nil, List.length_nil, Nat.cast_zero, sub_zero]

theorem parseNumber_point (neg : Bool) {whole fraction : Text} (hne : whole ≠ [])
    (hwhole : ∀ c ∈ whole, c.isDigit = true) (hfraction : ∀ c ∈ fraction, c.isDigit = true) :
    parseNumber neg (whole ++ '.' :: fraction) =
      some (ofDecimal neg (Nat.ofDigitChars 10 (whole ++ fraction) 0) (-fraction.length)) := by
  have hpoint : Char.isDigit '.' = false := by decide
  have htake : (whole ++ '.' :: fraction).takeWhile Char.isDigit = whole := by
    rw [List.takeWhile_append_of_pos hwhole, List.takeWhile_cons_of_neg (by simp [hpoint]),
      List.append_nil]
  have hdrop : (whole ++ '.' :: fraction).dropWhile Char.isDigit = '.' :: fraction := by
    rw [List.dropWhile_append_of_pos hwhole, List.dropWhile_cons_of_neg (by simp [hpoint])]
  have htake' : fraction.takeWhile Char.isDigit = fraction :=
    List.takeWhile_eq_self_iff.mpr hfraction
  have hdrop' : fraction.dropWhile Char.isDigit = [] := List.dropWhile_eq_nil_iff.mpr hfraction
  simp only [parseNumber, htake, hdrop, List.head?_cons, List.tail_cons, htake', hdrop', if_true,
    hne, false_and, if_false, parseExponent, Option.map_some, zero_sub]

theorem isDigit_positional_padding {n m : ℕ} {c : Char}
    (h : c ∈ List.replicate n '0' ++ Text.decimal m) : c.isDigit = true := by
  rcases List.mem_append.mp h with hc | hc
  · rw [List.eq_of_mem_replicate hc]
    decide
  · exact isDigit_of_mem_decimal hc

/-- A decimal without an exponent: digits, and a point among them when there are places. -/
theorem positional_cases (m : ℕ) (e : ℤ) :
    ∃ whole fraction : Text, whole ≠ [] ∧ (∀ c ∈ whole, c.isDigit = true) ∧
      (∀ c ∈ fraction, c.isDigit = true) ∧
      ((positional m e = whole ∧ fraction = [] ∧ 0 ≤ e ∧
          Nat.ofDigitChars 10 whole 0 = m * 10 ^ e.toNat) ∨
        (positional m e = whole ++ '.' :: fraction ∧ e = -fraction.length ∧
          Nat.ofDigitChars 10 (whole ++ fraction) 0 = m)) := by
  by_cases he : 0 ≤ e
  · refine ⟨Text.decimal m ++ List.replicate e.toNat '0', [], ?_, ?_, by simp,
      Or.inl ⟨by rw [positional, if_pos he], rfl, he, ?_⟩⟩
    · simp [Text.decimal]
    · intro c hc
      apply isDigit_positional_padding (n := e.toNat) (m := m)
      rw [List.mem_append] at hc ⊢
      exact hc.symm
    · rw [Nat.ofDigitChars_append, Nat.ofDigitChars_replicate_zero, Text.decimal,
        Nat.ofDigitChars_ten_toDigits, Nat.mul_comm]
  · let padded := List.replicate ((-e).toNat + 1 - (Text.decimal m).length) '0' ++ Text.decimal m
    have hlen : (-e).toNat < padded.length := by
      simp only [padded, List.length_append, List.length_replicate]
      omega
    refine ⟨padded.take (padded.length - (-e).toNat), padded.drop (padded.length - (-e).toNat),
      ?_, ?_, ?_, Or.inr ⟨by rw [positional, if_neg he], ?_, ?_⟩⟩
    · rw [ne_eq, List.take_eq_nil_iff]
      rintro (h | h)
      · omega
      · simp [h] at hlen
    · exact fun c hc => isDigit_positional_padding (List.mem_of_mem_take hc)
    · exact fun c hc => isDigit_positional_padding (List.mem_of_mem_drop hc)
    · rw [List.length_drop]
      omega
    · rw [List.take_append_drop, Nat.ofDigitChars_append, Nat.ofDigitChars_replicate_zero,
        Text.decimal, Nat.mul_zero, Nat.ofDigitChars_ten_toDigits]

theorem positional_eq_cons (m : ℕ) (e : ℤ) :
    ∃ c t, positional m e = c :: t ∧ c.isDigit = true := by
  obtain ⟨whole, fraction, hne, hwhole, -, htext⟩ := positional_cases m e
  obtain ⟨c, t, rfl⟩ := List.exists_cons_of_ne_nil hne
  rcases htext with ⟨htext, -⟩ | ⟨htext, -⟩
  · exact ⟨c, t, htext, hwhole c (by simp)⟩
  · exact ⟨c, t ++ '.' :: fraction, htext, hwhole c (by simp)⟩

theorem parseNumber_positional (neg : Bool) (m : ℕ) (e : ℤ) :
    parseNumber neg (positional m e) = some (ofDecimal neg m e) := by
  obtain ⟨whole, fraction, hne, hwhole, hfraction, ⟨htext, -, he, hvalue⟩ |
    ⟨htext, he, hvalue⟩⟩ := positional_cases m e
  · rw [htext, parseNumber_digits neg hne hwhole, hvalue, ofDecimal_eq, ofDecimal_eq]
    have hden : (-e).toNat = 0 := by omega
    simp [hden]
  · rw [htext, parseNumber_point neg hne hwhole hfraction, hvalue, ← he]

/-- Texts whose first characters differ, in either case. -/
theorem eqIgnoreAsciiCase_of_head {c d : Char} (h : c.toLower ≠ d.toLower) (t w : Text) :
    Text.eqIgnoreAsciiCase (c :: t) (d :: w) = false := by
  rw [Bool.eq_false_iff, ne_eq, Text.eqIgnoreAsciiCase_iff, List.map_cons, List.map_cons,
    List.cons.injEq]
  exact fun heq => h heq.1

theorem toLower_of_isDigit {c : Char} (hc : c.isDigit = true) : c.toLower = c := by
  simp only [Char.isDigit, Bool.and_eq_true, decide_eq_true_eq, UInt32.le_iff_toNat_le] at hc
  have hle : c.toNat ≤ 57 := hc.2
  rcases Text.toLower_cases c with hcase | ⟨hA, -, -⟩
  · exact hcase
  · omega

theorem takeSign_of_isDigit {c : Char} (hc : c.isDigit = true) (t : Text) :
    takeSign (c :: t) = (false, c :: t) := by
  unfold takeSign
  split
  · rename_i heq
    rw [(List.cons.inj heq).1] at hc
    exact absurd hc (by decide)
  · rename_i heq
    rw [(List.cons.inj heq).1] at hc
    exact absurd hc (by decide)
  · rfl

/-- What starts with none of the letters of `inf`, `infinity` and `nan` is a number or nothing. -/
theorem parse_of_head {s t : Text} {neg : Bool} {c : Char} (hsign : takeSign s = (neg, c :: t))
    (hi : c.toLower ≠ 'i') (hn : c.toLower ≠ 'n') : parse s = parseNumber neg (c :: t) := by
  have hinf := fun w => eqIgnoreAsciiCase_of_head (c := c) (d := 'i') hi t w
  have hnan := fun w => eqIgnoreAsciiCase_of_head (c := c) (d := 'n') hn t w
  rw [parse, hsign, if_neg, if_neg]
  · simpa using hnan _
  · simpa using ⟨hinf _, hinf _⟩

/-- A text that starts with a digit is no word. -/
theorem parse_of_isDigit (neg : Bool) {c : Char} {t : Text} (hc : c.isDigit = true) :
    parse (if neg then '-' :: c :: t else c :: t) = parseNumber neg (c :: t) := by
  have hsign : takeSign (if neg then '-' :: c :: t else c :: t) = (neg, c :: t) := by
    cases neg
    · exact takeSign_of_isDigit hc t
    · rfl
  have hne : ∀ d : Char, d.isDigit = false → c.toLower ≠ d := by
    rintro d hd rfl
    rw [toLower_of_isDigit hc, hc] at hd
    cases hd
  exact parse_of_head hsign (hne 'i' (by decide)) (hne 'n' (by decide))

theorem ofDecimal_signed (neg : Bool) {m u : ℕ} {e : ℤ}
    (h : (ofDecimal false m e).units? = some (u : ℤ)) :
    (ofDecimal neg m e).units? = some (signed neg u) := by
  rw [ofDecimal_eq, ofRatio] at h ⊢
  split at h
  · rename_i hlimit
    rw [dif_pos hlimit, units?]
    have hnear : nearest (m * 10 ^ e.toNat) (10 ^ (-e).toNat) = u := by
      simpa [units?, signed] using h
    rw [hnear]
  · simp [units?] at h

/-- A finite number that is not zero is read back from its text, exactly. -/
theorem parse_display {x : F64} {units : ℤ} (hx : x.units? = some units) (h0 : units ≠ 0) :
    parse x.display = some x := by
  cases x with
  | nan => simp [units?] at hx
  | inf neg => simp [units?] at hx
  | finite u h =>
      obtain rfl : u = units := Option.some.inj hx
      have hreads := shortest_reads (Int.natAbs_pos.mpr h0) h.1 h.2
      have htext := parseNumber_positional (decide (u < 0)) (shortest u.natAbs).1
        (shortest u.natAbs).2
      obtain ⟨c, t, hpos, hc⟩ := positional_eq_cons (shortest u.natAbs).1 (shortest u.natAbs).2
      have hvalue := ofDecimal_signed (decide (u < 0)) hreads
      have hsigned : signed (decide (u < 0)) u.natAbs = u := by
        by_cases hneg : u < 0
        · rw [signed, decide_eq_true hneg, if_pos rfl]
          omega
        · rw [signed, decide_eq_false hneg, if_neg Bool.false_ne_true]
          omega
      have hparse := parse_of_isDigit (decide (u < 0)) (t := t) hc
      rw [← hpos, htext] at hparse
      simp only [decide_eq_true_eq] at hparse
      rw [display, hparse, Option.some.injEq, eq_finite_iff, hvalue, hsigned]

end F64

end Lwrt.Library
