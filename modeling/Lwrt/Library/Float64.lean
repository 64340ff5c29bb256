import Mathlib.Tactic.Ring
import Lwrt.Library.Text

/-! Binary64 numbers. A finite number is a whole number of units of 2^-1074 with at most 53
significant bits. The sign of a zero is not kept: no operation here depends on it. -/

namespace Lwrt.Library

namespace F64

-- Irreducible, so that no tactic evaluates a power of these.
@[irreducible]
def unitBits : ℕ := 1074

@[irreducible]
def limitBits : ℕ := 1024

/-- The number of units in 1. -/
def one : ℕ := 2 ^ unitBits

/-- The number of units in the first number too large. -/
def limit : ℕ := 2 ^ limitBits * one

/-- At most 53 significant bits, and not too large. -/
def Representable (units : ℤ) : Prop :=
  (∃ m s : ℕ, m ≤ 2 ^ 53 ∧ units.natAbs = m * 2 ^ s) ∧ units.natAbs < limit

end F64

inductive F64 where
  | nan
  | inf (neg : Bool)
  | finite (units : ℤ) (h : F64.Representable units)
  deriving DecidableEq

namespace F64

/-- The units of a finite number. -/
def units? : F64 → Option ℤ
  | finite units _ => some units
  | _ => none

theorem eq_finite_iff {x : F64} {units : ℤ} {h : Representable units} :
    x = finite units h ↔ x.units? = some units := by
  cases x <;> simp [units?]

/-! ## Conversion to integers -/

def isFinite : F64 → Bool
  | finite _ _ => true
  | _ => false

/-- `x.fract() == 0.0` of a finite number. -/
def isWhole : F64 → Bool
  | finite units _ => (one : ℤ) ∣ units
  | _ => false

/-- `x.abs() < bound`. -/
def absLt (bound : ℕ) : F64 → Bool
  | finite units _ => units.natAbs < bound * one
  | _ => false

/-- `x >= 0.0`. -/
def nonneg : F64 → Bool
  | nan => false
  | inf neg => !neg
  | finite units _ => 0 ≤ units

/-- `x as iN` and `x as uN`: truncated towards zero, then clamped. -/
def toIntClamped (lo hi : ℤ) : F64 → ℤ
  | nan => 0
  | inf neg => if neg then lo else hi
  | finite units _ => max lo (min hi (units.tdiv one))

def toI64 (x : F64) : ℤ :=
  toIntClamped (-2 ^ 63) (2 ^ 63 - 1) x

def toU64 (x : F64) : ℕ :=
  (toIntClamped 0 (2 ^ 64 - 1) x).toNat

/-! ## Rounding -/

/-- `n / d` to the nearest integer, ties to the even one. -/
def roundHalfEven (n d : ℕ) : ℕ :=
  if d < 2 * (n % d) ∨ (d = 2 * (n % d) ∧ (n / d) % 2 = 1) then n / d + 1 else n / d

/-- How many low bits of a number of units lie below its 53 significant ones. -/
def excess (units : ℕ) : ℕ :=
  units.log2 - 52

/-- `n / d`, in units, to the nearest multiple of a power of two that leaves 53 bits. -/
def nearest (n d : ℕ) : ℕ :=
  let s := excess (n * one / d)
  roundHalfEven (n * one) (d * 2 ^ s) * 2 ^ s

/-- A magnitude with its sign. -/
def signed (neg : Bool) (n : ℕ) : ℤ :=
  if neg then -n else n

@[simp]
theorem natAbs_signed (neg : Bool) (n : ℕ) : (signed neg n).natAbs = n := by
  cases neg <;> simp [signed]

theorem roundHalfEven_le (n d : ℕ) : roundHalfEven n d ≤ n / d + 1 := by
  unfold roundHalfEven
  split <;> omega

theorem div_excess_lt (q : ℕ) : q / 2 ^ excess q < 2 ^ 53 := by
  apply Nat.div_lt_of_lt_mul
  rw [← pow_add]
  apply (Nat.lt_log2_self (n := q)).trans_le
  apply Nat.pow_le_pow_right (by omega)
  unfold excess
  omega

theorem representable_nearest (neg : Bool) {n d : ℕ} (h : nearest n d < limit) :
    Representable (signed neg (nearest n d)) := by
  refine ⟨⟨roundHalfEven (n * one) (d * 2 ^ excess (n * one / d)), excess (n * one / d), ?_, ?_⟩,
    ?_⟩
  · have hle := roundHalfEven_le (n * one) (d * 2 ^ excess (n * one / d))
    have hlt := div_excess_lt (n * one / d)
    rw [Nat.div_div_eq_div_mul] at hlt
    omega
  · rw [natAbs_signed, nearest]
  · rwa [natAbs_signed]

/-- The number nearest to `n / d`, negated if `neg`. -/
def ofRatio (neg : Bool) (n d : ℕ) : F64 :=
  if h : nearest n d < limit then
    finite (signed neg (nearest n d)) (representable_nearest neg h)
  else inf neg

/-- `n as f64`. -/
def ofNat (n : ℕ) : F64 :=
  ofRatio false n 1

/-- `n as f64` of a signed integer. -/
def ofInt (n : ℤ) : F64 :=
  ofRatio (n < 0) n.natAbs 1

/-! ## Decimal text -/

/-- `m * 10^e`. -/
def ofDecimal (neg : Bool) (m : ℕ) (e : ℤ) : F64 :=
  if 0 ≤ e then ofRatio neg (m * 10 ^ e.toNat) 1 else ofRatio neg m (10 ^ (-e).toNat)

/-- A leading sign and what follows it. -/
def takeSign : Text → Bool × Text
  | '-' :: s => (true, s)
  | '+' :: s => (false, s)
  | s => (false, s)

/-- The exponent part of a number: nothing, or `e` with a number. -/
def parseExponent : Text → Option ℤ
  | [] => some 0
  | c :: s =>
      let t := takeSign s
      if (c = 'e' ∨ c = 'E') ∧ t.2 ≠ [] ∧ t.2.all Char.isDigit then
        some (signed t.1 (Nat.ofDigitChars 10 t.2 0))
      else none

/-- Digits with at most one point between or around them, then an exponent. -/
def parseNumber (neg : Bool) (s : Text) : Option F64 :=
  let whole := s.takeWhile Char.isDigit
  let rest := s.dropWhile Char.isDigit
  let fraction := if rest.head? = some '.' then rest.tail.takeWhile Char.isDigit else []
  let rest := if rest.head? = some '.' then rest.tail.dropWhile Char.isDigit else rest
  if whole = [] ∧ fraction = [] then none
  else (parseExponent rest).map fun e =>
    ofDecimal neg (Nat.ofDigitChars 10 (whole ++ fraction) 0) (e - fraction.length)

/-- `str::parse::<f64>`. -/
def parse (s : Text) : Option F64 :=
  let t := takeSign s
  if Text.eqIgnoreAsciiCase t.2 "inf".toList || Text.eqIgnoreAsciiCase t.2 "infinity".toList then
    some (inf t.1)
  else if Text.eqIgnoreAsciiCase t.2 "nan".toList then some nan
  else parseNumber t.1 t.2

/-- The number of decimal digits before the point; negative when zeros follow the point. No
finite number but zero is below 10^-400. -/
def decimalExponent (units : ℕ) : ℤ :=
  (Text.decimal (units * 10 ^ 400 / one)).length - 400

/-- Does `m * 10^e` read back as the positive number of `units`? -/
def readsBack (units m : ℕ) (e : ℤ) : Bool :=
  match ofDecimal false m e with
  | finite u _ => u = units
  | _ => false

/-- The decimal of `p` digits that reads back as a number, of its two neighbours the nearer
one first. -/
def withDigits (units p : ℕ) : Option (ℕ × ℤ) :=
  let e := decimalExponent units - p
  let n := units * 10 ^ (-e).toNat
  let d := one * 10 ^ e.toNat
  let neighbours := if d ≤ 2 * (n % d) then [n / d + 1, n / d] else [n / d, n / d + 1]
  -- only a number just below a power of ten has a neighbour with one digit more
  (neighbours.find? fun m => readsBack units m e).map fun m =>
    if m = 10 then (1, e + 1) else (m, e)

/-- The shortest decimal that reads back; 17 digits always do. -/
def shortest (units : ℕ) : ℕ × ℤ :=
  ((List.range 17).findSome? fun p => withDigits units (p + 1)).getD (0, 0)

/-- `m * 10^e` without an exponent. -/
def positional (m : ℕ) (e : ℤ) : Text :=
  let digits := Text.decimal m
  let places := (-e).toNat
  let padded := List.replicate (places + 1 - digits.length) '0' ++ digits
  if 0 ≤ e then digits ++ List.replicate e.toNat '0'
  else padded.take (padded.length - places) ++ '.' :: padded.drop (padded.length - places)

/-- `{}` of a finite number that is not zero. -/
def display : F64 → Text
  | nan => "NaN".toList
  | inf neg => if neg then "-inf".toList else "inf".toList
  | finite units _ =>
      let d := shortest units.natAbs
      if units < 0 then '-' :: positional d.1 d.2 else positional d.1 d.2

/-! ## Whole numbers -/

theorem one_pos : 0 < one :=
  Nat.two_pow_pos unitBits

theorem mul_one_lt_limit {m : ℕ} (h : m < 2 ^ 53) : m * one < limit := by
  have hbits : 53 ≤ limitBits := by
    unfold limitBits
    omega
  have hpow : 2 ^ 53 ≤ 2 ^ limitBits := Nat.pow_le_pow_right (by omega) hbits
  exact Nat.mul_lt_mul_of_pos_right (h.trans_le hpow) one_pos

theorem excess_mul_one_le {m : ℕ} (h : m < 2 ^ 53) : excess (m * one) ≤ unitBits := by
  unfold excess
  by_cases h0 : m * one = 0
  · simp [h0]
  · have hlt : m * one < 2 ^ (53 + unitBits) := by
      rw [pow_add]
      exact Nat.mul_lt_mul_of_pos_right h one_pos
    have hlog := (Nat.log2_lt h0).mpr hlt
    omega

theorem roundHalfEven_mul (n : ℕ) {d : ℕ} (hd : 0 < d) : roundHalfEven (n * d) d = n := by
  rw [roundHalfEven, Nat.mul_mod_left, Nat.mul_div_cancel n hd, if_neg (by omega)]

/-- A whole number below 2^53 is not rounded. -/
theorem nearest_whole {m : ℕ} (h : m < 2 ^ 53) : nearest m 1 = m * one := by
  have hle := excess_mul_one_le h
  simp only [nearest, Nat.div_one, Nat.one_mul]
  generalize excess (m * one) = s at hle
  have hone : one = 2 ^ (unitBits - s) * 2 ^ s := by
    rw [← pow_add, Nat.sub_add_cancel hle, one]
  rw [hone, ← Nat.mul_assoc, roundHalfEven_mul _ (Nat.two_pow_pos s)]

theorem representable_whole {n : ℤ} (h : n.natAbs < 2 ^ 53) : Representable (n * one) := by
  rw [Representable, Int.natAbs_mul, Int.natAbs_natCast]
  refine ⟨⟨n.natAbs, unitBits, h.le, rfl⟩, mul_one_lt_limit h⟩

theorem ofRatio_whole (neg : Bool) {m : ℕ} (h : m < 2 ^ 53) :
    (ofRatio neg m 1).units? = some (signed neg m * one) := by
  have hbound : nearest m 1 < limit := by
    rw [nearest_whole h]
    exact mul_one_lt_limit h
  rw [ofRatio, dif_pos hbound, units?, nearest_whole h]
  cases neg <;> simp [signed]

theorem isDigit_of_mem_decimal {n : ℕ} {c : Char} (h : c ∈ Text.decimal n) : c.isDigit = true :=
  Nat.isDigit_of_mem_toDigits (by omega) (by omega) h

theorem decimal_eq_cons (n : ℕ) : ∃ c s, Text.decimal n = c :: s ∧ c.isDigit = true := by
  obtain ⟨c, s, h⟩ := List.exists_cons_of_ne_nil (Nat.toDigits_ne_nil (n := n) (b := 10))
  exact ⟨c, s, h, isDigit_of_mem_decimal (n := n) (by simp [Text.decimal, h])⟩

/-- A number is no word. -/
theorem eqIgnoreAsciiCase_decimal (n : ℕ) {d : Char} (hd : 58 ≤ d.toLower.toNat) (t : Text) :
    Text.eqIgnoreAsciiCase (Text.decimal n) (d :: t) = false := by
  obtain ⟨c, s, h, hc⟩ := decimal_eq_cons n
  rw [Bool.eq_false_iff, ne_eq, Text.eqIgnoreAsciiCase_iff, h, List.map_cons, List.map_cons,
    List.cons.injEq]
  rintro ⟨heq, -⟩
  simp only [Char.isDigit, Bool.and_eq_true, decide_eq_true_eq, UInt32.le_iff_toNat_le] at hc
  have hle : c.toNat ≤ 57 := hc.2
  rcases Text.toLower_cases c with hcase | ⟨hA, -, -⟩
  · rw [← heq, hcase] at hd
    omega
  · omega

theorem parseNumber_decimal (neg : Bool) (m : ℕ) :
    parseNumber neg (Text.decimal m) = some (ofRatio neg m 1) := by
  have htake : (Text.decimal m).takeWhile Char.isDigit = Text.decimal m :=
    List.takeWhile_eq_self_iff.mpr fun c hc => isDigit_of_mem_decimal hc
  have hdrop : (Text.decimal m).dropWhile Char.isDigit = [] :=
    List.dropWhile_eq_nil_iff.mpr fun c hc => isDigit_of_mem_decimal hc
  have hne : Text.decimal m ≠ [] := Nat.toDigits_ne_nil
  simp only [parseNumber, htake, hdrop, List.head?_nil, reduceCtorEq, if_false, hne, false_and,
    parseExponent, Option.map_some, List.append_nil, List.length_nil, ofDecimal]
  simp [Text.decimal]

theorem takeSign_decimalInt (n : ℤ) :
    takeSign (Text.decimalInt n) = (decide (n < 0), Text.decimal n.natAbs) := by
  unfold Text.decimalInt
  split
  · rename_i hneg
    simp [takeSign, hneg]
  · rename_i hneg
    obtain ⟨c, s, hdec, hc⟩ := decimal_eq_cons n.natAbs
    rw [hdec]
    unfold takeSign
    split
    · rename_i heq
      rw [(List.cons.inj heq).1] at hc
      exact absurd hc (by decide)
    · rename_i heq
      rw [(List.cons.inj heq).1] at hc
      exact absurd hc (by decide)
    · simp [hneg]

/-- `parse` of a sign and the digits of a whole number. -/
theorem parse_of_takeSign {s : Text} {neg : Bool} {m : ℕ}
    (h : takeSign s = (neg, Text.decimal m)) : parse s = some (ofRatio neg m 1) := by
  have hinf := eqIgnoreAsciiCase_decimal m (d := 'i') (by decide)
  have hnan := eqIgnoreAsciiCase_decimal m (d := 'n') (by decide)
  rw [parse, h, if_neg, if_neg, parseNumber_decimal]
  · simpa using hnan _
  · simpa using ⟨hinf _, hinf _⟩

end F64

end Lwrt.Library
