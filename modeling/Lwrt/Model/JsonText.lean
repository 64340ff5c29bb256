import Lwrt.Model.Rfc8259

/-! The texts that the parser takes for a document, and what it takes them for: the JSON grammar
with raw control characters in strings and with numbers that need not be written the JSON way. -/

namespace Lwrt.JsonText

open Library Library.Text Json Rfc8259

/-! ## Numbers -/

/-- An exponent with its mark, or none. -/
inductive Exponent : Text → ℤ → Prop
  | none : Exponent [] 0
  | mark {mark : Char} {digits : Text} (hmark : mark = 'e' ∨ mark = 'E') (hne : digits ≠ [])
      (h : ∀ c ∈ digits, c.isDigit) : Exponent (mark :: digits) (Nat.ofDigitChars 10 digits 0)
  | plus {mark : Char} {digits : Text} (hmark : mark = 'e' ∨ mark = 'E') (hne : digits ≠ [])
      (h : ∀ c ∈ digits, c.isDigit) :
      Exponent (mark :: '+' :: digits) (Nat.ofDigitChars 10 digits 0)
  | minus {mark : Char} {digits : Text} (hmark : mark = 'e' ∨ mark = 'E') (hne : digits ≠ [])
      (h : ∀ c ∈ digits, c.isDigit) :
      Exponent (mark :: '-' :: digits) (-(Nat.ofDigitChars 10 digits 0 : ℤ))

/-- Digits with at most one point before, among or after them: the number without the point, and
how many of the digits follow it. -/
inductive Mantissa : Text → ℕ → ℕ → Prop
  | whole {digits : Text} (hne : digits ≠ []) (h : ∀ c ∈ digits, c.isDigit) :
      Mantissa digits (Nat.ofDigitChars 10 digits 0) 0
  | point {digits fraction : Text} (hne : ¬(digits = [] ∧ fraction = []))
      (h : ∀ c ∈ digits, c.isDigit) (hfraction : ∀ c ∈ fraction, c.isDigit) :
      Mantissa (digits ++ '.' :: fraction) (Nat.ofDigitChars 10 (digits ++ fraction) 0)
        fraction.length

/-- A number. Leading zeros are allowed; a point may come first after a sign, but not without. -/
inductive Number : Text → F64 → Prop
  | plain {digits exponent : Text} {m places : ℕ} {e : ℤ} (h : Mantissa digits m places)
      (hstart : digits.head? ≠ some '.') (he : Exponent exponent e) :
      Number (digits ++ exponent) (.ofDecimal false m (e - places))
  | minus {digits exponent : Text} {m places : ℕ} {e : ℤ} (h : Mantissa digits m places)
      (he : Exponent exponent e) :
      Number ('-' :: (digits ++ exponent)) (.ofDecimal true m (e - places))

/-! ## Strings -/

/-- A character of a string, which may be a raw control character. -/
inductive Character : Text → Char → Prop
  | standard {t : Text} {c : Char} (h : Rfc8259.Character t c) : Character t c
  | control {c : Char} (h : c.toNat < 0x20) : Character [c] c

def StringToken (t s : Text) : Prop :=
  ∃ chars : List (Text × Char), (∀ char ∈ chars, Character char.1 char.2) ∧
    t = '"' :: (chars.flatMap Prod.fst ++ ['"']) ∧ s = chars.map Prod.snd

/-! ## Values -/

structure Member where
  keyText : Text
  key : Text
  colon : Text
  valueText : Text
  value : Value
  hkey : StringToken keyText key
  hcolon : Token ':' colon

namespace Member

def text (m : Member) : Text :=
  m.keyText ++ m.colon ++ m.valueText

def pair (m : Member) : Text × Value :=
  (m.key, m.value)

end Member

inductive Derives : Text → Value → Prop
  | null : Derives "null".toList .null
  | true : Derives "true".toList (.bool true)
  | false : Derives "false".toList (.bool false)
  | number {t : Text} {n : F64} (h : Number t n) : Derives t (.num n)
  | string {t s : Text} (h : StringToken t s) : Derives t (.str s)
  | array {opening closing body : Text} {items : List (Text × Value)} (hopen : Token '[' opening)
      (hbody : Separated ',' (items.map Prod.fst) body) (hclose : Token ']' closing)
      (h : ∀ item ∈ items, Derives item.1 item.2) :
      Derives (opening ++ body ++ closing) (.array (items.map Prod.snd))
  | object {opening closing body : Text} {members : List Member} (hopen : Token '{' opening)
      (hbody : Separated ',' (members.map Member.text) body) (hclose : Token '}' closing)
      (h : ∀ m ∈ members, Derives m.valueText m.value) :
      Derives (opening ++ body ++ closing) (.object (members.map Member.pair))

def Document (t : Text) (v : Value) : Prop :=
  ∃ before text after, IsWs before ∧ Derives text v ∧ IsWs after ∧ t = before ++ text ++ after

end Lwrt.JsonText
