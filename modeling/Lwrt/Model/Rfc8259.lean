import Lwrt.Applet.Json

/-! The JSON grammar: which texts are documents, and what they denote. Of the number tokens only
the integers that a binary64 number holds exactly are here. -/

namespace Lwrt.Rfc8259

open Library Library.Text Json

/-! ## Tokens -/

/-- `ws`. -/
def IsWs (t : Text) : Prop :=
  ∀ c ∈ t, c ∈ [' ', '\t', '\n', '\r']

instance (t : Text) : Decidable (IsWs t) :=
  decidable_of_iff (t.all [' ', '\t', '\n', '\r'].contains) (by simp [IsWs])

/-- A structural character, with insignificant whitespace around it. -/
def Token (c : Char) (t : Text) : Prop :=
  ∃ before after, IsWs before ∧ IsWs after ∧ t = before ++ c :: after

/-- `HEXDIG`, in either case. -/
def hexValue (c : Char) : Option ℕ :=
  if '0' ≤ c ∧ c ≤ '9' then some (c.toNat - '0'.toNat)
  else if 'a' ≤ c ∧ c ≤ 'f' then some (c.toNat - 'a'.toNat + 10)
  else if 'A' ≤ c ∧ c ≤ 'F' then some (c.toNat - 'A'.toNat + 10)
  else none

/-- `4HEXDIG`. -/
inductive Hex4 : Text → ℕ → Prop
  | mk {a b c d : Char} {i j k l : ℕ} (ha : hexValue a = some i) (hb : hexValue b = some j)
      (hc : hexValue c = some k) (hd : hexValue d = some l) :
      Hex4 [a, b, c, d] (i * 4096 + j * 256 + k * 16 + l)

/-- The characters that may follow a backslash by themselves, with what they stand for. -/
def shortEscapes : List (Char × Char) :=
  [('"', '"'), ('\\', '\\'), ('/', '/'), ('b', '\x08'), ('f', '\x0c'), ('n', '\n'), ('r', '\r'),
    ('t', '\t')]

/-- `char`. A `\u` escape of a surrogate is one only as half of a pair. -/
inductive Character : Text → Char → Prop
  | unescaped {c : Char} (hcontrol : 0x20 ≤ c.toNat) (hquote : c ≠ '"') (hslash : c ≠ '\\') :
      Character [c] c
  | short {e c : Char} (h : (e, c) ∈ shortEscapes) : Character ['\\', e] c
  | unicode {digits : Text} {c : Char} (h : Hex4 digits c.toNat) :
      Character ('\\' :: 'u' :: digits) c
  | pair {high low : Text} {hi lo : ℕ} {c : Char} (hhigh : Hex4 high (0xD800 + hi))
      (hhi : hi < 0x400) (hlow : Hex4 low (0xDC00 + lo)) (hlo : lo < 0x400)
      (h : c.toNat = 0x10000 + hi * 0x400 + lo) :
      Character ('\\' :: 'u' :: (high ++ '\\' :: 'u' :: low)) c

/-- `string`: quotation marks around characters. -/
def StringToken (t s : Text) : Prop :=
  ∃ chars : List (Text × Char), (∀ char ∈ chars, Character char.1 char.2) ∧
    t = '"' :: (chars.flatMap Prod.fst ++ ['"']) ∧ s = chars.map Prod.snd

/-- `int`: digits without a leading zero. -/
def Digits (digits : Text) : Prop :=
  digits ≠ [] ∧ (∀ c ∈ digits, c.isDigit) ∧ ¬(digits.head? = some '0' ∧ 1 < digits.length)

/-- `number`, without a fraction and an exponent. -/
inductive Integer : Text → ℤ → Prop
  | plain {digits : Text} (h : Digits digits) : Integer digits (Nat.ofDigitChars 10 digits 0)
  | minus {digits : Text} (h : Digits digits) :
      Integer ('-' :: digits) (-(Nat.ofDigitChars 10 digits 0 : ℤ))

/-! ## Values -/

/-- Parts with a separator between every two. -/
inductive Separated (c : Char) : List Text → Text → Prop
  | nil : Separated c [] []
  | single (part : Text) : Separated c [part] part
  | cons {part next sep t : Text} {parts : List Text} (hsep : Token c sep)
      (h : Separated c (next :: parts) t) : Separated c (part :: next :: parts) (part ++ sep ++ t)

/-- `member`: its key, the colon and its value. -/
structure Member where
  keyText : Text
  key : Text
  colon : Text
  valueText : Text
  value : Value
  hkey : StringToken keyText key
  hcolon : Token ':' colon

namespace Member

def text (m : Member) : Text :=
  m.keyText ++ m.colon ++ m.valueText

def pair (m : Member) : Text × Value :=
  (m.key, m.value)

end Member

/-- `value`, with what the text denotes. -/
inductive Derives : Text → Value → Prop
  | null : Derives "null".toList .null
  | true : Derives "true".toList (.bool true)
  | false : Derives "false".toList (.bool false)
  | number {t : Text} {k : ℤ} {n : F64} (h : Integer t k) (hk : k.natAbs < 2 ^ 53)
      (hn : n.units? = some (k * F64.one)) : Derives t (.num n)
  | string {t s : Text} (h : StringToken t s) : Derives t (.str s)
  | array {opening closing body : Text} {items : List (Text × Value)} (hopen : Token '[' opening)
      (hbody : Separated ',' (items.map Prod.fst) body) (hclose : Token ']' closing)
      (h : ∀ item ∈ items, Derives item.1 item.2) :
      Derives (opening ++ body ++ closing) (.array (items.map Prod.snd))
  | object {opening closing body : Text} {members : List Member} (hopen : Token '{' opening)
      (hbody : Separated ',' (members.map Member.text) body) (hclose : Token '}' closing)
      (h : ∀ m ∈ members, Derives m.valueText m.value) :
      Derives (opening ++ body ++ closing) (.object (members.map Member.pair))

/-- `JSON-text`. -/
def Document (t : Text) (v : Value) : Prop :=
  ∃ before text after, IsWs before ∧ Derives text v ∧ IsWs after ∧ t = before ++ text ++ after

end Lwrt.Rfc8259
