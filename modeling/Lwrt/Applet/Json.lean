import Lwrt.Library.Float64

/-! The JSON value type, its serializer and its recursive-descent parser. -/

namespace Lwrt.Json

open Library Library.Text Library.Utf8

inductive Value where
  | null
  | bool (b : Bool)
  | num (n : F64)
  | str (s : Text)
  | array (items : List Value)
  | object (pairs : List (Text × Value))

namespace Value

def get (key : Text) : Value → Option Value
  | object pairs => (pairs.find? fun pair => pair.1 = key).map Prod.snd
  | _ => none

def asStr : Value → Option Text
  | str s => some s
  | _ => none

def asU64 : Value → Option ℕ
  | num n => if n.nonneg && n.isWhole then some n.toU64 else none
  | _ => none

def asArray : Value → Option (List Value)
  | array items => some items
  | _ => none

end Value

/-- `obj`. -/
def obj (pairs : List (String × Value)) : Value :=
  .object (pairs.map fun pair => (pair.1.toList, pair.2))

/-! ## Serialization -/

/-- `{:04x}` of a number below 0x10000. -/
def hex04 (n : ℕ) : Text :=
  [Nat.digitChar (n / 4096 % 16), Nat.digitChar (n / 256 % 16), Nat.digitChar (n / 16 % 16),
    Nat.digitChar (n % 16)]

/-- What `write_str` emits for one character. -/
def escaped (c : Char) : Text :=
  if c = '"' then ['\\', '"']
  else if c = '\\' then ['\\', '\\']
  else if c = '\n' then ['\\', 'n']
  else if c = '\r' then ['\\', 'r']
  else if c = '\t' then ['\\', 't']
  else if c = '\x08' then ['\\', 'b']
  else if c = '\x0c' then ['\\', 'f']
  else if c.toNat < 0x20 then '\\' :: 'u' :: hex04 c.toNat
  else [c]

def writeStr (s : Text) : Text :=
  '"' :: (s.flatMap escaped ++ ['"'])

/-- Integers without a fraction; no text for `NaN` and the infinities, which JSON lacks. -/
def writeNum (n : F64) : Text :=
  if n.isFinite && n.isWhole && n.absLt (10 ^ 15) then decimalInt n.toI64
  else if n.isFinite then n.display
  else "null".toList

mutual

def Value.write : Value → Text
  | .null => "null".toList
  | .bool true => "true".toList
  | .bool false => "false".toList
  | .num n => writeNum n
  | .str s => writeStr s
  | .array items => '[' :: (writeItems 0 items ++ [']'])
  | .object pairs => '{' :: (writePairs 0 pairs ++ ['}'])

/-- The elements of an array from the `i`-th on. -/
def writeItems : ℕ → List Value → Text
  | _, [] => []
  | i, v :: vs => (if i > 0 then [','] else []) ++ v.write ++ writeItems (i + 1) vs

/-- The members of an object from the `i`-th on. -/
def writePairs : ℕ → List (Text × Value) → Text
  | _, [] => []
  | i, (k, v) :: ps =>
      (if i > 0 then [','] else []) ++ writeStr k ++ ':' :: v.write ++ writePairs (i + 1) ps

end

/-! ## The parser -/

/-- The unread input and its offset. -/
structure Parser where
  rest : List UInt8
  i : ℕ

namespace Parser

def advance (p : Parser) (n : ℕ) : Parser :=
  ⟨p.rest.drop n, p.i + n⟩

def peek (p : Parser) : Option UInt8 :=
  p.rest.head?

def isWs (c : UInt8) : Bool :=
  c == byte ' ' || c == byte '\t' || c == byte '\n' || c == byte '\r'

def ws (p : Parser) : Parser :=
  p.advance (p.rest.takeWhile isWs).length

/-- `c as char`. -/
def latin1 (c : UInt8) : Char :=
  Char.ofNat c.toNat

/-- `{:?}` of a byte as a character. -/
def debugChar (c : UInt8) : Text :=
  let body : Text :=
    if c = 0 then "\\0".toList
    else if c = byte '\t' then "\\t".toList
    else if c = byte '\r' then "\\r".toList
    else if c = byte '\n' then "\\n".toList
    else if c = byte '\'' then "\\'".toList
    else if c = byte '\\' then "\\\\".toList
    else if c < 0x20 || (0x7F ≤ c && c ≤ 0xA0) || c = 0xAD then
      "\\u\x7b".toList ++ Nat.toDigits 16 c.toNat ++ "\x7d".toList
    else [latin1 c]
  '\'' :: (body ++ ['\''])

def expect (c : UInt8) (p : Parser) : Except Text Parser :=
  if p.peek = some c then .ok (p.advance 1)
  else .error ("expected ".toList ++ debugChar c ++ " at byte ".toList ++ decimal p.i)

/-- `to_digit(16)`. -/
def hexDigit (c : UInt8) : Option ℕ :=
  if byte '0' ≤ c && c ≤ byte '9' then some (c.toNat - 48)
  else if byte 'a' ≤ c && c ≤ byte 'f' then some (c.toNat - 87)
  else if byte 'A' ≤ c && c ≤ byte 'F' then some (c.toNat - 55)
  else none

/-- The next `n` hexadecimal digits, after those that make up `v`. -/
def hexDigits : ℕ → ℕ → Parser → Except Text (ℕ × Parser)
  | 0, v, p => .ok (v, p)
  | n + 1, v, p =>
      match p.peek with
      | none => .error "truncated \\u escape".toList
      | some c =>
          match hexDigit c with
          | none => .error "non-hex in \\u escape".toList
          | some d => hexDigits n (v * 16 + d) (p.advance 1)

def hex4 (p : Parser) : Except Text (ℕ × Parser) :=
  hexDigits 4 0 p

/-- `char::from_u32`. -/
def fromU32 (cp : ℕ) : Option Char :=
  if h : cp.isValidChar then some (Char.ofNatAux cp h) else none

/-- The code point that starts with the unit `hi`: a high surrogate needs a low one after it. -/
def codePoint (p : Parser) (hi : ℕ) : Except Text (ℕ × Parser) :=
  if 0xD800 ≤ hi ∧ hi ≤ 0xDBFF then
    if p.peek = some (byte '\\') then do
      let p ← (p.advance 1).expect (byte 'u')
      let (lo, p) ← p.hex4
      if 0xDC00 ≤ lo ∧ lo ≤ 0xDFFF then
        .ok (0x10000 + (hi - 0xD800) * 1024 + (lo - 0xDC00), p)
      else .error "bad low surrogate".toList
    else .error "lone high surrogate".toList
  else .ok (hi, p)

/-- The four digits of a `\u` escape, or the two times four of a surrogate pair. -/
def unicodeEscape (p : Parser) : Except Text (Char × Parser) := do
  let (hi, p) ← p.hex4
  let (cp, p) ← p.codePoint hi
  match fromU32 cp with
  | some c => .ok (c, p)
  | none => .error "invalid code point".toList

/-- What follows a backslash in a string. -/
def escape (p : Parser) : Except Text (Char × Parser) :=
  match p.peek with
  | none => .error "unterminated escape".toList
  | some e =>
      let p := p.advance 1
      if e = byte '"' then .ok ('"', p)
      else if e = byte '\\' then .ok ('\\', p)
      else if e = byte '/' then .ok ('/', p)
      else if e = byte 'n' then .ok ('\n', p)
      else if e = byte 'r' then .ok ('\r', p)
      else if e = byte 't' then .ok ('\t', p)
      else if e = byte 'b' then .ok ('\x08', p)
      else if e = byte 'f' then .ok ('\x0c', p)
      else if e = byte 'u' then p.unicodeEscape
      else .error ("bad escape \\".toList ++ [latin1 e])

/-- The number of continuation bytes that follow a lead byte. -/
def utf8Extra (lead : UInt8) : ℕ :=
  if lead ≤ 0x7F then 0
  else if 0xC0 ≤ lead && lead ≤ 0xDF then 1
  else if 0xE0 ≤ lead && lead ≤ 0xEF then 2
  else if 0xF0 ≤ lead && lead ≤ 0xF7 then 3
  else 0

/-- The loop of `string` after the opening quote. Every round reads at least one byte, so
without fuel the input is at its end. -/
def stringLoop : ℕ → Text → Parser → Except Text (Text × Parser)
  | 0, _, _ => .error "unterminated string".toList
  | fuel + 1, out, p =>
      match p.peek with
      | none => .error "unterminated string".toList
      | some c =>
          if c = byte '"' then .ok (out, p.advance 1)
          else if c = byte '\\' then do
            let (d, p) ← (p.advance 1).escape
            stringLoop fuel (out ++ [d]) p
          else if p.rest.length < 1 + utf8Extra c then .error "truncated UTF-8 in string".toList
          else
            match fromUtf8 (p.rest.take (1 + utf8Extra c)) with
            | none => .error "invalid UTF-8 in string".toList
            | some part => stringLoop fuel (out ++ part) (p.advance (1 + utf8Extra c))

def string (p : Parser) : Except Text (Text × Parser) := do
  let p ← p.expect (byte '"')
  stringLoop p.rest.length [] p

def isDigit (c : UInt8) : Bool :=
  byte '0' ≤ c && c ≤ byte '9'

def isNumberByte (c : UInt8) : Bool :=
  isDigit c || c == byte '.' || c == byte 'e' || c == byte 'E' || c == byte '+' || c == byte '-'

def number (p : Parser) : Except Text (Value × Parser) :=
  let sign := if p.peek = some (byte '-') then 1 else 0
  let len := sign + ((p.advance sign).rest.takeWhile isNumberByte).length
  match fromUtf8 (p.rest.take len) with
  | none => .error "bad number".toList
  | some text =>
      match F64.parse text with
      | some n => .ok (.num n, p.advance len)
      | none => .error ("invalid number \"".toList ++ text ++ "\"".toList)

/-- Does the unread input start with this ASCII word? -/
def startsWith (word : String) (p : Parser) : Bool :=
  (word.toList.map byte).isPrefixOf p.rest

def invalidLiteral (p : Parser) : Text :=
  "invalid literal at byte ".toList ++ decimal p.i

def boolean (p : Parser) : Except Text (Value × Parser) :=
  if p.startsWith "true" then .ok (.bool true, p.advance 4)
  else if p.startsWith "false" then .ok (.bool false, p.advance 5)
  else .error p.invalidLiteral

def null (p : Parser) : Except Text (Value × Parser) :=
  if p.startsWith "null" then .ok (.null, p.advance 4)
  else .error p.invalidLiteral

/-- `object`, given its loop. -/
def object (loop : Parser → Except Text (Value × Parser)) (p : Parser) :
    Except Text (Value × Parser) := do
  let p ← p.expect (byte '{')
  let p := p.ws
  if p.peek = some (byte '}') then .ok (.object [], p.advance 1) else loop p

/-- `array`, given its loop. -/
def array (loop : Parser → Except Text (Value × Parser)) (p : Parser) :
    Except Text (Value × Parser) := do
  let p ← p.expect (byte '[')
  let p := p.ws
  if p.peek = some (byte ']') then .ok (.array [], p.advance 1) else loop p

mutual

/-- The fuel bounds the number of nested calls and loop rounds. -/
def value : ℕ → Parser → Except Text (Value × Parser)
  | 0, _ => .error "unexpected end of input".toList
  | fuel + 1, p =>
      match p.peek with
      | none => .error "unexpected end of input".toList
      | some c =>
          if c = byte '{' then object (fun p => members fuel [] p) p
          else if c = byte '[' then array (fun p => elements fuel [] p) p
          else if c = byte '"' then do
            let (s, p) ← p.string
            .ok (.str s, p)
          else if c = byte 't' ∨ c = byte 'f' then p.boolean
          else if c = byte 'n' then p.null
          else if c = byte '-' ∨ isDigit c then p.number
          else .error ("unexpected byte ".toList ++ debugChar c ++ " at ".toList ++ decimal p.i)

/-- The loop of `object`, after the members in `pairs`. -/
def members : ℕ → List (Text × Value) → Parser → Except Text (Value × Parser)
  | 0, _, _ => .error "unexpected end of input".toList
  | fuel + 1, pairs, p => do
      let (key, p) ← p.ws.string
      let p ← p.ws.expect (byte ':')
      let (val, p) ← value fuel p.ws
      let p := p.ws
      if p.peek = some (byte ',') then members fuel (pairs ++ [(key, val)]) (p.advance 1)
      else if p.peek = some (byte '}') then .ok (.object (pairs ++ [(key, val)]), p.advance 1)
      else .error ("expected ',' or '\x7d' at byte ".toList ++ decimal p.i)

/-- The loop of `array`, after the elements in `items`. -/
def elements : ℕ → List Value → Parser → Except Text (Value × Parser)
  | 0, _, _ => .error "unexpected end of input".toList
  | fuel + 1, items, p => do
      let (item, p) ← value fuel p.ws
      let p := p.ws
      if p.peek = some (byte ',') then elements fuel (items ++ [item]) (p.advance 1)
      else if p.peek = some (byte ']') then .ok (.array (items ++ [item]), p.advance 1)
      else .error ("expected ',' or ']' at byte ".toList ++ decimal p.i)

end

end Parser

/-- One document, with whitespace around it. -/
def Value.parse (input : Text) : Except Text Value := do
  let b := encode input
  let (v, p) ← (Parser.ws ⟨b, 0⟩).value (2 * b.length)
  let p := p.ws
  if p.i ≠ b.length then .error ("trailing data at byte ".toList ++ decimal p.i) else .ok v

end Lwrt.Json
