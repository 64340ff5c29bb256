import Lwrt.Library.Numerals

/-! Requests of HTTP/1 as bytes: a request line, header fields, an empty line and a body. A line
ends with a line feed, whether or not a carriage return is in front of it. -/

namespace Lwrt.HttpMessage

open Library Text Utf8

/-- A header field; the value is all that follows the colon. -/
structure Field where
  name : List UInt8
  value : List UInt8
  colon_not_mem : byte ':' ∉ name
  newline_not_mem_name : byte '\n' ∉ name
  newline_not_mem_value : byte '\n' ∉ value

structure Message where
  start : List UInt8
  fields : List Field
  /-- A carriage return is in the empty line. -/
  crlf : Bool
  body : List UInt8
  newline_not_mem_start : byte '\n' ∉ start

def Field.line (f : Field) : List UInt8 :=
  f.name ++ byte ':' :: f.value

/-- The lines before the empty one. -/
def Message.head (m : Message) : List (List UInt8) :=
  m.start :: m.fields.map Field.line

def Message.emptyLine (m : Message) : List UInt8 :=
  if m.crlf then [byte '\r'] else []

def Message.bytes (m : Message) : List UInt8 :=
  (m.head ++ [m.emptyLine]).flatMap (· ++ [byte '\n']) ++ m.body

theorem Field.newline_not_mem (f : Field) : byte '\n' ∉ f.line := by
  rw [line, List.mem_append, List.mem_cons]
  rintro (h | h | h)
  · exact f.newline_not_mem_name h
  · exact absurd h (by decide)
  · exact f.newline_not_mem_value h

theorem Message.newline_not_mem (m : Message) : ∀ l ∈ m.head ++ [m.emptyLine], byte '\n' ∉ l := by
  intro l hl
  rw [head, List.mem_append, List.mem_cons, List.mem_map, List.mem_singleton] at hl
  rcases hl with (rfl | ⟨f, -, rfl⟩) | rfl
  · exact m.newline_not_mem_start
  · exact f.newline_not_mem
  · rw [emptyLine]
    cases m.crlf <;> decide

/-! ## Fields -/

/-- Optional white space around a value, and the carriage return behind it. -/
def isOws (c : Char) : Bool :=
  c = ' ' || c = '\t' || c = '\r'

def strip (s : Text) : Text :=
  (s.dropWhile isOws).rdropWhile isOws

/-- Names are compared without regard to letter case. -/
def Field.named (name : Text) (f : Field) : Bool :=
  eqIgnoreAsciiCase (fromUtf8Lossy f.name) name

def Field.text (f : Field) : Text :=
  fromUtf8Lossy f.value

def Field.content (f : Field) : Text :=
  strip f.text

/-- The cookies of a Cookie field, each with its name in front of the first `=`. -/
def Field.cookies (f : Field) : List Text :=
  (f.text.splitOn ';').map strip

/-- The body is there in the length that is announced. -/
def Message.Complete (m : Message) : Prop :=
  ∀ f ∈ m.fields, f.named "content-length".toList →
    ∃ n, Numeral f.content n ∧ n ≤ m.body.length

/-- The cookie `name` is in the one Cookie field, once, with this value. -/
def Message.HasCookie (m : Message) (name value : Text) : Prop :=
  ∃ f, m.fields.filter (Field.named "cookie".toList) = [f] ∧
    f.cookies.filter (name ++ ['=']).isPrefixOf = [name ++ '=' :: value]

/-- The field `name` is there once, with this value. -/
def Message.HasField (m : Message) (name value : Text) : Prop :=
  ∃ f, m.fields.filter (Field.named name) = [f] ∧ f.content = value

/-! ## White space -/

theorem isWhitespace_of_isOws {c : Char} (h : isOws c = true) : isWhitespace c = true := by
  simp only [isOws, Bool.or_eq_true, decide_eq_true_eq] at h
  rcases h with (rfl | rfl) | rfl <;> decide

theorem trim_strip (s : Text) : trim (strip s) = trim s := by
  obtain ⟨a, b, hs, ha, hb⟩ := exists_eq_dropWhile isOws s
  change s = a ++ strip s ++ b at hs
  conv_rhs => rw [hs]
  rw [trim_append_blank _ fun c hc => isWhitespace_of_isOws (hb c hc),
    trim_blank_append fun c hc => isWhitespace_of_isOws (ha c hc)]

end Lwrt.HttpMessage
