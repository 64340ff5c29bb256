import Lwrt.Library.Text

/-! The base64 decoder of the helpers. -/

namespace Lwrt.Util

open Library Text

/-- The value of a base64 symbol. -/
def val (c : UInt8) : Option UInt8 :=
  if 65 ≤ c ∧ c ≤ 90 then some (c - 65)
  else if 97 ≤ c ∧ c ≤ 122 then some (c - 97 + 26)
  else if 48 ≤ c ∧ c ≤ 57 then some (c - 48 + 52)
  else if c = 43 then some 62
  else if c = 47 then some 63
  else none

/-- `is_ascii_whitespace`: space, tab, line feed, form feed and carriage return. -/
def isAsciiWhitespace (c : UInt8) : Bool :=
  c == 32 || c == 9 || c == 10 || c == 12 || c == 13

/-- Bytes that the decoder passes over: `=` and whitespace. -/
def skipped (c : UInt8) : Bool :=
  c == 61 || isAsciiWhitespace c

/-- The output, the accumulator and the number of its bits that are still to be written. -/
structure Decoder where
  out : List UInt8
  acc : UInt32
  bits : ℕ

/-- One turn of the loop. -/
def Decoder.push (st : Decoder) (c : UInt8) : Option Decoder :=
  if skipped c then some st
  else do
    let v ← val c
    let acc := st.acc <<< 6 ||| v.toUInt32
    let bits := st.bits + 6
    if 8 ≤ bits then
      some ⟨st.out ++ [(acc >>> UInt32.ofNat (bits - 8)).toUInt8], acc, bits - 8⟩
    else some ⟨st.out, acc, bits⟩

def b64Decode (s : Text) : Option (List UInt8) :=
  ((Utf8.encode (trim s)).foldlM Decoder.push ⟨[], 0, 0⟩).map Decoder.out

end Lwrt.Util
