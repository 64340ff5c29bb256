import Lwrt.Library.Bytes
import Lwrt.Library.Text

/-! SHA-256 with a streaming state, and hexadecimal text. -/

namespace Lwrt.Sha256

open Library

def k : List UInt32 :=
  [0x428a2f98, 0x71374491, 0xb5c0fbcf, 0xe9b5dba5, 0x3956c25b, 0x59f111f1, 0x923f82a4, 0xab1c5ed5,
    0xd807aa98, 0x12835b01, 0x243185be, 0x550c7dc3, 0x72be5d74, 0x80deb1fe, 0x9bdc06a7, 0xc19bf174,
    0xe49b69c1, 0xefbe4786, 0x0fc19dc6, 0x240ca1cc, 0x2de92c6f, 0x4a7484aa, 0x5cb0a9dc, 0x76f988da,
    0x983e5152, 0xa831c66d, 0xb00327c8, 0xbf597fc7, 0xc6e00bf3, 0xd5a79147, 0x06ca6351, 0x14292967,
    0x27b70a85, 0x2e1b2138, 0x4d2c6dfc, 0x53380d13, 0x650a7354, 0x766a0abb, 0x81c2c92e, 0x92722c85,
    0xa2bfe8a1, 0xa81a664b, 0xc24b8b70, 0xc76c51a3, 0xd192e819, 0xd6990624, 0xf40e3585, 0x106aa070,
    0x19a4c116, 0x1e376c08, 0x2748774c, 0x34b0bcb5, 0x391c0cb3, 0x4ed8aa4a, 0x5b9cca4f, 0x682e6ff3,
    0x748f82ee, 0x78a5636f, 0x84c87814, 0x8cc70208, 0x90befffa, 0xa4506ceb, 0xbef9a3f7, 0xc67178f2]

/-- The eight working words. -/
structure Words where
  a : UInt32
  b : UInt32
  c : UInt32
  d : UInt32
  e : UInt32
  f : UInt32
  g : UInt32
  h : UInt32
deriving DecidableEq

def Words.toList (w : Words) : List UInt32 :=
  [w.a, w.b, w.c, w.d, w.e, w.f, w.g, w.h]

def h0 : Words :=
  ⟨0x6a09e667, 0xbb67ae85, 0x3c6ef372, 0xa54ff53a, 0x510e527f, 0x9b05688c, 0x1f83d9ab, 0x5be0cd19⟩

def rotateRight (x : UInt32) (n : UInt32) : UInt32 :=
  (x >>> n) ||| (x <<< (32 - n))

def fromBeBytes (b : List UInt8) : UInt32 :=
  b.foldl (fun acc x => (acc <<< 8) ||| x.toUInt32) 0

def toBeBytes (x : UInt32) : List UInt8 :=
  [(x >>> 24).toUInt8, (x >>> 16).toUInt8, (x >>> 8).toUInt8, x.toUInt8]

/-- Word `i` of the message schedule, from the words before it. -/
def scheduleWord (w : List UInt32) (i : ℕ) : UInt32 :=
  let x := w.getD (i - 15) 0
  let y := w.getD (i - 2) 0
  let s0 := rotateRight x 7 ^^^ rotateRight x 18 ^^^ (x >>> 3)
  let s1 := rotateRight y 17 ^^^ rotateRight y 19 ^^^ (y >>> 10)
  w.getD (i - 16) 0 + s0 + w.getD (i - 7) 0 + s1

def schedule (block : List UInt8) : List UInt32 :=
  let first := (List.range 16).map fun i => fromBeBytes (extract block (i * 4) 4)
  (List.range' 16 48).foldl (fun w i => w ++ [scheduleWord w i]) first

def round (r : Words) (kw : UInt32 × UInt32) : Words :=
  let s1 := rotateRight r.e 6 ^^^ rotateRight r.e 11 ^^^ rotateRight r.e 25
  let ch := (r.e &&& r.f) ^^^ (~~~r.e &&& r.g)
  let t1 := r.h + s1 + ch + kw.1 + kw.2
  let s0 := rotateRight r.a 2 ^^^ rotateRight r.a 13 ^^^ rotateRight r.a 22
  let maj := (r.a &&& r.b) ^^^ (r.a &&& r.c) ^^^ (r.b &&& r.c)
  let t2 := s0 + maj
  ⟨t1 + t2, r.a, r.b, r.c, r.d + t1, r.e, r.f, r.g⟩

def compress (h : Words) (block : List UInt8) : Words :=
  let r := (k.zip (schedule block)).foldl round h
  ⟨h.a + r.a, h.b + r.b, h.c + r.c, h.d + r.d, h.e + r.e, h.f + r.f, h.g + r.g, h.h + r.h⟩

/-- The streaming state. -/
structure State where
  h : Words
  block : List UInt8
  fill : ℕ
  len : UInt64

def new : State :=
  ⟨h0, List.replicate 64 0, 0, 0⟩

/-- Whole blocks straight from the input; the length of the input is enough fuel. -/
def absorb : ℕ → Words → List UInt8 → Words × List UInt8
  | 0, h, data => (h, data)
  | fuel + 1, h, data =>
      if 64 ≤ data.length then absorb fuel (compress h (data.take 64)) (data.drop 64) else (h, data)

/-- Whole blocks, then the remainder is kept. -/
def State.fillFrom (s : State) (data : List UInt8) : State :=
  let rest := absorb data.length s.h data
  { s with h := rest.1, block := copyAt s.block 0 rest.2, fill := rest.2.length }

def State.update (s : State) (data : List UInt8) : State :=
  let s := { s with len := s.len + UInt64.ofNat data.length }
  if 0 < s.fill then
    let take := min (64 - s.fill) data.length
    let block := copyAt s.block s.fill (data.take take)
    if s.fill + take = 64 then
      { s with h := compress s.h block, block := block, fill := 0 }.fillFrom (data.drop take)
    else { s with block := block, fill := s.fill + take }
  else s.fillFrom data

/-- Zero bytes until the length field fits; one block is enough fuel. -/
def State.padZeros : ℕ → State → State
  | 0, s => s
  | fuel + 1, s => if s.fill = 56 then s else padZeros fuel (s.update [0])

def lenBytes (bits : UInt64) : List UInt8 :=
  ([56, 48, 40, 32, 24, 16, 8, 0] : List UInt64).map fun sh => (bits >>> sh).toUInt8

def State.finish (s : State) : List UInt8 :=
  let bits := s.len * 8
  let padded := State.padZeros 64 (s.update [0x80])
  (padded.update (lenBytes bits)).h.toList.flatMap toBeBytes

def digest (data : List UInt8) : List UInt8 :=
  (new.update data).finish

def hex (bytes : List UInt8) : Text :=
  bytes.flatMap Text.hex2

end Lwrt.Sha256
