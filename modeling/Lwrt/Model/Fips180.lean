import Mathlib.Data.Nat.NthRoot.Defs
import Lwrt.Library.Bytes
import Lwrt.Library.Endian

/-! SHA-256 as FIPS 180-4 defines it, for messages of whole bytes. -/

namespace Lwrt.Fips180

open Library

/-! ## Functions (4.1.2) -/

def rotr (n : ℕ) (x : UInt32) : UInt32 :=
  ⟨x.toBitVec.rotateRight n⟩

def shr (n : UInt32) (x : UInt32) : UInt32 :=
  x >>> n

def ch (x y z : UInt32) : UInt32 :=
  (x &&& y) ^^^ (~~~x &&& z)

def maj (x y z : UInt32) : UInt32 :=
  (x &&& y) ^^^ (x &&& z) ^^^ (y &&& z)

def bigSigma0 (x : UInt32) : UInt32 :=
  rotr 2 x ^^^ rotr 13 x ^^^ rotr 22 x

def bigSigma1 (x : UInt32) : UInt32 :=
  rotr 6 x ^^^ rotr 11 x ^^^ rotr 25 x

def smallSigma0 (x : UInt32) : UInt32 :=
  rotr 7 x ^^^ rotr 18 x ^^^ shr 3 x

def smallSigma1 (x : UInt32) : UInt32 :=
  rotr 17 x ^^^ rotr 19 x ^^^ shr 10 x

/-! ## Constants (4.2.2, 5.3.3) -/

/-- The first sixty-four prime numbers. -/
def primes : List ℕ :=
  (List.range 312).filter fun p => 2 ≤ p && (List.range' 2 (p - 2)).all fun d => p % d ≠ 0

/-- The first 32 bits of the fractional part of the `n`-th root. -/
def fractionalRoot (n p : ℕ) : UInt32 :=
  UInt32.ofNat (Nat.nthRoot n (p * 2 ^ (32 * n)))

/-- Of the cube roots of the first sixty-four primes. -/
def constants : List UInt32 :=
  primes.map (fractionalRoot 3)

/-- The eight words of a hash value, or the eight working variables. -/
structure Words where
  a : UInt32
  b : UInt32
  c : UInt32
  d : UInt32
  e : UInt32
  f : UInt32
  g : UInt32
  h : UInt32
deriving DecidableEq

/-- Of the square roots of the first eight primes. -/
def initial : Words :=
  ⟨fractionalRoot 2 2, fractionalRoot 2 3, fractionalRoot 2 5, fractionalRoot 2 7,
    fractionalRoot 2 11, fractionalRoot 2 13, fractionalRoot 2 17, fractionalRoot 2 19⟩

/-! ## Preprocessing (5.1.1, 5.2.1) -/

/-- The zero bytes between the byte with the one bit and the length: the fewest that leave the
length at the end of a block. -/
def zeroBytes (n : ℕ) : ℕ :=
  (55 + 64 - n % 64) % 64

/-- A number below 2^64 as eight bytes, the most significant first. -/
def toBe64 (n : ℕ) : List UInt8 :=
  [UInt8.ofNat (n / 2 ^ 56), UInt8.ofNat (n / 2 ^ 48), UInt8.ofNat (n / 2 ^ 40),
    UInt8.ofNat (n / 2 ^ 32), UInt8.ofNat (n / 2 ^ 24), UInt8.ofNat (n / 2 ^ 16),
    UInt8.ofNat (n / 2 ^ 8), UInt8.ofNat n]

def pad (message : List UInt8) : List UInt8 :=
  message ++ 0x80 :: List.replicate (zeroBytes message.length) 0 ++ toBe64 (8 * message.length)

/-- The whole 64-byte blocks of a string. -/
def blocks (m : List UInt8) : List (List UInt8) :=
  (List.range (m.length / 64)).map fun i => extract m (64 * i) 64

/-! ## Hash computation (6.2.2) -/

/-- Word `t` of a block. -/
def word (block : List UInt8) (t : ℕ) : UInt32 :=
  UInt32.ofNat (ofBeBytes (extract block (4 * t) 4))

def schedule (block : List UInt8) (t : ℕ) : UInt32 :=
  if _h : t < 16 then word block t
  else
    smallSigma1 (schedule block (t - 2)) + schedule block (t - 7) +
      smallSigma0 (schedule block (t - 15)) + schedule block (t - 16)
termination_by t
decreasing_by all_goals omega

def step (v : Words) (kw : UInt32 × UInt32) : Words :=
  let t₁ := v.h + bigSigma1 v.e + ch v.e v.f v.g + kw.1 + kw.2
  let t₂ := bigSigma0 v.a + maj v.a v.b v.c
  ⟨t₁ + t₂, v.a, v.b, v.c, v.d + t₁, v.e, v.f, v.g⟩

def process (v : Words) (block : List UInt8) : Words :=
  let r := (constants.zip ((List.range 64).map (schedule block))).foldl step v
  ⟨r.a + v.a, r.b + v.b, r.c + v.c, r.d + v.d, r.e + v.e, r.f + v.f, r.g + v.g, r.h + v.h⟩

def sha256 (message : List UInt8) : List UInt8 :=
  let v := (blocks (pad message)).foldl process initial
  [v.a, v.b, v.c, v.d, v.e, v.f, v.g, v.h].flatMap toBe32

/-! ## Padding -/

theorem zeroBytes_spec (n : ℕ) : zeroBytes n < 64 ∧ (n + 1 + zeroBytes n) % 64 = 56 := by
  unfold zeroBytes
  omega

/-- Fewer zero bytes leave the length elsewhere. -/
theorem zeroBytes_least {n z : ℕ} (h : (n + 1 + z) % 64 = 56) : zeroBytes n ≤ z := by
  unfold zeroBytes
  omega

theorem length_pad (message : List UInt8) : (pad message).length % 64 = 0 := by
  have hz := (zeroBytes_spec message.length).2
  simp only [pad, toBe64, List.length_append, List.length_cons, List.length_replicate,
    List.length_nil]
  omega

/-! ## Blocks -/

theorem blocks_of_lt {m : List UInt8} (h : m.length < 64) : blocks m = [] := by
  rw [blocks, Nat.div_eq_of_lt h]
  rfl

theorem blocks_cons {b : List UInt8} (hb : b.length = 64) (m : List UInt8) :
    blocks (b ++ m) = b :: blocks m := by
  have hdiv : (b ++ m).length / 64 = m.length / 64 + 1 := by
    rw [List.length_append, hb]
    omega
  rw [blocks, hdiv, List.range_succ_eq_map, List.map_cons, List.map_map, blocks]
  congr 1
  · rw [extract_append_left (by omega), extract, Nat.mul_zero, List.drop_zero,
      List.take_of_length_le (by omega)]
  · apply List.map_congr_left
    intro i _
    have hoff : 64 * (i + 1) = b.length + 64 * i := by omega
    simp only [Function.comp_apply, extract, Nat.succ_eq_add_one]
    rw [hoff, ← List.drop_drop, List.drop_left]

theorem length_of_mem_blocks {m b : List UInt8} (hb : b ∈ blocks m) : b.length = 64 := by
  obtain ⟨i, hi, rfl⟩ := List.mem_map.mp hb
  have hi : i < m.length / 64 := List.mem_range.mp hi
  exact length_extract (by omega)

/-- Whole blocks in front stay blocks. -/
theorem blocks_append {m : List UInt8} (hm : m.length % 64 = 0) (n : List UInt8) :
    blocks (m ++ n) = blocks m ++ blocks n := by
  induction hlen : m.length / 64 generalizing m with
  | zero =>
      have hnil : m = [] := List.length_eq_zero_iff.mp (by omega)
      simp [hnil, blocks_of_lt]
  | succ q ih =>
      have hsplit := List.take_append_drop 64 m
      have htake : (m.take 64).length = 64 := by
        rw [List.length_take]
        omega
      have hdrop : (m.drop 64).length = m.length - 64 := List.length_drop
      have hrest := ih (m := m.drop 64) (by omega) (by omega)
      rw [← hsplit, List.append_assoc, blocks_cons htake, blocks_cons htake, hrest,
        List.cons_append]

end Lwrt.Fips180
