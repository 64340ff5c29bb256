import Mathlib.Data.List.Basic
import Mathlib.Tactic.Ring

/-! Fixed-width integers as bytes, in either order. -/

namespace Lwrt.Library

def toLe16 (x : UInt16) : List UInt8 :=
  [UInt8.ofNat x.toNat, UInt8.ofNat (x.toNat / 256)]

def toLe32 (x : UInt32) : List UInt8 :=
  [UInt8.ofNat x.toNat, UInt8.ofNat (x.toNat / 256), UInt8.ofNat (x.toNat / 65536),
    UInt8.ofNat (x.toNat / 16777216)]

def toBe16 (x : UInt16) : List UInt8 :=
  (toLe16 x).reverse

def toBe32 (x : UInt32) : List UInt8 :=
  (toLe32 x).reverse

/-- The number with the given bytes, the least significant one first. -/
def ofLeBytes (b : List UInt8) : ℕ :=
  b.foldr (fun x acc => x.toNat + 256 * acc) 0

def ofBeBytes (b : List UInt8) : ℕ :=
  ofLeBytes b.reverse

@[simp]
theorem length_toLe16 (x : UInt16) : (toLe16 x).length = 2 :=
  rfl

@[simp]
theorem length_toLe32 (x : UInt32) : (toLe32 x).length = 4 :=
  rfl

@[simp]
theorem length_toBe16 (x : UInt16) : (toBe16 x).length = 2 :=
  rfl

@[simp]
theorem length_toBe32 (x : UInt32) : (toBe32 x).length = 4 :=
  rfl

@[simp]
theorem ofLeBytes_toLe16 (x : UInt16) : ofLeBytes (toLe16 x) = x.toNat := by
  have := x.toNat_lt
  simp only [toLe16, ofLeBytes, List.foldr_cons, List.foldr_nil, UInt8.toNat_ofNat']
  omega

@[simp]
theorem ofLeBytes_toLe32 (x : UInt32) : ofLeBytes (toLe32 x) = x.toNat := by
  have := x.toNat_lt
  simp only [toLe32, ofLeBytes, List.foldr_cons, List.foldr_nil, UInt8.toNat_ofNat']
  omega

@[simp]
theorem ofBeBytes_toBe32 (x : UInt32) : ofBeBytes (toBe32 x) = x.toNat := by
  rw [ofBeBytes, toBe32, List.reverse_reverse, ofLeBytes_toLe32]

theorem ofLeBytes_lt (b : List UInt8) : ofLeBytes b < 256 ^ b.length := by
  induction b with
  | nil => simp [ofLeBytes]
  | cons x b ih =>
      have hx := x.toNat_lt
      have hcons : ofLeBytes (x :: b) = x.toNat + 256 * ofLeBytes b := rfl
      rw [hcons, List.length_cons, Nat.pow_succ]
      omega

/-- Bytes determine a number of their width. -/
theorem toLe16_injective {x y : UInt16} (h : toLe16 x = toLe16 y) : x = y := by
  apply UInt16.toNat_inj.mp
  rw [← ofLeBytes_toLe16 x, h, ofLeBytes_toLe16]

theorem toBe16_injective {x y : UInt16} (h : toBe16 x = toBe16 y) : x = y :=
  toLe16_injective (List.reverse_injective h)

end Lwrt.Library
