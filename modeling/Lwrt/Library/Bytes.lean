import Mathlib.Data.List.Basic
import Mathlib.Tactic.Ring

/-! Byte buffers: sub-slices, fixed-size fields and in-place copies. -/

namespace Lwrt.Library

/-- `buf[i..i + n]`, cut short where the buffer ends. -/
def extract (buf : List UInt8) (i n : ℕ) : List UInt8 :=
  (buf.drop i).take n

/-- `buf[i..i + n].try_into().ok()`. -/
def slice? (n : ℕ) (buf : List UInt8) (i : ℕ) : Option (Vector UInt8 n) :=
  if h : (extract buf i n).toArray.size = n then some ⟨(extract buf i n).toArray, h⟩ else none

/-- `b[i..i + src.len()].copy_from_slice(src)`. -/
def copyAt (b : List UInt8) (i : ℕ) (src : List UInt8) : List UInt8 :=
  b.take i ++ src ++ b.drop (i + src.length)

/-- There are no more parts than elements, where no part is empty. -/
theorem length_le_length_flatMap {α β : Type*} {f : α → List β} {xs : List α}
    (h : ∀ x ∈ xs, f x ≠ []) : xs.length ≤ (xs.flatMap f).length := by
  induction xs with
  | nil => exact Nat.zero_le _
  | cons x xs ih =>
      obtain ⟨hx, hxs⟩ := List.forall_mem_cons.mp h
      have hpos := List.length_pos_iff.mpr hx
      have hrest := ih hxs
      rw [List.flatMap_cons, List.length_cons, List.length_append]
      omega

theorem length_copyAt {b : List UInt8} {n : ℕ} (i : ℕ) (src : List UInt8)
    (hb : b.length = n) (h : i + src.length ≤ n) : (copyAt b i src).length = n := by
  simp only [copyAt, List.length_append, List.length_take, List.length_drop]
  omega

theorem getElem?_copyAt {b src : List UInt8} {i : ℕ} (h : i + src.length ≤ b.length) (j : ℕ) :
    (copyAt b i src)[j]? = if i ≤ j ∧ j < i + src.length then src[j - i]? else b[j]? := by
  have htake : (b.take i).length = i := by simp; omega
  unfold copyAt
  by_cases hlow : j < i
  · rw [List.append_assoc, List.getElem?_append_left (by omega), List.getElem?_take_of_lt hlow]
    simp [show ¬ i ≤ j by omega]
  · by_cases hmid : j < i + src.length
    · rw [List.append_assoc, List.getElem?_append_right (by omega),
        List.getElem?_append_left (by omega), htake]
      simp [show i ≤ j by omega, hmid]
    · rw [List.getElem?_append_right (by simp; omega), List.getElem?_drop]
      simp only [List.length_append, htake, hmid, and_false, if_false]
      congr 1
      omega

theorem getElem?_extract (buf : List UInt8) (i n j : ℕ) :
    (extract buf i n)[j]? = if j < n then buf[i + j]? else none := by
  unfold extract
  rw [List.getElem?_take]
  split <;> simp

theorem length_extract {buf : List UInt8} {i n : ℕ} (h : i + n ≤ buf.length) :
    (extract buf i n).length = n := by
  simp only [extract, List.length_take, List.length_drop]
  omega

theorem extract_add (buf : List UInt8) (i m n : ℕ) :
    extract buf i (m + n) = extract buf i m ++ extract buf (i + m) n := by
  rw [extract, extract, extract, ← List.drop_drop, List.take_add]

/-- A copied field reads back. -/
theorem extract_copyAt_self {b src : List UInt8} {i n : ℕ} (hn : src.length = n)
    (h : i + n ≤ b.length) : extract (copyAt b i src) i n = src := by
  subst hn
  apply List.ext_getElem?
  intro j
  rw [getElem?_extract, getElem?_copyAt h]
  by_cases hj : j < src.length
  · simp [hj]
  · simp [hj]

/-- A copy leaves every field outside it as it was. -/
theorem extract_copyAt_of_disjoint {b src : List UInt8} {i k n : ℕ}
    (h : i + src.length ≤ b.length) (hd : k + n ≤ i ∨ i + src.length ≤ k) :
    extract (copyAt b i src) k n = extract b k n := by
  apply List.ext_getElem?
  intro j
  rw [getElem?_extract, getElem?_extract, getElem?_copyAt h]
  by_cases hj : j < n
  · simp only [hj, if_true]
    rw [if_neg (by omega)]
  · simp [hj]

/-- Storing one byte is copying a slice of one. -/
theorem set_eq_copyAt {b : List UInt8} {i : ℕ} (h : i < b.length) (x : UInt8) :
    b.set i x = copyAt b i [x] := by
  rw [copyAt, List.set_eq_take_append_cons_drop, if_pos h]
  simp

theorem extract_append_left {b tail : List UInt8} {i n : ℕ} (h : i + n ≤ b.length) :
    extract (b ++ tail) i n = extract b i n := by
  unfold extract
  rw [List.drop_append_of_le_length (by omega), List.take_append_of_le_length (by simp; omega)]

/-- Inside of what stands at a position. -/
theorem extract_inside {b buf : List UInt8} {pos i n : ℕ} (h : b <+: buf.drop pos)
    (hle : i + n ≤ b.length) : extract buf (pos + i) n = extract b i n := by
  obtain ⟨tail, htail⟩ := h
  rw [extract, ← List.drop_drop, ← htail]
  exact extract_append_left hle

/-- A part of a buffer, between what stands before and after it. -/
theorem extract_append_append (pre b post : List UInt8) :
    extract (pre ++ (b ++ post)) pre.length b.length = b := by
  rw [extract, List.drop_left, List.take_left]

theorem slice?_eq_some {n : ℕ} {buf : List UInt8} {i : ℕ} {v : Vector UInt8 n}
    (h : extract buf i n = v.toList) : slice? n buf i = some v := by
  unfold slice?
  have hsize : (extract buf i n).toArray.size = n := by simp [h]
  rw [dif_pos hsize]
  congr 1
  apply Vector.toArray_inj.mp
  change (extract buf i n).toArray = v.toArray
  rw [h, Vector.toList, Array.toArray_toList]

theorem slice?_of_le {n : ℕ} {buf : List UInt8} {i : ℕ} (h : i + n ≤ buf.length) :
    ∃ v : Vector UInt8 n, slice? n buf i = some v ∧ extract buf i n = v.toList := by
  have hsize : (extract buf i n).toArray.size = n := by
    rw [List.size_toArray, length_extract h]
  exact ⟨⟨(extract buf i n).toArray, hsize⟩, dif_pos hsize, rfl⟩

end Lwrt.Library
