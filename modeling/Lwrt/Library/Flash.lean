import Lwrt.Library.Bytes

/-! Flash memory: erasing sets every bit of whole blocks, and writing only clears bits. -/

namespace Lwrt.Library

/-- The bytes from `i` on to before `i + n` are changed, each by its offset. -/
def overlay (bytes : List UInt8) (i n : ℕ) (g : ℕ → UInt8 → UInt8) : List UInt8 :=
  bytes.mapIdx fun j b => if i ≤ j ∧ j < i + n then g j b else b

@[simp]
theorem length_overlay (bytes : List UInt8) (i n : ℕ) (g : ℕ → UInt8 → UInt8) :
    (overlay bytes i n g).length = bytes.length := by
  simp [overlay]

theorem getElem?_overlay (bytes : List UInt8) (i n : ℕ) (g : ℕ → UInt8 → UInt8) (j : ℕ) :
    (overlay bytes i n g)[j]? =
      bytes[j]?.map fun b => if i ≤ j ∧ j < i + n then g j b else b := by
  rw [overlay, List.getElem?_mapIdx]

/-- What lies beyond stays. -/
theorem drop_overlay (bytes : List UInt8) {i n k : ℕ} (h : i + n ≤ k)
    (g : ℕ → UInt8 → UInt8) : (overlay bytes i n g).drop k = bytes.drop k := by
  apply List.ext_getElem?
  intro j
  rw [List.getElem?_drop, List.getElem?_drop, getElem?_overlay]
  cases bytes[k + j]? with
  | none => rfl
  | some b => rw [Option.map_some, if_neg (by omega)]

/-- How erasing ends: every bit is set, or it fails and leaves anything in the block. -/
inductive Erasure where
  | done
  | failed (left : ℕ → UInt8)

namespace Erasure

def ok : Erasure → Bool
  | done => true
  | failed _ => false

def apply (o : Erasure) (bytes : List UInt8) (i n : ℕ) : List UInt8 :=
  match o with
  | done => overlay bytes i n fun _ _ => 0xFF
  | failed left => overlay bytes i n fun j _ => left j

@[simp]
theorem length_apply (o : Erasure) (bytes : List UInt8) (i n : ℕ) :
    (o.apply bytes i n).length = bytes.length := by
  cases o <;> simp [apply]

theorem drop_apply (o : Erasure) (bytes : List UInt8) {i n k : ℕ} (h : i + n ≤ k) :
    (o.apply bytes i n).drop k = bytes.drop k := by
  cases o <;> exact drop_overlay bytes h _

end Erasure

/-- How writing ends: every byte keeps the bits that are set in the data too, or it fails and has
cleared any bits where the data would go. -/
inductive Programming where
  | done
  | failed (mask : ℕ → UInt8)

namespace Programming

def ok : Programming → Bool
  | done => true
  | failed _ => false

def apply (o : Programming) (bytes : List UInt8) (i : ℕ) (data : List UInt8) : List UInt8 :=
  match o with
  | done => overlay bytes i data.length fun j b => b &&& data[j - i]?.getD 0xFF
  | failed mask => overlay bytes i data.length fun j b => b &&& mask j

@[simp]
theorem length_apply (o : Programming) (bytes : List UInt8) (i : ℕ) (data : List UInt8) :
    (o.apply bytes i data).length = bytes.length := by
  cases o <;> simp [apply]

theorem drop_apply (o : Programming) (bytes : List UInt8) {i k : ℕ} {data : List UInt8}
    (h : i + data.length ≤ k) : (o.apply bytes i data).drop k = bytes.drop k := by
  cases o <;> exact drop_overlay bytes h _

end Programming

/-! ## Erased from the start -/

/-- The first `n` bytes are erased, the others are as they were. -/
def blank (n : ℕ) (bytes : List UInt8) : List UInt8 :=
  List.replicate n 0xFF ++ bytes.drop n

@[simp]
theorem blank_zero (bytes : List UInt8) : blank 0 bytes = bytes := by
  simp [blank]

theorem length_blank {n : ℕ} {bytes : List UInt8} (h : n ≤ bytes.length) :
    (blank n bytes).length = bytes.length := by
  simp only [blank, List.length_append, List.length_replicate, List.length_drop]
  omega

theorem getElem?_blank {n : ℕ} {bytes : List UInt8} (h : n ≤ bytes.length) (j : ℕ) :
    (blank n bytes)[j]? = bytes[j]?.map fun b => if j < n then 0xFF else b := by
  unfold blank
  by_cases hj : j < n
  · rw [List.getElem?_append_left (by simpa using hj), List.getElem?_replicate, if_pos hj,
      List.getElem?_eq_getElem (by omega), Option.map_some, if_pos hj]
  · rw [List.getElem?_append_right (by simpa using hj), List.length_replicate,
      List.getElem?_drop, Nat.add_sub_cancel' (by omega)]
    simp [hj]

theorem drop_blank {n k : ℕ} (h : n ≤ k) (bytes : List UInt8) :
    (blank n bytes).drop k = bytes.drop k := by
  rw [blank, List.drop_append, List.length_replicate, List.drop_drop,
    List.drop_eq_nil_of_le (by simpa using h), List.nil_append]
  congr 1
  omega

/-- Erasing what follows the erased bytes. -/
theorem erase_blank {n k : ℕ} {bytes : List UInt8} (h : n + k ≤ bytes.length) :
    Erasure.done.apply (blank n bytes) n k = blank (n + k) bytes := by
  apply List.ext_getElem?
  intro j
  rw [Erasure.apply, getElem?_overlay, getElem?_blank (by omega), getElem?_blank h,
    Option.map_map]
  congr 1
  funext b
  simp only [Function.comp_apply]
  split_ifs <;> first | rfl | omega

/-- Writing where everything is erased stores the data. -/
theorem program_blank {n : ℕ} {bytes data : List UInt8} (hn : n ≤ bytes.length)
    (h : data.length ≤ n) :
    (Programming.done.apply (blank n bytes) 0 data).take data.length = data := by
  apply List.ext_getElem?
  intro j
  rw [List.getElem?_take]
  split
  · rename_i hj
    rw [Programming.apply, getElem?_overlay, getElem?_blank hn,
      List.getElem?_eq_getElem (show j < bytes.length by omega), Option.map_some, Option.map_some,
      if_pos (by omega), if_pos (by omega), Nat.sub_zero, List.getElem?_eq_getElem hj,
      Option.getD_some]
    congr 1
    exact UInt8.eq_of_toBitVec_eq (BitVec.allOnes_and)
  · rename_i hj
    rw [List.getElem?_eq_none (by omega)]

end Lwrt.Library
