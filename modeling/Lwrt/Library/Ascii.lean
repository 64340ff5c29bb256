import Mathlib.Data.List.Basic
import Lwrt.Library.Text

/-! Operations on the ASCII letters of a string, on its characters and on its bytes: decoding
commutes with them. -/

namespace Lwrt.Library

namespace Utf8

/-- A change of ASCII characters to others, as a map of bytes and as one of characters. -/
structure AsciiMap (f : UInt8 → UInt8) (g : Char → Char) : Prop where
  low : ∀ b, b.toNat < 0x80 → (f b).toNat < 0x80
  char : ∀ b, b.toNat < 0x80 → Char.ofNat (f b).toNat = g (Char.ofNat b.toNat)
  high : ∀ b, 0x80 ≤ b.toNat → f b = b
  wide : ∀ c : Char, 0x80 ≤ c.toNat → g c = c

variable {f : UInt8 → UInt8} {g : Char → Char}

theorem AsciiMap.isCont_eq (h : AsciiMap f g) (b : UInt8) : isCont (f b) = isCont b := by
  rcases Nat.lt_or_ge b.toNat 0x80 with hb | hb
  · have hf := h.low b hb
    rw [Bool.eq_iff_iff, isCont_iff, isCont_iff]
    omega
  · rw [h.high b hb]

theorem AsciiMap.second_eq (h : AsciiMap f g) (b c : UInt8) : second b (f c) = second b c := by
  rcases Nat.lt_or_ge c.toNat 0x80 with hc | hc
  · have hf := h.low c hc
    rw [Bool.eq_iff_iff, second_iff, second_iff]
    omega
  · rw [h.high c hc]

/-- The bytes after the first of a sequence stay. -/
theorem AsciiMap.eq_of_isCont (h : AsciiMap f g) {b : UInt8} (hb : isCont b = true) : f b = b :=
  h.high b ((isCont_iff b).mp hb).1

theorem AsciiMap.eq_of_second (h : AsciiMap f g) {b c : UInt8} (hc : second b c = true) : f c = c :=
  h.high c ((second_iff b c).mp hc).1.1

/-- An ASCII character that is changed to another one breaks a sequence off as it did. -/
theorem AsciiMap.next_eq (h : AsciiMap f g) {b : UInt8} (hb : 0x80 ≤ b.toNat) (rest : List UInt8) :
    next b (rest.map f) = ((next b rest).1, (next b rest).2.map f) := by
  have hhigh : ¬ b < 0x80 := by
    rw [UInt8.lt_iff_toNat_lt]
    exact Nat.not_lt_of_le hb
  have hcont (c : UInt8) (hc : isCont c = true) : f c = c := h.eq_of_isCont hc
  have hsecond (c : UInt8) (hc : second b c = true) : f c = c := h.eq_of_second hc
  unfold next
  rw [if_neg hhigh, if_neg hhigh]
  match rest with
  | [] => simp
  | [c] =>
      simp only [List.map_cons, List.map_nil, h.isCont_eq, h.second_eq]
      split_ifs <;> simp [*]
  | [c, d] =>
      simp only [List.map_cons, List.map_nil, h.isCont_eq, h.second_eq]
      split_ifs <;> simp [*]
  | c :: d :: e :: rest =>
      simp only [List.map_cons, h.isCont_eq, h.second_eq]
      split_ifs <;> simp [*]

/-! ## Sequences of several bytes -/

/-- What comes of a step at a byte that is not ASCII: a rest of the input, and no ASCII character. -/
structure Wide (rest : List UInt8) (r : Option Char × List UInt8) : Prop where
  char : ∀ c, r.1 = some c → 0x80 ≤ c.toNat
  suffix : r.2 <:+ rest

theorem wide_next {b : UInt8} (hb : 0x80 ≤ b.toNat) (rest : List UInt8) :
    Wide rest (next b rest) := by
  have hdecoded := decoded_next b rest
  generalize next b rest = r at hdecoded ⊢
  cases hdecoded with
  | illFormed tail h => exact ⟨by simp, h⟩
  | char c tail h =>
      obtain ⟨b', bytes, hc⟩ := List.exists_cons_of_ne_nil (String.utf8EncodeChar_ne_nil (c := c))
      rw [hc, List.cons_append] at h
      obtain ⟨rfl, hrest⟩ := List.cons.inj h
      refine ⟨?_, ⟨bytes, hrest.symm⟩⟩
      rintro d hd
      obtain rfl := Option.some.inj hd
      rcases utf8EncodeChar_cases c with ⟨hlow, henc⟩ | ⟨hge, -⟩ | ⟨hge, -⟩ | ⟨hge, -⟩
      · rw [hc] at henc
        rw [(List.cons.inj henc).1, toNat_ofNat_of_lt (by omega)] at hb
        omega
      all_goals omega

/-! ## Decoding -/

theorem AsciiMap.steps_map (h : AsciiMap f g) (fuel : ℕ) (bytes : List UInt8) :
    steps fuel (bytes.map f) = (steps fuel bytes).map (Option.map g) := by
  induction fuel generalizing bytes with
  | zero => rfl
  | succ fuel ih =>
      cases bytes with
      | nil => rfl
      | cons b rest =>
          rw [List.map_cons, steps, steps, List.map_cons]
          rcases Nat.lt_or_ge b.toNat 0x80 with hb | hb
          · rw [next_one (h.low b hb), next_one hb, ih, h.char b hb]
            rfl
          · have hwide : Option.map g (next b rest).1 = (next b rest).1 := by
              cases hnext : (next b rest).1 with
              | none => rfl
              | some c => exact congrArg some (h.wide c ((wide_next hb rest).char c hnext))
            rw [h.high b hb, h.next_eq hb, ih, hwide]

theorem AsciiMap.fromUtf8Lossy_map (h : AsciiMap f g) (bytes : List UInt8) :
    fromUtf8Lossy (bytes.map f) = (fromUtf8Lossy bytes).map g := by
  rw [fromUtf8Lossy, fromUtf8Lossy, List.length_map, h.steps_map, List.map_map, List.map_map]
  apply List.map_congr_left
  intro o _
  cases o with
  | none => exact (h.wide replacement (by decide)).symm
  | some c => rfl

/-- An ASCII character is never made of other bytes. -/
theorem byte_mem_of_mem_steps {c : Char} (hc : c.toNat < 0x80) {fuel : ℕ} {bytes : List UInt8}
    (h : some c ∈ steps fuel bytes) : byte c ∈ bytes := by
  induction fuel generalizing bytes with
  | zero => simp [steps] at h
  | succ fuel ih =>
      cases bytes with
      | nil => simp [steps] at h
      | cons b rest =>
          rw [steps, List.mem_cons] at h
          rcases Nat.lt_or_ge b.toNat 0x80 with hb | hb
          · rw [next_one hb] at h
            cases h with
            | inl hhead =>
                rw [Option.some.inj hhead, byte, toNat_char_ofNat (Or.inl (by omega)),
                  UInt8.ofNat_toNat]
                exact List.mem_cons_self
            | inr htail => exact List.mem_cons_of_mem _ (ih htail)
          · have hwide := wide_next hb rest
            cases h with
            | inl hhead => exact absurd (hwide.char c hhead.symm) (Nat.not_le_of_lt hc)
            | inr htail => exact List.mem_cons_of_mem _ (hwide.suffix.subset (ih htail))

theorem byte_mem_of_mem_fromUtf8Lossy {c : Char} (hc : c.toNat < 0x80) {bytes : List UInt8}
    (h : c ∈ fromUtf8Lossy bytes) : byte c ∈ bytes := by
  obtain ⟨o, ho, hchar⟩ := List.mem_map.mp h
  cases o with
  | none =>
      rw [← hchar] at hc
      exact absurd hc (by decide)
  | some d =>
      obtain rfl : d = c := hchar
      exact byte_mem_of_mem_steps hc ho

/-! ## Letters -/

/-- `u8::to_ascii_lowercase`. -/
def lowerByte (b : UInt8) : UInt8 :=
  if 0x41 ≤ b.toNat ∧ b.toNat ≤ 0x5A then b + 0x20 else b

def upperByte (b : UInt8) : UInt8 :=
  if 0x61 ≤ b.toNat ∧ b.toNat ≤ 0x7A then b - 0x20 else b

/-- On the ASCII range the two maps are compared one by one. -/
theorem asciiMap_of_all (hall : ∀ n < 0x80, (f (UInt8.ofNat n)).toNat < 0x80 ∧
      Char.ofNat (f (UInt8.ofNat n)).toNat = g (Char.ofNat n))
    (hhigh : ∀ b : UInt8, 0x80 ≤ b.toNat → f b = b) (hwide : ∀ c : Char, 0x80 ≤ c.toNat → g c = c) :
    AsciiMap f g where
  low b hb := by
    have hbyte := (hall b.toNat hb).1
    rwa [UInt8.ofNat_toNat] at hbyte
  char b hb := by
    have hchar := (hall b.toNat hb).2
    rwa [UInt8.ofNat_toNat] at hchar
  high := hhigh
  wide := hwide

theorem asciiMap_lower : AsciiMap lowerByte Char.toLower := by
  refine asciiMap_of_all (by decide +kernel) (fun b hb => if_neg (by omega)) ?_
  intro c hc
  rcases Text.toLower_cases c with heq | ⟨-, hZ, -⟩
  · exact heq
  · omega

theorem asciiMap_upper : AsciiMap upperByte Char.toUpper := by
  refine asciiMap_of_all (by decide +kernel) (fun b hb => if_neg (by omega)) ?_
  intro c hc
  apply dif_neg
  intro h
  have hz : c.toNat ≤ 122 := h.2
  omega

theorem lowerByte_upperByte (b : UInt8) : lowerByte (upperByte b) = lowerByte b := by
  have hall : ∀ n < 0x100,
      lowerByte (upperByte (UInt8.ofNat n)) = lowerByte (UInt8.ofNat n) := by
    decide +kernel
  have hb := hall b.toNat b.toNat_lt
  rwa [UInt8.ofNat_toNat] at hb

theorem lowerByte_lowerByte (b : UInt8) : lowerByte (lowerByte b) = lowerByte b := by
  have hall : ∀ n < 0x100,
      lowerByte (lowerByte (UInt8.ofNat n)) = lowerByte (UInt8.ofNat n) := by
    decide +kernel
  have hb := hall b.toNat b.toNat_lt
  rwa [UInt8.ofNat_toNat] at hb

end Utf8

end Lwrt.Library
