import Mathlib.Data.List.Basic

/-! UTF-8 decoding. Both the strict and the lossy conversion read one scalar value at a
time; they differ only in what they make of an ill-formed sequence. -/

namespace Lwrt.Library

/-- A string, as the sequence of its scalar values. -/
abbrev Text := List Char

namespace Utf8

/-- A continuation byte. -/
def isCont (b : UInt8) : Bool :=
  0x80 ≤ b && b ≤ 0xBF

/-- The second bytes that may follow the lead byte `b` of a sequence of three or four. The
bounds exclude overlong forms, surrogates and values above U+10FFFF. -/
def second (b c : UInt8) : Bool :=
  if b = 0xE0 then 0xA0 ≤ c && c ≤ 0xBF
  else if b = 0xED then 0x80 ≤ c && c ≤ 0x9F
  else if b = 0xF0 then 0x90 ≤ c && c ≤ 0xBF
  else if b = 0xF4 then 0x80 ≤ c && c ≤ 0x8F
  else isCont c

/-- The scalar value with lead bits `hi` and the low six bits of each byte in `bs`. -/
def assemble (hi : ℕ) (bs : List UInt8) : Char :=
  Char.ofNat (bs.foldl (fun acc b => acc * 64 + b.toNat % 64) hi)

/-- One decoding step at a non-empty input: a scalar value, or an ill-formed sequence; and
the input after it. An ill-formed sequence is the longest start of a well-formed one. -/
def next (b : UInt8) (rest : List UInt8) : Option Char × List UInt8 :=
  if b < 0x80 then (some (Char.ofNat b.toNat), rest)
  else if 0xC2 ≤ b && b ≤ 0xDF then
    match rest with
    | c :: rest₁ =>
        if isCont c then (some (assemble (b.toNat % 32) [c]), rest₁) else (none, rest)
    | [] => (none, rest)
  else if 0xE0 ≤ b && b ≤ 0xEF then
    match rest with
    | c :: rest₁ =>
        if second b c then
          match rest₁ with
          | d :: rest₂ =>
              if isCont d then (some (assemble (b.toNat % 16) [c, d]), rest₂) else (none, rest₁)
          | [] => (none, rest₁)
        else (none, rest)
    | [] => (none, rest)
  else if 0xF0 ≤ b && b ≤ 0xF4 then
    match rest with
    | c :: rest₁ =>
        if second b c then
          match rest₁ with
          | d :: rest₂ =>
              if isCont d then
                match rest₂ with
                | e :: rest₃ =>
                    if isCont e then (some (assemble (b.toNat % 8) [c, d, e]), rest₃)
                    else (none, rest₂)
                | [] => (none, rest₂)
              else (none, rest₁)
          | [] => (none, rest₁)
        else (none, rest)
    | [] => (none, rest)
  else (none, rest)

/-- U+FFFD. -/
def replacement : Char := Char.ofNat 0xFFFD

/-- The decoded steps of an input. A step consumes at least one byte, so the length of the
input is enough fuel. -/
def steps : ℕ → List UInt8 → List (Option Char)
  | 0, _ => []
  | _ + 1, [] => []
  | fuel + 1, b :: rest => (next b rest).1 :: steps fuel (next b rest).2

/-- `String::from_utf8`: the whole input must be well formed. -/
def fromUtf8 (bytes : List UInt8) : Option Text :=
  (steps bytes.length bytes).mapM id

/-- `String::from_utf8_lossy`: each ill-formed sequence becomes one U+FFFD. -/
def fromUtf8Lossy (bytes : List UInt8) : Text :=
  (steps bytes.length bytes).map (·.getD replacement)

/-- The bytes of a string. -/
def encode (s : Text) : List UInt8 :=
  s.flatMap String.utf8EncodeChar

/-- `b'c'`: the byte of an ASCII character. -/
def byte (c : Char) : UInt8 :=
  UInt8.ofNat c.toNat

/-! ## Decoding what was encoded -/

/-- The byte sequence of a character, by the length of the sequence. -/
theorem utf8EncodeChar_cases (c : Char) :
    (c.toNat < 0x80 ∧ String.utf8EncodeChar c = [UInt8.ofNat c.toNat]) ∨
    (0x80 ≤ c.toNat ∧ c.toNat < 0x800 ∧ String.utf8EncodeChar c =
      [UInt8.ofNat (c.toNat / 64 + 0xC0), UInt8.ofNat (c.toNat % 64 + 0x80)]) ∨
    (0x800 ≤ c.toNat ∧ c.toNat < 0x10000 ∧ (c.toNat < 0xD800 ∨ 0xE000 ≤ c.toNat) ∧
      String.utf8EncodeChar c =
        [UInt8.ofNat (c.toNat / 4096 + 0xE0), UInt8.ofNat (c.toNat / 64 % 64 + 0x80),
          UInt8.ofNat (c.toNat % 64 + 0x80)]) ∨
    (0x10000 ≤ c.toNat ∧ c.toNat < 0x110000 ∧ String.utf8EncodeChar c =
      [UInt8.ofNat (c.toNat / 262144 + 0xF0), UInt8.ofNat (c.toNat / 4096 % 64 + 0x80),
        UInt8.ofNat (c.toNat / 64 % 64 + 0x80), UInt8.ofNat (c.toNat % 64 + 0x80)]) := by
  have hvalid : c.toNat < 0xD800 ∨ (0xDFFF < c.toNat ∧ c.toNat < 0x110000) := c.valid
  have hdef : String.utf8EncodeChar c =
      if c.toNat ≤ 0x7F then [UInt8.ofNat c.toNat]
      else if c.toNat ≤ 0x7FF then
        [UInt8.ofNat (c.toNat / 64 % 32 + 0xC0), UInt8.ofNat (c.toNat % 64 + 0x80)]
      else if c.toNat ≤ 0xFFFF then
        [UInt8.ofNat (c.toNat / 4096 % 16 + 0xE0), UInt8.ofNat (c.toNat / 64 % 64 + 0x80),
          UInt8.ofNat (c.toNat % 64 + 0x80)]
      else
        [UInt8.ofNat (c.toNat / 262144 % 8 + 0xF0), UInt8.ofNat (c.toNat / 4096 % 64 + 0x80),
          UInt8.ofNat (c.toNat / 64 % 64 + 0x80), UInt8.ofNat (c.toNat % 64 + 0x80)] := rfl
  rw [hdef]
  by_cases h₁ : c.toNat ≤ 0x7F
  · exact Or.inl ⟨by omega, if_pos h₁⟩
  rw [if_neg h₁]
  by_cases h₂ : c.toNat ≤ 0x7FF
  · rw [if_pos h₂, show c.toNat / 64 % 32 = c.toNat / 64 by omega]
    exact Or.inr (Or.inl ⟨by omega, by omega, rfl⟩)
  rw [if_neg h₂]
  by_cases h₃ : c.toNat ≤ 0xFFFF
  · rw [if_pos h₃, show c.toNat / 4096 % 16 = c.toNat / 4096 by omega]
    exact Or.inr (Or.inr (Or.inl ⟨by omega, by omega, by omega, rfl⟩))
  · rw [if_neg h₃, show c.toNat / 262144 % 8 = c.toNat / 262144 by omega]
    exact Or.inr (Or.inr (Or.inr ⟨by omega, by omega, rfl⟩))

theorem isCont_ofNat (n : ℕ) : isCont (UInt8.ofNat (n % 64 + 0x80)) = true := by
  simp only [isCont, UInt8.le_iff_toNat_le, UInt8.toNat_ofNat', UInt8.reduceToNat,
    Bool.and_eq_true, decide_eq_true_eq]
  omega

theorem toNat_ofNat_of_lt {n : ℕ} (h : n < 256) : (UInt8.ofNat n).toNat = n := by
  rw [UInt8.toNat_ofNat']
  omega

theorem next_one {b : UInt8} (hb : b.toNat < 0x80) (rest : List UInt8) :
    next b rest = (some (Char.ofNat b.toNat), rest) := by
  unfold next
  rw [if_pos (UInt8.lt_iff_toNat_lt.mpr hb)]

theorem next_two {b c : UInt8} (hlo : 0xC2 ≤ b.toNat) (hhi : b.toNat ≤ 0xDF)
    (hc : isCont c = true) (rest : List UInt8) :
    next b (c :: rest) = (some (assemble (b.toNat % 32) [c]), rest) := by
  unfold next
  simp only [UInt8.lt_iff_toNat_lt, UInt8.le_iff_toNat_le, UInt8.reduceToNat]
  rw [if_neg (by omega), if_pos (by simp only [hlo, hhi, decide_true, Bool.and_self]), if_pos hc]

theorem next_three {b c d : UInt8} (hlo : 0xE0 ≤ b.toNat) (hhi : b.toNat ≤ 0xEF)
    (hc : second b c = true) (hd : isCont d = true) (rest : List UInt8) :
    next b (c :: d :: rest) = (some (assemble (b.toNat % 16) [c, d]), rest) := by
  unfold next
  simp only [UInt8.lt_iff_toNat_lt, UInt8.le_iff_toNat_le, UInt8.reduceToNat]
  rw [if_neg (by omega), if_neg (by simp only [Bool.and_eq_true, decide_eq_true_eq]; omega),
    if_pos (by simp only [hlo, hhi, decide_true, Bool.and_self]), if_pos hc, if_pos hd]

theorem next_four {b c d e : UInt8} (hlo : 0xF0 ≤ b.toNat) (hhi : b.toNat ≤ 0xF4)
    (hc : second b c = true) (hd : isCont d = true) (he : isCont e = true) (rest : List UInt8) :
    next b (c :: d :: e :: rest) = (some (assemble (b.toNat % 8) [c, d, e]), rest) := by
  unfold next
  simp only [UInt8.lt_iff_toNat_lt, UInt8.le_iff_toNat_le, UInt8.reduceToNat]
  rw [if_neg (by omega), if_neg (by simp only [Bool.and_eq_true, decide_eq_true_eq]; omega),
    if_neg (by simp only [Bool.and_eq_true, decide_eq_true_eq]; omega),
    if_pos (by simp only [hlo, hhi, decide_true, Bool.and_self]), if_pos hc, if_pos hd, if_pos he]

/-- The second byte in terms of the numbers both bytes stand for. -/
theorem second_iff (b c : UInt8) : second b c = true ↔
    (0x80 ≤ c.toNat ∧ c.toNat ≤ 0xBF) ∧ (b.toNat = 0xE0 → 0xA0 ≤ c.toNat) ∧
      (b.toNat = 0xED → c.toNat ≤ 0x9F) ∧ (b.toNat = 0xF0 → 0x90 ≤ c.toNat) ∧
      (b.toNat = 0xF4 → c.toNat ≤ 0x8F) := by
  simp only [second, isCont, ← UInt8.toNat_inj, UInt8.le_iff_toNat_le, UInt8.reduceToNat]
  split
  · simp only [Bool.and_eq_true, decide_eq_true_eq]
    omega
  · split
    · simp only [Bool.and_eq_true, decide_eq_true_eq]
      omega
    · split
      · simp only [Bool.and_eq_true, decide_eq_true_eq]
        omega
      · split
        · simp only [Bool.and_eq_true, decide_eq_true_eq]
          omega
        · simp only [Bool.and_eq_true, decide_eq_true_eq]
          omega

/-- Decoding the bytes of a character, whatever follows them. -/
theorem next_utf8EncodeChar (c : Char) (rest : List UInt8) :
    ∃ b tail, String.utf8EncodeChar c = b :: tail ∧ next b (tail ++ rest) = (some c, rest) := by
  rcases utf8EncodeChar_cases c with
    ⟨hc, henc⟩ | ⟨hlo, hhi, henc⟩ | ⟨hlo, hhi, hsur, henc⟩ | ⟨hlo, hhi, henc⟩
  · refine ⟨_, _, henc, ?_⟩
    have hb := toNat_ofNat_of_lt (n := c.toNat) (by omega)
    rw [List.nil_append, next_one (by rw [hb]; exact hc), hb, Char.ofNat_toNat]
  · refine ⟨_, _, henc, ?_⟩
    have hb := toNat_ofNat_of_lt (n := c.toNat / 64 + 0xC0) (by omega)
    have hlow := toNat_ofNat_of_lt (n := c.toNat % 64 + 0x80) (by omega)
    rw [List.cons_append, List.nil_append,
      next_two (by rw [hb]; omega) (by rw [hb]; omega) (isCont_ofNat _)]
    simp only [assemble, List.foldl_cons, List.foldl_nil, hb, hlow]
    rw [show (c.toNat / 64 + 0xC0) % 32 * 64 + (c.toNat % 64 + 0x80) % 64 = c.toNat by omega,
      Char.ofNat_toNat]
  · refine ⟨_, _, henc, ?_⟩
    have hb := toNat_ofNat_of_lt (n := c.toNat / 4096 + 0xE0) (by omega)
    have hmid := toNat_ofNat_of_lt (n := c.toNat / 64 % 64 + 0x80) (by omega)
    have hlow := toNat_ofNat_of_lt (n := c.toNat % 64 + 0x80) (by omega)
    have hsecond : second (UInt8.ofNat (c.toNat / 4096 + 0xE0))
        (UInt8.ofNat (c.toNat / 64 % 64 + 0x80)) = true := by
      rw [second_iff, hb, hmid]
      omega
    rw [List.cons_append, List.cons_append, List.nil_append,
      next_three (by rw [hb]; omega) (by rw [hb]; omega) hsecond (isCont_ofNat _)]
    simp only [assemble, List.foldl_cons, List.foldl_nil, hb, hmid, hlow]
    rw [show ((c.toNat / 4096 + 0xE0) % 16 * 64 + (c.toNat / 64 % 64 + 0x80) % 64) * 64 +
        (c.toNat % 64 + 0x80) % 64 = c.toNat by omega, Char.ofNat_toNat]
  · refine ⟨_, _, henc, ?_⟩
    have hb := toNat_ofNat_of_lt (n := c.toNat / 262144 + 0xF0) (by omega)
    have hhigh := toNat_ofNat_of_lt (n := c.toNat / 4096 % 64 + 0x80) (by omega)
    have hmid := toNat_ofNat_of_lt (n := c.toNat / 64 % 64 + 0x80) (by omega)
    have hlow := toNat_ofNat_of_lt (n := c.toNat % 64 + 0x80) (by omega)
    have hsecond : second (UInt8.ofNat (c.toNat / 262144 + 0xF0))
        (UInt8.ofNat (c.toNat / 4096 % 64 + 0x80)) = true := by
      rw [second_iff, hb, hhigh]
      omega
    rw [List.cons_append, List.cons_append, List.cons_append, List.nil_append,
      next_four (by rw [hb]; omega) (by rw [hb]; omega) hsecond (isCont_ofNat _) (isCont_ofNat _)]
    simp only [assemble, List.foldl_cons, List.foldl_nil, hb, hhigh, hmid, hlow]
    rw [show (((c.toNat / 262144 + 0xF0) % 8 * 64 + (c.toNat / 4096 % 64 + 0x80) % 64) * 64 +
        (c.toNat / 64 % 64 + 0x80) % 64) * 64 + (c.toNat % 64 + 0x80) % 64 = c.toNat by omega,
      Char.ofNat_toNat]

theorem encode_nil : encode [] = [] := rfl

theorem encode_cons (c : Char) (s : Text) :
    encode (c :: s) = String.utf8EncodeChar c ++ encode s := rfl

theorem encode_append (s t : Text) : encode (s ++ t) = encode s ++ encode t :=
  List.flatMap_append

@[simp]
theorem byte_eq_byte_iff {c d : Char} (hc : c.toNat < 0x80) (hd : d.toNat < 0x80) :
    byte c = byte d ↔ c = d := by
  rw [byte, byte, ← UInt8.toNat_inj, toNat_ofNat_of_lt (by omega), toNat_ofNat_of_lt (by omega),
    Char.toNat_inj]

/-- An ASCII string has the bytes of its characters. -/
theorem encode_ascii {s : Text} (h : ∀ c ∈ s, c.toNat < 0x80) : encode s = s.map byte := by
  induction s with
  | nil => rfl
  | cons c s ih =>
      rcases utf8EncodeChar_cases c with ⟨-, henc⟩ | hlong
      · rw [encode_cons, henc, ih fun d hd => h d (by simp [hd])]
        rfl
      · have hc := h c (by simp)
        omega

/-- The bytes of a string decode, one character a step, however much fuel there is. -/
theorem steps_encode (s : Text) {fuel : ℕ} (h : (encode s).length ≤ fuel) :
    steps fuel (encode s) = s.map some := by
  induction s generalizing fuel with
  | nil => cases fuel <;> rfl
  | cons c s ih =>
      obtain ⟨b, tail, henc, hnext⟩ := next_utf8EncodeChar c (encode s)
      rw [encode_cons, henc] at h ⊢
      cases fuel with
      | zero => simp at h
      | succ fuel =>
          simp only [List.cons_append, List.length_cons, List.length_append] at h
          rw [List.cons_append, steps, hnext, ih (by omega)]
          rfl

@[simp]
theorem fromUtf8_encode (s : Text) : fromUtf8 (encode s) = some s := by
  rw [fromUtf8, steps_encode s (Nat.le_refl _)]
  induction s with
  | nil => rfl
  | cons c s ih =>
      simp only [List.map_cons, List.mapM_cons, id_eq, ih, Option.pure_def, Option.bind_eq_bind,
        Option.bind_some]

@[simp]
theorem fromUtf8Lossy_encode (s : Text) : fromUtf8Lossy (encode s) = s := by
  rw [fromUtf8Lossy, steps_encode s (Nat.le_refl _), List.map_map]
  exact List.map_id s

theorem mem_utf8EncodeChar_iff {c d : Char} (hd : d.toNat < 0x80) :
    byte d ∈ String.utf8EncodeChar c ↔ d = c := by
  have hne : ∀ n, n < 0x80 → byte d ≠ UInt8.ofNat (n + 0x80) := by
    intro n hn heq
    have hval := congrArg UInt8.toNat heq
    rw [byte, toNat_ofNat_of_lt (by omega), toNat_ofNat_of_lt (by omega)] at hval
    omega
  have hc : 0x80 ≤ c.toNat → d ≠ c := by
    rintro hge rfl
    omega
  rcases utf8EncodeChar_cases c with
    ⟨hlt, henc⟩ | ⟨hlo, hhi, henc⟩ | ⟨hlo, hhi, -, henc⟩ | ⟨hlo, hhi, henc⟩
  · rw [henc, List.mem_singleton, byte, ← UInt8.toNat_inj, toNat_ofNat_of_lt (by omega),
      toNat_ofNat_of_lt (by omega), Char.toNat_inj]
  · have h₀ := hne (c.toNat / 64 + 0x40) (by omega)
    have h₁ := hne (c.toNat % 64) (by omega)
    simp only [henc, List.mem_cons, List.not_mem_nil, or_false, h₀, h₁, hc (by omega)]
  · have h₀ := hne (c.toNat / 4096 + 0x60) (by omega)
    have h₁ := hne (c.toNat / 64 % 64) (by omega)
    have h₂ := hne (c.toNat % 64) (by omega)
    simp only [henc, List.mem_cons, List.not_mem_nil, or_false, h₀, h₁, h₂, hc (by omega)]
  · have h₀ := hne (c.toNat / 262144 + 0x70) (by omega)
    have h₁ := hne (c.toNat / 4096 % 64) (by omega)
    have h₂ := hne (c.toNat / 64 % 64) (by omega)
    have h₃ := hne (c.toNat % 64) (by omega)
    simp only [henc, List.mem_cons, List.not_mem_nil, or_false, h₀, h₁, h₂, h₃, hc (by omega)]

/-- A byte below 0x80 stands for the character of its value and for nothing else. -/
theorem mem_encode_iff {s : Text} {d : Char} (hd : d.toNat < 0x80) :
    byte d ∈ encode s ↔ d ∈ s := by
  simp only [encode, List.mem_flatMap, mem_utf8EncodeChar_iff hd, exists_eq_right']

/-! ## Encoding what was decoded -/

theorem toNat_char_ofNat {n : ℕ} (h : n.isValidChar) : (Char.ofNat n).toNat = n := by
  rw [Char.ofNat, dif_pos h]
  rfl

theorem toNat_assemble (hi : ℕ) (bs : List UInt8)
    (h : (bs.foldl (fun acc b => acc * 64 + b.toNat % 64) hi).isValidChar) :
    (assemble hi bs).toNat = bs.foldl (fun acc b => acc * 64 + b.toNat % 64) hi := by
  rw [assemble, toNat_char_ofNat h]

theorem isCont_iff (b : UInt8) : isCont b = true ↔ 0x80 ≤ b.toNat ∧ b.toNat ≤ 0xBF := by
  simp [isCont, UInt8.le_iff_toNat_le]

theorem eq_ofNat_iff {b : UInt8} {n : ℕ} (hn : n < 256) : UInt8.ofNat n = b ↔ n = b.toNat := by
  rw [← UInt8.toNat_inj, toNat_ofNat_of_lt hn]

theorem utf8EncodeChar_one {b : UInt8} (hb : b.toNat < 0x80) :
    String.utf8EncodeChar (Char.ofNat b.toNat) = [b] := by
  have hc : (Char.ofNat b.toNat).toNat = b.toNat := by
    rw [toNat_char_ofNat (Or.inl (by omega))]
  rcases utf8EncodeChar_cases (Char.ofNat b.toNat) with ⟨-, henc⟩ | h | h | h
  · rw [henc, hc, UInt8.ofNat_toNat]
  all_goals omega

theorem utf8EncodeChar_two {b c : UInt8} (hb : 0xC2 ≤ b.toNat ∧ b.toNat ≤ 0xDF)
    (hc : isCont c = true) : String.utf8EncodeChar (assemble (b.toNat % 32) [c]) = [b, c] := by
  rw [isCont_iff] at hc
  have hn := toNat_assemble (b.toNat % 32) [c] (by
    simp only [List.foldl_cons, List.foldl_nil, Nat.isValidChar]
    omega)
  simp only [List.foldl_cons, List.foldl_nil] at hn
  rcases utf8EncodeChar_cases (assemble (b.toNat % 32) [c]) with h | ⟨-, -, henc⟩ | h | h
  · omega
  · rw [henc, hn, (eq_ofNat_iff (by omega)).mpr (by omega : _ = b.toNat),
      (eq_ofNat_iff (by omega)).mpr (by omega : _ = c.toNat)]
  · omega
  · omega

theorem utf8EncodeChar_three {b c d : UInt8} (hb : 0xE0 ≤ b.toNat ∧ b.toNat ≤ 0xEF)
    (hc : second b c = true) (hd : isCont d = true) :
    String.utf8EncodeChar (assemble (b.toNat % 16) [c, d]) = [b, c, d] := by
  rw [second_iff] at hc
  rw [isCont_iff] at hd
  have hn := toNat_assemble (b.toNat % 16) [c, d] (by
    simp only [List.foldl_cons, List.foldl_nil, Nat.isValidChar]
    omega)
  simp only [List.foldl_cons, List.foldl_nil] at hn
  rcases utf8EncodeChar_cases (assemble (b.toNat % 16) [c, d]) with h | h | ⟨-, -, -, henc⟩ | h
  · omega
  · omega
  · rw [henc, hn, (eq_ofNat_iff (by omega)).mpr (by omega : _ = b.toNat),
      (eq_ofNat_iff (by omega)).mpr (by omega : _ = c.toNat),
      (eq_ofNat_iff (by omega)).mpr (by omega : _ = d.toNat)]
  · omega

theorem utf8EncodeChar_four {b c d e : UInt8} (hb : 0xF0 ≤ b.toNat ∧ b.toNat ≤ 0xF4)
    (hc : second b c = true) (hd : isCont d = true) (he : isCont e = true) :
    String.utf8EncodeChar (assemble (b.toNat % 8) [c, d, e]) = [b, c, d, e] := by
  rw [second_iff] at hc
  rw [isCont_iff] at hd he
  have hn := toNat_assemble (b.toNat % 8) [c, d, e] (by
    simp only [List.foldl_cons, List.foldl_nil, Nat.isValidChar]
    omega)
  simp only [List.foldl_cons, List.foldl_nil] at hn
  rcases utf8EncodeChar_cases (assemble (b.toNat % 8) [c, d, e]) with h | h | h | ⟨-, -, henc⟩
  · omega
  · omega
  · omega
  · rw [henc, hn, (eq_ofNat_iff (by omega)).mpr (by omega : _ = b.toNat),
      (eq_ofNat_iff (by omega)).mpr (by omega : _ = c.toNat),
      (eq_ofNat_iff (by omega)).mpr (by omega : _ = d.toNat),
      (eq_ofNat_iff (by omega)).mpr (by omega : _ = e.toNat)]

/-- A decoding step takes the bytes of a character off the input, or it drops some of its bytes. -/
inductive Decoded (b : UInt8) (rest : List UInt8) : Option Char × List UInt8 → Prop where
  | char (c : Char) (tail : List UInt8) (h : b :: rest = String.utf8EncodeChar c ++ tail) :
      Decoded b rest (some c, tail)
  | illFormed (tail : List UInt8) (h : tail <:+ rest) : Decoded b rest (none, tail)

theorem Decoded.of_eq {b : UInt8} {rest bytes tail : List UInt8} {c : Char}
    (hc : String.utf8EncodeChar c = bytes) (h : b :: rest = bytes ++ tail) :
    Decoded b rest (some c, tail) :=
  .char c tail (hc ▸ h)

theorem decoded_next (b : UInt8) (rest : List UInt8) : Decoded b rest (next b rest) := by
  have hself := Decoded.illFormed (b := b) rest List.suffix_rfl
  unfold next
  simp only [UInt8.lt_iff_toNat_lt, UInt8.le_iff_toNat_le, UInt8.reduceToNat, Bool.and_eq_true,
    decide_eq_true_eq]
  -- one case for each lead byte, and in it one for each place where the input breaks off
  split_ifs with hone htwo hthree hfour
  · exact .of_eq (utf8EncodeChar_one hone) rfl
  · match rest with
    | [] => exact hself
    | c :: rest =>
        dsimp only
        split_ifs with hc
        · exact .of_eq (utf8EncodeChar_two htwo hc) rfl
        · exact hself
  · match rest with
    | [] => exact hself
    | [c] =>
        dsimp only
        split_ifs with hc
        · exact .illFormed _ ⟨[c], rfl⟩
        · exact hself
    | c :: d :: rest =>
        dsimp only
        split_ifs with hc hd
        · exact .of_eq (utf8EncodeChar_three hthree hc hd) rfl
        · exact .illFormed _ ⟨[c], rfl⟩
        · exact hself
  · match rest with
    | [] => exact hself
    | [c] =>
        dsimp only
        split_ifs with hc
        · exact .illFormed _ ⟨[c], rfl⟩
        · exact hself
    | [c, d] =>
        dsimp only
        split_ifs with hc hd
        · exact .illFormed _ ⟨[c, d], rfl⟩
        · exact .illFormed _ ⟨[c], rfl⟩
        · exact hself
    | c :: d :: e :: rest =>
        dsimp only
        split_ifs with hc hd he
        · exact .of_eq (utf8EncodeChar_four hfour hc hd he) rfl
        · exact .illFormed _ ⟨[c, d], rfl⟩
        · exact .illFormed _ ⟨[c], rfl⟩
        · exact hself
  · exact hself

/-- What decodes without an ill-formed sequence is the encoding of what it decodes to. -/
theorem encode_of_steps {fuel : ℕ} {bytes : List UInt8} {s : Text} (hfuel : bytes.length ≤ fuel)
    (h : steps fuel bytes = s.map some) : encode s = bytes := by
  induction fuel generalizing bytes s with
  | zero =>
      rw [List.length_eq_zero_iff.mp (Nat.le_zero.mp hfuel)]
      rw [steps] at h
      rw [List.map_eq_nil_iff.mp h.symm, encode_nil]
  | succ fuel ih =>
      cases bytes with
      | nil =>
          rw [steps] at h
          rw [List.map_eq_nil_iff.mp h.symm, encode_nil]
      | cons b rest =>
          rw [steps] at h
          cases s with
          | nil => cases h
          | cons c s =>
              obtain ⟨hhead, htail⟩ := List.cons.inj h
              generalize hnext : next b rest = r at hhead htail
              have hdecoded := decoded_next b rest
              rw [hnext] at hdecoded
              cases hdecoded with
              | illFormed tail _ => cases hhead
              | char c' tail hbytes =>
                  obtain rfl := Option.some.inj hhead
                  rw [encode_cons, ih ?_ htail, hbytes]
                  have hlen := congrArg List.length hbytes
                  have hpos := String.utf8EncodeChar_ne_nil (c := c')
                  rw [← List.length_pos_iff] at hpos
                  simp only [List.length_cons, List.length_append] at hlen hfuel ⊢
                  omega

theorem mapM_id_eq_some {l : List (Option Char)} {s : Text} (h : l.mapM id = some s) :
    l = s.map some := by
  induction l generalizing s with
  | nil =>
      obtain rfl := Option.some.inj h
      rfl
  | cons x l ih =>
      rw [List.mapM_cons, Option.bind_eq_bind, Option.bind_eq_some_iff] at h
      obtain ⟨c, hc, h⟩ := h
      rw [Option.bind_eq_bind, Option.bind_eq_some_iff] at h
      obtain ⟨t, ht, h⟩ := h
      obtain rfl := Option.some.inj h
      rw [List.map_cons, ih ht]
      exact congrArg (· :: _) hc

theorem fromUtf8_eq_some_iff {bytes : List UInt8} {s : Text} :
    fromUtf8 bytes = some s ↔ encode s = bytes := by
  constructor
  · intro h
    exact encode_of_steps (Nat.le_refl _) (mapM_id_eq_some h)
  · rintro rfl
    exact fromUtf8_encode s

/-- Text around an ASCII character. -/
theorem encode_eq_append_cons {s : Text} {a b : List UInt8} {c : Char} (hc : c.toNat < 0x80)
    (h : encode s = a ++ byte c :: b) :
    ∃ x y, s = x ++ c :: y ∧ encode x = a ∧ encode y = b := by
  induction s generalizing a with
  | nil => simp [encode_nil] at h
  | cons d s ih =>
      rw [encode_cons, List.append_eq_append_iff] at h
      rcases h with ⟨a', rfl, hs⟩ | ⟨b', hd, hs⟩
      · obtain ⟨x, y, rfl, rfl, rfl⟩ := ih hs
        exact ⟨d :: x, y, rfl, rfl, rfl⟩
      · cases b' with
        | nil =>
            obtain ⟨x, y, rfl, hx, rfl⟩ := ih (a := []) hs.symm
            refine ⟨d :: x, y, rfl, ?_, rfl⟩
            rw [encode_cons, hx, hd, List.append_nil, List.append_nil]
        | cons b₀ b' =>
            obtain ⟨rfl, rfl⟩ := List.cons.inj hs
            -- the character is a byte of `d`, so it is `d`
            have hmem : byte c ∈ String.utf8EncodeChar d := by
              rw [hd]
              simp
            obtain rfl := (mem_utf8EncodeChar_iff hc).mp hmem
            have henc := encode_ascii (s := [c]) (by simpa using hc)
            rw [encode_cons, encode_nil, List.append_nil, hd] at henc
            obtain ⟨rfl, hnil⟩ : a = [] ∧ b' = [] := by
              have hlen := congrArg List.length henc
              simp only [List.length_append, List.length_cons, List.length_map,
                List.length_nil] at hlen
              exact ⟨List.length_eq_zero_iff.mp (by omega), List.length_eq_zero_iff.mp (by omega)⟩
            subst hnil
            exact ⟨[], s, rfl, rfl, rfl⟩

end Utf8

end Lwrt.Library
