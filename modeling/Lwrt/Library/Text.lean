import Mathlib.Data.List.DropRight
import Lwrt.Library.Utf8

/-! String operations, on the sequence of scalar values of a string. Whitespace is the
Unicode property, line ends are `\n` and `\r\n`. -/

namespace Lwrt.Library

namespace Text

/-! ## Characters -/

/-- The Unicode property `White_Space`. -/
def isWhitespace (c : Char) : Bool :=
  let n := c.toNat
  (9 ≤ n && n ≤ 13) || n == 32 || n == 0x85 || n == 0xA0 || n == 0x1680 ||
    (0x2000 ≤ n && n ≤ 0x200A) || n == 0x2028 || n == 0x2029 || n == 0x202F || n == 0x205F ||
    n == 0x3000

/-- Equality up to the case of ASCII letters. -/
def eqIgnoreAsciiCase (s t : Text) : Bool :=
  s.map Char.toLower == t.map Char.toLower

/-! ## Trimming and splitting -/

def trimStart (s : Text) : Text :=
  s.dropWhile isWhitespace

def trimEnd (s : Text) : Text :=
  s.rdropWhile isWhitespace

def trim (s : Text) : Text :=
  trimEnd (trimStart s)

/-- The part of `s` before the first `c`, or all of it. -/
def before (c : Char) (s : Text) : Text :=
  s.takeWhile (· != c)

def splitOnce (c : Char) (s : Text) : Option (Text × Text) :=
  if c ∈ s then some (before c s, (s.dropWhile (· != c)).tail) else none

/-- `rsplit_once`: at the last `c`. -/
def rsplitOnce (c : Char) (s : Text) : Option (Text × Text) :=
  (splitOnce c s.reverse).map fun parts => (parts.2.reverse, parts.1.reverse)

def stripPrefix (c : Char) : Text → Option Text
  | [] => none
  | d :: s => if d = c then some s else none

def stripSuffix (c : Char) (s : Text) : Option Text :=
  if s.getLast? = some c then some s.dropLast else none

def splitWhitespace (s : Text) : List Text :=
  (s.splitOnP isWhitespace).filter (· ≠ [])

/-- `str::split` at two consecutive characters `c`. -/
def splitDouble (c : Char) : Text → List Text
  | [] => [[]]
  | [d] => [[d]]
  | d :: e :: s =>
      if d = c ∧ e = c then [] :: splitDouble c s
      else (splitDouble c (e :: s)).modifyHead (d :: ·)

/-- `str::lines`: a `\r` right before a `\n` belongs to the line end. -/
def lines : Text → List Text
  | [] => []
  | c :: s =>
      if c = '\n' then [] :: lines s
      else if c = '\r' ∧ s.head? = some '\n' then lines s
      else match lines s with
        | [] => [[c]]
        | l :: ls => (c :: l) :: ls

/-- Every line followed by its `\n`. -/
def unlines (ls : List Text) : Text :=
  ls.flatMap (· ++ ['\n'])

/-! ## Numbers -/

/-- The decimal digits of a number, without leading zeros. -/
def decimal (n : ℕ) : Text :=
  Nat.toDigits 10 n

/-- `{}` of a signed integer. -/
def decimalInt (n : ℤ) : Text :=
  if n < 0 then '-' :: decimal n.natAbs else decimal n.natAbs

/-- `str::parse` of an unsigned integer type with `bound` values. -/
def parseUnsigned (bound : ℕ) (s : Text) : Option ℕ :=
  let digits := (stripPrefix '+' s).getD s
  let n := digits.foldl (fun acc c => acc * 10 + (c.toNat - '0'.toNat)) 0
  if digits ≠ [] ∧ digits.all Char.isDigit ∧ n < bound then some n else none

/-- `from_str_radix` with radix 8, for an unsigned integer type with `bound` values. -/
def parseOctal (bound : ℕ) (s : Text) : Option ℕ :=
  let digits := (stripPrefix '+' s).getD s
  let n := digits.foldl (fun acc c => acc * 8 + (c.toNat - '0'.toNat)) 0
  if digits ≠ [] ∧ digits.all (fun c => '0' ≤ c && c ≤ '7') ∧ n < bound then some n else none

/-- `{:02x}` of a byte. -/
def hex2 (b : UInt8) : Text :=
  [Nat.digitChar (b.toNat / 16), Nat.digitChar (b.toNat % 16)]

/-! ## Lines -/

/-- What `lines` keeps of a line that ends with `\n`. -/
def stripCr (l : Text) : Text :=
  if l.getLast? = some '\r' then l.dropLast else l

theorem stripCr_cons_cons (c d : Char) (l : Text) :
    stripCr (c :: d :: l) = c :: stripCr (d :: l) := by
  simp only [stripCr, List.getLast?_cons_cons, List.dropLast_cons_cons]
  split <;> rfl

/-- The line before the first `\n`. -/
theorem lines_append_newline (l rest : Text) (h : '\n' ∉ l) :
    lines (l ++ '\n' :: rest) = stripCr l :: lines rest := by
  induction l with
  | nil => simp [lines, stripCr]
  | cons c l ih =>
      have hc : c ≠ '\n' := by
        rintro rfl
        simp at h
      have hl : '\n' ∉ l := fun hmem => h (by simp [hmem])
      have ih := ih hl
      cases l with
      | nil =>
          by_cases hcr : c = '\r'
          · simp [lines, hcr, stripCr]
          · simp [lines, hc, hcr, stripCr]
      | cons d l =>
          have hd : d ≠ '\n' := by
            rintro rfl
            simp at hl
          rw [stripCr_cons_cons]
          rw [List.cons_append, lines, if_neg hc, if_neg (by simp [hd]), ih]

theorem unlines_cons (l : Text) (ls : List Text) : unlines (l :: ls) = l ++ '\n' :: unlines ls := by
  simp [unlines]

/-- Lines without a `\n` read back but for a last `\r`. -/
theorem lines_unlines_stripCr (ls : List Text) (h : ∀ l ∈ ls, '\n' ∉ l) :
    lines (unlines ls) = ls.map stripCr := by
  induction ls with
  | nil => rfl
  | cons l ls ih =>
      rw [unlines_cons, lines_append_newline l _ (h l (by simp)),
        ih fun m hm => h m (by simp [hm]), List.map_cons]

theorem stripCr_eq_self_iff {l : Text} : stripCr l = l ↔ l.getLast? ≠ some '\r' := by
  rw [stripCr]
  split
  · rename_i hlast
    obtain ⟨x, rfl⟩ := List.getLast?_eq_some_iff.mp hlast
    simp
  · rename_i hlast
    simp [hlast]

theorem stripCr_sublist (l : Text) : (stripCr l).Sublist l := by
  rw [stripCr]
  split
  · exact List.dropLast_sublist l
  · exact List.Sublist.refl l

/-- Only what comes after a character that is no `\r` can be stripped. -/
theorem stripCr_append_cons (x : Text) {c : Char} (hc : c ≠ '\r') (y : Text) :
    stripCr (x ++ c :: y) = x ++ c :: stripCr y := by
  induction x with
  | nil =>
      cases y with
      | nil => simp [stripCr, hc]
      | cons d y => exact stripCr_cons_cons c d y
  | cons e x ih =>
      rw [List.cons_append, List.cons_append, ← ih]
      cases x with
      | nil => exact stripCr_cons_cons e c y
      | cons d x => exact stripCr_cons_cons e d _

/-- Lines without a line end of their own read back. -/
theorem lines_unlines (ls : List Text) (h : ∀ l ∈ ls, '\n' ∉ l ∧ l.getLast? ≠ some '\r') :
    lines (unlines ls) = ls := by
  have hstrip : ls.map stripCr = ls.map id :=
    List.map_congr_left fun l hl => stripCr_eq_self_iff.mpr (h l hl).2
  rw [lines_unlines_stripCr ls fun l hl => (h l hl).1, hstrip, List.map_id]

theorem lines_of_not_mem {l : Text} (h : '\n' ∉ l) (hne : l ≠ []) : lines l = [l] := by
  induction l with
  | nil => exact absurd rfl hne
  | cons c l ih =>
      obtain ⟨hc, hl⟩ := not_or.mp (mt List.mem_cons.mpr h)
      cases l with
      | nil => simp [lines, Ne.symm hc]
      | cons d l =>
          have hd : d ≠ '\n' := fun heq => hl (by simp [heq])
          rw [lines, if_neg (Ne.symm hc), if_neg (by simp [hd]), ih hl (by simp)]

theorem intercalate_concat {ls : List Text} (h : ls ≠ []) (sep l : Text) :
    sep.intercalate (ls ++ [l]) = sep.intercalate ls ++ (sep ++ l) := by
  induction ls with
  | nil => exact absurd rfl h
  | cons m ls ih =>
      cases ls with
      | nil => simp
      | cons n ls =>
          have hrest := ih (by simp)
          simp only [List.cons_append, List.intercalate_cons_cons] at hrest ⊢
          rw [hrest]
          simp only [List.append_assoc]

theorem map_intercalate (f : Char → Char) (sep : Text) (ls : List Text) :
    (sep.intercalate ls).map f = (sep.map f).intercalate (ls.map (List.map f)) := by
  induction ls with
  | nil => rfl
  | cons m ls ih =>
      cases ls with
      | nil => simp
      | cons n ls =>
          simp only [List.map_cons, List.intercalate_cons_cons, List.map_append] at ih ⊢
          rw [ih]

/-- Lines joined by line ends read back, if they do not end in a `\r` and are not empty. -/
theorem lines_intercalate {ls : List Text}
    (h : ∀ l ∈ ls, '\n' ∉ l ∧ l.getLast? ≠ some '\r' ∧ l ≠ []) :
    lines (['\n'].intercalate ls) = ls := by
  induction ls with
  | nil => rfl
  | cons l ls ih =>
      obtain ⟨⟨hnl, hcr, hne⟩, hls⟩ := List.forall_mem_cons.mp h
      cases ls with
      | nil => rw [List.intercalate_singleton, lines_of_not_mem hnl hne]
      | cons m ls =>
          rw [List.intercalate_cons_cons, List.append_assoc, List.singleton_append,
            lines_append_newline l _ hnl, ih hls, stripCr, if_neg hcr]

theorem lines_ne_nil {s : Text} (h : s ≠ []) : lines s ≠ [] := by
  induction s with
  | nil => exact absurd rfl h
  | cons c s ih =>
      rw [lines]
      split
      · simp
      · split
        · rename_i hcr
          apply ih
          rintro rfl
          simp at hcr
        · split <;> simp

/-- Up to a `\n` the lines do not depend on what follows it. -/
theorem lines_append_newline_append (s rest : Text) :
    lines (s ++ '\n' :: rest) = lines (s ++ ['\n']) ++ lines rest := by
  induction s with
  | nil => simp [lines]
  | cons c s ih =>
      have hhead : (s ++ '\n' :: rest).head? = (s ++ ['\n']).head? := by
        cases s <;> rfl
      obtain ⟨l, ls, hl⟩ := List.exists_cons_of_ne_nil
        (lines_ne_nil (s := s ++ ['\n']) (by simp))
      simp only [List.cons_append, lines, hhead, ih, hl]
      split
      · rfl
      · split <;> rfl

/-- The lines of a text that is emitted chunk by chunk. -/
theorem lines_unlines_flatMap (cs : List Text) :
    lines (unlines cs) = cs.flatMap fun c => lines (c ++ ['\n']) := by
  induction cs with
  | nil => rfl
  | cons c cs ih =>
      rw [unlines_cons, lines_append_newline_append, ih, List.flatMap_cons]

/-- Text in front of the first line. -/
theorem lines_append_left (pre s : Text) (hnl : '\n' ∉ pre) (hcr : pre.getLast? ≠ some '\r')
    {l : Text} {ls : List Text} (h : lines s = l :: ls) : lines (pre ++ s) = (pre ++ l) :: ls := by
  induction pre with
  | nil => exact h
  | cons c pre ih =>
      simp only [List.mem_cons, not_or] at hnl
      have hkeep : ¬(c = '\r' ∧ (pre ++ s).head? = some '\n') := by
        rintro ⟨rfl, hhead⟩
        cases pre with
        | nil => exact hcr rfl
        | cons d pre => exact hnl.2 (by simpa using Or.inl (Option.some.inj hhead).symm)
      have hlast : pre.getLast? ≠ some '\r' := by
        cases pre with
        | nil => simp
        | cons d pre => rwa [List.getLast?_cons_cons] at hcr
      rw [List.cons_append, lines, if_neg (Ne.symm hnl.1), if_neg hkeep, ih hnl.2 hlast]
      rfl

theorem newline_not_mem_of_mem_lines {s l : Text} (h : l ∈ lines s) : '\n' ∉ l := by
  induction s generalizing l with
  | nil => simp [lines] at h
  | cons c s ih =>
      rw [lines] at h
      split at h
      · rcases List.mem_cons.mp h with rfl | h
        · simp
        · exact ih h
      · rename_i hc
        split at h
        · exact ih h
        · split at h
          · rw [List.mem_singleton.mp h]
            simpa using Ne.symm hc
          · rename_i l' ls heq
            rw [heq] at ih
            rcases List.mem_cons.mp h with rfl | h
            · simpa [Ne.symm hc] using ih (by simp : l' ∈ l' :: ls)
            · exact ih (by simp [h])

/-! ## Blank lines -/

theorem splitDouble_cons_of_ne {c d : Char} (h : d ≠ c) (s : Text) :
    splitDouble c (d :: s) = (splitDouble c s).modifyHead (d :: ·) := by
  cases s with
  | nil => rfl
  | cons e s => rw [splitDouble, if_neg (by simp [h])]

theorem splitDouble_append {c : Char} {l : Text} (h : c ∉ l) (s : Text) :
    splitDouble c (l ++ s) = (splitDouble c s).modifyHead (l ++ ·) := by
  induction l with
  | nil => cases hs : splitDouble c s <;> simp [hs]
  | cons d l ih =>
      obtain ⟨hd, hl⟩ := not_or.mp (mt List.mem_cons.mpr h)
      rw [List.cons_append, splitDouble_cons_of_ne (Ne.symm hd), ih hl, List.modifyHead_modifyHead]
      rfl

/-- One character of the separator alone does not split. -/
theorem splitDouble_cons_self {c d : Char} (h : d ≠ c) (s : Text) :
    splitDouble c (c :: d :: s) = (splitDouble c (d :: s)).modifyHead (c :: ·) := by
  rw [splitDouble, if_neg (by simp [h])]

/-! ## Tokens -/

/-- A non-empty string without whitespace. -/
def IsToken (s : Text) : Prop :=
  s ≠ [] ∧ ∀ c ∈ s, isWhitespace c = false

instance (s : Text) : Decidable (IsToken s) :=
  decidable_of_iff (s ≠ [] ∧ s.all fun c => !isWhitespace c) (by simp [IsToken])

theorem IsToken.append {s t : Text} (hs : IsToken s) (ht : IsToken t) : IsToken (s ++ t) := by
  refine ⟨by simp [hs.1], ?_⟩
  intro c hc
  rcases List.mem_append.mp hc with hc | hc
  · exact hs.2 c hc
  · exact ht.2 c hc

theorem IsToken.cons {c : Char} {s : Text} (hc : isWhitespace c = false) (hs : IsToken s) :
    IsToken (c :: s) :=
  IsToken.append (s := [c]) ⟨by simp, by simpa using hc⟩ hs

theorem IsToken.intercalate {sep : Text} (hsep : ∀ c ∈ sep, isWhitespace c = false)
    {ls : List Text} (hne : ls ≠ []) (h : ∀ l ∈ ls, IsToken l) : IsToken (sep.intercalate ls) := by
  induction ls with
  | nil => exact absurd rfl hne
  | cons l ls ih =>
      cases ls with
      | nil => simpa using h l (by simp)
      | cons m ls =>
          have hrest := ih (by simp) (fun k hk => h k (by simp [hk]))
          have hl := h l (by simp)
          rw [List.intercalate_cons_cons]
          refine ⟨by simp [hl.1], ?_⟩
          intro c hc
          rcases List.mem_append.mp hc with hc | hc
          · rcases List.mem_append.mp hc with hc | hc
            · exact hl.2 c hc
            · exact hsep c hc
          · exact hrest.2 c hc

theorem IsToken.newline_not_mem {s : Text} (h : IsToken s) : '\n' ∉ s :=
  fun hmem => absurd (h.2 _ hmem) (by decide)

theorem splitWhitespace_token_cons {s : Text} (hs : IsToken s) (c : Char)
    (hc : isWhitespace c = true) (rest : Text) :
    splitWhitespace (s ++ c :: rest) = s :: splitWhitespace rest := by
  rw [splitWhitespace, List.splitOnP_append_cons_of_forall_mem hs.2 c hc, List.filter_cons,
    if_pos (by simpa using hs.1), splitWhitespace]

theorem splitWhitespace_token {s : Text} (hs : IsToken s) : splitWhitespace s = [s] := by
  rw [splitWhitespace, List.splitOnP_eq_singleton hs.2, List.filter_cons,
    if_pos (by simpa using hs.1), List.filter_nil]

theorem not_mem_of_mem_splitOnP {α : Type*} (p : α → Bool) (xs : List α) :
    ∀ l ∈ xs.splitOnP p, ∀ x ∈ l, p x = false := by
  induction xs with
  | nil => simp
  | cons a xs ih =>
      rw [List.splitOnP_cons_eq_if_modifyHead]
      by_cases ha : p a
      · simpa [ha] using ih
      · obtain ⟨hd, tl, heq⟩ := List.exists_cons_of_ne_nil (List.splitOnP_ne_nil p xs)
        rw [heq] at ih ⊢
        simp only [ha, Bool.false_eq_true, if_false, List.modifyHead_cons]
        intro l hl x hx
        rcases List.mem_cons.mp hl with rfl | hl
        · rcases List.mem_cons.mp hx with rfl | hx
          · simpa using ha
          · exact ih hd (by simp) x hx
        · exact ih l (by simp [hl]) x hx

/-- Every field is a token. -/
theorem isToken_of_mem_splitWhitespace {s f : Text} (hf : f ∈ splitWhitespace s) : IsToken f := by
  obtain ⟨hmem, hne⟩ := List.mem_filter.mp hf
  exact ⟨by simpa using hne, not_mem_of_mem_splitOnP isWhitespace s f hmem⟩

/-! ## Trimming -/

theorem trimStart_append_cons (x y : Text) {c : Char} (hc : isWhitespace c = false) :
    trimStart (x ++ c :: y) = trimStart x ++ c :: y := by
  induction x with
  | nil => simp [trimStart, hc]
  | cons d x ih =>
      cases hd : isWhitespace d
      · simp [trimStart, hd]
      · simpa [trimStart, hd] using ih

theorem trimEnd_append_cons (x y : Text) {c : Char} (hc : isWhitespace c = false) :
    trimEnd (x ++ c :: y) = x ++ c :: trimEnd y := by
  have h := congrArg List.reverse (trimStart_append_cons y.reverse x.reverse hc)
  simpa [trimStart, trimEnd, List.rdropWhile] using h

/-- The part around a character that stays. -/
theorem trim_append_cons (x y : Text) {c : Char} (hc : isWhitespace c = false) :
    trim (x ++ c :: y) = trimStart x ++ c :: trimEnd y := by
  rw [trim, trimStart_append_cons x y hc, trimEnd_append_cons _ y hc]

/-- A string is blank or has a character that stays. -/
theorem blank_or_split (s : Text) :
    (∀ c ∈ s, isWhitespace c = true) ∨ ∃ x c y, s = x ++ c :: y ∧ isWhitespace c = false := by
  by_cases h : ∀ c ∈ s, isWhitespace c = true
  · exact Or.inl h
  · push Not at h
    obtain ⟨c, hmem, hc⟩ := h
    obtain ⟨x, y, hs⟩ := List.append_of_mem hmem
    exact Or.inr ⟨x, c, y, hs, by simpa using hc⟩

theorem trimStart_blank {s : Text} (h : ∀ c ∈ s, isWhitespace c = true) : trimStart s = [] :=
  List.dropWhile_eq_nil_iff.mpr h

theorem trimEnd_blank {s : Text} (h : ∀ c ∈ s, isWhitespace c = true) : trimEnd s = [] :=
  List.rdropWhile_eq_nil_iff.mpr h

/-- Both ends are trimmed in either order. -/
theorem trim_eq_trimStart_trimEnd (s : Text) : trim s = trimStart (trimEnd s) := by
  rcases blank_or_split s with h | ⟨x, c, y, rfl, hc⟩
  · rw [trim, trimStart_blank h, trimEnd_blank h]
    rfl
  · rw [trim_append_cons x y hc, trimEnd_append_cons x y hc, trimStart_append_cons x _ hc]

@[simp]
theorem trim_trimStart (s : Text) : trim (trimStart s) = trim s := by
  rw [trim, trim, trimStart, trimStart, List.dropWhile_idempotent]

@[simp]
theorem trim_trimEnd (s : Text) : trim (trimEnd s) = trim s := by
  rw [trim_eq_trimStart_trimEnd, trim_eq_trimStart_trimEnd, trimEnd, trimEnd,
    List.rdropWhile_idempotent]

theorem trim_trim (s : Text) : trim (trim s) = trim s :=
  (trim_trimEnd (trimStart s)).trans (trim_trimStart s)

theorem trim_subset (s : Text) : trim s ⊆ s :=
  fun _ hc => (List.dropWhile_suffix _).subset ((List.rdropWhile_prefix _ _).subset hc)

theorem trim_append_whitespace (s : Text) {c : Char} (hc : isWhitespace c = true) :
    trim (s ++ [c]) = trim s := by
  rw [trim_eq_trimStart_trimEnd, trim_eq_trimStart_trimEnd, trimEnd,
    List.rdropWhile_concat_pos _ _ _ hc, trimEnd]

theorem trim_blank_append {b : Text} (hb : ∀ c ∈ b, isWhitespace c = true) (s : Text) :
    trim (b ++ s) = trim s := by
  rw [trim, trim, trimStart, List.dropWhile_append_of_pos hb, trimStart]

theorem trim_token {s : Text} (hs : IsToken s) : trim s = s := by
  obtain ⟨hne, hc⟩ := hs
  rw [trim, trimStart, trimEnd]
  have hstart : s.dropWhile isWhitespace = s := by
    cases s with
    | nil => rfl
    | cons c s => simp [hc c (by simp)]
  rw [hstart, List.rdropWhile_eq_self_iff]
  intro h
  simp [hc _ (List.getLast_mem h)]

/-- Dropping characters from both ends leaves the text between them. -/
theorem exists_eq_dropWhile (p : Char → Bool) (s : Text) :
    ∃ a b, s = a ++ (s.dropWhile p).rdropWhile p ++ b ∧ (∀ c ∈ a, p c = true) ∧
      ∀ c ∈ b, p c = true := by
  refine ⟨s.takeWhile p, (s.dropWhile p).rtakeWhile p, ?_, ?_, ?_⟩
  · rw [List.append_assoc, List.rdropWhile_append_rtakeWhile, List.takeWhile_append_dropWhile]
  · exact fun c hc => List.mem_takeWhile_imp hc
  · exact fun c hc => List.mem_rtakeWhile_imp hc

theorem trim_append_blank (s : Text) {b : Text} (hb : ∀ c ∈ b, isWhitespace c = true) :
    trim (s ++ b) = trim s := by
  induction b generalizing s with
  | nil => rw [List.append_nil]
  | cons c b ih =>
      obtain ⟨hc, hb⟩ := List.forall_mem_cons.mp hb
      rw [List.append_cons, ih _ hb, trim_append_whitespace s hc]

theorem trim_eq_self {s : Text} (h : ∀ c ∈ s, isWhitespace c = false) : trim s = s := by
  cases s with
  | nil => rfl
  | cons c s => exact trim_token ⟨List.cons_ne_nil c s, h⟩

theorem filter_trimStart {p : Char → Bool} {s : Text}
    (h : ∀ c ∈ s, isWhitespace c = true → p c = false) : (trimStart s).filter p = s.filter p := by
  induction s with
  | nil => rfl
  | cons c s ih =>
      obtain ⟨hc, hs⟩ := List.forall_mem_cons.mp h
      rw [trimStart, List.dropWhile_cons]
      split
      case isTrue hspace => rw [List.filter_cons_of_neg (by simp [hc hspace]), ← ih hs, trimStart]
      case isFalse => rfl

/-- A selection without whitespace does not depend on what is trimmed. -/
theorem filter_trim {p : Char → Bool} {s : Text}
    (h : ∀ c ∈ s, isWhitespace c = true → p c = false) : (trim s).filter p = s.filter p := by
  have hstart : ∀ c ∈ trimStart s, isWhitespace c = true → p c = false :=
    fun c hc => h c ((List.dropWhile_suffix _).subset hc)
  have hreverse : trimEnd (trimStart s) = (trimStart (trimStart s).reverse).reverse := rfl
  rw [trim, hreverse, List.filter_reverse,
    filter_trimStart fun c hc => hstart c (List.mem_reverse.mp hc), List.filter_reverse,
    List.reverse_reverse, filter_trimStart h]

/-- A string that starts with `c` once it is trimmed. -/
theorem eq_append_of_head?_trim {s : Text} {c : Char} (h : (trim s).head? = some c) :
    ∃ b t, s = b ++ c :: t ∧ (∀ d ∈ b, isWhitespace d = true) ∧ isWhitespace c = false := by
  cases ht : trimStart s with
  | nil => simp [trim, ht, trimEnd] at h
  | cons d t =>
      have hd : isWhitespace d = false := by
        have hdrop : s.dropWhile isWhitespace = d :: t := ht
        have hfail := List.head_dropWhile_not isWhitespace (l := s) (by simp [hdrop])
        simpa [hdrop] using hfail
      have heq := trimEnd_append_cons [] t hd
      simp only [List.nil_append] at heq
      simp only [trim, ht, heq, List.head?_cons, Option.some.injEq] at h
      refine ⟨s.takeWhile isWhitespace, t, ?_, ?_, h ▸ hd⟩
      · rw [← h, ← ht]
        exact (List.takeWhile_append_dropWhile).symm
      · intro e he
        exact List.mem_takeWhile_imp he

/-! ## Splitting -/

theorem before_append_of_not_mem {c : Char} {x : Text} (h : c ∉ x) (y : Text) :
    before c (x ++ y) = x ++ before c y := by
  apply List.takeWhile_append_of_pos
  intro a ha
  simpa using fun heq : a = c => h (heq ▸ ha)

theorem before_append_of_mem {c : Char} {x : Text} (h : c ∈ x) (y : Text) :
    before c (x ++ y) = before c x := by
  induction x with
  | nil => simp at h
  | cons d x ih =>
      by_cases hd : d = c
      · simp [before, hd]
      · have hx : c ∈ x := by
          simpa [Ne.symm hd] using h
        simpa [before, hd] using ih hx

theorem not_mem_before (c : Char) (s : Text) : c ∉ before c s := by
  intro hmem
  have hne := List.mem_takeWhile_imp hmem
  simp at hne

theorem before_eq_self {c : Char} {x : Text} (h : c ∉ x) : before c x = x := by
  simpa [before] using before_append_of_not_mem h []

theorem splitOnce_append {c : Char} {x : Text} (h : c ∉ x) (y : Text) :
    splitOnce c (x ++ c :: y) = some (x, y) := by
  rw [splitOnce, if_pos (by simp), before_append_of_not_mem h, List.dropWhile_append_of_pos]
  · simp [before]
  · intro a ha
    simpa using fun heq : a = c => h (heq ▸ ha)

/-- Lines without a `\n` are determined by their text. -/
theorem unlines_inj {ls ms : List Text} (hls : ∀ l ∈ ls, '\n' ∉ l) (hms : ∀ m ∈ ms, '\n' ∉ m)
    (h : unlines ls = unlines ms) : ls = ms := by
  induction ls generalizing ms with
  | nil =>
      cases ms with
      | nil => rfl
      | cons m ms => simp [unlines] at h
  | cons l ls ih =>
      cases ms with
      | nil => simp [unlines] at h
      | cons m ms =>
          rw [unlines_cons, unlines_cons] at h
          have hsplit := congrArg (splitOnce '\n') h
          rw [splitOnce_append (hls l (by simp)), splitOnce_append (hms m (by simp))] at hsplit
          obtain ⟨rfl, htail⟩ := Prod.mk.inj (Option.some.inj hsplit)
          rw [ih (fun l hl => hls l (by simp [hl])) (fun m hm => hms m (by simp [hm])) htail]

theorem splitOnce_eq_some_iff {c : Char} {s x y : Text} :
    splitOnce c s = some (x, y) ↔ s = x ++ c :: y ∧ c ∉ x := by
  constructor
  · intro h
    by_cases hc : c ∈ s
    · obtain ⟨x', y', hs, hx'⟩ := List.eq_append_cons_of_mem hc
      rw [hs, splitOnce_append hx', Option.some.injEq, Prod.mk.injEq] at h
      obtain ⟨rfl, rfl⟩ := h
      exact ⟨hs, hx'⟩
    · rw [splitOnce, if_neg hc] at h
      cases h
  · intro h
    rw [h.1, splitOnce_append h.2]

theorem splitOnce_eq_none_iff {c : Char} {s : Text} : splitOnce c s = none ↔ c ∉ s := by
  rw [splitOnce]
  split <;> simp_all

theorem rsplitOnce_eq_some_iff {c : Char} {s x y : Text} :
    rsplitOnce c s = some (x, y) ↔ s = x ++ c :: y ∧ c ∉ y := by
  have hreverse : s.reverse = y.reverse ++ c :: x.reverse ↔ s = x ++ c :: y := by
    rw [← List.reverse_inj, List.reverse_reverse]
    simp
  rw [rsplitOnce, Option.map_eq_some_iff]
  constructor
  · intro h
    obtain ⟨parts, hsplit, hparts⟩ := h
    obtain ⟨rfl, rfl⟩ := Prod.mk.inj hparts
    obtain ⟨hs, hmem⟩ := splitOnce_eq_some_iff.mp hsplit
    rw [List.reverse_reverse, List.reverse_reverse] at hreverse
    exact ⟨hreverse.mp hs, by rwa [List.mem_reverse]⟩
  · intro h
    refine ⟨(y.reverse, x.reverse), splitOnce_eq_some_iff.mpr ⟨hreverse.mpr h.1, ?_⟩, by simp⟩
    rw [List.mem_reverse]
    exact h.2

/-- The first part of a split starts as the whole does. -/
theorem splitOnce_head {c d : Char} {s x y : Text} (h : splitOnce c (d :: s) = some (x, y))
    (hd : d ≠ c) : ∃ x', x = d :: x' := by
  rw [splitOnce] at h
  split at h
  · simp only [Option.some.injEq, Prod.mk.injEq] at h
    exact ⟨before c s, by rw [← h.1]; simp [before, hd]⟩
  · simp at h

/-! ## Words -/

theorem isWhitespace_eq_false_of_le {c : Char} (h₁ : 33 ≤ c.toNat) (h₂ : c.toNat ≤ 126) :
    isWhitespace c = false := by
  simp only [isWhitespace, Bool.or_eq_false_iff, Bool.and_eq_false_iff, decide_eq_false_iff_not,
    beq_eq_false_iff_ne]
  omega

theorem isToken_decimal (n : ℕ) : IsToken (decimal n) := by
  refine ⟨Nat.toDigits_ne_nil, ?_⟩
  intro c hc
  have hd := Nat.isDigit_of_mem_toDigits (by omega) (by omega) hc
  simp only [Char.isDigit, Bool.and_eq_true, decide_eq_true_eq] at hd
  apply isWhitespace_eq_false_of_le
  · exact le_trans (by decide) (UInt32.le_iff_toNat_le.mp hd.1)
  · exact le_trans (UInt32.le_iff_toNat_le.mp hd.2) (by decide)

theorem isToken_hex2 (b : UInt8) : IsToken (hex2 b) := by
  have hdigit : ∀ n : Fin 16, isWhitespace (Nat.digitChar n) = false := by decide
  have hb := b.toNat_lt
  refine ⟨by simp [hex2], ?_⟩
  intro c hc
  simp only [hex2, List.mem_cons, List.not_mem_nil, or_false] at hc
  rcases hc with rfl | rfl
  · exact hdigit ⟨b.toNat / 16, by omega⟩
  · exact hdigit ⟨b.toNat % 16, by omega⟩

/-- A non-empty string of lower-case letters. -/
def IsWord (s : Text) : Prop :=
  s ≠ [] ∧ ∀ c ∈ s, 97 ≤ c.toNat ∧ c.toNat ≤ 122

instance (s : Text) : Decidable (IsWord s) :=
  decidable_of_iff (s ≠ [] ∧ s.all fun c => 97 ≤ c.toNat && c.toNat ≤ 122) (by simp [IsWord])

theorem IsWord.isToken {s : Text} (h : IsWord s) : IsToken s :=
  ⟨h.1, fun c hc =>
    isWhitespace_eq_false_of_le (by have := h.2 c hc; omega) (by have := h.2 c hc; omega)⟩

theorem IsWord.not_mem {s : Text} (h : IsWord s) {d : Char} (hd : d.toNat < 97) : d ∉ s :=
  fun hmem => absurd (h.2 d hmem).1 (by omega)

/-! ## Case folding -/

/-- Folding only yields a new character in the range of the lower-case letters. -/
theorem toLower_cases (c : Char) :
    c.toLower = c ∨ (65 ≤ c.toNat ∧ c.toNat ≤ 90 ∧ c.toLower.toNat = c.toNat + 32) := by
  unfold Char.toLower
  split
  · rename_i h
    have hA : 65 ≤ c.val.toNat := h.1
    have hZ : c.val.toNat ≤ 90 := h.2
    have hsum : (c.val + ('a'.val - 'A'.val)).toNat = c.val.toNat + 32 := by
      rw [UInt32.toNat_add]
      have : ('a'.val - 'A'.val).toNat = 32 := by decide
      omega
    exact Or.inr ⟨hA, hZ, hsum⟩
  · exact Or.inl rfl

theorem isWhitespace_toLower (c : Char) : isWhitespace c.toLower = isWhitespace c := by
  rcases toLower_cases c with h | ⟨hA, hZ, hsum⟩
  · rw [h]
  · rw [isWhitespace_eq_false_of_le (c := c) (by omega) (by omega)]
    exact isWhitespace_eq_false_of_le (by omega) (by omega)

/-- Only a character itself folds to one that is not a lower-case letter. -/
theorem toLower_eq_iff {c d : Char} (hd : d.toNat < 65) : c.toLower = d ↔ c = d := by
  rcases toLower_cases c with h | ⟨hA, hZ, hsum⟩
  · rw [h]
  · constructor
    · rintro rfl
      omega
    · rintro rfl
      omega

theorem eqIgnoreAsciiCase_iff {s t : Text} :
    eqIgnoreAsciiCase s t ↔ s.map Char.toLower = t.map Char.toLower := by
  simp [eqIgnoreAsciiCase]

theorem trim_map_toLower (s : Text) : trim (s.map Char.toLower) = (trim s).map Char.toLower := by
  have hlower : isWhitespace ∘ Char.toLower = isWhitespace := funext isWhitespace_toLower
  rw [trim, trim, trimStart, trimStart, trimEnd, trimEnd, List.dropWhile_map, hlower,
    List.rdropWhile, List.rdropWhile, ← List.map_reverse, List.dropWhile_map, hlower,
    List.map_reverse]

theorem splitOn_map_toLower {c : Char} (hc : c.toNat < 65) (s : Text) :
    (s.map Char.toLower).splitOn c = (s.splitOn c).map (List.map Char.toLower) := by
  induction s with
  | nil => rfl
  | cons d s ih =>
      rw [List.map_cons, List.splitOn_cons_eq_if_modifyHead, List.splitOn_cons_eq_if_modifyHead, ih]
      by_cases hd : d = c
      · rw [if_pos (by simpa [toLower_eq_iff hc] using hd), if_pos (by simpa using hd)]
        rfl
      · rw [if_neg (by simpa [toLower_eq_iff hc] using hd), if_neg (by simpa using hd)]
        cases s.splitOn c <;> rfl

/-- A string equal to a token up to case is a token. -/
theorem IsToken.of_eqIgnoreAsciiCase {s t : Text} (hs : IsToken s)
    (h : eqIgnoreAsciiCase s t) : IsToken t := by
  rw [eqIgnoreAsciiCase_iff] at h
  constructor
  · rintro rfl
    simp only [List.map_nil, List.map_eq_nil_iff] at h
    exact hs.1 h
  · intro c hc
    have hmem : c.toLower ∈ s.map Char.toLower := by
      rw [h]
      exact List.mem_map_of_mem hc
    obtain ⟨d, hd, hdc⟩ := List.mem_map.mp hmem
    rw [← isWhitespace_toLower, ← hdc, isWhitespace_toLower]
    exact hs.2 d hd

/-! ## Fields between separators -/

section

variable {c : Char} (hc : isWhitespace c = false)
include hc

theorem not_mem_blank {b : Text} (hb : ∀ d ∈ b, isWhitespace d = true) : c ∉ b := by
  intro hmem
  rw [hb c hmem] at hc
  cases hc

theorem map_trim_splitOn_blank_append {b : Text} (hb : ∀ d ∈ b, isWhitespace d = true) (s : Text) :
    ((b ++ s).splitOn c).map trim = (s.splitOn c).map trim := by
  have hmem := not_mem_blank hc hb
  by_cases hs : c ∈ s
  · obtain ⟨x, y, rfl, hx⟩ := List.eq_append_cons_of_mem hs
    have hbx : c ∉ b ++ x := by simp [hmem, hx]
    rw [← List.append_assoc, List.splitOn_append_cons_self, List.splitOn_append_cons_self,
      List.splitOn_eq_singleton hx, List.splitOn_eq_singleton hbx, List.map_append,
      List.map_append, List.map_singleton, List.map_singleton, trim_blank_append hb]
  · rw [List.splitOn_eq_singleton hs, List.splitOn_eq_singleton (by simp [hmem, hs]),
      List.map_singleton, List.map_singleton, trim_blank_append hb]

theorem map_trim_splitOn_append_blank (s : Text) {b : Text} (hb : ∀ d ∈ b, isWhitespace d = true) :
    ((s ++ b).splitOn c).map trim = (s.splitOn c).map trim := by
  have hmem := not_mem_blank hc hb
  cases hsplit : rsplitOnce c s with
  | some parts =>
      obtain ⟨x, y⟩ := parts
      obtain ⟨rfl, hy⟩ := rsplitOnce_eq_some_iff.mp hsplit
      have hyb : c ∉ y ++ b := by simp [hmem, hy]
      rw [List.append_assoc, List.cons_append, List.splitOn_append_cons_self,
        List.splitOn_append_cons_self, List.splitOn_eq_singleton hy,
        List.splitOn_eq_singleton hyb, List.map_append, List.map_append, List.map_singleton,
        List.map_singleton, trim_append_blank y hb]
  | none =>
      rw [rsplitOnce, Option.map_eq_none_iff, splitOnce_eq_none_iff, List.mem_reverse] at hsplit
      rw [List.splitOn_eq_singleton hsplit, List.splitOn_eq_singleton (by simp [hmem, hsplit]),
        List.map_singleton, List.map_singleton, trim_append_blank s hb]

/-- Trimming a text first does not matter to its trimmed fields. -/
theorem map_trim_splitOn_trim (s : Text) :
    ((trim s).splitOn c).map trim = (s.splitOn c).map trim := by
  obtain ⟨a, b, hs, ha, hb⟩ := exists_eq_dropWhile isWhitespace s
  change s = a ++ trim s ++ b at hs
  conv_rhs => rw [hs]
  rw [map_trim_splitOn_append_blank hc _ hb, map_trim_splitOn_blank_append hc ha]

end

end Text

end Lwrt.Library
