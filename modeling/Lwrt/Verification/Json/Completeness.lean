import Lwrt.Library.Bytes
import Lwrt.Library.Numerals
import Lwrt.Model.Rfc8259

/-! # The parser accepts every document of the grammar, and returns what it denotes -/

namespace Lwrt.Json

open Library Library.Text Library.Utf8

namespace Parser

/-! ## Reading from a known start -/

@[simp]
theorem advance_append (xs rest : List UInt8) (i : ℕ) :
    advance ⟨xs ++ rest, i⟩ xs.length = ⟨rest, i + xs.length⟩ := by
  simp [advance]

@[simp]
theorem advance_cons (c : UInt8) (rest : List UInt8) (i : ℕ) :
    advance ⟨c :: rest, i⟩ 1 = ⟨rest, i + 1⟩ := rfl

@[simp]
theorem peek_cons (c : UInt8) (rest : List UInt8) (i : ℕ) :
    peek ⟨c :: rest, i⟩ = some c := rfl

@[simp]
theorem expect_cons (c : UInt8) (rest : List UInt8) (i : ℕ) :
    expect c ⟨c :: rest, i⟩ = .ok ⟨rest, i + 1⟩ := by
  simp [expect]

theorem ws_cons {c : UInt8} (hc : isWs c = false) (rest : List UInt8) (i : ℕ) :
    ws ⟨c :: rest, i⟩ = ⟨c :: rest, i⟩ := by
  simp [ws, hc, advance]

@[simp]
theorem ws_nil (i : ℕ) : ws ⟨[], i⟩ = ⟨[], i⟩ := rfl

theorem ws_append {w : List UInt8} (hw : ∀ c ∈ w, isWs c = true) (rest : List UInt8) (i : ℕ) :
    ws ⟨w ++ rest, i⟩ = ws ⟨rest, i + w.length⟩ := by
  rw [ws, List.takeWhile_append_of_pos hw, List.length_append]
  simp [ws, advance, Nat.add_assoc]

@[simp]
theorem ws_ws (p : Parser) : p.ws.ws = p.ws := by
  obtain ⟨rest, i⟩ := p
  induction rest generalizing i with
  | nil => rfl
  | cons c rest ih =>
      cases hc : isWs c with
      | false => rw [ws_cons hc, ws_cons hc]
      | true =>
          have hskip := ws_append (w := [c]) (by simpa using hc) rest i
          rw [List.singleton_append] at hskip
          rw [hskip, ih]

theorem encode_cons_ascii {c : Char} (hc : c.toNat < 0x80) (s : Text) :
    encode (c :: s) = byte c :: encode s := by
  rw [← List.singleton_append, encode_append, encode_ascii (by simpa using hc)]
  rfl

theorem isWs_of_mem_encode {w : Text} (hw : Rfc8259.IsWs w) : ∀ b ∈ encode w, isWs b = true := by
  have hchar : ∀ c ∈ [' ', '\t', '\n', '\r'], c.toNat < 0x80 ∧ isWs (byte c) = true := by
    intro c hc
    simp only [List.mem_cons, List.not_mem_nil, or_false] at hc
    rcases hc with rfl | rfl | rfl | rfl <;> decide
  intro b hb
  rw [encode_ascii fun c hc => (hchar c (hw c hc)).1] at hb
  obtain ⟨c, hc, rfl⟩ := List.mem_map.mp hb
  exact (hchar c (hw c hc)).2

theorem ws_encode {w : Text} (hw : Rfc8259.IsWs w) (rest : List UInt8) (i : ℕ) :
    ws ⟨encode w ++ rest, i⟩ = ws ⟨rest, i + (encode w).length⟩ :=
  ws_append (isWs_of_mem_encode hw) rest i

/-- The six structural characters. -/
def IsStructural (c : Char) : Prop :=
  c ∈ ['[', ']', '{', '}', ':', ',']

theorem byte_structural {c : Char} (h : IsStructural c) :
    c.toNat < 0x80 ∧ isWs (byte c) = false ∧ isNumberByte (byte c) = false := by
  simp only [IsStructural, List.mem_cons, List.not_mem_nil, or_false] at h
  rcases h with rfl | rfl | rfl | rfl | rfl | rfl <;> decide

/-- Up to a structural character, and on from it. -/
theorem ws_token {c : Char} {t : Text} (hc : IsStructural c) (h : Rfc8259.Token c t)
    (rest : List UInt8) (i : ℕ) :
    ∃ tail j, ws ⟨encode t ++ rest, i⟩ = ⟨byte c :: tail, j⟩ ∧
      ws ⟨tail, j + 1⟩ = ws ⟨rest, i + (encode t).length⟩ := by
  obtain ⟨before, after, hbefore, hafter, rfl⟩ := h
  obtain ⟨hascii, hws, -⟩ := byte_structural hc
  refine ⟨encode after ++ rest, i + (encode before).length, ?_, ?_⟩
  · rw [encode_append, encode_cons_ascii hascii, List.append_assoc, ws_encode hbefore,
      List.cons_append, ws_cons hws]
  · rw [ws_encode hafter, encode_append, encode_cons_ascii hascii, List.length_append,
      List.length_cons]
    congr 2
    omega

/-- On input that starts with the text `t`, whitespace aside, `f` returns `a` and leaves `rest`. -/
def Reads {α : Type} (f : Parser → Except Text (α × Parser)) (t : Text) (a : α)
    (rest : List UInt8) : Prop :=
  ∀ p i, ws p = ws ⟨encode t ++ rest, i⟩ →
    ∃ q, f p = .ok (a, q) ∧ ws q = ws ⟨rest, i + (encode t).length⟩

/-! ## Strings -/

theorem utf8Extra_eq (b : UInt8) :
    utf8Extra b = if b.toNat < 0xC0 then 0 else if b.toNat < 0xE0 then 1
      else if b.toNat < 0xF0 then 2 else if b.toNat < 0xF8 then 3 else 0 := by
  simp only [utf8Extra, UInt8.le_iff_toNat_le, UInt8.reduceToNat, Bool.and_eq_true,
    decide_eq_true_eq]
  split_ifs <;> omega

/-- The continuation bytes of a character are as many as its lead byte announces. -/
theorem utf8Extra_lead {c : Char} {b : UInt8} {tail : List UInt8}
    (h : String.utf8EncodeChar c = b :: tail) : utf8Extra b = tail.length := by
  rcases utf8EncodeChar_cases c with
    ⟨hc, henc⟩ | ⟨hlo, hhi, henc⟩ | ⟨hlo, hhi, -, henc⟩ | ⟨hlo, hhi, henc⟩
  · rw [henc] at h
    obtain ⟨rfl, rfl⟩ := List.cons.inj h
    rw [utf8Extra_eq, toNat_ofNat_of_lt (by omega), if_pos (by omega)]
    rfl
  · rw [henc] at h
    obtain ⟨rfl, rfl⟩ := List.cons.inj h
    rw [utf8Extra_eq, toNat_ofNat_of_lt (by omega), if_neg (by omega), if_pos (by omega)]
    rfl
  · rw [henc] at h
    obtain ⟨rfl, rfl⟩ := List.cons.inj h
    rw [utf8Extra_eq, toNat_ofNat_of_lt (by omega), if_neg (by omega), if_neg (by omega),
      if_pos (by omega)]
    rfl
  · rw [henc] at h
    obtain ⟨rfl, rfl⟩ := List.cons.inj h
    rw [utf8Extra_eq, toNat_ofNat_of_lt (by omega), if_neg (by omega), if_neg (by omega),
      if_neg (by omega), if_pos (by omega)]
    rfl

/-- A character that is copied through. -/
theorem stringLoop_raw {c : Char} (hquote : c ≠ '"') (hslash : c ≠ '\\') (fuel : ℕ) (out : Text)
    (rest : List UInt8) (i : ℕ) :
    stringLoop (fuel + 1) out ⟨String.utf8EncodeChar c ++ rest, i⟩ =
      stringLoop fuel (out ++ [c]) ⟨rest, i + (String.utf8EncodeChar c).length⟩ := by
  obtain ⟨b, tail, henc, -⟩ := next_utf8EncodeChar c rest
  have hq : b ≠ byte '"' := by
    rintro rfl
    exact hquote ((mem_utf8EncodeChar_iff (d := '"') (by decide)).mp (by simp [henc])).symm
  have hs : b ≠ byte '\\' := by
    rintro rfl
    exact hslash ((mem_utf8EncodeChar_iff (d := '\\') (by decide)).mp (by simp [henc])).symm
  have hlen : 1 + utf8Extra b = (String.utf8EncodeChar c).length := by
    rw [utf8Extra_lead henc, henc, List.length_cons, Nat.add_comm]
  have hdecode : fromUtf8 (String.utf8EncodeChar c) = some [c] := by
    simpa [encode] using fromUtf8_encode [c]
  have hpeek : peek ⟨String.utf8EncodeChar c ++ rest, i⟩ = some b := by
    rw [henc]
    rfl
  rw [stringLoop]
  simp only [hpeek, hq, hs, if_false, hlen, List.take_left, hdecode, advance_append]
  rw [if_neg (by simp)]

/-! Hexadecimal digits, in either case. -/

theorem hexDigit_of_hexValue {c : Char} {d : ℕ} (h : Rfc8259.hexValue c = some d) :
    c.toNat < 0x80 ∧ hexDigit (byte c) = some d := by
  have hle : ∀ a b : Char, a ≤ b ↔ a.toNat ≤ b.toNat := fun _ _ => Iff.rfl
  simp only [Rfc8259.hexValue, hle, Char.reduceToNat] at h
  have hascii : c.toNat < 0x80 := by
    by_contra hc
    rw [if_neg (by omega), if_neg (by omega), if_neg (by omega)] at h
    cases h
  refine ⟨hascii, ?_⟩
  have hbyte : (byte c).toNat = c.toNat := toNat_ofNat_of_lt (by omega)
  simp only [hexDigit, UInt8.le_iff_toNat_le, hbyte, Bool.and_eq_true, decide_eq_true_eq]
  change (if 48 ≤ c.toNat ∧ c.toNat ≤ 57 then some (c.toNat - 48)
    else if 97 ≤ c.toNat ∧ c.toNat ≤ 102 then some (c.toNat - 87)
    else if 65 ≤ c.toNat ∧ c.toNat ≤ 70 then some (c.toNat - 55) else none) = some d
  rw [← h]
  split_ifs <;> simp only [Option.some.injEq] <;> omega

theorem hexDigits_cons {c : Char} {d : ℕ} (h : Rfc8259.hexValue c = some d) (n v : ℕ)
    (rest : List UInt8) (i : ℕ) :
    hexDigits (n + 1) v ⟨byte c :: rest, i⟩ = hexDigits n (v * 16 + d) ⟨rest, i + 1⟩ := by
  rw [hexDigits, peek_cons]
  simp only [(hexDigit_of_hexValue h).2, advance_cons]

theorem hex4_ascii {t : Text} {n : ℕ} (h : Rfc8259.Hex4 t n) : ∀ c ∈ t, c.toNat < 0x80 := by
  obtain ⟨ha, hb, hc, hd⟩ := h
  simpa using ⟨(hexDigit_of_hexValue ha).1, (hexDigit_of_hexValue hb).1,
    (hexDigit_of_hexValue hc).1, (hexDigit_of_hexValue hd).1⟩

theorem hex4_reads {t : Text} {n : ℕ} (h : Rfc8259.Hex4 t n) (rest : List UInt8) (i : ℕ) :
    hex4 ⟨encode t ++ rest, i⟩ = .ok (n, ⟨rest, i + (encode t).length⟩) := by
  rw [encode_ascii (hex4_ascii h)]
  obtain ⟨ha, hb, hc, hd⟩ := h
  simp only [List.map_cons, List.map_nil, List.cons_append, List.nil_append, List.length_cons,
    List.length_nil]
  rw [hex4, hexDigits_cons ha, hexDigits_cons hb, hexDigits_cons hc, hexDigits_cons hd, hexDigits]
  congr 3
  omega

theorem fromU32_toNat (c : Char) : fromU32 c.toNat = some c := by
  have hvalid : c.toNat.isValidChar := c.valid
  rw [fromU32, dif_pos hvalid]
  rfl

/-- A unit that is a character is no half of a surrogate pair. -/
theorem codePoint_toNat (p : Parser) (c : Char) : codePoint p c.toNat = .ok (c.toNat, p) := by
  have hvalid : c.toNat.isValidChar := c.valid
  have hsurrogate : ¬(0xD800 ≤ c.toNat ∧ c.toNat ≤ 0xDBFF) := by
    rintro ⟨hlo, hhi⟩
    rcases hvalid with h | ⟨h, -⟩ <;> omega
  rw [codePoint, if_neg hsurrogate]

theorem unicodeEscape_unit {t : Text} {c : Char} (h : Rfc8259.Hex4 t c.toNat) (rest : List UInt8)
    (i : ℕ) :
    unicodeEscape ⟨encode t ++ rest, i⟩ = .ok (c, ⟨rest, i + (encode t).length⟩) := by
  simp only [unicodeEscape, hex4_reads h, bind, Except.bind, codePoint_toNat, fromU32_toNat]

theorem codePoint_pair {low : Text} {hi lo : ℕ} (hhi : hi < 0x400)
    (hlow : Rfc8259.Hex4 low (0xDC00 + lo)) (hlo : lo < 0x400) (rest : List UInt8) (i : ℕ) :
    codePoint ⟨byte '\\' :: byte 'u' :: (encode low ++ rest), i⟩ (0xD800 + hi) =
      .ok (0x10000 + hi * 0x400 + lo, ⟨rest, i + 2 + (encode low).length⟩) := by
  rw [codePoint, if_pos (by omega), peek_cons, if_pos rfl, advance_cons]
  simp only [expect_cons, hex4_reads hlow, bind, Except.bind]
  rw [if_pos (by omega), Nat.add_sub_cancel_left, Nat.add_sub_cancel_left]

theorem unicodeEscape_pair {high low : Text} {hi lo : ℕ} {c : Char}
    (hhigh : Rfc8259.Hex4 high (0xD800 + hi)) (hhi : hi < 0x400)
    (hlow : Rfc8259.Hex4 low (0xDC00 + lo)) (hlo : lo < 0x400)
    (h : c.toNat = 0x10000 + hi * 0x400 + lo) (rest : List UInt8) (i : ℕ) :
    unicodeEscape ⟨encode high ++ byte '\\' :: byte 'u' :: (encode low ++ rest), i⟩ =
      .ok (c, ⟨rest, i + (encode high).length + 2 + (encode low).length⟩) := by
  simp only [unicodeEscape, hex4_reads hhigh, bind, Except.bind, codePoint_pair hhi hlow hlo, ← h,
    fromU32_toNat]

theorem stringLoop_backslash (fuel : ℕ) (out : Text) (rest : List UInt8) (i : ℕ) :
    stringLoop (fuel + 1) out ⟨byte '\\' :: rest, i⟩ =
      (escape ⟨rest, i + 1⟩).bind fun r => stringLoop fuel (out ++ [r.1]) r.2 := by
  rw [stringLoop, peek_cons]
  simp only
  rw [if_neg (by decide), if_pos trivial]
  rfl

/-- The loop of `string` takes the text `t` for the character `c`. -/
def ReadsCharacter (t : Text) (c : Char) : Prop :=
  ∀ fuel out rest i, stringLoop (fuel + 1) out ⟨encode t ++ rest, i⟩ =
    stringLoop fuel (out ++ [c]) ⟨rest, i + (encode t).length⟩

/-- An escape, given how `escape` reads what follows the backslash. -/
theorem readsCharacter_escape {t : Text} {c : Char}
    (h : ∀ rest i, escape ⟨encode t ++ rest, i⟩ = .ok (c, ⟨rest, i + (encode t).length⟩)) :
    ReadsCharacter ('\\' :: t) c := by
  intro fuel out rest i
  rw [encode_cons_ascii (by decide), List.cons_append, stringLoop_backslash, h]
  simp only [Except.bind, List.length_cons]
  congr 2
  omega

theorem escape_short {e c : Char} (h : (e, c) ∈ Rfc8259.shortEscapes) (rest : List UInt8) (i : ℕ) :
    escape ⟨byte e :: rest, i⟩ = .ok (c, ⟨rest, i + 1⟩) := by
  simp only [Rfc8259.shortEscapes, List.mem_cons, Prod.mk.injEq, List.not_mem_nil, or_false] at h
  rcases h with ⟨rfl, rfl⟩ | ⟨rfl, rfl⟩ | ⟨rfl, rfl⟩ | ⟨rfl, rfl⟩ | ⟨rfl, rfl⟩ | ⟨rfl, rfl⟩ |
    ⟨rfl, rfl⟩ | ⟨rfl, rfl⟩ <;> rfl

theorem escape_u (rest : List UInt8) (i : ℕ) :
    escape ⟨byte 'u' :: rest, i⟩ = unicodeEscape ⟨rest, i + 1⟩ := rfl

theorem readsCharacter {t : Text} {c : Char} (h : Rfc8259.Character t c) : ReadsCharacter t c := by
  cases h with
  | unescaped hcontrol hquote hslash =>
      intro fuel out rest i
      have henc : encode [c] = String.utf8EncodeChar c := by simp [encode]
      rw [henc]
      exact stringLoop_raw hquote hslash fuel out rest i
  | short h =>
      rename_i e
      have hascii : ∀ pair ∈ Rfc8259.shortEscapes, pair.1.toNat < 0x80 := by
        simp [Rfc8259.shortEscapes]
      apply readsCharacter_escape
      intro rest i
      rw [encode_cons_ascii (hascii _ h), encode_nil]
      exact escape_short h rest i
  | unicode h =>
      apply readsCharacter_escape
      intro rest i
      rw [encode_cons_ascii (by decide), List.cons_append, escape_u, unicodeEscape_unit h,
        List.length_cons]
      congr 3
      omega
  | pair hhigh hhi hlow hlo h =>
      apply readsCharacter_escape
      intro rest i
      rw [encode_cons_ascii (by decide), encode_append, encode_cons_ascii (by decide),
        encode_cons_ascii (by decide), List.cons_append, escape_u, List.append_assoc,
        List.cons_append, List.cons_append, unicodeEscape_pair hhigh hhi hlow hlo h]
      simp only [List.length_cons, List.length_append]
      congr 3
      omega

theorem character_ne_nil {t : Text} {c : Char} (h : Rfc8259.Character t c) : t ≠ [] := by
  cases h <;> simp

/-- The loop of `string` reads the characters and the closing quote. -/
theorem stringLoop_characters (chars : List (Text × Char))
    (hchars : ∀ char ∈ chars, Rfc8259.Character char.1 char.2) {fuel : ℕ}
    (hfuel : chars.length < fuel) (out : Text) (rest : List UInt8) (i : ℕ) :
    stringLoop fuel out ⟨encode (chars.flatMap Prod.fst) ++ byte '"' :: rest, i⟩ =
      .ok (out ++ chars.map Prod.snd,
        ⟨rest, i + (encode (chars.flatMap Prod.fst)).length + 1⟩) := by
  induction chars generalizing fuel out i with
  | nil =>
      obtain ⟨fuel, rfl⟩ := Nat.exists_eq_succ_of_ne_zero (Nat.ne_of_gt hfuel)
      simp [stringLoop, encode]
  | cons char chars ih =>
      obtain ⟨fuel, rfl⟩ := Nat.exists_eq_succ_of_ne_zero (Nat.ne_of_gt (Nat.zero_lt_of_lt hfuel))
      have hread := readsCharacter (hchars char (by simp))
      rw [List.flatMap_cons, encode_append, List.append_assoc, hread fuel out,
        ih (fun c hc => hchars c (by simp [hc])) (by simpa using hfuel)]
      simp [Nat.add_assoc]

theorem length_le_length_encode (s : Text) : s.length ≤ (encode s).length :=
  length_le_length_flatMap fun _ _ => String.utf8EncodeChar_ne_nil

theorem encode_stringToken {t s : Text} (h : Rfc8259.StringToken t s) :
    ∃ tail, encode t = byte '"' :: tail := by
  obtain ⟨chars, -, rfl, -⟩ := h
  exact ⟨_, encode_cons_ascii (by decide) _⟩

theorem string_reads {t s : Text} (h : Rfc8259.StringToken t s) (rest : List UInt8) (i : ℕ) :
    string ⟨encode t ++ rest, i⟩ = .ok (s, ⟨rest, i + (encode t).length⟩) := by
  obtain ⟨chars, hchars, rfl, rfl⟩ := h
  have hfuel : chars.length < (encode (chars.flatMap Prod.fst) ++ byte '"' :: rest).length := by
    have hflat := length_le_length_flatMap fun char hchar => character_ne_nil (hchars char hchar)
    have henc := length_le_length_encode (chars.flatMap Prod.fst)
    simp only [List.length_append, List.length_cons]
    omega
  have hquote : encode ['"'] = [byte '"'] := encode_cons_ascii (by decide) []
  rw [encode_cons_ascii (by decide), encode_append, hquote, List.cons_append, List.append_assoc,
    List.singleton_append]
  simp only [string, expect_cons, bind, Except.bind]
  rw [stringLoop_characters chars hchars hfuel, List.nil_append]
  simp only [List.length_cons, List.length_append, List.length_nil]
  congr 3
  omega

/-! ## Numbers -/

/-- No number goes on into this input. -/
def EndsNumber (rest : List UInt8) : Prop :=
  ∀ c, rest.head? = some c → isNumberByte c = false

/-- The bytes of a number, up to where it ends. -/
theorem takeWhile_isNumberByte {bs rest : List UInt8} (hbs : ∀ c ∈ bs, isNumberByte c = true)
    (hrest : EndsNumber rest) : (bs ++ rest).takeWhile isNumberByte = bs := by
  rw [List.takeWhile_append_of_pos hbs]
  cases rest with
  | nil => simp
  | cons c rest => simp [hrest c rfl]

/-- `number` reads a text that `parse` accepts. -/
theorem number_of_parse {t : Text} {n : F64} (hne : t ≠ [])
    (hbytes : ∀ c ∈ encode t, isNumberByte c = true) (hparse : F64.parse t = some n)
    {rest : List UInt8} (hrest : EndsNumber rest) (i : ℕ) :
    number ⟨encode t ++ rest, i⟩ = .ok (.num n, ⟨rest, i + (encode t).length⟩) := by
  have hpos : 0 < (encode t).length :=
    (List.length_pos_iff.mpr hne).trans_le (length_le_length_encode t)
  have hlen : ∀ k ≤ (encode t).length,
      k + ((advance ⟨encode t ++ rest, i⟩ k).rest.takeWhile isNumberByte).length =
        (encode t).length := by
    intro k hk
    have hdrop : ∀ c ∈ (encode t).drop k, isNumberByte c = true :=
      fun c hc => hbytes c (List.mem_of_mem_drop hc)
    rw [advance, List.drop_append_of_le_length hk, takeWhile_isNumberByte hdrop hrest,
      List.length_drop]
    omega
  have hsign : (if peek ⟨encode t ++ rest, i⟩ = some (byte '-') then 1 else 0) ≤
      (encode t).length := by
    split <;> omega
  simp only [number, hlen _ hsign, List.take_left, fromUtf8_encode, hparse, advance_append]

theorem endsNumber_cons {c : UInt8} (hc : isNumberByte c = false) (rest : List UInt8) :
    EndsNumber (c :: rest) := by
  intro d hd
  rwa [← Option.some.inj hd]

theorem endsNumber_ws {w : List UInt8} (hw : ∀ c ∈ w, isWs c = true) {rest : List UInt8}
    (hrest : EndsNumber rest) : EndsNumber (w ++ rest) := by
  cases w with
  | nil => exact hrest
  | cons c w =>
      apply endsNumber_cons
      have hc := hw c (by simp)
      simp only [isWs, Bool.or_eq_true, beq_iff_eq] at hc
      rcases hc with ((rfl | rfl) | rfl) | rfl <;> decide

/-- The byte a number starts with is that of no other kind of value. -/
theorem number_start {b : UInt8} (h : b = byte '-' ∨ isDigit b = true) :
    isNumberByte b = true ∧ isWs b = false ∧
      ∀ c ∈ ['{', '[', '"', 't', 'f', 'n', ']'], b ≠ byte c := by
  rcases h with rfl | h
  · exact ⟨by decide, by decide, by simp⟩
  · simp only [isDigit, Bool.and_eq_true, decide_eq_true_eq, UInt8.le_iff_toNat_le] at h
    have hlo : 48 ≤ b.toNat := h.1
    have hhi : b.toNat ≤ 57 := h.2
    have hne : ∀ c : Char, c.toNat < 0x80 → (c.toNat < 48 ∨ 57 < c.toNat) → b ≠ byte c := by
      rintro c hc hout rfl
      rw [byte, toNat_ofNat_of_lt (by omega)] at hlo hhi
      omega
    refine ⟨by simp [isNumberByte, isDigit, UInt8.le_iff_toNat_le, h], ?_, ?_⟩
    · simp [isWs, hne]
    · simp [hne]

theorem integer_byte {t : Text} {k : ℤ} (h : Rfc8259.Integer t k) :
    t ≠ [] ∧ ∀ c ∈ t, c.toNat < 0x80 ∧ (byte c = byte '-' ∨ isDigit (byte c) = true) := by
  have hdigit : ∀ c : Char, c.isDigit → c.toNat < 0x80 ∧ isDigit (byte c) = true := by
    intro c hc
    simp only [Char.isDigit, Bool.and_eq_true, decide_eq_true_eq, UInt32.le_iff_toNat_le] at hc
    have hlo : 48 ≤ c.toNat := hc.1
    have hhi : c.toNat ≤ 57 := hc.2
    refine ⟨by omega, ?_⟩
    simp only [isDigit, UInt8.le_iff_toNat_le, Bool.and_eq_true, decide_eq_true_eq]
    rw [byte, byte, byte, toNat_ofNat_of_lt (n := c.toNat) (by omega)]
    exact ⟨hlo, hhi⟩
  cases h with
  | plain h => exact ⟨h.1, fun c hc => (hdigit c (h.2.1 c hc)).imp_right Or.inr⟩
  | minus h =>
      refine ⟨by simp, ?_⟩
      intro c hc
      rcases List.mem_cons.mp hc with rfl | hc
      · exact ⟨by decide, Or.inl rfl⟩
      · exact (hdigit c (h.2.1 c hc)).imp_right Or.inr

theorem encode_integer {t : Text} {k : ℤ} (h : Rfc8259.Integer t k) :
    encode t ≠ [] ∧ ∀ b ∈ encode t, b = byte '-' ∨ isDigit b = true := by
  obtain ⟨hne, hall⟩ := integer_byte h
  rw [encode_ascii fun c hc => (hall c hc).1]
  refine ⟨by simpa using hne, ?_⟩
  intro b hb
  obtain ⟨c, hc, rfl⟩ := List.mem_map.mp hb
  exact (hall c hc).2

/-- The sign of an integer token, and its digits. -/
theorem takeSign_integer {t : Text} {k : ℤ} (h : Rfc8259.Integer t k) :
    ∃ neg m, F64.takeSign t = (neg, decimal m) ∧ k = F64.signed neg m := by
  cases h with
  | plain h =>
      refine ⟨false, Nat.ofDigitChars 10 t 0, ?_, rfl⟩
      have htake := F64.takeSign_decimalInt (Nat.ofDigitChars 10 t 0 : ℕ)
      have hnonneg : ¬((Nat.ofDigitChars 10 t 0 : ℕ) : ℤ) < 0 := by omega
      rw [decimalInt, if_neg hnonneg, decide_eq_false hnonneg, Int.natAbs_natCast] at htake
      rw [← htake, decimal_ofDigitChars h.1 h.2.1 h.2.2]
  | @minus digits h =>
      refine ⟨true, Nat.ofDigitChars 10 digits 0, ?_, rfl⟩
      rw [decimal_ofDigitChars h.1 h.2.1 h.2.2]
      rfl

theorem parse_integer {t : Text} {k : ℤ} {n : F64} (h : Rfc8259.Integer t k)
    (hk : k.natAbs < 2 ^ 53) (hn : n.units? = some (k * F64.one)) : F64.parse t = some n := by
  have heq : n = .finite (k * F64.one) (F64.representable_whole hk) := F64.eq_finite_iff.mpr hn
  obtain ⟨neg, m, hsign, rfl⟩ := takeSign_integer h
  rw [F64.natAbs_signed] at hk
  rw [F64.parse_of_takeSign hsign, heq, Option.some.injEq, F64.eq_finite_iff,
    F64.ofRatio_whole neg hk]

/-! ## Values -/

theorem endsNumber_token {c : Char} {t : Text} (hc : IsStructural c) (h : Rfc8259.Token c t)
    (rest : List UInt8) : EndsNumber (encode t ++ rest) := by
  obtain ⟨before, after, hbefore, -, rfl⟩ := h
  obtain ⟨hascii, -, hnumber⟩ := byte_structural hc
  rw [encode_append, List.append_assoc, encode_cons_ascii hascii, List.cons_append]
  exact endsNumber_ws (isWs_of_mem_encode hbefore) (endsNumber_cons hnumber _)

/-- A text that starts with no whitespace. -/
theorem reads_of_start {α : Type} {f : Parser → Except Text (α × Parser)} {t : Text} {a : α}
    {rest tail : List UInt8} {b : UInt8} (henc : encode t = b :: tail) (hb : isWs b = false)
    (h : ∀ i, f ⟨encode t ++ rest, i⟩ = .ok (a, ⟨rest, i + (encode t).length⟩)) :
    Reads (fun p => f p.ws) t a rest := by
  intro p i hp
  have hws : ws ⟨encode t ++ rest, i⟩ = ⟨encode t ++ rest, i⟩ := by
    rw [henc, List.cons_append, ws_cons hb]
  refine ⟨⟨rest, i + (encode t).length⟩, ?_, rfl⟩
  beta_reduce
  rw [hp, hws, h]

/-- `item` reads the text `t` as `a`, given the fuel that `value` has for it. -/
def ReadsItem {α : Type} (item : ℕ → Parser → Except Text (α × Parser)) (t : Text) (a : α) :
    Prop :=
  ∀ fuel, 2 * (encode t).length ≤ fuel → ∀ rest, EndsNumber rest →
    Reads (fun p => item fuel p.ws) t a rest

section Loop

variable {α : Type} {opening closing : Char} {wrap : List α → Value}
  {item : ℕ → Parser → Except Text (α × Parser)}
  {loop : ℕ → List α → Parser → Except Text (Value × Parser)}

/-- The loops of `array` and `object`: an item, then a comma and another round, or the end. -/
structure IsLoop (closing : Char) (wrap : List α → Value)
    (item : ℕ → Parser → Except Text (α × Parser))
    (loop : ℕ → List α → Parser → Except Text (Value × Parser)) : Prop where
  refuses : ∀ {fuel acc p r}, peek (ws p) = some (byte closing) → loop fuel acc p ≠ .ok r
  next : ∀ {fuel p a q tail j}, item fuel (ws p) = .ok (a, q) → ws q = ⟨byte ',' :: tail, j⟩ →
    ∀ acc, loop (fuel + 1) acc p = loop fuel (acc ++ [a]) ⟨tail, j + 1⟩
  last : ∀ {fuel p a q tail j}, item fuel (ws p) = .ok (a, q) → ws q = ⟨byte closing :: tail, j⟩ →
    ∀ acc, loop (fuel + 1) acc p = .ok (wrap (acc ++ [a]), ⟨tail, j + 1⟩)

/-- A loop reads the items with their separators and the closing bracket. -/
theorem reads_loop (hloop : IsLoop closing wrap item loop) (hstructural : IsStructural closing)
    {close : Text} (hclose : Rfc8259.Token closing close) (items : List (Text × α))
    (hne : items ≠ []) (hitems : ∀ x ∈ items, ReadsItem item x.1 x.2) {body : Text}
    (hbody : Rfc8259.Separated ',' (items.map Prod.fst) body) {fuel : ℕ}
    (hfuel : 2 * (encode body).length < fuel) (acc : List α) (rest : List UInt8) :
    Reads (loop fuel acc) (body ++ close) (wrap (acc ++ items.map Prod.snd)) rest := by
  induction items generalizing body fuel acc with
  | nil => exact absurd rfl hne
  | cons x items ih =>
      obtain ⟨fuel, rfl⟩ : ∃ m, fuel = m + 1 := ⟨fuel - 1, by omega⟩
      intro p i hp
      cases items with
      | nil =>
          cases hbody
          rw [encode_append, List.append_assoc] at hp
          obtain ⟨q, hitem, hq⟩ := hitems x (by simp) fuel (by omega) _
            (endsNumber_token hstructural hclose rest) p i hp
          obtain ⟨tail, j, hat, hon⟩ :=
            ws_token hstructural hclose rest (i + (encode x.1).length)
          refine ⟨⟨tail, j + 1⟩, hloop.last hitem (hq.trans hat) acc, ?_⟩
          rw [hon, encode_append, List.length_append, Nat.add_assoc]
      | cons y items =>
          cases hbody with
          | @cons _ _ sep t _ hsep h =>
              rw [encode_append, encode_append, List.length_append, List.length_append] at hfuel
              rw [encode_append, encode_append, encode_append, List.append_assoc,
                List.append_assoc, List.append_assoc] at hp
              obtain ⟨q, hitem, hq⟩ := hitems x (by simp) fuel (by omega) _
                (endsNumber_token (by simp [IsStructural]) hsep _) p i hp
              obtain ⟨tail, j, hat, hon⟩ := ws_token (by simp [IsStructural]) hsep
                (encode t ++ (encode close ++ rest)) (i + (encode x.1).length)
              have hpos : 0 < (encode sep).length := by
                obtain ⟨before, after, -, -, rfl⟩ := hsep
                have hle := length_le_length_encode (before ++ ',' :: after)
                rw [List.length_append, List.length_cons] at hle
                omega
              rw [← List.append_assoc, ← encode_append] at hon
              obtain ⟨r, hr, hend⟩ := ih (by simp) (fun z hz => hitems z (by simp [hz])) h
                (show 2 * (encode t).length < fuel by omega) (acc ++ [x.2]) ⟨tail, j + 1⟩ _ hon
              refine ⟨r, ?_, ?_⟩
              · rw [hloop.next hitem (hq.trans hat), hr, List.append_assoc]
                rfl
              · rw [hend]
                simp only [encode_append, List.length_append]
                congr 2
                omega

/-- `array` and `object`, which differ in their brackets. -/
def delimited (opening closing : Char) (empty : Value)
    (loop : Parser → Except Text (Value × Parser)) (p : Parser) :
    Except Text (Value × Parser) := do
  let p ← p.expect (byte opening)
  let p := p.ws
  if p.peek = some (byte closing) then .ok (empty, p.advance 1) else loop p

/-- `value` reads a bracket, what the loop reads, and the closing bracket. -/
theorem reads_delimited (hloop : IsLoop closing wrap item loop) (hopening : IsStructural opening)
    (hclosing : IsStructural closing) {fuel : ℕ}
    (hvalue : ∀ tail j, value (fuel + 1) ⟨byte opening :: tail, j⟩ =
      delimited opening closing (wrap []) (loop fuel []) ⟨byte opening :: tail, j⟩)
    {start close body : Text} {items : List (Text × α)} (hstart : Rfc8259.Token opening start)
    (hclose : Rfc8259.Token closing close)
    (hbody : Rfc8259.Separated ',' (items.map Prod.fst) body)
    (hitems : ∀ x ∈ items, ReadsItem item x.1 x.2)
    (hfuel : 2 * (encode body).length < fuel) (rest : List UInt8) :
    Reads (fun p => value (fuel + 1) p.ws) (start ++ body ++ close) (wrap (items.map Prod.snd))
      rest := by
  intro p i hp
  rw [encode_append, encode_append, List.append_assoc, List.append_assoc] at hp
  obtain ⟨tail, j, hat, hon⟩ := ws_token hopening hstart (encode body ++ (encode close ++ rest)) i
  have hopen : value (fuel + 1) p.ws =
      if peek (ws ⟨tail, j + 1⟩) = some (byte closing) then
        .ok (wrap [], advance (ws ⟨tail, j + 1⟩) 1)
      else loop fuel [] (ws ⟨tail, j + 1⟩) := by
    rw [hp, hat, hvalue, delimited, expect_cons]
    rfl
  have hlen : i + (encode (start ++ body ++ close)).length =
      i + (encode start).length + (encode body).length + (encode close).length := by
    simp only [encode_append, List.length_append]
    omega
  beta_reduce
  rw [hopen, hlen]
  cases items with
  | nil =>
      cases hbody
      obtain ⟨tail', j', hat', hon'⟩ :=
        ws_token hclosing hclose rest (i + (encode start).length)
      rw [encode_nil, List.nil_append, hat'] at hon
      rw [hon, peek_cons, if_pos rfl, advance_cons]
      exact ⟨_, rfl, hon'⟩
  | cons x items =>
      obtain ⟨q, hq, hend⟩ := reads_loop hloop hclosing hclose (x :: items) (by simp) hitems hbody
        hfuel [] rest (ws ⟨tail, j + 1⟩) (i + (encode start).length)
        (by rw [ws_ws, hon, encode_append, List.append_assoc])
      rw [if_neg fun hpeek => hloop.refuses (by rwa [ws_ws]) hq]
      refine ⟨q, hq, ?_⟩
      rw [hend, encode_append, List.length_append, Nat.add_assoc, Nat.add_assoc, Nat.add_assoc]

end Loop

theorem value_bracket (fuel : ℕ) (rest : List UInt8) (i : ℕ) :
    value (fuel + 1) ⟨byte '[' :: rest, i⟩ =
      delimited '[' ']' (.array []) (elements fuel []) ⟨byte '[' :: rest, i⟩ := by
  rw [value, peek_cons]
  rfl

theorem value_brace (fuel : ℕ) (rest : List UInt8) (i : ℕ) :
    value (fuel + 1) ⟨byte '{' :: rest, i⟩ =
      delimited '{' '}' (.object []) (members fuel []) ⟨byte '{' :: rest, i⟩ := by
  rw [value, peek_cons]
  rfl

/-- No value starts with a closing bracket. -/
theorem value_closing (fuel : ℕ) {p : Parser} (hpeek : p.peek = some (byte ']')) :
    ∃ e, value fuel p = .error e := by
  cases fuel with
  | zero => exact ⟨_, rfl⟩
  | succ fuel =>
      rw [value, hpeek]
      simp only
      rw [if_neg (by decide), if_neg (by decide), if_neg (by decide), if_neg (by decide),
        if_neg (by decide), if_neg (by decide)]
      exact ⟨_, rfl⟩

theorem isLoop_elements : IsLoop ']' Value.array value elements where
  refuses := by
    intro fuel acc p r hpeek h
    cases fuel with
    | zero => cases h
    | succ fuel =>
        obtain ⟨e, he⟩ := value_closing fuel hpeek
        rw [elements, he] at h
        cases h
  next := by
    intro fuel p a q tail j hitem hq acc
    rw [elements, hitem]
    simp [bind, Except.bind, hq]
  last := by
    intro fuel p a q tail j hitem hq acc
    rw [elements, hitem]
    simp [bind, Except.bind, hq]

/-- One member of an object. -/
def member (fuel : ℕ) (p : Parser) : Except Text ((Text × Value) × Parser) := do
  let (key, p) ← p.string
  let p ← p.ws.expect (byte ':')
  let (val, p) ← value fuel p.ws
  .ok ((key, val), p)

theorem members_succ (fuel : ℕ) (pairs : List (Text × Value)) (p : Parser) :
    members (fuel + 1) pairs p = (member fuel p.ws).bind fun r =>
      if peek (ws r.2) = some (byte ',') then members fuel (pairs ++ [r.1]) (advance (ws r.2) 1)
      else if peek (ws r.2) = some (byte '}') then
        .ok (.object (pairs ++ [r.1]), advance (ws r.2) 1)
      else .error ("expected ',' or '\x7d' at byte ".toList ++ decimal (ws r.2).i) := by
  simp only [members, member, bind, Except.bind]
  cases string p.ws with
  | error e => rfl
  | ok key =>
      simp only
      cases expect (byte ':') (ws key.2) with
      | error e => rfl
      | ok p =>
          simp only
          cases value fuel p.ws <;> rfl

theorem isLoop_members : IsLoop '}' Value.object member members where
  refuses := by
    intro fuel acc p r hpeek h
    cases fuel with
    | zero => cases h
    | succ fuel => simp [members, string, expect, hpeek, bind, Except.bind] at h
  next := by
    intro fuel p a q tail j hitem hq acc
    rw [members_succ, hitem]
    simp [Except.bind, hq]
  last := by
    intro fuel p a q tail j hitem hq acc
    rw [members_succ, hitem]
    simp [Except.bind, hq]

theorem readsItem_member {m : Rfc8259.Member} (h : ReadsItem value m.valueText m.value) :
    ReadsItem member m.text m.pair := by
  intro fuel hfuel rest hrest p i hp
  obtain ⟨tail, hquote⟩ := encode_stringToken m.hkey
  rw [Rfc8259.Member.text, encode_append, encode_append, List.length_append] at hfuel
  rw [Rfc8259.Member.text, encode_append, encode_append, List.append_assoc, List.append_assoc,
    hquote, List.cons_append, ws_cons (by decide), ← List.cons_append, ← hquote] at hp
  obtain ⟨tail', j, hat, hon⟩ := ws_token (by simp [IsStructural]) m.hcolon
    (encode m.valueText ++ rest) (i + (encode m.keyText).length)
  obtain ⟨q, hq, hend⟩ := h fuel (by omega) rest hrest ⟨tail', j + 1⟩ _ hon
  refine ⟨q, ?_, ?_⟩
  · simp only [member, hp, string_reads m.hkey, hat, expect_cons, bind, Except.bind, hq]
    rfl
  · rw [hend, Rfc8259.Member.text, encode_append, encode_append, List.length_append,
      List.length_append]
    congr 2
    omega

theorem value_integer {t : Text} {k : ℤ} {n : F64} (h : Rfc8259.Integer t k)
    (hk : k.natAbs < 2 ^ 53) (hn : n.units? = some (k * F64.one)) (fuel : ℕ) {rest : List UInt8}
    (hrest : EndsNumber rest) (i : ℕ) :
    value (fuel + 1) ⟨encode t ++ rest, i⟩ = .ok (.num n, ⟨rest, i + (encode t).length⟩) := by
  obtain ⟨hne, hbytes⟩ := encode_integer h
  obtain ⟨b, tail, henc⟩ := List.exists_cons_of_ne_nil hne
  have hb := hbytes b (by simp [henc])
  have hother := (number_start hb).2.2
  have hpeek : peek ⟨encode t ++ rest, i⟩ = some b := by
    rw [henc]
    rfl
  have hnumber := number_of_parse (integer_byte h).1 (fun c hc => (number_start (hbytes c hc)).1)
    (parse_integer h hk hn) hrest i
  rw [value, hpeek]
  simp only [hother '{' (by simp), hother '[' (by simp), hother '"' (by simp),
    hother 't' (by simp), hother 'f' (by simp), hother 'n' (by simp), hb, if_false, if_true,
    or_self, hnumber]

theorem value_string {t s : Text} (h : Rfc8259.StringToken t s) (fuel : ℕ) (rest : List UInt8)
    (i : ℕ) :
    value (fuel + 1) ⟨encode t ++ rest, i⟩ = .ok (.str s, ⟨rest, i + (encode t).length⟩) := by
  obtain ⟨tail, henc⟩ := encode_stringToken h
  have hpeek : peek ⟨encode t ++ rest, i⟩ = some (byte '"') := by
    rw [henc]
    rfl
  rw [value, hpeek]
  simp [string_reads h, bind, Except.bind]

theorem derives_ne_nil {t : Text} {v : Value} (h : Rfc8259.Derives t v) : t ≠ [] := by
  cases h with
  | null | true | false => decide
  | number h => exact (integer_byte h).1
  | string h =>
      obtain ⟨chars, -, rfl, -⟩ := h
      simp
  | array hopen | object hopen =>
      obtain ⟨before, after, -, -, rfl⟩ := hopen
      simp

/-- Fuel for a value is fuel for at least one round. -/
theorem exists_fuel {t : Text} {v : Value} (h : Rfc8259.Derives t v) {fuel : ℕ}
    (hfuel : 2 * (encode t).length ≤ fuel) : ∃ m, fuel = m + 1 := by
  have hpos := List.length_pos_iff.mpr (derives_ne_nil h)
  have hle := length_le_length_encode t
  exact ⟨fuel - 1, by omega⟩

/-- Fuel for a container is fuel for its body. -/
theorem fuel_of_delimited {opening closing : Char} {start close body : Text}
    (hstart : Rfc8259.Token opening start) (hclose : Rfc8259.Token closing close) {fuel : ℕ}
    (hfuel : 2 * (encode (start ++ body ++ close)).length ≤ fuel + 1) :
    2 * (encode body).length < fuel := by
  have hpos : ∀ {c t}, Rfc8259.Token c t → 0 < (encode t).length := by
    intro c t h
    obtain ⟨before, after, -, -, rfl⟩ := h
    apply lt_of_lt_of_le _ (length_le_length_encode _)
    simp
  have hopenPos := hpos hstart
  have hclosePos := hpos hclose
  rw [encode_append, encode_append, List.length_append, List.length_append] at hfuel
  omega

/-- `value` reads every text of the grammar, and returns what it denotes. -/
theorem readsItem {t : Text} {v : Value} (h : Rfc8259.Derives t v) : ReadsItem value t v := by
  induction h with
  | null =>
      intro fuel hfuel rest _
      obtain ⟨fuel, rfl⟩ := exists_fuel .null hfuel
      exact reads_of_start rfl (by decide) fun _ => rfl
  | true =>
      intro fuel hfuel rest _
      obtain ⟨fuel, rfl⟩ := exists_fuel .true hfuel
      exact reads_of_start rfl (by decide) fun _ => rfl
  | false =>
      intro fuel hfuel rest _
      obtain ⟨fuel, rfl⟩ := exists_fuel .false hfuel
      exact reads_of_start rfl (by decide) fun _ => rfl
  | number h hk hn =>
      intro fuel hfuel rest hrest
      obtain ⟨fuel, rfl⟩ := exists_fuel (.number h hk hn) hfuel
      obtain ⟨hne, hbytes⟩ := encode_integer h
      obtain ⟨b, tail, henc⟩ := List.exists_cons_of_ne_nil hne
      have hstart := number_start (hbytes b (by simp [henc]))
      exact reads_of_start henc hstart.2.1 (value_integer h hk hn fuel hrest)
  | string h =>
      intro fuel hfuel rest _
      obtain ⟨fuel, rfl⟩ := exists_fuel (.string h) hfuel
      obtain ⟨tail, henc⟩ := encode_stringToken h
      exact reads_of_start henc (by decide) (value_string h fuel rest)
  | array hopen hbody hclose h ih =>
      intro fuel hfuel rest _
      obtain ⟨fuel, rfl⟩ := exists_fuel (.array hopen hbody hclose h) hfuel
      exact reads_delimited isLoop_elements (by simp [IsStructural]) (by simp [IsStructural])
        (value_bracket fuel) hopen hclose hbody ih (fuel_of_delimited hopen hclose hfuel) rest
  | @object start close body ms hopen hbody hclose h ih =>
      intro fuel hfuel rest _
      obtain ⟨fuel, rfl⟩ := exists_fuel (.object hopen hbody hclose h) hfuel
      have hitems : ∀ x ∈ ms.map fun m => (m.text, m.pair), ReadsItem member x.1 x.2 := by
        intro x hx
        obtain ⟨m, hm, rfl⟩ := List.mem_map.mp hx
        exact readsItem_member (ih m hm)
      have hbody' : Rfc8259.Separated ','
          ((ms.map fun m => (m.text, m.pair)).map Prod.fst) body := by
        rwa [List.map_map]
      have hread := reads_delimited isLoop_members (by simp [IsStructural])
        (by simp [IsStructural]) (value_brace fuel) hopen hclose hbody' hitems
        (fuel_of_delimited hopen hclose hfuel) rest
      rwa [List.map_map] at hread

end Parser

/-- `parse` reads a value with whitespace around it. -/
theorem Value.parse_derived {before text after : Text} {v : Value} (hbefore : Rfc8259.IsWs before)
    (h : Rfc8259.Derives text v) (hafter : Rfc8259.IsWs after) :
    Value.parse (before ++ text ++ after) = .ok v := by
  have hfuel : 2 * (encode text).length ≤ 2 * (encode (before ++ text ++ after)).length := by
    rw [encode_append, encode_append, List.length_append, List.length_append]
    omega
  have hrest : Parser.EndsNumber (encode after) := by
    have hnil : Parser.EndsNumber [] := by simp [Parser.EndsNumber]
    have hends := Parser.endsNumber_ws (Parser.isWs_of_mem_encode hafter) hnil
    rwa [List.append_nil] at hends
  obtain ⟨q, hq, hend⟩ := Parser.readsItem h _ hfuel (encode after) hrest
    ⟨encode (before ++ text ++ after), 0⟩ (encode before).length (by
      rw [encode_append, encode_append, List.append_assoc, Parser.ws_encode hbefore, Nat.zero_add])
  have hlast := Parser.ws_encode hafter [] ((encode before).length + (encode text).length)
  rw [List.append_nil, Parser.ws_nil] at hlast
  have hi : q.ws.i = (encode (before ++ text ++ after)).length := by
    rw [hend, hlast, encode_append, encode_append, List.length_append, List.length_append]
  simp only [Value.parse, hq, hi, bind, Except.bind, ne_eq, not_true, if_false]

/-- The grammar is unambiguous: a text denotes one value. -/
theorem document_unique {t : Text} {v w : Value} (hv : Rfc8259.Document t v)
    (hw : Rfc8259.Document t w) : v = w := by
  obtain ⟨before, text, after, hbefore, hderives, hafter, rfl⟩ := hv
  obtain ⟨before', text', after', hbefore', hderives', hafter', heq⟩ := hw
  have hparse := Value.parse_derived hbefore hderives hafter
  rw [heq, Value.parse_derived hbefore' hderives' hafter'] at hparse
  exact (Except.ok.inj hparse).symm

/-- `parse` accepts every document, and returns what it denotes. -/
theorem Value.parse_document {t : Text} {v : Value} (h : Rfc8259.Document t v) :
    Value.parse t = .ok v := by
  obtain ⟨before, text, after, hbefore, hderives, hafter, rfl⟩ := h
  exact Value.parse_derived hbefore hderives hafter

/-- A duplicate key, a surrogate pair in both cases of digits, an empty array and blanks. -/
theorem Value.parse_document_members :
    Value.parse "\n\x7b \"\\u00e9\" :[ ],\"é\": \"\\uD83D\\ude00\" \x7d\t".toList =
      .ok (.object [(['é'], .array []), (['é'], .str ['😀'])]) := by
  have hhex : Rfc8259.Hex4 "00e9".toList ('é'.toNat) :=
    .mk (i := 0) (j := 0) (k := 14) (l := 9) rfl rfl rfl rfl
  have hhigh : Rfc8259.Hex4 "D83D".toList (0xD800 + 0x3D) :=
    .mk (i := 13) (j := 8) (k := 3) (l := 13) rfl rfl rfl rfl
  have hlow : Rfc8259.Hex4 "de00".toList (0xDC00 + 0x200) :=
    .mk (i := 13) (j := 14) (k := 0) (l := 0) rfl rfl rfl rfl
  have hescaped : Rfc8259.StringToken "\"\\u00e9\"".toList ['é'] :=
    ⟨[("\\u00e9".toList, 'é')], by simpa using .unicode hhex, rfl, rfl⟩
  have hraw : Rfc8259.StringToken "\"é\"".toList ['é'] :=
    ⟨[(['é'], 'é')], by simpa using .unescaped (by decide) (by decide) (by decide), rfl, rfl⟩
  have hsmiley : Rfc8259.StringToken "\"\\uD83D\\ude00\"".toList ['😀'] :=
    ⟨[("\\uD83D\\ude00".toList, '😀')],
      by simpa using .pair hhigh (by decide) hlow (by decide) rfl, rfl, rfl⟩
  have hbracket : Rfc8259.Token '[' "[ ".toList := ⟨[], [' '], by decide, by decide, rfl⟩
  have hcolon : Rfc8259.Token ':' " :".toList := ⟨[' '], [], by decide, by decide, rfl⟩
  have hspace : Rfc8259.Token ':' ": ".toList := ⟨[], [' '], by decide, by decide, rfl⟩
  have hcomma : Rfc8259.Token ',' ",".toList := ⟨[], [], by decide, by decide, rfl⟩
  have harray : Rfc8259.Derives "[ ]".toList (.array []) :=
    @Rfc8259.Derives.array _ _ _ [] hbracket .nil ⟨[], [], by decide, by decide, rfl⟩ (by simp)
  have hobject : Rfc8259.Derives _ (.object [(['é'], .array []), (['é'], .str ['😀'])]) :=
    @Rfc8259.Derives.object _ _ _
      [⟨_, _, _, _, _, hescaped, hcolon⟩, ⟨_, _, _, _, _, hraw, hspace⟩]
      ⟨[], [' '], by decide, by decide, rfl⟩ (.cons hcomma (.single _))
      ⟨[' '], [], by decide, by decide, rfl⟩ (by simpa using ⟨harray, .string hsmiley⟩)
  exact Value.parse_document ⟨['\n'], _, ['\t'], by decide, hobject, by decide, rfl⟩

end Lwrt.Json
