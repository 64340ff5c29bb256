import Lwrt.Verification.Json.Numbers

/-! # The language of the parser

The texts that `parse` accepts are exactly the documents of `JsonText`, and it returns what they
denote. -/

namespace Lwrt.Json

open Library Library.Text Library.Utf8

namespace Parser

/-! ## Every document is accepted -/

theorem readsCharacter_text {t : Text} {c : Char} (h : JsonText.Character t c) :
    ReadsCharacter t c := by
  cases h with
  | standard h => exact readsCharacter h
  | control h =>
      have hne : ∀ d : Char, 0x20 ≤ d.toNat → c ≠ d := by
        rintro d hd rfl
        omega
      have henc : encode [c] = String.utf8EncodeChar c := by simp [encode]
      intro fuel out rest i
      rw [henc]
      exact stringLoop_raw (hne '"' (by decide)) (hne '\\' (by decide)) fuel out rest i

theorem character_text_ne_nil {t : Text} {c : Char} (h : JsonText.Character t c) : t ≠ [] := by
  cases h with
  | standard h => exact character_ne_nil h
  | control h => simp

/-- The loop of `string` reads the characters one by one, and the closing quote. -/
theorem stringLoop_reads (chars : List (Text × Char))
    (hchars : ∀ char ∈ chars, ReadsCharacter char.1 char.2) {fuel : ℕ}
    (hfuel : chars.length < fuel) (out : Text) (rest : List UInt8) (i : ℕ) :
    stringLoop fuel out ⟨encode (chars.flatMap Prod.fst) ++ byte '"' :: rest, i⟩ =
      .ok (out ++ chars.map Prod.snd,
        ⟨rest, i + (encode (chars.flatMap Prod.fst)).length + 1⟩) := by
  induction chars generalizing fuel out i with
  | nil =>
      obtain ⟨fuel, rfl⟩ := Nat.exists_eq_succ_of_ne_zero (Nat.ne_of_gt hfuel)
      simp [stringLoop, encode]
  | cons char chars ih =>
      obtain ⟨fuel, rfl⟩ := Nat.exists_eq_succ_of_ne_zero (Nat.ne_of_gt (Nat.zero_lt_of_lt hfuel))
      have hread := hchars char (by simp)
      rw [List.flatMap_cons, encode_append, List.append_assoc, hread fuel out,
        ih (fun c hc => hchars c (by simp [hc])) (by simpa using hfuel)]
      simp [Nat.add_assoc]

theorem encode_string_text {t s : Text} (h : JsonText.StringToken t s) :
    ∃ tail, encode t = byte '"' :: tail := by
  obtain ⟨chars, -, rfl, -⟩ := h
  exact ⟨_, encode_cons_ascii (by decide) _⟩

theorem string_text_reads {t s : Text} (h : JsonText.StringToken t s) (rest : List UInt8)
    (i : ℕ) : string ⟨encode t ++ rest, i⟩ = .ok (s, ⟨rest, i + (encode t).length⟩) := by
  obtain ⟨chars, hchars, rfl, rfl⟩ := h
  have hfuel : chars.length < (encode (chars.flatMap Prod.fst) ++ byte '"' :: rest).length := by
    have hflat :=
      length_le_length_flatMap fun char hchar => character_text_ne_nil (hchars char hchar)
    have henc := length_le_length_encode (chars.flatMap Prod.fst)
    simp only [List.length_append, List.length_cons]
    omega
  have hquote : encode ['"'] = [byte '"'] := encode_cons_ascii (by decide) []
  rw [encode_cons_ascii (by decide), encode_append, hquote, List.cons_append, List.append_assoc,
    List.singleton_append]
  simp only [string, expect_cons, bind, Except.bind]
  rw [stringLoop_reads chars (fun c hc => readsCharacter_text (hchars c hc)) hfuel,
    List.nil_append]
  simp only [List.length_cons, List.length_append, List.length_nil]
  congr 3
  omega

theorem byte_of_isNumberChar {c : Char} (h : JsonText.IsNumberChar c) :
    c.toNat < 0x80 ∧ isNumberByte (byte c) = true := by
  rcases h with hc | hc
  · simp only [Char.isDigit, Bool.and_eq_true, decide_eq_true_eq, UInt32.le_iff_toNat_le] at hc
    have hlo : 48 ≤ c.toNat := hc.1
    have hhi : c.toNat ≤ 57 := hc.2
    have hbyte : (byte c).toNat = c.toNat := toNat_ofNat_of_lt (by omega)
    refine ⟨by omega, ?_⟩
    have hdigit : isDigit (byte c) = true := by
      simp only [isDigit, UInt8.le_iff_toNat_le, hbyte, Bool.and_eq_true, decide_eq_true_eq]
      exact ⟨hlo, hhi⟩
    simp [isNumberByte, hdigit]
  · simp only [List.mem_cons, List.not_mem_nil, or_false] at hc
    rcases hc with rfl | rfl | rfl | rfl | rfl <;> decide

theorem encode_number_text {t : Text} {n : F64} (h : JsonText.Number t n) :
    (∀ b ∈ encode t, isNumberByte b = true) ∧
      ∃ b tail, encode t = b :: tail ∧ (b = byte '-' ∨ isDigit b = true) := by
  obtain ⟨⟨c, s, rfl, hstart⟩, hchars⟩ := h.chars
  have hascii := fun d hd => (byte_of_isNumberChar (hchars d hd)).1
  refine ⟨?_, byte c, encode s, encode_cons_ascii (hascii c (by simp)) s, ?_⟩
  · intro b hb
    rw [encode_ascii hascii] at hb
    obtain ⟨d, hd, rfl⟩ := List.mem_map.mp hb
    exact (byte_of_isNumberChar (hchars d hd)).2
  · rcases hstart with rfl | hdigit
    · exact Or.inl rfl
    · right
      simp only [Char.isDigit, Bool.and_eq_true, decide_eq_true_eq, UInt32.le_iff_toNat_le]
        at hdigit
      have hbyte : (byte c).toNat = c.toNat :=
        toNat_ofNat_of_lt (by have := hascii c (by simp); omega)
      simp only [isDigit, UInt8.le_iff_toNat_le, hbyte, Bool.and_eq_true, decide_eq_true_eq]
      exact hdigit

theorem value_number_text {t : Text} {n : F64} (h : JsonText.Number t n) (fuel : ℕ)
    {rest : List UInt8} (hrest : EndsNumber rest) (i : ℕ) :
    value (fuel + 1) ⟨encode t ++ rest, i⟩ = .ok (.num n, ⟨rest, i + (encode t).length⟩) := by
  obtain ⟨hbytes, b, tail, henc, hb⟩ := encode_number_text h
  have hother := (number_start hb).2.2
  have hpeek : peek ⟨encode t ++ rest, i⟩ = some b := by
    rw [henc]
    rfl
  have hne : t ≠ [] := by
    rintro rfl
    cases henc
  have hnumber := number_of_parse hne hbytes h.parse hrest i
  rw [value, hpeek]
  simp only [hother '{' (by simp), hother '[' (by simp), hother '"' (by simp),
    hother 't' (by simp), hother 'f' (by simp), hother 'n' (by simp), hb, if_false, if_true,
    or_self, hnumber]

theorem value_string_text {t s : Text} (h : JsonText.StringToken t s) (fuel : ℕ)
    (rest : List UInt8) (i : ℕ) :
    value (fuel + 1) ⟨encode t ++ rest, i⟩ = .ok (.str s, ⟨rest, i + (encode t).length⟩) := by
  obtain ⟨tail, henc⟩ := encode_string_text h
  have hpeek : peek ⟨encode t ++ rest, i⟩ = some (byte '"') := by
    rw [henc]
    rfl
  rw [value, hpeek]
  simp [string_text_reads h, bind, Except.bind]

theorem readsItem_member_text {m : JsonText.Member} (h : ReadsItem value m.valueText m.value) :
    ReadsItem member m.text m.pair := by
  intro fuel hfuel rest hrest p i hp
  obtain ⟨tail, hquote⟩ := encode_string_text m.hkey
  rw [JsonText.Member.text, encode_append, encode_append, List.length_append] at hfuel
  rw [JsonText.Member.text, encode_append, encode_append, List.append_assoc, List.append_assoc,
    hquote, List.cons_append, ws_cons (by decide), ← List.cons_append, ← hquote] at hp
  obtain ⟨tail', j, hat, hon⟩ := ws_token (by simp [IsStructural]) m.hcolon
    (encode m.valueText ++ rest) (i + (encode m.keyText).length)
  obtain ⟨q, hq, hend⟩ := h fuel (by omega) rest hrest ⟨tail', j + 1⟩ _ hon
  refine ⟨q, ?_, ?_⟩
  · simp only [member, hp, string_text_reads m.hkey, hat, expect_cons, bind, Except.bind, hq]
    rfl
  · rw [hend, JsonText.Member.text, encode_append, encode_append, List.length_append,
      List.length_append]
    congr 2
    omega

theorem derives_text_ne_nil {t : Text} {v : Value} (h : JsonText.Derives t v) : t ≠ [] := by
  cases h with
  | null | true | false => decide
  | number h =>
      obtain ⟨⟨c, s, rfl, -⟩, -⟩ := h.chars
      simp
  | string h =>
      obtain ⟨chars, -, rfl, -⟩ := h
      simp
  | array hopen | object hopen =>
      obtain ⟨before, after, -, -, rfl⟩ := hopen
      simp

theorem exists_fuel_text {t : Text} {v : Value} (h : JsonText.Derives t v) {fuel : ℕ}
    (hfuel : 2 * (encode t).length ≤ fuel) : ∃ m, fuel = m + 1 := by
  have hpos := List.length_pos_iff.mpr (derives_text_ne_nil h)
  have hle := length_le_length_encode t
  exact ⟨fuel - 1, by omega⟩

theorem readsItem_text {t : Text} {v : Value} (h : JsonText.Derives t v) :
    ReadsItem value t v := by
  induction h with
  | null =>
      intro fuel hfuel rest _
      obtain ⟨fuel, rfl⟩ := exists_fuel_text .null hfuel
      exact reads_of_start rfl (by decide) fun _ => rfl
  | true =>
      intro fuel hfuel rest _
      obtain ⟨fuel, rfl⟩ := exists_fuel_text .true hfuel
      exact reads_of_start rfl (by decide) fun _ => rfl
  | false =>
      intro fuel hfuel rest _
      obtain ⟨fuel, rfl⟩ := exists_fuel_text .false hfuel
      exact reads_of_start rfl (by decide) fun _ => rfl
  | number h =>
      intro fuel hfuel rest hrest
      obtain ⟨fuel, rfl⟩ := exists_fuel_text (.number h) hfuel
      obtain ⟨-, b, tail, henc, hb⟩ := encode_number_text h
      exact reads_of_start henc (number_start hb).2.1 (value_number_text h fuel hrest)
  | string h =>
      intro fuel hfuel rest _
      obtain ⟨fuel, rfl⟩ := exists_fuel_text (.string h) hfuel
      obtain ⟨tail, henc⟩ := encode_string_text h
      exact reads_of_start henc (by decide) (value_string_text h fuel rest)
  | array hopen hbody hclose h ih =>
      intro fuel hfuel rest _
      obtain ⟨fuel, rfl⟩ := exists_fuel_text (.array hopen hbody hclose h) hfuel
      exact reads_delimited isLoop_elements (by simp [IsStructural]) (by simp [IsStructural])
        (value_bracket fuel) hopen hclose hbody ih (fuel_of_delimited hopen hclose hfuel) rest
  | @object start close body ms hopen hbody hclose h ih =>
      intro fuel hfuel rest _
      obtain ⟨fuel, rfl⟩ := exists_fuel_text (.object hopen hbody hclose h) hfuel
      have hitems : ∀ x ∈ ms.map fun m => (m.text, m.pair), ReadsItem member x.1 x.2 := by
        intro x hx
        obtain ⟨m, hm, rfl⟩ := List.mem_map.mp hx
        exact readsItem_member_text (ih m hm)
      have hbody' : Rfc8259.Separated ','
          ((ms.map fun m => (m.text, m.pair)).map Prod.fst) body := by
        rwa [List.map_map]
      have hread := reads_delimited isLoop_members (by simp [IsStructural])
        (by simp [IsStructural]) (value_brace fuel) hopen hclose hbody' hitems
        (fuel_of_delimited hopen hclose hfuel) rest
      rwa [List.map_map] at hread

end Parser

end Lwrt.Json
