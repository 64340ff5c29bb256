import Lwrt.Verification.Json.Language

/-! # What the parser accepts is a document

Each part of the parser takes a text off the input, and the text derives what it returns. -/

namespace Lwrt.Json

open Library Library.Text Library.Utf8

namespace Parser

/-- The text between two positions of the input. -/
structure Consumes (p : Parser) (t : Text) (q : Parser) : Prop where
  rest : p.rest = encode t ++ q.rest
  offset : q.i = p.i + (encode t).length

theorem Consumes.refl (p : Parser) : Consumes p [] p where
  rest := rfl
  offset := rfl

theorem Consumes.trans {p q r : Parser} {s t : Text} (hp : Consumes p s q) (hq : Consumes q t r) :
    Consumes p (s ++ t) r where
  rest := by rw [encode_append, List.append_assoc, ← hq.rest, hp.rest]
  offset := by rw [encode_append, List.length_append, hq.offset, hp.offset, Nat.add_assoc]

theorem consumes_advance {p : Parser} {t : Text} {n : ℕ} (h : encode t = p.rest.take n)
    (hn : n ≤ p.rest.length) : Consumes p t (p.advance n) where
  rest := by rw [h, advance, List.take_append_drop]
  offset := by rw [h, advance, List.length_take, Nat.min_eq_left hn]

theorem consumes_peek {p : Parser} {c : Char} (hc : c.toNat < 0x80)
    (h : p.peek = some (byte c)) : Consumes p [c] (p.advance 1) := by
  obtain ⟨tail, htail⟩ := List.head?_eq_some_iff.mp h
  apply consumes_advance
  · rw [encode_cons_ascii hc, encode_nil, htail]
    rfl
  · rw [htail]
    simp

theorem expect_consumes {p q : Parser} {c : Char} (hc : c.toNat < 0x80)
    (h : expect (byte c) p = .ok q) : Consumes p [c] q := by
  unfold expect at h
  split at h
  · rename_i hpeek
    obtain rfl := Except.ok.inj h
    exact consumes_peek hc hpeek
  · cases h

/-! ## Runs of ASCII characters -/

/-- Bytes that are those of ASCII characters are the bytes of a text. -/
theorem exists_encode_eq {P : Char → Prop} {bytes : List UInt8}
    (h : ∀ b ∈ bytes, ∃ c, P c ∧ c.toNat < 0x80 ∧ byte c = b) :
    ∃ t : Text, (∀ c ∈ t, P c) ∧ encode t = bytes := by
  induction bytes with
  | nil => exact ⟨[], by simp, rfl⟩
  | cons b bytes ih =>
      obtain ⟨c, hc, hascii, rfl⟩ := h b (by simp)
      obtain ⟨t, ht, rfl⟩ := ih fun d hd => h d (by simp [hd])
      exact ⟨c :: t, List.forall_mem_cons.mpr ⟨hc, ht⟩, encode_cons_ascii hascii t⟩

/-- The character of an ASCII byte. -/
theorem exists_byte_eq {b : UInt8} (h : b.toNat < 0x80) :
    ∃ c : Char, c.toNat = b.toNat ∧ byte c = b := by
  have hvalid : b.toNat.isValidChar := Or.inl (by omega)
  refine ⟨Char.ofNat b.toNat, toNat_char_ofNat hvalid, ?_⟩
  rw [byte, toNat_char_ofNat hvalid]
  exact (eq_ofNat_iff (by omega)).mpr rfl

theorem ws_consumes (p : Parser) : ∃ w, Rfc8259.IsWs w ∧ Consumes p w p.ws := by
  obtain ⟨w, hw, henc⟩ : ∃ w : Text, (∀ c ∈ w, c ∈ [' ', '\t', '\n', '\r']) ∧
      encode w = p.rest.takeWhile isWs := by
    apply exists_encode_eq
    intro b hb
    have hws := List.mem_takeWhile_imp hb
    simp only [isWs, Bool.or_eq_true, beq_iff_eq] at hws
    rcases hws with ((rfl | rfl) | rfl) | rfl
    · exact ⟨' ', by simp, by decide, rfl⟩
    · exact ⟨'\t', by simp, by decide, rfl⟩
    · exact ⟨'\n', by simp, by decide, rfl⟩
    · exact ⟨'\r', by simp, by decide, rfl⟩
  refine ⟨w, hw, consumes_advance ?_ (List.takeWhile_prefix isWs).length_le⟩
  rw [henc]
  exact List.prefix_iff_eq_take.mp (List.takeWhile_prefix isWs)

/-- A structural character between whitespace. -/
theorem consumes_token {p q r s : Parser} {c : Char} {before after : Text}
    (hbefore : Rfc8259.IsWs before) (hafter : Rfc8259.IsWs after) (hp : Consumes p before q)
    (hq : Consumes q [c] r) (hr : Consumes r after s) :
    ∃ t, Rfc8259.Token c t ∧ Consumes p t s :=
  ⟨before ++ ([c] ++ after), ⟨before, after, hbefore, hafter, rfl⟩, hp.trans (hq.trans hr)⟩

/-! ## Strings -/

theorem exists_hexValue {b : UInt8} {d : ℕ} (h : hexDigit b = some d) :
    ∃ c, Rfc8259.hexValue c = some d ∧ c.toNat < 0x80 ∧ byte c = b := by
  simp only [hexDigit, UInt8.le_iff_toNat_le, Bool.and_eq_true, decide_eq_true_eq] at h
  change (if 48 ≤ b.toNat ∧ b.toNat ≤ 57 then some (b.toNat - 48)
    else if 97 ≤ b.toNat ∧ b.toNat ≤ 102 then some (b.toNat - 87)
    else if 65 ≤ b.toNat ∧ b.toNat ≤ 70 then some (b.toNat - 55) else none) = some d at h
  have hascii : b.toNat < 0x80 := by
    by_contra hge
    rw [if_neg (by omega), if_neg (by omega), if_neg (by omega)] at h
    cases h
  obtain ⟨c, hc, hbyte⟩ := exists_byte_eq hascii
  refine ⟨c, ?_, by omega, hbyte⟩
  have hle : ∀ x y : Char, x ≤ y ↔ x.toNat ≤ y.toNat := fun _ _ => Iff.rfl
  simp only [Rfc8259.hexValue, hle, Char.reduceToNat, hc]
  rw [← h]
  split_ifs <;> simp only [Option.some.injEq] <;> omega

theorem hexDigits_succ {n v r : ℕ} {p q : Parser} (h : hexDigits (n + 1) v p = .ok (r, q)) :
    ∃ c d, Rfc8259.hexValue c = some d ∧ Consumes p [c] (p.advance 1) ∧
      hexDigits n (v * 16 + d) (p.advance 1) = .ok (r, q) := by
  rw [hexDigits] at h
  split at h
  · cases h
  · rename_i b hpeek
    split at h
    · cases h
    · rename_i d hd
      obtain ⟨c, hc, hascii, rfl⟩ := exists_hexValue hd
      exact ⟨c, d, hc, consumes_peek hascii hpeek, h⟩

theorem hex4_consumes {p q : Parser} {n : ℕ} (h : hex4 p = .ok (n, q)) :
    ∃ t, Rfc8259.Hex4 t n ∧ Consumes p t q := by
  obtain ⟨a, i, ha, hpa, h⟩ := hexDigits_succ h
  obtain ⟨b, j, hb, hpb, h⟩ := hexDigits_succ h
  obtain ⟨c, k, hc, hpc, h⟩ := hexDigits_succ h
  obtain ⟨d, l, hd, hpd, h⟩ := hexDigits_succ h
  obtain ⟨rfl, rfl⟩ := Prod.mk.inj (Except.ok.inj h)
  refine ⟨[a, b, c, d], ?_, hpa.trans (hpb.trans (hpc.trans hpd))⟩
  have hvalue : (((0 * 16 + i) * 16 + j) * 16 + k) * 16 + l =
      i * 4096 + j * 256 + k * 16 + l := by omega
  rw [hvalue]
  exact .mk ha hb hc hd

/-- A computation in two parts. -/
theorem bind_eq_ok {α β : Type} {x : Except Text α} {f : α → Except Text β} {b : β}
    (h : x >>= f = .ok b) : ∃ a, x = .ok a ∧ f a = .ok b := by
  cases x with
  | error e => cases h
  | ok a => exact ⟨a, rfl, h⟩

theorem codePoint_consumes {p q : Parser} {hi cp : ℕ} (h : codePoint p hi = .ok (cp, q)) :
    (cp = hi ∧ q = p) ∨ ∃ hi' lo low, hi = 0xD800 + hi' ∧ hi' < 0x400 ∧
      Rfc8259.Hex4 low (0xDC00 + lo) ∧ lo < 0x400 ∧ cp = 0x10000 + hi' * 0x400 + lo ∧
      Consumes p ('\\' :: 'u' :: low) q := by
  unfold codePoint at h
  split at h
  · rename_i hhigh
    split at h
    · rename_i hpeek
      obtain ⟨r, hr, h⟩ := bind_eq_ok h
      obtain ⟨⟨unit, t⟩, hunit, h⟩ := bind_eq_ok h
      obtain ⟨low, hlow, hconsumes⟩ := hex4_consumes hunit
      simp only at h
      split at h
      · rename_i hrange
        obtain ⟨rfl, rfl⟩ := Prod.mk.inj (Except.ok.inj h)
        refine Or.inr ⟨hi - 0xD800, unit - 0xDC00, low, by omega, by omega, ?_, by omega, rfl,
          (consumes_peek (by decide) hpeek).trans ((expect_consumes (by decide) hr).trans
            hconsumes)⟩
        rwa [Nat.add_sub_cancel' hrange.1]
      · cases h
    · cases h
  · obtain ⟨rfl, rfl⟩ := Prod.mk.inj (Except.ok.inj h)
    exact Or.inl ⟨rfl, rfl⟩

theorem toNat_of_fromU32 {n : ℕ} {c : Char} (h : fromU32 n = some c) : c.toNat = n := by
  by_cases hvalid : n.isValidChar
  · rw [fromU32, dif_pos hvalid] at h
    rw [← Option.some.inj h]
    rfl
  · rw [fromU32, dif_neg hvalid] at h
    cases h

theorem unicodeEscape_consumes {p q : Parser} {c : Char} (h : unicodeEscape p = .ok (c, q)) :
    ∃ t, Rfc8259.Character ('\\' :: 'u' :: t) c ∧ Consumes p t q := by
  obtain ⟨⟨hi, r⟩, hhi, h⟩ := bind_eq_ok h
  obtain ⟨⟨cp, s⟩, hcp, h⟩ := bind_eq_ok h
  simp only at h
  split at h
  · rename_i d hd
    obtain ⟨rfl, rfl⟩ := Prod.mk.inj (Except.ok.inj h)
    have hvalue : d.toNat = cp := toNat_of_fromU32 hd
    obtain ⟨t, ht, hconsumes⟩ := hex4_consumes hhi
    rcases codePoint_consumes hcp with ⟨rfl, rfl⟩ |
      ⟨hi', lo, low, rfl, hhi', hlow, hlo, hpair, hrest⟩
    · exact ⟨t, .unicode (hvalue ▸ ht), hconsumes⟩
    · exact ⟨t ++ '\\' :: 'u' :: low, .pair ht hhi' hlow hlo (hvalue.trans hpair),
        hconsumes.trans hrest⟩
  · cases h

theorem escape_consumes {p q : Parser} {c : Char} (h : escape p = .ok (c, q)) :
    ∃ t, Rfc8259.Character ('\\' :: t) c ∧ Consumes p t q := by
  unfold escape at h
  split at h
  · cases h
  · rename_i e hpeek
    have hshort : ∀ {d x : Char}, (d, x) ∈ Rfc8259.shortEscapes → e = byte d →
        (Except.ok (x, p.advance 1) : Except Text (Char × Parser)) = .ok (c, q) →
        ∃ t, Rfc8259.Character ('\\' :: t) c ∧ Consumes p t q := by
      rintro d x hmem rfl hok
      obtain ⟨rfl, rfl⟩ := Prod.mk.inj (Except.ok.inj hok)
      have hascii : ∀ pair ∈ Rfc8259.shortEscapes, pair.1.toNat < 0x80 := by
        simp [Rfc8259.shortEscapes]
      exact ⟨[d], .short hmem, consumes_peek (hascii _ hmem) hpeek⟩
    simp only at h
    by_cases hquote : e = byte '"'
    · rw [if_pos hquote] at h
      exact hshort (by simp [Rfc8259.shortEscapes]) hquote h
    rw [if_neg hquote] at h
    by_cases hslash : e = byte '\\'
    · rw [if_pos hslash] at h
      exact hshort (by simp [Rfc8259.shortEscapes]) hslash h
    rw [if_neg hslash] at h
    by_cases hsolidus : e = byte '/'
    · rw [if_pos hsolidus] at h
      exact hshort (by simp [Rfc8259.shortEscapes]) hsolidus h
    rw [if_neg hsolidus] at h
    by_cases hn : e = byte 'n'
    · rw [if_pos hn] at h
      exact hshort (by simp [Rfc8259.shortEscapes]) hn h
    rw [if_neg hn] at h
    by_cases hr : e = byte 'r'
    · rw [if_pos hr] at h
      exact hshort (by simp [Rfc8259.shortEscapes]) hr h
    rw [if_neg hr] at h
    by_cases ht : e = byte 't'
    · rw [if_pos ht] at h
      exact hshort (by simp [Rfc8259.shortEscapes]) ht h
    rw [if_neg ht] at h
    by_cases hb : e = byte 'b'
    · rw [if_pos hb] at h
      exact hshort (by simp [Rfc8259.shortEscapes]) hb h
    rw [if_neg hb] at h
    by_cases hf : e = byte 'f'
    · rw [if_pos hf] at h
      exact hshort (by simp [Rfc8259.shortEscapes]) hf h
    rw [if_neg hf] at h
    by_cases hu : e = byte 'u'
    · rw [if_pos hu] at h
      obtain ⟨t, ht, hconsumes⟩ := unicodeEscape_consumes h
      rw [hu] at hpeek
      exact ⟨'u' :: t, ht, (consumes_peek (by decide) hpeek).trans hconsumes⟩
    · rw [if_neg hu] at h
      cases h

/-- A byte that is copied through with its continuation bytes is one character. -/
theorem exists_raw {p : Parser} {b : UInt8} {part : Text} (hpeek : p.peek = some b)
    (h : fromUtf8 (p.rest.take (1 + utf8Extra b)) = some part) : ∃ c, part = [c] := by
  obtain ⟨tail, htail⟩ := List.head?_eq_some_iff.mp hpeek
  have henc := fromUtf8_eq_some_iff.mp h
  rw [htail, Nat.add_comm, List.take_succ_cons] at henc
  cases part with
  | nil => cases henc
  | cons c part =>
      rw [encode_cons] at henc
      obtain ⟨d, lead, hlead⟩ := List.exists_cons_of_ne_nil (String.utf8EncodeChar_ne_nil (c := c))
      rw [hlead, List.cons_append] at henc
      obtain ⟨rfl, hcont⟩ := List.cons.inj henc
      have hlen := congrArg List.length hcont
      have hle : (tail.take (utf8Extra d)).length ≤ utf8Extra d := by
        rw [List.length_take]
        exact Nat.min_le_left _ _
      rw [List.length_append, utf8Extra_lead hlead] at hlen
      rw [utf8Extra_lead hlead] at hle
      have hnil : encode part = [] := List.length_eq_zero_iff.mp (by omega)
      have hpart := length_le_length_encode part
      rw [hnil] at hpart
      exact ⟨c, by rw [List.length_eq_zero_iff.mp (Nat.le_zero.mp hpart)]⟩

/-- A character that is neither a quote nor a backslash stands for itself. -/
theorem character_raw {c : Char} (hquote : c ≠ '"') (hslash : c ≠ '\\') :
    JsonText.Character [c] c := by
  by_cases hcontrol : c.toNat < 0x20
  · exact .control hcontrol
  · exact .standard (.unescaped (Nat.le_of_not_lt hcontrol) hquote hslash)

theorem stringLoop_consumes {fuel : ℕ} {out s : Text} {p q : Parser}
    (h : stringLoop fuel out p = .ok (s, q)) :
    ∃ chars : List (Text × Char), (∀ char ∈ chars, JsonText.Character char.1 char.2) ∧
      s = out ++ chars.map Prod.snd ∧ Consumes p (chars.flatMap Prod.fst ++ ['"']) q := by
  induction fuel generalizing out p with
  | zero => cases h
  | succ fuel ih =>
      -- a character in front of those that the rest of the loop reads
      have hcons : ∀ {t c r}, JsonText.Character t c → Consumes p t r →
          stringLoop fuel (out ++ [c]) r = .ok (s, q) →
          ∃ chars : List (Text × Char), (∀ char ∈ chars, JsonText.Character char.1 char.2) ∧
            s = out ++ chars.map Prod.snd ∧ Consumes p (chars.flatMap Prod.fst ++ ['"']) q := by
        intro t c r hchar hconsumes hloop
        obtain ⟨chars, hchars, rfl, hrest⟩ := ih hloop
        refine ⟨(t, c) :: chars, List.forall_mem_cons.mpr ⟨hchar, hchars⟩, by simp, ?_⟩
        rw [List.flatMap_cons, List.append_assoc]
        exact hconsumes.trans hrest
      rw [stringLoop] at h
      split at h
      · cases h
      · rename_i b hpeek
        split at h
        · rename_i hquote
          obtain ⟨rfl, rfl⟩ := Prod.mk.inj (Except.ok.inj h)
          rw [hquote] at hpeek
          exact ⟨[], by simp, by simp, consumes_peek (by decide) hpeek⟩
        · rename_i hquote
          split at h
          · rename_i hslash
            rw [hslash] at hpeek
            obtain ⟨⟨c, r⟩, hescape, hloop⟩ := bind_eq_ok h
            obtain ⟨t, ht, hconsumes⟩ := escape_consumes hescape
            exact hcons (.standard ht) ((consumes_peek (by decide) hpeek).trans hconsumes) hloop
          · rename_i hslash
            split at h
            · cases h
            · rename_i hlen
              split at h
              · cases h
              · rename_i part hpart
                obtain ⟨c, rfl⟩ := exists_raw hpeek hpart
                have henc := fromUtf8_eq_some_iff.mp hpart
                have hne : ∀ d : Char, d.toNat < 0x80 → b ≠ byte d → c ≠ d := by
                  rintro d hascii hbd rfl
                  obtain ⟨tail, htail⟩ := List.head?_eq_some_iff.mp hpeek
                  rw [encode_cons_ascii hascii, htail, Nat.add_comm, List.take_succ_cons] at henc
                  exact hbd (List.cons.inj henc).1.symm
                exact hcons (character_raw (hne '"' (by decide) hquote)
                  (hne '\\' (by decide) hslash)) (consumes_advance henc (Nat.le_of_not_lt hlen)) h

theorem string_consumes {p q : Parser} {s : Text} (h : string p = .ok (s, q)) :
    ∃ t, JsonText.StringToken t s ∧ Consumes p t q := by
  obtain ⟨r, hquote, h⟩ := bind_eq_ok h
  obtain ⟨chars, hchars, rfl, hconsumes⟩ := stringLoop_consumes h
  exact ⟨_, ⟨chars, hchars, rfl, rfl⟩, (expect_consumes (by decide) hquote).trans hconsumes⟩

/-! ## Numbers and literals -/

theorem exists_isNumberChar {b : UInt8} (h : isNumberByte b = true) :
    ∃ c, JsonText.IsNumberChar c ∧ c.toNat < 0x80 ∧ byte c = b := by
  simp only [isNumberByte, Bool.or_eq_true, beq_iff_eq] at h
  rcases h with ((((h | rfl) | rfl) | rfl) | rfl) | rfl
  · simp only [isDigit, Bool.and_eq_true, decide_eq_true_eq, UInt8.le_iff_toNat_le] at h
    have hlo : 48 ≤ b.toNat := h.1
    have hhi : b.toNat ≤ 57 := h.2
    obtain ⟨c, hc, hbyte⟩ := exists_byte_eq (b := b) (by omega)
    refine ⟨c, Or.inl ?_, by omega, hbyte⟩
    simp only [Char.isDigit, Bool.and_eq_true, decide_eq_true_eq, UInt32.le_iff_toNat_le]
    rw [← hc] at hlo hhi
    exact ⟨hlo, hhi⟩
  · exact ⟨'.', by simp [JsonText.IsNumberChar], by decide, rfl⟩
  · exact ⟨'e', by simp [JsonText.IsNumberChar], by decide, rfl⟩
  · exact ⟨'E', by simp [JsonText.IsNumberChar], by decide, rfl⟩
  · exact ⟨'+', by simp [JsonText.IsNumberChar], by decide, rfl⟩
  · exact ⟨'-', by simp [JsonText.IsNumberChar], by decide, rfl⟩

theorem encode_injective {s t : Text} (h : encode s = encode t) : s = t := by
  have hsame := congrArg fromUtf8 h
  rw [fromUtf8_encode, fromUtf8_encode] at hsame
  exact Option.some.inj hsame

/-- The bytes that `number` takes. -/
theorem numberBytes_eq {p : Parser} {b : UInt8} (hpeek : p.peek = some b)
    (hb : isNumberByte b = true) :
    (if p.peek = some (byte '-') then 1 else 0) +
        ((p.advance (if p.peek = some (byte '-') then 1 else 0)).rest.takeWhile
          isNumberByte).length = (p.rest.takeWhile isNumberByte).length := by
  obtain ⟨tail, htail⟩ := List.head?_eq_some_iff.mp hpeek
  split
  · rw [advance, htail, List.drop_succ_cons, List.drop_zero, List.takeWhile_cons_of_pos hb,
      List.length_cons, Nat.add_comm]
  · rw [advance, List.drop_zero, Nat.zero_add]

theorem number_consumes {p q : Parser} {v : Value} {b : UInt8} (hpeek : p.peek = some b)
    (hstart : b = byte '-' ∨ isDigit b = true) (h : number p = .ok (v, q)) :
    ∃ t n, v = .num n ∧ JsonText.Number t n ∧ Consumes p t q := by
  have hb := (number_start hstart).1
  simp only [number, numberBytes_eq hpeek hb] at h
  split at h
  · cases h
  · rename_i t ht
    split at h
    · rename_i n hn
      obtain ⟨rfl, rfl⟩ := Prod.mk.inj (Except.ok.inj h)
      have henc := fromUtf8_eq_some_iff.mp ht
      have hle := (List.takeWhile_prefix (l := p.rest) isNumberByte).length_le
      refine ⟨t, n, rfl, ?_, consumes_advance henc hle⟩
      rw [← List.prefix_iff_eq_take.mp (List.takeWhile_prefix isNumberByte)] at henc
      obtain ⟨t', ht', henc'⟩ : ∃ t' : Text, (∀ c ∈ t', JsonText.IsNumberChar c) ∧
          encode t' = p.rest.takeWhile isNumberByte :=
        exists_encode_eq fun d hd => exists_isNumberChar (List.mem_takeWhile_imp hd)
      obtain rfl := encode_injective (henc.trans henc'.symm)
      apply JsonText.number_of_parse _ ht' hn
      obtain ⟨tail, htail⟩ := List.head?_eq_some_iff.mp hpeek
      rw [htail, List.takeWhile_cons_of_pos hb] at henc
      cases t with
      | nil => cases henc
      | cons c t =>
          have hascii := (byte_of_isNumberChar (ht' c (by simp))).1
          rw [encode_cons_ascii hascii] at henc
          obtain ⟨rfl, -⟩ := List.cons.inj henc
          refine ⟨c, t, rfl, ?_⟩
          rcases hstart with hminus | hdigit
          · exact Or.inl ((byte_eq_byte_iff hascii (by decide)).mp hminus)
          · right
            have hbyte : (byte c).toNat = c.toNat := toNat_ofNat_of_lt (by omega)
            simp only [isDigit, UInt8.le_iff_toNat_le, hbyte, Bool.and_eq_true,
              decide_eq_true_eq] at hdigit
            simp only [Char.isDigit, Bool.and_eq_true, decide_eq_true_eq, UInt32.le_iff_toNat_le]
            exact hdigit
    · cases h

theorem startsWith_consumes {p : Parser} {word : String} {n : ℕ}
    (hall : word.toList.all (fun c => c.toNat < 0x80) = true) (hn : word.toList.length = n)
    (h : p.startsWith word = true) : Consumes p word.toList (p.advance n) := by
  have hascii : ∀ c ∈ word.toList, c.toNat < 0x80 := by simpa using hall
  have hprefix := List.isPrefixOf_iff_prefix.mp h
  have hlen := hprefix.length_le
  rw [List.length_map, hn] at hlen
  refine consumes_advance ?_ hlen
  rw [encode_ascii hascii, List.prefix_iff_eq_take.mp hprefix, List.length_map, hn]

theorem boolean_consumes {p q : Parser} {v : Value} (h : boolean p = .ok (v, q)) :
    ∃ t, JsonText.Derives t v ∧ Consumes p t q := by
  unfold boolean at h
  split at h
  · rename_i htrue
    obtain ⟨rfl, rfl⟩ := Prod.mk.inj (Except.ok.inj h)
    exact ⟨_, .true, startsWith_consumes (by decide) (by decide) htrue⟩
  · split at h
    · rename_i hfalse
      obtain ⟨rfl, rfl⟩ := Prod.mk.inj (Except.ok.inj h)
      exact ⟨_, .false, startsWith_consumes (by decide) (by decide) hfalse⟩
    · cases h

theorem null_consumes {p q : Parser} {v : Value} (h : null p = .ok (v, q)) :
    ∃ t, JsonText.Derives t v ∧ Consumes p t q := by
  unfold null at h
  split at h
  · rename_i hnull
    obtain ⟨rfl, rfl⟩ := Prod.mk.inj (Except.ok.inj h)
    exact ⟨_, .null, startsWith_consumes (by decide) (by decide) hnull⟩
  · cases h

/-! ## Arrays and objects -/

section Loop

variable {α : Type} {closing : Char} {wrap : List α → Value}
  {item : ℕ → Parser → Except Text (α × Parser)}
  {loop : ℕ → List α → Parser → Except Text (Value × Parser)} {G : Text → α → Prop}

/-- A round of a loop that returns: an item, then a comma and another round, or the end. -/
structure LoopReturns (closing : Char) (wrap : List α → Value)
    (item : ℕ → Parser → Except Text (α × Parser))
    (loop : ℕ → List α → Parser → Except Text (Value × Parser)) : Prop where
  zero : ∀ {acc p r}, loop 0 acc p ≠ .ok r
  succ : ∀ {fuel acc p r}, loop (fuel + 1) acc p = .ok r → ∃ a q, item fuel p.ws = .ok (a, q) ∧
    ((q.ws.peek = some (byte ',') ∧ loop fuel (acc ++ [a]) (q.ws.advance 1) = .ok r) ∨
      (q.ws.peek = some (byte closing) ∧ r = (wrap (acc ++ [a]), q.ws.advance 1)))

/-- The text that a loop takes: whitespace, the items with their separators, and the closing
bracket. -/
theorem loop_consumes (hloop : LoopReturns closing wrap item loop) (hclosing : closing.toNat < 0x80)
    {fuel : ℕ} (hitem : ∀ k < fuel, ∀ {p q a}, item k p = .ok (a, q) → ∃ t, G t a ∧ Consumes p t q)
    {acc : List α} {p q : Parser} {v : Value} (h : loop fuel acc p = .ok (v, q)) :
    ∃ (items : List (Text × α)) (start body close : Text), Rfc8259.IsWs start ∧
      (∀ x ∈ items, G x.1 x.2) ∧ items ≠ [] ∧
      Rfc8259.Separated ',' (items.map Prod.fst) body ∧ Rfc8259.Token closing close ∧
      v = wrap (acc ++ items.map Prod.snd) ∧ Consumes p (start ++ (body ++ close)) q := by
  induction fuel generalizing acc p with
  | zero => exact absurd h hloop.zero
  | succ fuel ih =>
      obtain ⟨a, r, ha, hend⟩ := hloop.succ h
      obtain ⟨start, hstart, hpre⟩ := ws_consumes p
      obtain ⟨t, ht, hmid⟩ := hitem fuel (Nat.lt_succ_self fuel) ha
      obtain ⟨w, hw, hpost⟩ := ws_consumes r
      rcases hend with ⟨hcomma, hmore⟩ | ⟨hlast, heq⟩
      · obtain ⟨items, w', body, close, hw', hitems, hne, hbody, hclose, rfl, hrest⟩ :=
          ih (fun k hk => hitem k (Nat.lt_succ_of_lt hk)) hmore
        have hsep : Rfc8259.Token ',' (w ++ ',' :: w') := ⟨w, w', hw, hw', rfl⟩
        obtain ⟨y, items, rfl⟩ := List.exists_cons_of_ne_nil hne
        refine ⟨(t, a) :: y :: items, start, t ++ (w ++ ',' :: w') ++ body, close, hstart,
          List.forall_mem_cons.mpr ⟨ht, hitems⟩, by simp, .cons hsep hbody, hclose, by simp, ?_⟩
        have hall := hpre.trans (hmid.trans (hpost.trans
          ((consumes_peek (by decide) hcomma).trans hrest)))
        simpa using hall
      · obtain ⟨rfl, rfl⟩ := Prod.mk.inj heq
        refine ⟨[(t, a)], start, t, w ++ [closing], hstart, by simpa using ht, by simp, .single t,
          ⟨w, [], hw, by simp [Rfc8259.IsWs], rfl⟩, rfl, ?_⟩
        have hall := hpre.trans (hmid.trans (hpost.trans (consumes_peek hclosing hlast)))
        simpa using hall

/-- The text of an array or an object. -/
theorem delimited_consumes {opening : Char} (hloop : LoopReturns closing wrap item loop)
    (hopening : opening.toNat < 0x80) (hclosing : closing.toNat < 0x80) {fuel : ℕ}
    (hitem : ∀ k < fuel, ∀ {p q a}, item k p = .ok (a, q) → ∃ t, G t a ∧ Consumes p t q)
    {p q : Parser} {v : Value}
    (h : delimited opening closing (wrap []) (loop fuel []) p = .ok (v, q)) :
    ∃ (items : List (Text × α)) (start body close : Text), Rfc8259.Token opening start ∧
      (∀ x ∈ items, G x.1 x.2) ∧ Rfc8259.Separated ',' (items.map Prod.fst) body ∧
      Rfc8259.Token closing close ∧ v = wrap (items.map Prod.snd) ∧
      Consumes p (start ++ body ++ close) q := by
  obtain ⟨r, hopen, h⟩ := bind_eq_ok h
  have hpre := expect_consumes hopening hopen
  obtain ⟨w, hw, hws⟩ := ws_consumes r
  have hnone : Rfc8259.IsWs [] := List.forall_mem_nil _
  simp only at h
  split at h
  · rename_i hpeek
    obtain ⟨rfl, rfl⟩ := Prod.mk.inj (Except.ok.inj h)
    refine ⟨[], opening :: w, [], [closing], ⟨[], w, hnone, hw, rfl⟩, by simp, .nil,
      ⟨[], [], hnone, hnone, rfl⟩, rfl, ?_⟩
    have hall := hpre.trans (hws.trans (consumes_peek hclosing hpeek))
    simpa using hall
  · obtain ⟨items, w', body, close, hw', hitems, -, hbody, hclose, rfl, hrest⟩ :=
      loop_consumes hloop hclosing hitem h
    have hblank : Rfc8259.IsWs (w ++ w') := by
      intro c hc
      exact (List.mem_append.mp hc).elim (hw c) (hw' c)
    refine ⟨items, opening :: (w ++ w'), body, close, ⟨[], w ++ w', hnone, hblank, rfl⟩, hitems,
      hbody, hclose, by simp, ?_⟩
    have hall := hpre.trans (hws.trans hrest)
    simpa using hall

end Loop

theorem loopReturns_elements : LoopReturns ']' Value.array value elements where
  zero := by
    intro acc p r h
    cases h
  succ := by
    intro fuel acc p r h
    rw [elements] at h
    obtain ⟨⟨a, q⟩, ha, h⟩ := bind_eq_ok h
    refine ⟨a, q, ha, ?_⟩
    simp only at h
    split at h
    · rename_i hcomma
      exact Or.inl ⟨hcomma, h⟩
    · split at h
      · rename_i hlast
        exact Or.inr ⟨hlast, (Except.ok.inj h).symm⟩
      · cases h

theorem loopReturns_members : LoopReturns '}' Value.object member members where
  zero := by
    intro acc p r h
    cases h
  succ := by
    intro fuel acc p r h
    rw [members_succ] at h
    obtain ⟨⟨a, q⟩, ha, h⟩ := bind_eq_ok h
    refine ⟨a, q, ha, ?_⟩
    simp only at h
    split at h
    · rename_i hcomma
      exact Or.inl ⟨hcomma, h⟩
    · split at h
      · rename_i hlast
        exact Or.inr ⟨hlast, (Except.ok.inj h).symm⟩
      · cases h

/-- A member with the text it was read from. -/
def IsMember (t : Text) (pair : Text × Value) : Prop :=
  ∃ m : JsonText.Member, m.text = t ∧ m.pair = pair ∧ JsonText.Derives m.valueText m.value

theorem member_consumes {fuel : ℕ}
    (hvalue : ∀ {p q v}, value fuel p = .ok (v, q) → ∃ t, JsonText.Derives t v ∧ Consumes p t q)
    {p q : Parser} {pair : Text × Value} (h : member fuel p = .ok (pair, q)) :
    ∃ t, IsMember t pair ∧ Consumes p t q := by
  obtain ⟨⟨key, r⟩, hkey, h⟩ := bind_eq_ok h
  obtain ⟨s, hcolon, h⟩ := bind_eq_ok h
  obtain ⟨⟨val, u⟩, hval, h⟩ := bind_eq_ok h
  obtain ⟨rfl, rfl⟩ := Prod.mk.inj (Except.ok.inj h)
  obtain ⟨keyText, hkeyText, hpre⟩ := string_consumes hkey
  obtain ⟨before, hbefore, hws⟩ := ws_consumes r
  obtain ⟨after, hafter, hws'⟩ := ws_consumes s
  obtain ⟨colon, htoken, hmid⟩ :=
    consumes_token hbefore hafter hws (expect_consumes (by decide) hcolon) hws'
  obtain ⟨t, ht, hpost⟩ := hvalue hval
  refine ⟨keyText ++ colon ++ t, ⟨⟨keyText, key, colon, t, val, hkeyText, htoken⟩, rfl, rfl, ht⟩,
    ?_⟩
  rw [List.append_assoc]
  exact hpre.trans (hmid.trans hpost)

/-- The members behind a list of texts and pairs. -/
theorem exists_members (items : List (Text × (Text × Value)))
    (h : ∀ x ∈ items, IsMember x.1 x.2) :
    ∃ ms : List JsonText.Member, ms.map JsonText.Member.text = items.map Prod.fst ∧
      ms.map JsonText.Member.pair = items.map Prod.snd ∧
      ∀ m ∈ ms, JsonText.Derives m.valueText m.value := by
  induction items with
  | nil => exact ⟨[], rfl, rfl, by simp⟩
  | cons x items ih =>
      obtain ⟨ms, htext, hpair, hms⟩ := ih fun y hy => h y (by simp [hy])
      obtain ⟨m, hm, hm', hderives⟩ := h x (by simp)
      exact ⟨m :: ms, by simp [hm, htext], by simp [hm', hpair],
        List.forall_mem_cons.mpr ⟨hderives, hms⟩⟩

/-! ## Values -/

theorem value_consumes {fuel : ℕ} {p q : Parser} {v : Value} (h : value fuel p = .ok (v, q)) :
    ∃ t, JsonText.Derives t v ∧ Consumes p t q := by
  induction fuel using Nat.strong_induction_on generalizing p q v with
  | _ fuel ih =>
      cases fuel with
      | zero => cases h
      | succ fuel =>
          have hvalue : ∀ k < fuel, ∀ {p q v}, value k p = .ok (v, q) →
              ∃ t, JsonText.Derives t v ∧ Consumes p t q :=
            fun k hk _ _ _ h => ih k (Nat.lt_succ_of_lt hk) h
          rw [value] at h
          split at h
          · cases h
          · rename_i b hpeek
            split at h
            · rename_i hbrace
              obtain ⟨items, start, body, close, hopen, hitems, hbody, hclose, rfl, hconsumes⟩ :=
                delimited_consumes loopReturns_members (by decide) (by decide)
                  (fun k hk => member_consumes (hvalue k hk)) h
              obtain ⟨ms, htext, hpair, hms⟩ := exists_members items hitems
              rw [← htext] at hbody
              exact ⟨_, hpair ▸ .object hopen hbody hclose hms, hconsumes⟩
            · split at h
              · obtain ⟨items, start, body, close, hopen, hitems, hbody, hclose, rfl,
                  hconsumes⟩ := delimited_consumes loopReturns_elements (by decide) (by decide)
                    hvalue h
                exact ⟨_, .array hopen hbody hclose hitems, hconsumes⟩
              · split at h
                · obtain ⟨⟨s, r⟩, hs, h⟩ := bind_eq_ok h
                  obtain ⟨rfl, rfl⟩ := Prod.mk.inj (Except.ok.inj h)
                  obtain ⟨t, ht, hconsumes⟩ := string_consumes hs
                  exact ⟨t, .string ht, hconsumes⟩
                · split at h
                  · exact boolean_consumes h
                  · split at h
                    · exact null_consumes h
                    · split at h
                      · rename_i hstart
                        obtain ⟨t, n, rfl, ht, hconsumes⟩ := number_consumes hpeek hstart h
                        exact ⟨t, .number ht, hconsumes⟩
                      · cases h

end Parser

theorem Value.parse_of_document {t : Text} {v : Value} (h : JsonText.Document t v) :
    Value.parse t = .ok v := by
  obtain ⟨before, text, after, hbefore, hderives, hafter, rfl⟩ := h
  have hfuel : 2 * (encode text).length ≤ 2 * (encode (before ++ text ++ after)).length := by
    rw [encode_append, encode_append, List.length_append, List.length_append]
    omega
  have hrest : Parser.EndsNumber (encode after) := by
    have hnil : Parser.EndsNumber [] := by simp [Parser.EndsNumber]
    have hends := Parser.endsNumber_ws (Parser.isWs_of_mem_encode hafter) hnil
    rwa [List.append_nil] at hends
  obtain ⟨q, hq, hend⟩ := Parser.readsItem_text hderives _ hfuel (encode after) hrest
    ⟨encode (before ++ text ++ after), 0⟩ (encode before).length (by
      rw [encode_append, encode_append, List.append_assoc, Parser.ws_encode hbefore, Nat.zero_add])
  have hlast := Parser.ws_encode hafter [] ((encode before).length + (encode text).length)
  rw [List.append_nil, Parser.ws_nil] at hlast
  have hi : q.ws.i = (encode (before ++ text ++ after)).length := by
    rw [hend, hlast, encode_append, encode_append, List.length_append, List.length_append]
  simp only [Value.parse, hq, hi, bind, Except.bind, ne_eq, not_true, if_false]

end Lwrt.Json
