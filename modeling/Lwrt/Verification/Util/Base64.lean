import Mathlib.Tactic.Ring
import Lwrt.Applet.Util
import Lwrt.Library.Base64

/-! # The base64 decoder

Standard base64 is decoded to what it spells, with or without padding. Which other texts are
accepted, and the length of what they give, only depends on their symbols. -/

namespace Lwrt.Util

open Library Text Base64

/-! ## One symbol -/

theorem val_symbol {n : ℕ} (h : n < 64) : val (Utf8.byte (symbol n)) = some (UInt8.ofNat n) := by
  have hall : ∀ n < 64, val (Utf8.byte (symbol n)) = some (UInt8.ofNat n) := by decide +kernel
  exact hall n h

theorem skipped_symbol {n : ℕ} (h : n < 64) : skipped (Utf8.byte (symbol n)) = false := by
  have hall : ∀ n < 64, skipped (Utf8.byte (symbol n)) = false := by decide +kernel
  exact hall n h

/-- Symbols and padding are ASCII, and stay when a text is trimmed. -/
theorem symbol_plain {n : ℕ} (h : n < 64) :
    (symbol n).toNat < 0x80 ∧ isWhitespace (symbol n) = false := by
  have hall : ∀ n < 64, (symbol n).toNat < 0x80 ∧ isWhitespace (symbol n) = false := by
    decide +kernel
  exact hall n h

/-- The accumulator after a symbol; bits beyond the word are lost. -/
theorem toNat_acc (acc : UInt32) {n : ℕ} (h : n < 64) :
    (acc <<< 6 ||| (UInt8.ofNat n).toUInt32).toNat = acc.toNat % 2 ^ 26 * 64 + n := by
  have hn : (UInt8.ofNat n).toUInt32.toNat = n := by
    rw [UInt8.toNat_toUInt32, UInt8.toNat_ofNat_of_lt' (Nat.lt_of_lt_of_le h (by decide))]
  have hshift : (acc <<< 6).toNat = (acc.toNat % 2 ^ 26) <<< 6 := by
    rw [UInt32.toNat_shiftLeft, Nat.shiftLeft_eq, Nat.shiftLeft_eq,
      show (6 : UInt32).toNat % 32 = 6 by rfl]
    omega
  rw [UInt32.toNat_or, hn, hshift, ← Nat.shiftLeft_add_eq_or_of_lt h, Nat.shiftLeft_eq]

theorem toUInt8_shift {acc : UInt32} {k : ℕ} (hk : k < 8) {b : UInt8}
    (h : acc.toNat / 2 ^ k % 256 = b.toNat) : (acc >>> UInt32.ofNat k).toUInt8 = b := by
  apply UInt8.toNat_inj.mp
  have hk' : (UInt32.ofNat k).toNat % 32 = k := by
    rw [UInt32.toNat_ofNat']
    omega
  rw [UInt32.toNat_toUInt8, UInt32.toNat_shiftRight, hk', Nat.shiftRight_eq_div_pow, h]

/-! ## One group

A byte is written as soon as all its bits are there; the accumulator keeps those of the next. -/

def pushSymbol (st : Decoder) (n : ℕ) : Option Decoder :=
  st.push (Utf8.byte (symbol n))

/-- A symbol after which there is no whole byte. -/
theorem pushSymbol_keep {n : ℕ} (h : n < 64) (out : List UInt8) (acc : UInt32) :
    ∃ acc', acc'.toNat = acc.toNat % 2 ^ 26 * 64 + n ∧
      pushSymbol ⟨out, acc, 0⟩ n = some ⟨out, acc', 6⟩ := by
  refine ⟨_, toNat_acc acc h, ?_⟩
  rw [pushSymbol, Decoder.push, skipped_symbol h, val_symbol h]
  rfl

/-- A symbol that completes the byte `b`. -/
theorem pushSymbol_write {n : ℕ} (h : n < 64) (out : List UInt8) (acc : UInt32) {k : ℕ}
    (hk : k < 8) {b : UInt8} (hb : (acc.toNat % 2 ^ 26 * 64 + n) / 2 ^ k % 256 = b.toNat) :
    ∃ acc', acc'.toNat = acc.toNat % 2 ^ 26 * 64 + n ∧
      pushSymbol ⟨out, acc, k + 2⟩ n = some ⟨out ++ [b], acc', k⟩ := by
  have hacc := toNat_acc acc h
  refine ⟨_, hacc, ?_⟩
  rw [← hacc] at hb
  rw [pushSymbol, Decoder.push, skipped_symbol h, val_symbol h, ← toUInt8_shift hk hb]
  simp [show k + 2 + 6 - 8 = k by omega]

theorem foldlM_cons_some {st st' : Decoder} {n : ℕ} (h : pushSymbol st n = some st')
    (ns : List ℕ) : (n :: ns).foldlM pushSymbol st = ns.foldlM pushSymbol st' := by
  rw [List.foldlM_cons, h]
  rfl

theorem push_first (out : List UInt8) (acc : UInt32) (a : UInt8) {r : ℕ} (hr : r < 16) :
    ∃ acc', acc'.toNat % 16 = r ∧ ∀ ns,
      (a.toNat / 4 :: (a.toNat % 4 * 16 + r) :: ns).foldlM pushSymbol ⟨out, acc, 0⟩ =
        ns.foldlM pushSymbol ⟨out ++ [a], acc', 4⟩ := by
  have ha := a.toNat_lt
  obtain ⟨acc₁, hacc₁, hpush₁⟩ := pushSymbol_keep (n := a.toNat / 4) (by omega) out acc
  obtain ⟨acc₂, hacc₂, hpush₂⟩ :=
    pushSymbol_write (n := a.toNat % 4 * 16 + r) (by omega) out acc₁ (k := 4) (b := a)
      (by omega) (by omega)
  refine ⟨acc₂, by omega, fun ns => ?_⟩
  rw [foldlM_cons_some hpush₁, foldlM_cons_some hpush₂]

theorem push_second (out : List UInt8) {acc : UInt32} (b : UInt8) {r : ℕ} (hr : r < 4)
    (h : acc.toNat % 16 = b.toNat / 16) :
    ∃ acc', acc'.toNat % 4 = r ∧
      pushSymbol ⟨out, acc, 4⟩ (b.toNat % 16 * 4 + r) = some ⟨out ++ [b], acc', 2⟩ := by
  have hb := b.toNat_lt
  obtain ⟨acc', hacc, hpush⟩ :=
    pushSymbol_write (n := b.toNat % 16 * 4 + r) (by omega) out acc (k := 2) (b := b)
      (by omega) (by omega)
  exact ⟨acc', by omega, hpush⟩

theorem push_third (out : List UInt8) {acc : UInt32} (c : UInt8)
    (h : acc.toNat % 4 = c.toNat / 64) :
    ∃ acc', pushSymbol ⟨out, acc, 2⟩ (c.toNat % 64) = some ⟨out ++ [c], acc', 0⟩ := by
  have hc := c.toNat_lt
  obtain ⟨acc', -, hpush⟩ :=
    pushSymbol_write (n := c.toNat % 64) (by omega) out acc (k := 0) (b := c)
      (by omega) (by omega)
  exact ⟨acc', hpush⟩

theorem foldlM_symbols (bs out : List UInt8) (acc : UInt32) :
    ∃ st, (symbols bs).foldlM pushSymbol ⟨out, acc, 0⟩ = some st ∧ st.out = out ++ bs := by
  fun_induction symbols bs generalizing out acc with
  | case1 => exact ⟨_, rfl, (List.append_nil out).symm⟩
  | case2 a =>
      obtain ⟨acc, -, hfirst⟩ := push_first out acc a (r := 0) (by decide)
      exact ⟨_, hfirst [], rfl⟩
  | case3 a b =>
      have hb := b.toNat_lt
      obtain ⟨acc₁, hacc₁, hfirst⟩ := push_first out acc a (r := b.toNat / 16) (by omega)
      obtain ⟨acc₂, -, hsecond⟩ := push_second (out ++ [a]) b (r := 0) (by decide) hacc₁
      refine ⟨⟨out ++ [a] ++ [b], acc₂, 2⟩, ?_, List.append_assoc out [a] [b]⟩
      rw [hfirst]
      exact foldlM_cons_some hsecond []
  | case4 a b c rest ih =>
      have hb := b.toNat_lt
      have hc := c.toNat_lt
      obtain ⟨acc₁, hacc₁, hfirst⟩ := push_first out acc a (r := b.toNat / 16) (by omega)
      obtain ⟨acc₂, hacc₂, hsecond⟩ :=
        push_second (out ++ [a]) b (r := c.toNat / 64) (by omega) hacc₁
      obtain ⟨acc₃, hthird⟩ := push_third (out ++ [a] ++ [b]) c hacc₂
      obtain ⟨st, hrest, hout⟩ := ih (out ++ [a] ++ [b] ++ [c]) acc₃
      refine ⟨st, ?_, by simp [hout]⟩
      rw [hfirst, foldlM_cons_some hsecond, foldlM_cons_some hthird, hrest]

/-! ## Standard base64 -/

theorem foldlM_padding (st : Decoder) (k : ℕ) :
    (List.replicate k (Utf8.byte '=')).foldlM Decoder.push st = some st := by
  induction k with
  | zero => rfl
  | succ k ih =>
      have hpush : st.push (Utf8.byte '=') = some st := if_pos (by decide)
      rw [List.replicate_succ, List.foldlM_cons, hpush]
      exact ih

theorem padded_plain (bs : List UInt8) (k : ℕ) :
    ∀ c ∈ unpadded bs ++ List.replicate k '=', c.toNat < 0x80 ∧ isWhitespace c = false := by
  intro c hc
  rcases List.mem_append.mp hc with hc | hc
  · obtain ⟨n, hn, rfl⟩ := List.mem_map.mp hc
    exact symbol_plain (symbols_lt bs n hn)
  · rw [(List.mem_replicate.mp hc).2]
    decide

theorem b64Decode_padded (bs : List UInt8) (k : ℕ) :
    b64Decode (unpadded bs ++ List.replicate k '=') = some bs := by
  have hplain := padded_plain bs k
  obtain ⟨st, hst, hout⟩ := foldlM_symbols bs [] 0
  have hfold : ((symbols bs).map (Utf8.byte ∘ symbol)).foldlM Decoder.push ⟨[], 0, 0⟩ =
      some st := by
    rw [List.foldlM_map]
    exact hst
  rw [b64Decode, trim_eq_self fun c hc => (hplain c hc).2,
    Utf8.encode_ascii fun c hc => (hplain c hc).1, List.map_append, List.map_replicate, unpadded,
    List.map_map, List.foldlM_append, hfold]
  simp [foldlM_padding, hout]

/-- What a text spells is decoded. -/
theorem b64Decode_spells {s : Text} {bs : List UInt8} (h : Spells s bs) :
    b64Decode s = some bs := by
  rcases h with rfl | rfl
  · exact b64Decode_padded bs _
  · simpa using b64Decode_padded bs 0

example : b64Decode "aGVsbG8=".toList = some (Utf8.encode "hello".toList) := by decide +kernel

/-! ## Other texts -/

/-- The bytes that are decoded, once padding and whitespace are passed over. -/
def symbolsOf (s : Text) : List UInt8 :=
  (Utf8.encode (trim s)).filter fun c => !skipped c

/-- Skipped bytes leave the decoder as it is. -/
theorem foldlM_push_filter (cs : List UInt8) (st : Decoder) :
    (cs.filter fun c => !skipped c).foldlM Decoder.push st = cs.foldlM Decoder.push st := by
  induction cs generalizing st with
  | nil => rfl
  | cons c cs ih =>
      rw [List.foldlM_cons]
      cases hskip : skipped c with
      | true =>
          have hpush : st.push c = some st := if_pos hskip
          rw [List.filter_cons_of_neg (by simp [hskip]), ih, hpush]
          rfl
      | false =>
          rw [List.filter_cons_of_pos (by simp [hskip]), List.foldlM_cons]
          exact bind_congr fun next => ih next

theorem b64Decode_eq (s : Text) :
    b64Decode s = ((symbolsOf s).foldlM Decoder.push ⟨[], 0, 0⟩).map Decoder.out := by
  rw [b64Decode, symbolsOf, foldlM_push_filter]

theorem push_isSome_iff (st : Decoder) (c : UInt8) :
    (st.push c).isSome ↔ (skipped c = false → (val c).isSome) := by
  rw [Decoder.push]
  cases hskip : skipped c with
  | true => simp
  | false =>
      cases val c with
      | none => simp
      | some v =>
          simp only [Bool.false_eq_true, if_false, Option.bind_eq_bind, Option.bind_some]
          split <;> simp

/-- Every symbol adds six bits. -/
theorem length_push {st st' : Decoder} {c : UInt8} (h : st.push c = some st')
    (hbits : st.bits < 8) :
    8 * st'.out.length + st'.bits =
        8 * st.out.length + st.bits + (if skipped c then 0 else 6) ∧ st'.bits < 8 := by
  rw [Decoder.push] at h
  split at h
  case isTrue hskip =>
    obtain rfl := Option.some.inj h
    simp [hskip, hbits]
  case isFalse hskip =>
    obtain ⟨v, -, h⟩ := Option.bind_eq_some_iff.mp h
    dsimp only at h
    split at h
    · obtain rfl := Option.some.inj h
      simp only [List.length_append, List.length_singleton, hskip]
      simp
      omega
    · obtain rfl := Option.some.inj h
      simp [hskip]
      omega

theorem length_foldlM_push {cs : List UInt8} {st st' : Decoder}
    (h : cs.foldlM Decoder.push st = some st') (hbits : st.bits < 8) :
    8 * st'.out.length + st'.bits =
        8 * st.out.length + st.bits + 6 * (cs.filter fun c => !skipped c).length ∧
      st'.bits < 8 := by
  induction cs generalizing st with
  | nil =>
      obtain rfl := Option.some.inj h
      exact ⟨rfl, hbits⟩
  | cons c cs ih =>
      rw [List.foldlM_cons] at h
      obtain ⟨next, hnext, hrest⟩ := Option.bind_eq_some_iff.mp h
      obtain ⟨hlen, hnbits⟩ := length_push hnext hbits
      obtain ⟨hlen', hbits'⟩ := ih hrest hnbits
      refine ⟨?_, hbits'⟩
      cases hskip : skipped c <;> simp [hskip] at hlen ⊢ <;> omega

theorem foldlM_push_isSome_iff (cs : List UInt8) (st : Decoder) :
    (cs.foldlM Decoder.push st).isSome ↔ ∀ c ∈ cs, skipped c = false → (val c).isSome := by
  induction cs generalizing st with
  | nil => simp
  | cons c cs ih =>
      rw [List.foldlM_cons, List.forall_mem_cons, ← push_isSome_iff st c]
      cases st.push c with
      | none => simp
      | some next => simpa using ih next

theorem b64Decode_isSome_iff (s : Text) :
    (b64Decode s).isSome ↔ ∀ c ∈ symbolsOf s, (val c).isSome := by
  rw [b64Decode, Option.isSome_map, foldlM_push_isSome_iff, symbolsOf]
  simp only [List.mem_filter, Bool.not_eq_true', and_imp]

theorem length_b64Decode {s : Text} {bs : List UInt8} (h : b64Decode s = some bs) :
    bs.length = 6 * (symbolsOf s).length / 8 := by
  obtain ⟨st, hst, rfl⟩ := Option.map_eq_some_iff.mp h
  obtain ⟨hlen, hbits⟩ := length_foldlM_push hst (by decide)
  simp only [List.length_nil, symbolsOf] at hlen ⊢
  omega

/-! ## Whitespace -/

/-- A character that the decoder passes over. -/
def passed (c : Char) : Bool :=
  skipped (Utf8.byte c)

theorem symbolsOf_eq {s : Text} (hascii : ∀ c ∈ s, c.toNat < 0x80)
    (hspace : ∀ c ∈ s, isWhitespace c = true → passed c = true) :
    symbolsOf s = (s.filter fun c => !passed c).map Utf8.byte := by
  rw [symbolsOf, Utf8.encode_ascii fun c hc => hascii c (trim_subset s hc), List.filter_map,
    ← filter_trim (s := s)]
  · rfl
  · intro c hc hwhite
    simp [hspace c hc hwhite]

theorem isSpace_passed {c : Char} (h : isSpace c = true) : c.toNat < 0x80 ∧ passed c = true := by
  simp only [isSpace, Bool.or_eq_true, beq_iff_eq] at h
  rcases h with (((rfl | rfl) | rfl) | rfl) | rfl <;> decide

theorem plain_of_spells {s : Text} {bs : List UInt8} (h : Spells s bs) :
    ∀ c ∈ s, c.toNat < 0x80 ∧ isWhitespace c = false := by
  rcases h with rfl | rfl
  · exact padded_plain bs _
  · simpa using padded_plain bs 0

/-- The decoder reads past whitespace anywhere in what spells the bytes. -/
theorem b64Decode_spaced {s : Text} {bs : List UInt8} (h : SpellsSpaced s bs) :
    b64Decode s = some bs := by
  have hplain : ∀ c ∈ s, c.toNat < 0x80 ∧ (isWhitespace c = true → passed c = true) := by
    intro c hc
    cases hspace : isSpace c with
    | true => exact ⟨(isSpace_passed hspace).1, fun _ => (isSpace_passed hspace).2⟩
    | false =>
        have hc' := plain_of_spells h c (List.mem_filter.mpr ⟨hc, by simp [hspace]⟩)
        exact ⟨hc'.1, fun hwhite => by simp [hc'.2] at hwhite⟩
  have hfilter : (s.filter fun c => !isSpace c).filter (fun c => !passed c) =
      s.filter fun c => !passed c := by
    rw [List.filter_filter]
    congr 1
    funext c
    cases hspace : isSpace c with
    | true => simp [(isSpace_passed hspace).2]
    | false => simp
  have hsymbols : symbolsOf s = symbolsOf (s.filter fun c => !isSpace c) := by
    rw [symbolsOf_eq (fun c hc => (hplain c hc).1) fun c hc => (hplain c hc).2, ← hfilter,
      symbolsOf_eq]
    · exact fun c hc => (plain_of_spells h c hc).1
    · exact fun c hc hwhite => by simp [(plain_of_spells h c hc).2] at hwhite
  rw [b64Decode_eq, hsymbols, ← b64Decode_eq]
  exact b64Decode_spells h

theorem b64Decode_spaced_hello :
    b64Decode " aGVs\nbG8 =\t".toList = some (Utf8.encode "hello".toList) :=
  b64Decode_spaced (Or.inl (by decide +kernel))

end Lwrt.Util
