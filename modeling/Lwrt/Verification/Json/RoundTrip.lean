import Lwrt.Verification.Json.Completeness

/-! # The parser reads back what the serializer writes

What the serializer writes is a text of the grammar, without whitespace. -/

namespace Lwrt.Json

open Library Library.Text Rfc8259

/-- An integer below 10^15 in absolute value. -/
def IsSmallInteger (n : F64) : Prop :=
  ∃ k : ℤ, k.natAbs < 10 ^ 15 ∧ n.units? = some (k * F64.one)

/-- All numbers in the value are integers below 10^15 in absolute value. -/
inductive Value.Integral : Value → Prop
  | null : Integral .null
  | bool (b : Bool) : Integral (.bool b)
  | num {n : F64} (h : IsSmallInteger n) : Integral (.num n)
  | str (s : Text) : Integral (.str s)
  | array {items : List Value} (h : ∀ v ∈ items, Integral v) : Integral (.array items)
  | object {pairs : List (Text × Value)} (h : ∀ pair ∈ pairs, Integral pair.2) :
      Integral (.object pairs)

theorem writeNum_of_isSmallInteger {n : F64} {k : ℤ} (hk : k.natAbs < 10 ^ 15)
    (hn : n.units? = some (k * F64.one)) : writeNum n = decimalInt k := by
  have hbound : k.natAbs < 2 ^ 53 := hk.trans (by decide)
  have heq : n = .finite (k * F64.one) (F64.representable_whole hbound) := F64.eq_finite_iff.mpr hn
  have hone : (0 : ℤ) < F64.one := by exact_mod_cast F64.one_pos
  have hlt : (k * (F64.one : ℤ)).natAbs < 10 ^ 15 * F64.one := by
    rw [Int.natAbs_mul, Int.natAbs_natCast]
    exact Nat.mul_lt_mul_of_pos_right hk F64.one_pos
  have hcast : n.toI64 = k := by
    rw [heq, F64.toI64, F64.toIntClamped, Int.mul_tdiv_cancel _ hone.ne']
    omega
  rw [writeNum, if_pos, hcast]
  simpa [heq, F64.isFinite, F64.isWhole, F64.absLt] using hlt

/-! ## Tokens -/

theorem hexValue_digitChar {d : ℕ} (h : d < 16) : hexValue (Nat.digitChar d) = some d := by
  have hall : ∀ d : Fin 16, hexValue (Nat.digitChar d) = some d.val := by decide
  exact hall ⟨d, h⟩

theorem hex4_hex04 {n : ℕ} (h : n < 0x10000) : Hex4 (hex04 n) n := by
  have hmk := Hex4.mk (hexValue_digitChar (Nat.mod_lt (n / 4096) (by omega)))
    (hexValue_digitChar (Nat.mod_lt (n / 256) (by omega)))
    (hexValue_digitChar (Nat.mod_lt (n / 16) (by omega)))
    (hexValue_digitChar (Nat.mod_lt n (by omega)))
  have hsum : n / 4096 % 16 * 4096 + n / 256 % 16 * 256 + n / 16 % 16 * 16 + n % 16 = n := by omega
  rwa [hsum] at hmk

theorem character_escaped (c : Char) : Character (escaped c) c := by
  unfold escaped
  split_ifs with hquote hslash hn hr ht hb hf hctl
  · exact .short (by simp [hquote, shortEscapes])
  · exact .short (by simp [hslash, shortEscapes])
  · exact .short (by simp [hn, shortEscapes])
  · exact .short (by simp [hr, shortEscapes])
  · exact .short (by simp [ht, shortEscapes])
  · exact .short (by simp [hb, shortEscapes])
  · exact .short (by simp [hf, shortEscapes])
  · exact .unicode (hex4_hex04 (hctl.trans (by decide)))
  · exact .unescaped (Nat.le_of_not_lt hctl) hquote hslash

theorem stringToken_writeStr (s : Text) : StringToken (writeStr s) s := by
  refine ⟨s.map fun c => (escaped c, c), ?_, ?_, by simp [Function.comp_def]⟩
  · intro char hchar
    obtain ⟨c, -, rfl⟩ := List.mem_map.mp hchar
    exact character_escaped c
  · rw [writeStr, List.flatMap_map]

theorem digits_decimal (n : ℕ) : Digits (decimal n) :=
  ⟨Nat.toDigits_ne_nil, fun _ hc => F64.isDigit_of_mem_decimal hc, decimal_leading n⟩

theorem integer_decimalInt (k : ℤ) : Integer (decimalInt k) k := by
  have hvalue : Nat.ofDigitChars 10 (decimal k.natAbs) 0 = k.natAbs :=
    Nat.ofDigitChars_ten_toDigits
  unfold decimalInt
  split
  · have hminus := Integer.minus (digits_decimal k.natAbs)
    rwa [hvalue, show -(k.natAbs : ℤ) = k by omega] at hminus
  · have hplain := Integer.plain (digits_decimal k.natAbs)
    rwa [hvalue, show (k.natAbs : ℤ) = k by omega] at hplain

/-! ## Values -/

theorem token_singleton (c : Char) : Token c [c] :=
  ⟨[], [], List.forall_mem_nil _, List.forall_mem_nil _, rfl⟩

/-! Every element but the first is written after a comma, whatever its index. -/

theorem writeItems_congr (i j : ℕ) (vs : List Value) :
    writeItems (i + 1) vs = writeItems (j + 1) vs := by
  induction vs generalizing i j with
  | nil => rw [writeItems, writeItems]
  | cons v vs ih => simp only [writeItems, Nat.zero_lt_succ, gt_iff_lt, if_true, ih (i + 1) (j + 1)]

theorem writeItems_succ (i : ℕ) (v : Value) (vs : List Value) :
    writeItems (i + 1) (v :: vs) = ',' :: writeItems 0 (v :: vs) := by
  simp [writeItems, writeItems_congr (i + 1) 0]

theorem writePairs_congr (i j : ℕ) (ps : List (Text × Value)) :
    writePairs (i + 1) ps = writePairs (j + 1) ps := by
  induction ps generalizing i j with
  | nil => rw [writePairs, writePairs]
  | cons p ps ih => simp only [writePairs, Nat.zero_lt_succ, gt_iff_lt, if_true, ih (i + 1) (j + 1)]

theorem writePairs_succ (i : ℕ) (p : Text × Value) (ps : List (Text × Value)) :
    writePairs (i + 1) (p :: ps) = ',' :: writePairs 0 (p :: ps) := by
  simp [writePairs, writePairs_congr (i + 1) 0]

theorem separated_writeItems (vs : List Value) :
    Separated ',' (vs.map Value.write) (writeItems 0 vs) := by
  induction vs with
  | nil => exact .nil
  | cons v vs ih =>
      cases vs with
      | nil => simpa [writeItems] using Separated.single v.write
      | cons w vs =>
          have hcons : Separated ',' (v.write :: _) _ := .cons (token_singleton ',') ih
          rwa [List.append_assoc, List.singleton_append, ← writeItems_succ 0] at hcons

/-- The text of a member. -/
def writePair (p : Text × Value) : Text :=
  writeStr p.1 ++ ':' :: p.2.write

theorem writePairs_zero (p : Text × Value) (ps : List (Text × Value)) :
    writePairs 0 (p :: ps) = writePair p ++ writePairs 1 ps := by
  simp [writePairs, writePair]

theorem separated_writePairs (ps : List (Text × Value)) :
    Separated ',' (ps.map writePair) (writePairs 0 ps) := by
  induction ps with
  | nil => exact .nil
  | cons p ps ih =>
      cases ps with
      | nil => simpa [writePairs, writePair] using Separated.single (writePair p)
      | cons q ps =>
          have hcons : Separated ',' (writePair p :: _) _ := .cons (token_singleton ',') ih
          rwa [List.append_assoc, List.singleton_append, ← writePairs_succ 0, ← writePairs_zero]
            at hcons

/-- A member as it is written. -/
def writtenMember (p : Text × Value) : Member where
  keyText := writeStr p.1
  key := p.1
  colon := [':']
  valueText := p.2.write
  value := p.2
  hkey := stringToken_writeStr p.1
  hcolon := token_singleton ':'

/-- What is written derives from the grammar, as the value it was written for. -/
theorem derives_write {v : Value} (hv : v.Integral) : Derives v.write v := by
  induction hv with
  | null => exact .null
  | bool b =>
      cases b
      · exact .false
      · exact .true
  | num h =>
      obtain ⟨k, hk, hn⟩ := h
      rw [Value.write, writeNum_of_isSmallInteger hk hn]
      exact .number (integer_decimalInt k) (hk.trans (by decide)) hn
  | str s => exact .string (stringToken_writeStr s)
  | @array items h ih =>
      have hbody := separated_writeItems items
      have hitems : ∀ item ∈ items.map fun v => (v.write, v), Derives item.1 item.2 := by
        intro item hitem
        obtain ⟨v, hv, rfl⟩ := List.mem_map.mp hitem
        exact ih v hv
      have hderives := Derives.array (token_singleton '[')
        (by rwa [List.map_map, Function.comp_def]) (token_singleton ']') hitems
      rwa [List.map_map, Function.comp_def, List.map_id'] at hderives
  | @object pairs h ih =>
      have hbody := separated_writePairs pairs
      have htext : Member.text ∘ writtenMember = writePair := by
        funext p
        simp [Member.text, writtenMember, writePair]
      have hmembers : ∀ m ∈ pairs.map writtenMember, Derives m.valueText m.value := by
        intro m hm
        obtain ⟨p, hp, rfl⟩ := List.mem_map.mp hm
        exact ih p hp
      have hderives := Derives.object (token_singleton '{') (by rwa [List.map_map, htext])
        (token_singleton '}') hmembers
      have hpair : Member.pair ∘ writtenMember = id := rfl
      rwa [List.map_map, hpair, List.map_id] at hderives

theorem write_ne_nil {v : Value} (hv : v.Integral) : v.write ≠ [] :=
  Parser.derives_ne_nil (derives_write hv)

/-- `parse` reads back what `write` wrote. -/
theorem Value.parse_write {v : Value} (hv : v.Integral) : Value.parse v.write = .ok v := by
  have hnone : IsWs [] := List.forall_mem_nil _
  have hparse := Value.parse_derived hnone (derives_write hv) hnone
  rwa [List.nil_append, List.append_nil] at hparse

end Lwrt.Json
