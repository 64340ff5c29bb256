import Lwrt.Verification.Json.Lines
import Lwrt.Verification.Json.Soundness

/-! # Every value has a text, and the text is read back

Whatever its numbers, a value is written as one line that the parser accepts. Numbers that JSON
has no text for come back as `null`; everything else comes back as it was. -/

namespace Lwrt.Json

open Library Library.Text Library.Utf8

/-- Induction over the nesting of a value. -/
@[elab_as_elim]
theorem Value.induction {motive : Value → Prop} (null : motive .null)
    (bool : ∀ b, motive (.bool b)) (num : ∀ n, motive (.num n)) (str : ∀ s, motive (.str s))
    (array : ∀ items, (∀ v ∈ items, motive v) → motive (.array items))
    (object : ∀ pairs, (∀ p ∈ pairs, motive (Prod.snd p)) → motive (.object pairs)) (v : Value) :
    motive v :=
  match v with
  | .null => null
  | .bool b => bool b
  | .num n => num n
  | .str s => str s
  | .array items =>
      array items fun v _ => Value.induction null bool num str array object v
  | .object pairs =>
      object pairs fun p _ => Value.induction null bool num str array object p.2
termination_by sizeOf v
decreasing_by
  · rename_i hv
    have hlt := List.sizeOf_lt_of_mem hv
    simp only [Value.array.sizeOf_spec]
    omega
  · rename_i hp
    have hlt := List.sizeOf_lt_of_mem hp
    obtain ⟨k, v⟩ := p
    simp only [Value.object.sizeOf_spec, Prod.mk.sizeOf_spec] at hlt ⊢
    omega

mutual

/-- The value without the numbers that JSON has no text for. -/
def Value.finite : Value → Value
  | .null => .null
  | .bool b => .bool b
  | .num n => if n.isFinite then .num n else .null
  | .str s => .str s
  | .array items => .array (finiteItems items)
  | .object pairs => .object (finitePairs pairs)

def finiteItems : List Value → List Value
  | [] => []
  | v :: vs => v.finite :: finiteItems vs

def finitePairs : List (Text × Value) → List (Text × Value)
  | [] => []
  | (k, v) :: ps => (k, v.finite) :: finitePairs ps

end

@[simp]
theorem finiteItems_eq_map (vs : List Value) : finiteItems vs = vs.map Value.finite := by
  induction vs with
  | nil => rfl
  | cons v vs ih => rw [finiteItems, ih, List.map_cons]

@[simp]
theorem finitePairs_eq_map (ps : List (Text × Value)) :
    finitePairs ps = ps.map fun p => (p.1, p.2.finite) := by
  induction ps with
  | nil => rfl
  | cons p ps ih => rw [finitePairs, ih, List.map_cons]

/-! ## Numbers -/

theorem isFinite_iff {n : F64} : n.isFinite = true ↔ ∃ units, n.units? = some units := by
  cases n <;> simp [F64.isFinite, F64.units?]

/-- The integers that are written without a point. -/
theorem isSmallInteger_of_written {n : F64}
    (h : (n.isFinite && n.isWhole && n.absLt (10 ^ 15)) = true) : IsSmallInteger n := by
  cases n with
  | nan => simp [F64.isFinite] at h
  | inf neg => simp [F64.isFinite] at h
  | finite units hrep =>
      simp only [F64.isFinite, F64.isWhole, F64.absLt, Bool.true_and, Bool.and_eq_true,
        decide_eq_true_eq] at h
      obtain ⟨⟨k, rfl⟩, hlt⟩ := h
      rw [Int.natAbs_mul, Int.natAbs_natCast, Nat.mul_comm] at hlt
      refine ⟨k, Nat.lt_of_mul_lt_mul_right hlt, ?_⟩
      rw [F64.units?, Int.mul_comm]

theorem number_of_integer {t : Text} {k : ℤ} {n : F64} (h : Rfc8259.Integer t k)
    (hk : k.natAbs < 2 ^ 53) (hn : n.units? = some (k * F64.one)) : JsonText.Number t n := by
  have hparse := Parser.parse_integer h hk hn
  cases h with
  | plain h =>
      obtain ⟨c, s, rfl⟩ := List.exists_cons_of_ne_nil h.1
      exact JsonText.number_of_parse ⟨c, s, rfl, Or.inr (h.2.1 c (by simp))⟩
        (fun d hd => Or.inl (h.2.1 d hd)) hparse
  | @minus digits h =>
      refine JsonText.number_of_parse ⟨'-', digits, rfl, Or.inl rfl⟩ ?_ hparse
      rintro c (_ | ⟨_, hc⟩)
      · simp [JsonText.IsNumberChar]
      · exact Or.inl (h.2.1 c hc)

/-- The text of a finite number is a number of the language, for the number it was written for. -/
theorem number_writeNum {n : F64} (h : n.isFinite = true) : JsonText.Number (writeNum n) n := by
  by_cases hsmall : (n.isFinite && n.isWhole && n.absLt (10 ^ 15)) = true
  · obtain ⟨k, hk, hn⟩ := isSmallInteger_of_written hsmall
    rw [writeNum_of_isSmallInteger hk hn]
    exact number_of_integer (integer_decimalInt k) (hk.trans (by decide)) hn
  · obtain ⟨units, hunits⟩ := isFinite_iff.mp h
    rw [writeNum, if_neg hsmall, if_pos h]
    apply JsonText.number_display hunits
    rintro rfl
    cases n with
    | nan => cases hunits
    | inf neg => cases hunits
    | finite u hu =>
        obtain rfl := Option.some.inj hunits
        apply hsmall
        simp [F64.isFinite, F64.isWhole, F64.absLt, F64.one_pos]

theorem writeNum_of_not_isFinite {n : F64} (h : n.isFinite = false) :
    writeNum n = "null".toList := by
  simp [writeNum, h]

/-! ## Values -/

theorem string_text_writeStr (s : Text) : JsonText.StringToken (writeStr s) s := by
  obtain ⟨chars, hchars, ht, hs⟩ := stringToken_writeStr s
  exact ⟨chars, fun c hc => .standard (hchars c hc), ht, hs⟩

theorem token_colon : Rfc8259.Token ':' [':'] :=
  token_singleton ':'

/-- A member as it is written. -/
def finiteMember (p : Text × Value) : JsonText.Member where
  keyText := writeStr p.1
  key := p.1
  colon := [':']
  valueText := p.2.write
  value := p.2.finite
  hkey := string_text_writeStr p.1
  hcolon := token_colon

theorem derives_write_finite (v : Value) : JsonText.Derives v.write v.finite := by
  induction v using Value.induction with
  | null => exact .null
  | bool b =>
      cases b
      · exact .false
      · exact .true
  | num n =>
      rw [Value.write, Value.finite]
      split
      · rename_i hfinite
        exact .number (number_writeNum hfinite)
      · rename_i hnot
        rw [writeNum_of_not_isFinite (by simpa using hnot)]
        exact .null
  | str s => exact .string (string_text_writeStr s)
  | array items ih =>
      have hbody := separated_writeItems items
      have hitems : ∀ item ∈ items.map fun v => (v.write, v.finite),
          JsonText.Derives item.1 item.2 := by
        intro item hitem
        obtain ⟨v, hv, rfl⟩ := List.mem_map.mp hitem
        exact ih v hv
      have hderives := JsonText.Derives.array (token_singleton '[')
        (by rwa [List.map_map, Function.comp_def]) (token_singleton ']') hitems
      rwa [List.map_map, Function.comp_def, ← finiteItems_eq_map] at hderives
  | object pairs ih =>
      have hbody := separated_writePairs pairs
      have htext : JsonText.Member.text ∘ finiteMember = writePair := by
        funext p
        simp [JsonText.Member.text, finiteMember, writePair]
      have hmembers : ∀ m ∈ pairs.map finiteMember, JsonText.Derives m.valueText m.value := by
        intro m hm
        obtain ⟨p, hp, rfl⟩ := List.mem_map.mp hm
        exact ih p hp
      have hderives := JsonText.Derives.object (token_singleton '{')
        (by rwa [List.map_map, htext]) (token_singleton '}') hmembers
      have hpair : JsonText.Member.pair ∘ finiteMember = fun p => (p.1, p.2.finite) := rfl
      rwa [List.map_map, hpair, ← finitePairs_eq_map] at hderives

theorem writeItems_map {vs : List Value} (h : ∀ v ∈ vs, v.finite.write = v.write) (i : ℕ) :
    writeItems i (vs.map Value.finite) = writeItems i vs := by
  induction vs generalizing i with
  | nil => rfl
  | cons v vs ih =>
      rw [List.map_cons, writeItems, writeItems, h v (by simp),
        ih fun w hw => h w (by simp [hw])]

theorem writePairs_map {ps : List (Text × Value)} (h : ∀ p ∈ ps, p.2.finite.write = p.2.write)
    (i : ℕ) : writePairs i (ps.map fun p => (p.1, p.2.finite)) = writePairs i ps := by
  induction ps generalizing i with
  | nil => rfl
  | cons p ps ih =>
      rw [List.map_cons, writePairs, writePairs, h p (by simp),
        ih fun q hq => h q (by simp [hq])]

/-- Nothing is lost when a value is written a second time. -/
theorem write_finite (v : Value) : v.finite.write = v.write := by
  induction v using Value.induction with
  | null => rfl
  | bool b => rfl
  | num n =>
      rw [Value.finite]
      split
      · rfl
      · rename_i hnot
        rw [Value.write, Value.write, writeNum_of_not_isFinite (by simpa using hnot)]
  | str s => rfl
  | array items ih =>
      rw [Value.finite, finiteItems_eq_map, Value.write, Value.write, writeItems_map ih]
  | object pairs ih =>
      rw [Value.finite, finitePairs_eq_map, Value.write, Value.write, writePairs_map ih]

theorem Value.parse_write_value (v : Value) : Value.parse v.write = .ok v.finite := by
  have hnone : Rfc8259.IsWs [] := List.forall_mem_nil _
  apply Value.parse_of_document
  exact ⟨[], v.write, [], hnone, derives_write_finite v, hnone, by simp⟩

/-! ## One line -/

/-- The characters of a number are neither blanks nor control characters. -/
theorem toNat_of_isNumberChar {c : Char} (h : JsonText.IsNumberChar c) :
    33 ≤ c.toNat ∧ c.toNat ≤ 126 := by
  rcases h with hdigit | hother
  · simp only [Char.isDigit, Bool.and_eq_true, decide_eq_true_eq, UInt32.le_iff_toNat_le] at hdigit
    have hlo : 48 ≤ c.toNat := hdigit.1
    have hhi : c.toNat ≤ 57 := hdigit.2
    omega
  · simp only [List.mem_cons, List.not_mem_nil, or_false] at hother
    rcases hother with rfl | rfl | rfl | rfl | rfl <;> decide

/-- No serialized value contains a control character. -/
theorem printable_write_value (v : Value) : Printable v.write := by
  induction v using Value.induction with
  | null => decide
  | bool b => cases b <;> decide
  | num n =>
      rw [Value.write]
      cases hfinite : n.isFinite with
      | true =>
          intro c hc
          have hbounds := toNat_of_isNumberChar ((number_writeNum hfinite).chars.2 c hc)
          omega
      | false =>
          rw [writeNum_of_not_isFinite hfinite]
          decide
  | str s => exact printable_writeStr s
  | array items ih =>
      rw [Value.write]
      exact .cons (by decide) ((printable_writeItems ih 0).append (.cons (by decide) printable_nil))
  | object pairs ih =>
      rw [Value.write]
      exact .cons (by decide) ((printable_writePairs ih 0).append (.cons (by decide) printable_nil))

/-- A serialized value starts and ends with a character that is not a blank. -/
theorem trim_write_value (v : Value) : trim v.write = v.write := by
  cases v with
  | null => decide
  | bool b => cases b <;> decide
  | num n =>
      rw [Value.write]
      cases hfinite : n.isFinite with
      | true =>
          obtain ⟨⟨c, s, hcons, -⟩, hchars⟩ := (number_writeNum hfinite).chars
          refine trim_token ⟨by simp [hcons], ?_⟩
          intro d hd
          have hbounds := toNat_of_isNumberChar (hchars d hd)
          exact isWhitespace_eq_false_of_le hbounds.1 hbounds.2
      | false =>
          rw [writeNum_of_not_isFinite hfinite]
          decide
  | str s => exact trim_between (by decide) (by decide) _
  | array items =>
      rw [Value.write]
      exact trim_between (by decide) (by decide) _
  | object pairs =>
      rw [Value.write]
      exact trim_between (by decide) (by decide) _

theorem write_value_ne_nil (v : Value) : v.write ≠ [] :=
  Parser.derives_text_ne_nil (derives_write_finite v)

/-- The text of any value is one line that reads back as the value without its numbers that are
not finite, and writing what was read gives the same text. -/
theorem Value.parse_write_finite (v : Value) :
    Value.parse v.write = .ok v.finite ∧ v.finite.write = v.write ∧
      (∀ c ∈ v.write, 0x20 ≤ c.toNat) ∧ trim v.write = v.write :=
  ⟨Value.parse_write_value v, write_finite v, printable_write_value v, trim_write_value v⟩

end Lwrt.Json
