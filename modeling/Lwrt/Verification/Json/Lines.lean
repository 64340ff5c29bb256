import Lwrt.Library.Lines
import Lwrt.Verification.Json.RoundTrip

/-! # A serialized value is one line of text -/

namespace Lwrt.Json

open Library Library.Text Library.Utf8

/-! ## No line break -/

/-- Text without control characters. -/
def Printable (s : Text) : Prop :=
  ∀ c ∈ s, 0x20 ≤ c.toNat

theorem Printable.append {s t : Text} (hs : Printable s) (ht : Printable t) :
    Printable (s ++ t) :=
  List.forall_mem_append.mpr ⟨hs, ht⟩

theorem Printable.cons {c : Char} {s : Text} (hc : 0x20 ≤ c.toNat) (hs : Printable s) :
    Printable (c :: s) :=
  List.forall_mem_cons.mpr ⟨hc, hs⟩

theorem Printable.not_mem {s : Text} (h : Printable s) {c : Char} (hc : c.toNat < 0x20) : c ∉ s :=
  fun hmem => absurd (h c hmem) (Nat.not_le.mpr hc)

instance (s : Text) : Decidable (Printable s) :=
  decidable_of_iff (s.all fun c => 0x20 ≤ c.toNat) (by simp [Printable])

theorem printable_nil : Printable [] :=
  List.forall_mem_nil _

theorem printable_hex04 (n : ℕ) : Printable (hex04 n) := by
  have hall : ∀ d : Fin 16, 0x20 ≤ (Nat.digitChar d).toNat := by decide
  intro c hc
  simp only [hex04, List.mem_cons, List.not_mem_nil, or_false] at hc
  rcases hc with rfl | rfl | rfl | rfl
  · exact hall ⟨n / 4096 % 16, Nat.mod_lt _ (by omega)⟩
  · exact hall ⟨n / 256 % 16, Nat.mod_lt _ (by omega)⟩
  · exact hall ⟨n / 16 % 16, Nat.mod_lt _ (by omega)⟩
  · exact hall ⟨n % 16, Nat.mod_lt _ (by omega)⟩

theorem printable_escaped (c : Char) : Printable (escaped c) := by
  have hshort : ∀ e : Char, 0x20 ≤ e.toNat → Printable ['\\', e] := fun e he =>
    .cons (by decide) (.cons he printable_nil)
  unfold escaped
  split_ifs with _ _ _ _ _ _ _ hctl
  · exact hshort _ (by decide)
  · exact hshort _ (by decide)
  · exact hshort _ (by decide)
  · exact hshort _ (by decide)
  · exact hshort _ (by decide)
  · exact hshort _ (by decide)
  · exact hshort _ (by decide)
  · exact .cons (by decide) (.cons (by decide) (printable_hex04 _))
  · exact .cons (Nat.le_of_not_lt hctl) printable_nil

theorem printable_writeStr (s : Text) : Printable (writeStr s) := by
  have hbody : Printable (s.flatMap escaped) := by
    intro c hc
    obtain ⟨d, -, hd⟩ := List.mem_flatMap.mp hc
    exact printable_escaped d c hd
  exact .cons (by decide) (hbody.append (.cons (by decide) printable_nil))

theorem printable_decimalInt (k : ℤ) : Printable (decimalInt k) := by
  have hdigits : ∀ n, Printable (decimal n) := by
    intro n c hc
    have hd := F64.isDigit_of_mem_decimal hc
    simp only [Char.isDigit, Bool.and_eq_true, decide_eq_true_eq, UInt32.le_iff_toNat_le] at hd
    have hlo : 48 ≤ c.toNat := hd.1
    omega
  unfold decimalInt
  split
  · exact .cons (by decide) (hdigits _)
  · exact hdigits _

/-- What stands before the `i`-th element. -/
theorem printable_separator (i : ℕ) : Printable (if i > 0 then [','] else []) := by
  split
  · decide
  · exact printable_nil

theorem printable_writeItems {vs : List Value} (h : ∀ v ∈ vs, Printable v.write) (i : ℕ) :
    Printable (writeItems i vs) := by
  induction vs generalizing i with
  | nil => simp [writeItems, Printable]
  | cons v vs ih =>
      rw [writeItems]
      exact ((printable_separator i).append (h v (by simp))).append
        (ih (fun w hw => h w (by simp [hw])) _)

theorem printable_writePairs {ps : List (Text × Value)} (h : ∀ p ∈ ps, Printable p.2.write)
    (i : ℕ) : Printable (writePairs i ps) := by
  induction ps generalizing i with
  | nil => simp [writePairs, Printable]
  | cons p ps ih =>
      have hmember := (printable_writeStr p.1).append (.cons (c := ':') (by decide) (h p (by simp)))
      have hrest := ih (fun q hq => h q (by simp [hq])) (i + 1)
      have htext := (printable_separator i).append (hmember.append hrest)
      simpa only [writePairs, List.append_assoc] using htext

/-- No serialized value contains a control character. -/
theorem printable_write {v : Value} (hv : v.Integral) : Printable v.write := by
  induction hv with
  | null => decide
  | bool b => cases b <;> decide
  | num h =>
      obtain ⟨k, hk, hn⟩ := h
      rw [Value.write, writeNum_of_isSmallInteger hk hn]
      exact printable_decimalInt k
  | str s => exact printable_writeStr s
  | array _ ih =>
      rw [Value.write]
      exact .cons (by decide) ((printable_writeItems ih 0).append (.cons (by decide) printable_nil))
  | object _ ih =>
      rw [Value.write]
      exact .cons (by decide) ((printable_writePairs ih 0).append (.cons (by decide) printable_nil))

/-! ## No blank at the ends -/

theorem trim_between {a b : Char} (ha : isWhitespace a = false) (hb : isWhitespace b = false)
    (s : Text) : trim (a :: (s ++ [b])) = a :: (s ++ [b]) := by
  have hend := trimEnd_append_cons (a :: s) [] hb
  rw [trim, trimStart, List.dropWhile_cons_of_neg (by simp [ha])]
  exact hend

theorem isToken_decimalInt (k : ℤ) : IsToken (decimalInt k) := by
  unfold decimalInt
  split
  · exact .cons (by decide) (isToken_decimal _)
  · exact isToken_decimal _

/-- A serialized value starts and ends with a character that is not a blank. -/
theorem trim_write {v : Value} (hv : v.Integral) : trim v.write = v.write := by
  cases hv with
  | null => decide
  | bool b => cases b <;> decide
  | num h =>
      obtain ⟨k, hk, hn⟩ := h
      rw [Value.write, writeNum_of_isSmallInteger hk hn]
      exact trim_token (isToken_decimalInt k)
  | str s => exact trim_between (by decide) (by decide) _
  | array h =>
      rw [Value.write]
      exact trim_between (by decide) (by decide) _
  | object h =>
      rw [Value.write]
      exact trim_between (by decide) (by decide) _

end Lwrt.Json
