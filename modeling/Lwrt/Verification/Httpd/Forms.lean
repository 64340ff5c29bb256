import Lwrt.Applet.Httpd.Settings
import Lwrt.Model.Urlencoded

/-! # Forms

What a browser sends for a form is read back as the form. -/

namespace Lwrt.Httpd

open Library Text Urlencoded

/-! ## Bytes -/

/-- A byte that is neither a plus nor a percent sign stays. -/
theorem urldecodeBytes_cons {c : UInt8} (hplus : c ≠ 43) (hpercent : c ≠ 37)
    (rest : List UInt8) : urldecodeBytes (c :: rest) = c :: urldecodeBytes rest := by
  match rest with
  | [] => simp [urldecodeBytes, hplus]
  | [h] => simp [urldecodeBytes, hplus]
  | h :: l :: rest => simp only [urldecodeBytes, hplus, hpercent, if_false]

theorem urldecodeBytes_plus (rest : List UInt8) :
    urldecodeBytes (43 :: rest) = 32 :: urldecodeBytes rest := by
  match rest with
  | [] => rfl
  | [h] => rfl
  | h :: l :: rest => simp only [urldecodeBytes, if_true]

theorem hexval_hexDigit {n : ℕ} (h : n < 16) :
    hexval (Utf8.byte (hexDigit n)) = some (UInt8.ofNat n) := by
  have hall : ∀ n < 16, hexval (Utf8.byte (hexDigit n)) = some (UInt8.ofNat n) := by
    decide +kernel
  exact hall n h

/-- Two digits are a whole byte, up to the end of the input. -/
theorem urldecodeBytes_percent (b : UInt8) (rest : List UInt8) :
    urldecodeBytes (37 :: Utf8.byte (hexDigit (b.toNat / 16)) ::
      Utf8.byte (hexDigit (b.toNat % 16)) :: rest) = b :: urldecodeBytes rest := by
  have hb := b.toNat_lt
  have hvalue : UInt8.ofNat (b.toNat / 16) * 16 + UInt8.ofNat (b.toNat % 16) = b := by
    apply UInt8.toNat_inj.mp
    rw [UInt8.toNat_add, UInt8.toNat_mul, UInt8.toNat_ofNat', UInt8.toNat_ofNat']
    simp only [UInt8.reduceToNat]
    omega
  rw [urldecodeBytes, if_neg (by decide), if_pos rfl, hexval_hexDigit (by omega),
    hexval_hexDigit (by omega)]
  simp only [hvalue]

theorem unreserved_plain {b : UInt8} (h : unreserved b = true) :
    b ≠ 43 ∧ b ≠ 37 ∧ Utf8.byte (Char.ofNat b.toNat) = b := by
  have hall : ∀ n < 256, unreserved (UInt8.ofNat n) = true → UInt8.ofNat n ≠ 43 ∧
      UInt8.ofNat n ≠ 37 ∧ Utf8.byte (Char.ofNat n) = UInt8.ofNat n := by
    decide +kernel
  have hb := hall b.toNat b.toNat_lt
  rw [UInt8.ofNat_toNat] at hb
  exact hb h

theorem urldecodeBytes_encodeByte (b : UInt8) (rest : List UInt8) :
    urldecodeBytes ((encodeByte b).map Utf8.byte ++ rest) = b :: urldecodeBytes rest := by
  rw [encodeByte]
  split
  case isTrue hspace =>
    rw [hspace]
    exact urldecodeBytes_plus rest
  case isFalse =>
    split
    case isTrue hun =>
      obtain ⟨hplus, hpercent, hbyte⟩ := unreserved_plain hun
      rw [List.map_singleton, hbyte]
      exact urldecodeBytes_cons hplus hpercent rest
    case isFalse => exact urldecodeBytes_percent b rest

theorem urldecodeBytes_flatMap (bs : List UInt8) :
    urldecodeBytes ((bs.flatMap encodeByte).map Utf8.byte) = bs := by
  induction bs with
  | nil => rfl
  | cons b bs ih => rw [List.flatMap_cons, List.map_append, urldecodeBytes_encodeByte, ih]

/-! ## Pairs -/

theorem urldecode_component (s : Text) : urldecode (component s) = s := by
  rw [urldecode, Utf8.encode_ascii fun c hc => (component_plain hc).1, component,
    urldecodeBytes_flatMap, Utf8.fromUtf8Lossy_encode]

theorem splitOnce_pair (kv : Text × Text) :
    splitOnce '=' (pair kv) = some (component kv.1, component kv.2) :=
  splitOnce_append (fun h => (component_plain h).2.2 rfl) _

/-- Every form is read back from what a browser sends for it. -/
theorem parse_form_serialize (form : Form) : parseForm (Utf8.encode (serialize form)) = form := by
  have hsplit : ((serialize form).splitOn '&').filter (· ≠ []) = form.map pair := by
    by_cases hnil : form = []
    · rw [hnil]
      rfl
    · rw [serialize, List.splitOn_intercalate '&']
      · refine List.filter_eq_self.mpr ?_
        intro p hp
        obtain ⟨kv, -, rfl⟩ := List.mem_map.mp hp
        simpa using pair_ne_nil kv
      · intro p hp
        obtain ⟨kv, -, rfl⟩ := List.mem_map.mp hp
        exact pair_ampersand kv
      · simpa using hnil
  rw [parseForm, Utf8.fromUtf8Lossy_encode, hsplit, List.filterMap_map]
  have hpair : ∀ kv ∈ form, ((fun p => (splitOnce '=' p).map fun kv =>
      (urldecode kv.1, urldecode kv.2)) ∘ pair) kv = some kv := by
    intro kv _
    simp only [Function.comp_apply, splitOnce_pair, Option.map_some, urldecode_component]
  rw [List.filterMap_congr hpair, List.filterMap_some]

example : serialize [([], []), ("a b".toList, "1+1=2&%".toList)] =
    "=&a+b=1%2B1%3D2%26%25".toList := by decide +kernel

end Lwrt.Httpd
