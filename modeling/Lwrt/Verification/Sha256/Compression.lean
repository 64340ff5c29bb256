import Mathlib.Tactic.Ring
import Lwrt.Applet.Sha256
import Lwrt.Model.Fips180

/-! # The compression function is that of the standard -/

namespace Lwrt.Sha256

open Library

/-! ## Words and bytes -/

theorem toNat_shiftLeft_or (acc : UInt32) (h : acc.toNat < 2 ^ 24) (x : UInt8) :
    ((acc <<< 8) ||| x.toUInt32).toNat = acc.toNat * 256 + x.toNat := by
  have hshift : (acc <<< 8).toNat = acc.toNat <<< 8 := by
    rw [UInt32.toNat_shiftLeft, Nat.mod_eq_of_lt]
    · rfl
    · rw [show (8 : UInt32).toNat % 32 = 8 from rfl, Nat.shiftLeft_eq]
      omega
  rw [UInt32.toNat_or, hshift, UInt8.toNat_toUInt32,
    ← Nat.shiftLeft_add_eq_or_of_lt x.toNat_lt, Nat.shiftLeft_eq]

theorem fromBeBytes_eq {b : List UInt8} (hb : b.length = 4) :
    fromBeBytes b = UInt32.ofNat (ofBeBytes b) := by
  obtain ⟨x₀, x₁, x₂, x₃, rfl⟩ : ∃ x₀ x₁ x₂ x₃, b = [x₀, x₁, x₂, x₃] := by
    match b, hb with
    | [x₀, x₁, x₂, x₃], _ => exact ⟨x₀, x₁, x₂, x₃, rfl⟩
  have h₀ := x₀.toNat_lt
  have h₁ := x₁.toNat_lt
  have h₂ := x₂.toNat_lt
  have h₃ := x₃.toNat_lt
  have e₀ := toNat_shiftLeft_or 0 (by decide) x₀
  rw [UInt32.toNat_zero] at e₀
  have e₁ := toNat_shiftLeft_or _ (by rw [e₀]; omega) x₁
  have e₂ := toNat_shiftLeft_or _ (by rw [e₁, e₀]; omega) x₂
  have e₃ := toNat_shiftLeft_or _ (by rw [e₂, e₁, e₀]; omega) x₃
  apply UInt32.toNat_inj.mp
  rw [UInt32.toNat_ofNat']
  simp only [fromBeBytes, List.foldl_cons, List.foldl_nil, ofBeBytes, ofLeBytes, List.reverse_cons,
    List.reverse_nil, List.nil_append, List.cons_append, List.foldr_cons, List.foldr_nil, e₃, e₂,
    e₁, e₀]
  omega

theorem lenBytes_eq {n : ℕ} (h : n < 2 ^ 64) : lenBytes (UInt64.ofNat n) = Fips180.toBe64 n := by
  simp only [lenBytes, Fips180.toBe64, List.map_cons, List.map_nil, List.cons.injEq, and_true,
    ← UInt8.toNat_inj]
  have hmod : n % 18446744073709551616 = n := Nat.mod_eq_of_lt h
  simp [Nat.shiftRight_eq_div_pow, hmod]

theorem toBeBytes_eq (x : UInt32) : toBeBytes x = toBe32 x := by
  simp only [toBeBytes, toBe32, toLe32, List.reverse_cons, List.reverse_nil, List.nil_append,
    List.cons_append, List.cons.injEq, and_true, ← UInt8.toNat_inj]
  simp [Nat.shiftRight_eq_div_pow]

/-! ## Constants -/

theorem k_eq_constants : k = Fips180.constants := by
  decide +kernel

/-- The working words as the standard's. -/
def Words.spec (w : Words) : Fips180.Words :=
  ⟨w.a, w.b, w.c, w.d, w.e, w.f, w.g, w.h⟩

theorem h0_spec : h0.spec = Fips180.initial := by
  decide +kernel

/-! ## Schedule -/

theorem extendWord_eq (x y u v : UInt32) :
    u + (rotateRight x 7 ^^^ rotateRight x 18 ^^^ (x >>> 3)) + v +
      (rotateRight y 17 ^^^ rotateRight y 19 ^^^ (y >>> 10)) =
      Fips180.smallSigma1 y + v + Fips180.smallSigma0 x + u := by
  change u + Fips180.smallSigma0 x + v + Fips180.smallSigma1 y = _
  ac_rfl

/-- Word `16 + n` from the words before it. -/
theorem scheduleWord_eq (block : List UInt8) (n : ℕ) :
    scheduleWord ((List.range (16 + n)).map (Fips180.schedule block)) (16 + n) =
      Fips180.schedule block (16 + n) := by
  have hget : ∀ i < 16 + n,
      ((List.range (16 + n)).map (Fips180.schedule block)).getD i 0 = Fips180.schedule block i := by
    intro i hi
    rw [List.getD_eq_getElem?_getD, List.getElem?_map, List.getElem?_range hi]
    rfl
  rw [scheduleWord, Fips180.schedule, dif_neg (by omega), hget _ (by omega), hget _ (by omega),
    hget _ (by omega), hget _ (by omega)]
  exact extendWord_eq _ _ _ _

theorem extend_schedule (block : List UInt8) (n : ℕ) :
    (List.range' 16 n).foldl (fun w i => w ++ [scheduleWord w i])
        ((List.range 16).map (Fips180.schedule block)) =
      (List.range (16 + n)).map (Fips180.schedule block) := by
  induction n with
  | zero => rfl
  | succ n ih =>
      rw [List.range'_concat, List.foldl_append, ih, Nat.one_mul, List.foldl_cons, List.foldl_nil,
        scheduleWord_eq, ← Nat.add_assoc, List.range_succ, List.map_append, List.map_cons,
        List.map_nil]

theorem schedule_eq {block : List UInt8} (hb : block.length = 64) :
    schedule block = (List.range 64).map (Fips180.schedule block) := by
  have hfirst : (List.range 16).map (fun i => fromBeBytes (extract block (i * 4) 4)) =
      (List.range 16).map (Fips180.schedule block) := by
    apply List.map_congr_left
    intro i hi
    have hi : i < 16 := List.mem_range.mp hi
    rw [Fips180.schedule, dif_pos hi, Fips180.word, Nat.mul_comm i,
      fromBeBytes_eq (length_extract (by omega))]
  rw [schedule, hfirst]
  exact extend_schedule block 48

/-! ## Rounds -/

theorem round_spec (r : Words) (kw : UInt32 × UInt32) :
    (round r kw).spec = Fips180.step r.spec kw := rfl

theorem foldl_round_spec (kws : List (UInt32 × UInt32)) (r : Words) :
    (kws.foldl round r).spec = kws.foldl Fips180.step r.spec := by
  induction kws generalizing r with
  | nil => rfl
  | cons kw kws ih => rw [List.foldl_cons, List.foldl_cons, ih, round_spec]

/-- `compress` processes a block as the standard does. -/
theorem compress_spec (h : Words) {block : List UInt8} (hb : block.length = 64) :
    (compress h block).spec = Fips180.process h.spec block := by
  have hfold := foldl_round_spec (k.zip (schedule block)) h
  rw [schedule_eq hb, k_eq_constants] at hfold
  rw [Fips180.process, ← hfold, compress, schedule_eq hb, k_eq_constants]
  simp only [Words.spec, UInt32.add_comm]

end Lwrt.Sha256
