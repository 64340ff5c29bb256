import Lwrt.Library.Tlv
import Lwrt.Verification.Dhcp.Packet

/-! # The option walk

The walk over the options reads a sequence of code, length and value, on every buffer. -/

namespace Lwrt.Dhcp

open Library

/-- Pads are zero. -/
def optCodes : Tlv.Codes :=
  ⟨0, optEnd, by decide⟩

/-! ## The walk as a reader -/

theorem read_optEnd (bs : List UInt8) : Tlv.read optCodes (optEnd :: bs) = [] :=
  Tlv.read_stop bs

theorem read_zero (bs : List UInt8) : Tlv.read optCodes (0 :: bs) = Tlv.read optCodes bs :=
  Tlv.read_pad bs

theorem optionsFrom_eq_read {fuel : ℕ} {bs : List UInt8} (h : bs.length ≤ fuel) :
    optionsFrom fuel bs = Tlv.read optCodes bs := by
  induction fuel generalizing bs with
  | zero =>
      rw [List.eq_nil_of_length_eq_zero (Nat.le_zero.mp h), Tlv.read_nil]
      rfl
  | succ fuel ih =>
      cases bs with
      | nil => rw [Tlv.read_nil, optionsFrom]
      | cons code rest =>
          have hrest : rest.length ≤ fuel := Nat.le_of_succ_le_succ h
          rw [optionsFrom.eq_def]
          dsimp only
          by_cases hstop : code = optEnd
          · rw [if_pos hstop, hstop, read_optEnd]
          rw [if_neg hstop]
          by_cases hpad : code = 0
          · rw [if_pos hpad, hpad, read_zero, ih hrest]
          rw [if_neg hpad]
          cases rest with
          | nil => rw [Tlv.read_bare]
          | cons len rest =>
              dsimp only
              rw [Tlv.read_field hstop hpad, ih]
              rw [List.length_drop]
              rw [List.length_cons] at hrest
              omega

theorem options_eq_read (buf : List UInt8) :
    options buf = Tlv.read optCodes (buf.drop 240) :=
  optionsFrom_eq_read (Nat.le_refl _)

/-! ## Bounds -/

/-- The value that the walk slices out of the buffer. -/
theorem slice_value {buf : List UInt8} {i : ℕ} (h : i ≤ buf.length) (len : ℕ) :
    Checked.slice buf i (min (i + len) buf.length) = .ok ((buf.drop i).take len) := by
  have hmin : min (i + len) buf.length - i = min len (buf.drop i).length := by
    rw [List.length_drop]
    omega
  rw [Checked.slice_of_le (by omega) (Nat.min_le_right _ _), List.drop_take, hmin,
    ← List.take_eq_take_min]

/-- From every cursor the walk comes to its end, and no access is out of bounds: a value starts
behind a length byte that is there, and is clamped to the end of the buffer. -/
theorem walkFrom_eq {buf : List UInt8} {fuel i : ℕ} (h : buf.length < i + fuel) (hfuel : 0 < fuel) :
    walkFrom buf fuel i = .ok (some (Tlv.read optCodes (buf.drop i))) := by
  induction fuel generalizing i with
  | zero => exact absurd hfuel (Nat.lt_irrefl 0)
  | succ fuel ih =>
      by_cases hi : i < buf.length
      case neg =>
        rw [walkFrom, if_neg hi, List.drop_of_length_le (Nat.le_of_not_lt hi), Tlv.read_nil]
        rfl
      have hmore : 0 < fuel := by omega
      rw [walkFrom, if_pos hi, Checked.get_of_lt hi, Checked.ok_bind,
        List.drop_eq_getElem_cons hi]
      by_cases hstop : buf[i] = optEnd
      · rw [if_pos hstop, hstop, read_optEnd]
        rfl
      rw [if_neg hstop]
      by_cases hpad : buf[i] = 0
      · rw [if_pos hpad, hpad, read_zero, ih (by omega) hmore]
      rw [if_neg hpad]
      by_cases hlen : i + 1 < buf.length
      case neg =>
        rw [List.getElem?_eq_none (Nat.le_of_not_lt hlen),
          List.drop_of_length_le (Nat.le_of_not_lt hlen), Tlv.read_bare]
        rfl
      rw [List.getElem?_eq_getElem hlen, List.drop_eq_getElem_cons hlen]
      dsimp only
      rw [Tlv.read_field hstop hpad, slice_value hlen, Checked.ok_bind, ih (by omega) hmore,
        Checked.ok_bind, List.drop_drop]
      rfl

/-! ## Well-formed options -/

/-- Options behind a header of 240 bytes, with pads anywhere among them, are walked one by one up to
the END byte, whatever follows it. On every buffer the walk comes to its end, with no access out of
bounds. -/
theorem options_exact (header : Vector UInt8 240) (items : List (Tlv.Item optCodes))
    (trailing buf : List UInt8) :
    options (header.toList ++ (Tlv.encode items ++ optEnd :: trailing)) = Tlv.fields items ∧
      walkFrom buf (buf.length + 1) 240 = .ok (some (options buf)) := by
  constructor
  · rw [options_eq_read, List.drop_left' header.length_toList]
    exact Tlv.read_encode items trailing
  · rw [options_eq_read, walkFrom_eq (by omega) (Nat.succ_pos _)]

/-- A hostname between pads. -/
example :
    options (List.replicate 240 0 ++ [0, 12, 2, 97, 98, 0, 0, 53, 1, 1, 255, 1]) =
      [(12, [97, 98]), (53, [1])] := by
  decide +kernel

/-! ## Truncated packets -/

/-- The options of a packet that was cut are the first ones of the whole packet, with all of their
values, exactly if the cut does not fall inside a value. -/
theorem options_take_iff (buf : List UInt8) (n : ℕ) :
    Tlv.Complete optCodes ((buf.take n).drop 240) ∧ options (buf.take n) <+: options buf ↔
      ¬ Tlv.CutsValue optCodes (buf.drop 240) ((buf.take n).length - 240) := by
  have hcut : (buf.take n).drop 240 = (buf.drop 240).take ((buf.take n).length - 240) := by
    have hmin : (buf.take n).length - 240 = min (n - 240) (buf.drop 240).length := by
      rw [List.length_take, List.length_drop]
      omega
    rw [List.drop_take, hmin, ← List.take_eq_take_min]
  rw [options_eq_read, options_eq_read, hcut]
  apply Tlv.complete_take_iff
  rw [List.length_take, List.length_drop]
  omega

/-- A DISCOVER whose hostname lies across the end of the receive buffer. -/
def longDiscover : List UInt8 :=
  [opRequest] ++ List.replicate 235 0 ++ magic ++ ([optMsgtype, 1, discover] ++
    List.replicate 776 0 ++ [optHostname, 8] ++ Utf8.encode "workshop".toList ++ [optEnd])

/-- The server reads another hostname than the client has sent. -/
theorem longDiscover_altered :
    (parse longDiscover).map (·.hostname) = some (some "workshop".toList) ∧
      (Server.accept longDiscover).map (·.hostname) = some (some "wor".toList) ∧
      ¬ options (longDiscover.take 1024) <+: options longDiscover := by
  decide +kernel

end Lwrt.Dhcp
