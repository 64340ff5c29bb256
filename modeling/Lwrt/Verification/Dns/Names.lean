import Lwrt.Applet.Dns
import Lwrt.Library.Bytes

/-! # Names

What `read_name` reads is a list of labels, and their text is the name. -/

namespace Lwrt.Dns

open Library Checked

/-! ## The loop -/

theorem nameFrom_of_le {buf : List UInt8} {pos : ℕ} (h : buf.length ≤ pos) (fuel : ℕ)
    (parts : List Text) : nameFrom buf fuel pos parts = .ok none := by
  cases fuel with
  | zero => rfl
  | succ fuel => exact if_pos h

/-- One turn of the loop, in which no access is out of bounds. -/
theorem nameFrom_succ {buf : List UInt8} {pos : ℕ} (h : pos < buf.length) (fuel : ℕ)
    (parts : List Text) :
    nameFrom buf (fuel + 1) pos parts =
      if buf[pos].toNat = 0 then .ok (some (['.'].intercalate parts, pos + 1))
      else if 0xc0 ≤ buf[pos].toNat ∨ buf.length < pos + 1 + buf[pos].toNat then .ok none
      else nameFrom buf fuel (pos + 1 + buf[pos].toNat)
        (parts ++ [Utf8.fromUtf8Lossy
          ((buf.take (pos + 1 + buf[pos].toNat)).drop (pos + 1))]) := by
  rw [nameFrom, if_neg (Nat.not_le_of_lt h), get_of_lt h, ok_bind]
  by_cases hzero : buf[pos].toNat = 0
  · rw [if_pos hzero, if_pos hzero]
    rfl
  · rw [if_neg hzero, if_neg hzero]
    by_cases hpointer : 0xc0 ≤ buf[pos].toNat
    · rw [if_pos hpointer, if_pos (Or.inl hpointer)]
      rfl
    · rw [if_neg hpointer]
      by_cases hend : buf.length < pos + 1 + buf[pos].toNat
      · rw [if_pos hend, if_pos (Or.inr hend)]
        rfl
      · rw [if_neg hend, if_neg (not_or.mpr ⟨hpointer, hend⟩),
          slice_of_le (Nat.le_add_right _ _) (Nat.le_of_not_lt hend), ok_bind]

/-- A name that is read ends inside the buffer. -/
theorem nameFrom_cases (buf : List UInt8) (fuel pos : ℕ) (parts : List Text) :
    nameFrom buf fuel pos parts = .ok none ∨
      ∃ name after, nameFrom buf fuel pos parts = .ok (some (name, after)) ∧ pos < after ∧
        after ≤ buf.length := by
  induction fuel generalizing pos parts with
  | zero => exact Or.inl rfl
  | succ fuel ih =>
      by_cases hpos : pos < buf.length
      case neg => exact Or.inl (nameFrom_of_le (Nat.le_of_not_lt hpos) _ _)
      rw [nameFrom_succ hpos]
      by_cases hzero : buf[pos].toNat = 0
      · rw [if_pos hzero]
        exact Or.inr ⟨_, pos + 1, rfl, Nat.lt_succ_self pos, hpos⟩
      · rw [if_neg hzero]
        split
        case isTrue => exact Or.inl rfl
        case isFalse =>
          cases ih (pos + 1 + buf[pos].toNat) (parts ++ [_]) with
          | inl hnone => exact Or.inl hnone
          | inr hsome =>
              obtain ⟨name, after, heq, hlt, hle⟩ := hsome
              exact Or.inr ⟨name, after, heq, by omega, hle⟩

/-- Fuel beyond the end of the buffer makes no difference. -/
theorem nameFrom_fuel (buf : List UInt8) {fuel more pos : ℕ} (parts : List Text)
    (h : buf.length < pos + fuel) (hmore : fuel ≤ more) :
    nameFrom buf more pos parts = nameFrom buf fuel pos parts := by
  induction fuel generalizing pos parts more with
  | zero => rw [nameFrom_of_le (by omega), nameFrom_of_le (by omega)]
  | succ fuel ih =>
      obtain ⟨more, rfl⟩ := Nat.exists_eq_add_of_le' (Nat.le_trans (Nat.le_add_left 1 fuel) hmore)
      by_cases hpos : pos < buf.length
      case neg => rw [nameFrom_of_le (by omega), nameFrom_of_le (by omega)]
      rw [nameFrom_succ hpos, nameFrom_succ hpos, ih _ (by omega) (by omega)]

/-! ## Labels -/

/-- A label as `read_name` takes it: neither the end of a name nor a pointer. -/
@[ext]
structure Label where
  bytes : List UInt8
  ne_nil : bytes ≠ []
  length_lt : bytes.length < 0xc0
deriving DecidableEq

/-- The byte before a label is its length. -/
def Label.wire (l : Label) : List UInt8 :=
  UInt8.ofNat l.bytes.length :: l.bytes

/-- A name in a message: its labels and the empty one. -/
def wire (labels : List Label) : List UInt8 :=
  labels.flatMap Label.wire ++ [0]

def Label.text (l : Label) : Text :=
  Utf8.fromUtf8Lossy l.bytes

def text (labels : List Label) : Text :=
  ['.'].intercalate (labels.map Label.text)

/-- The name that is looked up. -/
def host (labels : List Label) : Text :=
  (trimEndMatches ".lan".toList (text labels)).map Char.toLower

theorem Label.toNat_length (l : Label) : (UInt8.ofNat l.bytes.length).toNat = l.bytes.length :=
  Utf8.toNat_ofNat_of_lt (Nat.lt_trans l.length_lt (by decide))

theorem Label.length_pos (l : Label) : 0 < l.bytes.length :=
  List.length_pos_iff.mpr l.ne_nil

@[simp]
theorem Label.length_wire (l : Label) : l.wire.length = l.bytes.length + 1 :=
  rfl

theorem wire_cons (l : Label) (labels : List Label) :
    wire (l :: labels) = l.wire ++ wire labels :=
  List.append_assoc _ _ _

theorem wire_length_pos (labels : List Label) : 0 < (wire labels).length := by
  rw [wire, List.length_append]
  exact Nat.lt_add_left _ Nat.zero_lt_one

theorem length_le_flatMap (labels : List Label) :
    labels.length ≤ (labels.flatMap Label.wire).length :=
  length_le_length_flatMap fun _ _ => List.cons_ne_nil _ _

theorem length_le_wire (labels : List Label) : labels.length ≤ (wire labels).length := by
  rw [wire, List.length_append]
  exact Nat.le_add_right_of_le (length_le_flatMap labels)

/-! ## Reading -/

theorem nameFrom_root (pre post : List UInt8) (fuel : ℕ) (parts : List Text) :
    nameFrom (pre ++ ([0] ++ post)) (fuel + 1) pre.length parts =
      .ok (some (['.'].intercalate parts, pre.length + 1)) := by
  rw [nameFrom_succ (by simp)]
  simp

theorem nameFrom_label (l : Label) (pre post : List UInt8) (fuel : ℕ) (parts : List Text) :
    nameFrom (pre ++ (l.wire ++ post)) (fuel + 1) pre.length parts =
      nameFrom (pre ++ (l.wire ++ post)) fuel (pre.length + l.wire.length) (parts ++ [l.text]) := by
  have hlen : (pre ++ (l.wire ++ post)).length =
      pre.length + (l.bytes.length + 1) + post.length := by
    simp only [List.length_append, Label.length_wire]
    omega
  have hpos : pre.length < (pre ++ (l.wire ++ post)).length := by
    omega
  have hbyte : (pre ++ (l.wire ++ post))[pre.length] = UInt8.ofNat l.bytes.length := by
    rw [List.getElem_append_right (Nat.le_refl _)]
    simp [Label.wire]
  have hslice : ((pre ++ (l.wire ++ post)).take (pre.length + 1 + l.bytes.length)).drop
      (pre.length + 1) = l.bytes := by
    rw [List.drop_take, Nat.add_sub_cancel_left, List.drop_length_add_append]
    exact List.take_left
  rw [nameFrom_succ hpos, hbyte, l.toNat_length, if_neg l.length_pos.ne', if_neg, hslice]
  · rw [Label.length_wire, Nat.add_assoc, Nat.add_comm 1]
    rfl
  · have := l.length_lt
    omega

/-- The loop over labels, whatever follows them. -/
theorem nameFrom_labels (labels : List Label) (pre post : List UInt8) (fuel : ℕ)
    (parts : List Text) :
    nameFrom (pre ++ (labels.flatMap Label.wire ++ post)) (fuel + labels.length) pre.length parts =
      nameFrom (pre ++ (labels.flatMap Label.wire ++ post)) fuel
        (pre.length + (labels.flatMap Label.wire).length) (parts ++ labels.map Label.text) := by
  induction labels generalizing pre parts with
  | nil => simp
  | cons l labels ih =>
      have hrest := ih (pre ++ l.wire) (parts ++ [l.text])
      simp only [List.append_assoc, List.length_append, List.singleton_append] at hrest
      simp only [List.flatMap_cons, List.append_assoc, List.length_append, List.length_cons,
        List.map_cons]
      rw [← Nat.add_assoc fuel, nameFrom_label, hrest, Nat.add_assoc]

/-- A name in a buffer is read, whatever stands before and after it. -/
theorem nameFrom_wire (labels : List Label) (pre post : List UInt8) {fuel : ℕ} (parts : List Text)
    (h : labels.length < fuel) :
    nameFrom (pre ++ (wire labels ++ post)) fuel pre.length parts =
      .ok (some (['.'].intercalate (parts ++ labels.map Label.text),
        pre.length + (wire labels).length)) := by
  obtain ⟨fuel, rfl⟩ := Nat.exists_eq_add_of_lt h
  have hroot := nameFrom_root (pre ++ labels.flatMap Label.wire) post fuel
    (parts ++ labels.map Label.text)
  rw [List.append_assoc, List.length_append] at hroot
  rw [wire, List.append_assoc, show labels.length + fuel + 1 = fuel + 1 + labels.length by omega,
    nameFrom_labels, hroot, List.length_append, List.length_singleton, Nat.add_assoc]

/-- The label that one turn of the loop reads. -/
theorem exists_label {buf : List UInt8} {pos : ℕ} (hpos : pos < buf.length)
    (hzero : buf[pos].toNat ≠ 0) (hlt : buf[pos].toNat < 0xc0)
    (hend : pos + 1 + buf[pos].toNat ≤ buf.length) :
    ∃ l : Label, l.bytes = (buf.take (pos + 1 + buf[pos].toNat)).drop (pos + 1) ∧
      l.bytes.length = buf[pos].toNat ∧
      buf.drop pos = l.wire ++ buf.drop (pos + 1 + buf[pos].toNat) := by
  have hslice : (buf.take (pos + 1 + buf[pos].toNat)).drop (pos + 1) =
      (buf.drop (pos + 1)).take buf[pos].toNat := by
    rw [List.drop_take, Nat.add_sub_cancel_left]
  have hlen : ((buf.drop (pos + 1)).take buf[pos].toNat).length = buf[pos].toNat := by
    rw [List.length_take, List.length_drop]
    omega
  have hbyte : UInt8.ofNat ((buf.drop (pos + 1)).take buf[pos].toNat).length = buf[pos] := by
    rw [hlen, UInt8.ofNat_toNat]
  refine ⟨⟨_, List.ne_nil_of_length_pos (by omega), by omega⟩, hslice.symm, hlen, ?_⟩
  calc buf.drop pos
    _ = buf[pos] :: ((buf.drop (pos + 1)).take buf[pos].toNat ++
          (buf.drop (pos + 1)).drop buf[pos].toNat) := by
      rw [List.take_append_drop]
      exact List.drop_eq_getElem_cons hpos
    _ = buf[pos] :: ((buf.drop (pos + 1)).take buf[pos].toNat ++
          buf.drop (pos + 1 + buf[pos].toNat)) := by
      rw [List.drop_drop]
    _ = _ := congrArg (· :: _) hbyte.symm

/-- Whatever is read is the text of a name that stands in the buffer. -/
theorem exists_labels {buf : List UInt8} {fuel pos after : ℕ} {parts : List Text} {name : Text}
    (h : nameFrom buf fuel pos parts = .ok (some (name, after))) :
    ∃ labels : List Label, name = ['.'].intercalate (parts ++ labels.map Label.text) ∧
      after = pos + (wire labels).length ∧ wire labels <+: buf.drop pos := by
  induction fuel generalizing pos parts with
  | zero => cases h
  | succ fuel ih =>
      by_cases hpos : pos < buf.length
      case neg =>
        rw [nameFrom_of_le (Nat.le_of_not_lt hpos)] at h
        cases h
      rw [nameFrom_succ hpos] at h
      by_cases hzero : buf[pos].toNat = 0
      case pos =>
        rw [if_pos hzero] at h
        obtain ⟨hname, hafter⟩ := Prod.mk.inj (Option.some.inj (Except.ok.inj h))
        have hbyte : buf[pos] = 0 := UInt8.toNat_inj.mp hzero
        refine ⟨[], by simpa using hname.symm, hafter.symm, buf.drop (pos + 1), ?_⟩
        rw [List.drop_eq_getElem_cons hpos, hbyte]
        rfl
      case neg =>
        rw [if_neg hzero] at h
        split at h
        case isTrue => cases h
        case isFalse hlabel =>
          obtain ⟨hlt, hend⟩ := not_or.mp hlabel
          obtain ⟨l, hbytes, hlen, hdrop⟩ :=
            exists_label hpos hzero (Nat.lt_of_not_le hlt) (Nat.le_of_not_lt hend)
          obtain ⟨labels, hname, hafter, post, hpost⟩ := ih h
          refine ⟨l :: labels, ?_, ?_, post, ?_⟩
          · rw [hname, ← hbytes, List.append_assoc]
            rfl
          · rw [hafter, wire_cons, List.length_append, Label.length_wire, hlen]
            omega
          · rw [wire_cons, List.append_assoc, hpost, hdrop]

end Lwrt.Dns
