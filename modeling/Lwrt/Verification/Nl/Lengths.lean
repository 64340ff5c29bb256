import Lwrt.Verification.Nl.Messages

/-! # Length fields

The builder casts every length to the width of its field. A field is right when the length fits,
and a nested attribute that fits holds attributes that fit. -/

namespace Lwrt.Nl

open Library

/-- The length field of an attribute, as it is emitted. -/
def Attr.lengthField (a : Attr) : ℕ :=
  ofLeBytes (a.encode.take 2)

mutual

/-- The length fields of an attribute and of all attributes in it count header and payload. -/
def Attr.TrueLengths : Attr → Prop
  | .leaf typ payload => (Attr.leaf typ payload).lengthField = 4 + payload.length
  | .str typ s => (Attr.str typ s).lengthField = 4 + (s.length + 1)
  | .raw typ payload => (Attr.raw typ payload).lengthField = 4 + payload.length
  | .nested typ children =>
      (Attr.nested typ children).lengthField = 4 + (encodeAll children).length ∧
        TrueLengthsAll children

def TrueLengthsAll : List Attr → Prop
  | [] => True
  | a :: as => a.TrueLengths ∧ TrueLengthsAll as

end

/-- The length fields of a message and of all its attributes are right. -/
structure Msg.TrueLengths (m : Msg) : Prop where
  message : ofLeBytes (m.encode.take 4) = m.encode.length
  attrs : TrueLengthsAll m.attrs

/-! ## The fields -/

theorem lengthField_eq (a : Attr) : a.lengthField = (4 + a.payload.length) % 2 ^ 16 := by
  have htake : a.encode.take 2 = toLe16 (UInt16.ofNat (4 + a.payload.length)) := by
    rw [Attr.encode, tlv, NlBuf.pad, List.append_assoc, List.append_assoc]
    exact List.take_left' (length_toLe16 _)
  rw [Attr.lengthField, htake, ofLeBytes_toLe16, UInt16.toNat_ofNat']

theorem lengthField_eq_iff (a : Attr) :
    a.lengthField = 4 + a.payload.length ↔ 4 + a.payload.length < 2 ^ 16 := by
  rw [lengthField_eq, Nat.mod_eq_iff_lt (by decide)]

theorem payload_le_encodeAll {as : List Attr} {a : Attr} (h : a ∈ as) :
    4 + a.payload.length ≤ (encodeAll as).length := by
  induction as with
  | nil => cases h
  | cons b as ih =>
      have hpad := le_align4 (4 + b.payload.length)
      rw [encodeAll, List.length_append, length_tlv]
      rcases List.mem_cons.mp h with rfl | h
      · omega
      · have := ih h
        omega

mutual

/-- The outermost length decides. -/
theorem Attr.trueLengths_iff (a : Attr) : a.TrueLengths ↔ 4 + a.payload.length < 2 ^ 16 := by
  cases a with
  | leaf typ payload => exact lengthField_eq_iff (.leaf typ payload)
  | str typ s =>
      have hfield := lengthField_eq_iff (.str typ s)
      rw [Attr.payload, List.length_append, List.length_singleton] at hfield ⊢
      exact hfield
  | raw typ payload => exact lengthField_eq_iff (.raw typ payload)
  | nested typ children =>
      have hfield := lengthField_eq_iff (.nested typ children)
      rw [Attr.payload] at hfield ⊢
      rw [Attr.TrueLengths, hfield, trueLengthsAll_iff children, and_iff_left_iff_imp]
      intro hlen a ha
      have := payload_le_encodeAll ha
      omega

theorem trueLengthsAll_iff (as : List Attr) :
    TrueLengthsAll as ↔ ∀ a ∈ as, 4 + a.payload.length < 2 ^ 16 := by
  cases as with
  | nil => exact iff_of_true trivial (by simp)
  | cons a as =>
      rw [TrueLengthsAll, Attr.trueLengths_iff a, trueLengthsAll_iff as, List.forall_mem_cons]

end

theorem Msg.trueLengths_iff (m : Msg) :
    m.TrueLengths ↔ m.size < 2 ^ 32 ∧ ∀ a ∈ m.attrs, 4 + a.payload.length < 2 ^ 16 := by
  have htake : m.encode.take 4 = toLe32 (UInt32.ofNat m.size) :=
    List.take_left' (length_toLe32 _)
  have hfield : ofLeBytes (m.encode.take 4) = m.encode.length ↔ m.size < 2 ^ 32 := by
    rw [htake, ofLeBytes_toLe32, length_encode, UInt32.toNat_ofNat', Nat.mod_eq_iff_lt (by decide)]
  rw [← hfield, ← trueLengthsAll_iff]
  exact ⟨fun h => ⟨h.message, h.attrs⟩, fun h => ⟨h.1, h.2⟩⟩

theorem Msg.Fits.trueLengths {m : Msg} (h : m.Fits) (hsize : m.size < 2 ^ 32) : m.TrueLengths :=
  m.trueLengths_iff.mpr ⟨hsize, fun a ha => (h.attrs.fits_of_mem a ha).length_lt⟩

end Lwrt.Nl
