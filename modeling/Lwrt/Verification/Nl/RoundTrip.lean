import Lwrt.Verification.Nl.Encoding

/-! # Attributes read back

The walk over the attributes of a body, repeated inside nested attributes, returns the trees
that the builder was given. -/

namespace Lwrt.Nl

open Library

/-! ## One attribute -/

theorem extract_append (a b c : List UInt8) : extract (a ++ (b ++ c)) a.length b.length = b := by
  rw [extract, List.drop_left, List.take_left]

/-- A field in the middle of a buffer. -/
theorem extract_middle {buf a b c : List UInt8} {i n : ℕ} (h : buf = a ++ (b ++ c))
    (hi : i = a.length) (hn : n = b.length) : extract buf i n = b := by
  rw [h, hi, hn, extract_append]

theorem attrsFrom_end (body : List UInt8) (fuel i : ℕ) (h : body.length ≤ i) :
    attrsFrom body fuel i = [] := by
  cases fuel with
  | zero => rfl
  | succ fuel => rw [attrsFrom, if_neg (by omega)]

/-- One turn of the walk, at an attribute whose length fits its field. -/
theorem attrsFrom_tlv {body a rest : List UInt8} {typ : UInt16} {payload : List UInt8} {i : ℕ}
    (hbody : body = a ++ (tlv typ payload ++ rest)) (hi : i = a.length)
    (hlen : 4 + payload.length < 2 ^ 16) (fuel : ℕ) :
    attrsFrom body (fuel + 1) i =
      (typ &&& 0x3fff, payload) :: attrsFrom body fuel (i + (tlv typ payload).length) := by
  have hcount : (UInt16.ofNat (4 + payload.length)).toNat = 4 + payload.length :=
    UInt16.toNat_ofNat_of_lt hlen
  obtain ⟨zeros, hzeros⟩ : ∃ zeros, tlv typ payload =
      toLe16 (UInt16.ofNat (4 + payload.length)) ++ toLe16 typ ++ payload ++ zeros :=
    ⟨_, rfl⟩
  have hsize : body.length = i + align4 (4 + payload.length) + rest.length := by
    rw [hbody, hi, List.length_append, List.length_append, length_tlv, Nat.add_assoc]
  have hpad := le_align4 (4 + payload.length)
  have hbytes : body = a ++ (toLe16 (UInt16.ofNat (4 + payload.length)) ++
      (toLe16 typ ++ (payload ++ (zeros ++ rest)))) := by
    rw [hbody, hzeros]
    simp only [List.append_assoc]
  have hfield : extract body i 2 = toLe16 (UInt16.ofNat (4 + payload.length)) :=
    extract_middle hbytes hi rfl
  have htyp : extract body (i + 2) 2 = toLe16 typ := by
    refine extract_middle (a := a ++ toLe16 (UInt16.ofNat (4 + payload.length)))
      (c := payload ++ (zeros ++ rest)) ?_ ?_ rfl
    · rw [hbytes, List.append_assoc]
    · rw [hi, List.length_append, length_toLe16]
  have hpayload : extract body (i + 4) (4 + payload.length - 4) = payload := by
    refine extract_middle (a := a ++ (toLe16 (UInt16.ofNat (4 + payload.length)) ++ toLe16 typ))
      (c := zeros ++ rest) ?_ ?_ (by omega)
    · rw [hbytes, List.append_assoc, List.append_assoc]
    · rw [hi, List.length_append, List.length_append, length_toLe16, length_toLe16]
  rw [attrsFrom, if_pos (by omega)]
  simp only [hfield, htyp, ofLeBytes_toLe16, hcount, hpayload, UInt16.ofNat_toNat]
  rw [if_neg (by omega), length_tlv]

/-! ## Sequences of attributes -/

mutual

/-- Types leave room for the flags, and every length fits its field. -/
def Attr.Fits : Attr → Prop
  | .leaf typ payload => typ.toNat < 2 ^ 14 ∧ 4 + payload.length < 2 ^ 16
  | .str typ s => typ.toNat < 2 ^ 14 ∧ 4 + (s.length + 1) < 2 ^ 16
  | .raw typ payload => typ.toNat < 2 ^ 14 ∧ 4 + payload.length < 2 ^ 16
  | .nested typ children =>
      typ.toNat < 2 ^ 14 ∧ 4 + (encodeAll children).length < 2 ^ 16 ∧ FitAll children

def FitAll : List Attr → Prop
  | [] => True
  | a :: as => a.Fits ∧ FitAll as

end

theorem Attr.Fits.typ_lt {a : Attr} (h : a.Fits) : a.typ.toNat < 2 ^ 14 := by
  cases a <;> exact h.1

theorem Attr.Fits.length_lt {a : Attr} (h : a.Fits) : 4 + a.payload.length < 2 ^ 16 := by
  cases a with
  | leaf typ payload => exact h.2
  | str typ s =>
      rw [Attr.payload, List.length_append]
      exact h.2
  | raw typ payload => exact h.2
  | nested typ children => exact h.2.1

theorem FitAll.fits_of_mem {as : List Attr} (h : FitAll as) : ∀ a ∈ as, a.Fits := by
  induction as with
  | nil => simp
  | cons a as ih => exact List.forall_mem_cons.mpr ⟨h.1, ih h.2⟩

theorem and_mask {t : UInt16} (h : t.toNat < 2 ^ 14) : t &&& 0x3fff = t := by
  apply UInt16.toNat_inj.mp
  rw [UInt16.toNat_and]
  exact (Nat.and_two_pow_sub_one_eq_mod t.toNat 14).trans (Nat.mod_eq_of_lt h)

/-- The walk drops the flags. -/
theorem typ_and_mask {a : Attr} (h : a.typ.toNat < 2 ^ 14) :
    (a.typ ||| a.flags) &&& 0x3fff = a.typ := by
  have hflags : a.flags &&& 0x3fff = 0 := by
    have hplain : (0 : UInt16) &&& 0x3fff = 0 := by decide
    have hnested : nlaFNested &&& 0x3fff = 0 := by decide
    cases a with
    | leaf typ payload => exact hplain
    | str typ s => exact hplain
    | raw typ payload => exact hnested
    | nested typ children => exact hnested
  have hmask := and_mask h
  apply UInt16.toNat_inj.mp
  rw [UInt16.toNat_and, UInt16.toNat_or, Nat.and_or_distrib_right, ← UInt16.toNat_and,
    ← UInt16.toNat_and, hmask, hflags]
  exact Nat.or_zero _

/-- What the walk passes on of an attribute. -/
def Attr.walked (a : Attr) : UInt16 × List UInt8 :=
  ((a.typ ||| a.flags) &&& 0x3fff, a.payload)

theorem attrsFrom_encodeAll {as : List Attr} (h : ∀ a ∈ as, 4 + a.payload.length < 2 ^ 16)
    {body a : List UInt8} {i fuel : ℕ} (hbody : body = a ++ encodeAll as) (hi : i = a.length)
    (hfuel : as.length ≤ fuel) : attrsFrom body fuel i = as.map Attr.walked := by
  induction as generalizing a i fuel with
  | nil =>
      rw [encodeAll, List.append_nil] at hbody
      exact attrsFrom_end body fuel i (by rw [hbody, hi])
  | cons x as ih =>
      obtain ⟨hx, has⟩ := List.forall_mem_cons.mp h
      cases fuel with
      | zero => simp at hfuel
      | succ fuel =>
          rw [encodeAll] at hbody
          rw [attrsFrom_tlv hbody hi hx, List.map_cons, Attr.walked]
          congr 1
          apply ih has (a := a ++ tlv (x.typ ||| x.flags) x.payload)
          · rw [hbody, List.append_assoc]
          · rw [hi, List.length_append]
          · simpa using hfuel

theorem length_le_encodeAll (as : List Attr) : as.length ≤ (encodeAll as).length := by
  induction as with
  | nil => simp
  | cons a as ih =>
      have := le_align4 (4 + a.payload.length)
      rw [encodeAll, List.length_append, length_tlv, List.length_cons]
      omega

/-- The walk over a body goes through its attributes in order. -/
theorem forEachAttr_walked {as : List Attr} (h : ∀ a ∈ as, 4 + a.payload.length < 2 ^ 16) :
    forEachAttr (encodeAll as) = as.map Attr.walked :=
  attrsFrom_encodeAll h (a := []) rfl rfl (length_le_encodeAll as)

/-- Type and payload of an attribute. -/
def Attr.item (a : Attr) : UInt16 × List UInt8 :=
  (a.typ, a.payload)

theorem forEachAttr_encodeAll {as : List Attr} (h : FitAll as) :
    forEachAttr (encodeAll as) = as.map Attr.item := by
  rw [forEachAttr_walked fun a ha => (h.fits_of_mem a ha).length_lt]
  refine List.map_congr_left fun a ha => ?_
  rw [Attr.walked, typ_and_mask (h.fits_of_mem a ha).typ_lt, Attr.item]

/-! ## Small trees -/

mutual

/-- All types in a tree leave room for the flags. -/
def Attr.typed : Attr → Bool
  | .leaf typ _ => typ.toNat < 2 ^ 14
  | .str typ _ => typ.toNat < 2 ^ 14
  | .raw typ _ => typ.toNat < 2 ^ 14
  | .nested typ children => typ.toNat < 2 ^ 14 && typedAll children

def typedAll : List Attr → Bool
  | [] => true
  | a :: as => a.typed && typedAll as

end

mutual

/-- A bound on the bytes of a tree, with room for all padding. -/
def Attr.weight : Attr → ℕ
  | .leaf _ payload => 7 + payload.length
  | .str _ s => 8 + s.length
  | .raw _ payload => 7 + payload.length
  | .nested _ children => 7 + weights children

def weights : List Attr → ℕ
  | [] => 0
  | a :: as => a.weight + weights as

end

mutual

theorem length_payload_le (a : Attr) : 7 + a.payload.length ≤ a.weight := by
  cases a with
  | leaf typ payload => rw [Attr.payload, Attr.weight]
  | str typ s =>
      rw [Attr.payload, Attr.weight, List.length_append, List.length_singleton]
      omega
  | raw typ payload => rw [Attr.payload, Attr.weight]
  | nested typ children =>
      have := length_encodeAll_le children
      rw [Attr.payload, Attr.weight]
      omega

theorem length_encodeAll_le (as : List Attr) : (encodeAll as).length ≤ weights as := by
  cases as with
  | nil => simp [encodeAll]
  | cons a as =>
      have hhead := length_payload_le a
      have htail := length_encodeAll_le as
      rw [encodeAll, weights, List.length_append, length_tlv, align4]
      omega

end

mutual

theorem Attr.fits_of_weight (a : Attr) (ht : a.typed) (hw : a.weight < 2 ^ 16) : a.Fits := by
  have hlen := length_payload_le a
  cases a with
  | leaf typ payload =>
      rw [Attr.payload] at hlen
      exact ⟨by simpa [Attr.typed] using ht, by omega⟩
  | str typ s =>
      rw [Attr.weight] at hw
      exact ⟨by simpa [Attr.typed] using ht, by omega⟩
  | raw typ payload =>
      rw [Attr.payload] at hlen
      exact ⟨by simpa [Attr.typed] using ht, by omega⟩
  | nested typ children =>
      rw [Attr.typed, Bool.and_eq_true, decide_eq_true_eq] at ht
      rw [Attr.payload] at hlen
      have hchildren : weights children < 2 ^ 16 := by
        rw [Attr.weight] at hw
        omega
      exact ⟨ht.1, by omega, fitAll_of_weights children ht.2 hchildren⟩

theorem fitAll_of_weights (as : List Attr) (ht : typedAll as) (hw : weights as < 2 ^ 16) :
    FitAll as := by
  cases as with
  | nil => trivial
  | cons a as =>
      rw [typedAll, Bool.and_eq_true] at ht
      rw [weights] at hw
      exact ⟨Attr.fits_of_weight a ht.1 (by omega), fitAll_of_weights as ht.2 (by omega)⟩

end

/-! ## Trees -/

/-- How deep to walk into an attribute: what a reader knows before it reads. -/
inductive Shape where
  | leaf
  | str
  | raw
  | nested (children : List Shape)

mutual

def Attr.shape : Attr → Shape
  | .leaf _ _ => .leaf
  | .str _ _ => .str
  | .raw _ _ => .raw
  | .nested _ children => .nested (shapes children)

def shapes : List Attr → List Shape
  | [] => []
  | a :: as => a.shape :: shapes as

end

mutual

/-- The attribute for an item of the walk; inside a nested one the walk is repeated. -/
def walkItem : Shape → UInt16 × List UInt8 → Option Attr
  | .leaf, item => some (.leaf item.1 item.2)
  | .str, item => if item.2.getLast? = some 0 then some (.str item.1 item.2.dropLast) else none
  | .raw, item => some (.raw item.1 item.2)
  | .nested children, item => (walkItems children (forEachAttr item.2)).map (.nested item.1)

def walkItems : List Shape → List (UInt16 × List UInt8) → Option (List Attr)
  | [], [] => some []
  | s :: ss, item :: items =>
      (walkItem s item).bind fun a => (walkItems ss items).map (a :: ·)
  | _, _ => none

end

/-- The tree that the walk finds in a body. -/
def walk (ss : List Shape) (body : List UInt8) : Option (List Attr) :=
  walkItems ss (forEachAttr body)

mutual

theorem walkItem_item (a : Attr) (h : a.Fits) : walkItem a.shape a.item = some a := by
  cases a with
  | leaf typ payload => rw [Attr.shape, walkItem, Attr.item, Attr.typ, Attr.payload]
  | str typ s => simp [Attr.shape, walkItem, Attr.item, Attr.typ, Attr.payload]
  | raw typ payload => rw [Attr.shape, walkItem, Attr.item, Attr.typ, Attr.payload]
  | nested typ children =>
      rw [Attr.shape, walkItem, Attr.item, Attr.typ, Attr.payload, forEachAttr_encodeAll h.2.2,
        walkItems_items children h.2.2, Option.map_some]

theorem walkItems_items (as : List Attr) (h : FitAll as) :
    walkItems (shapes as) (as.map Attr.item) = some as := by
  cases as with
  | nil => rw [shapes, List.map_nil, walkItems]
  | cons a as =>
      rw [shapes, List.map_cons, walkItems, walkItem_item a h.1, Option.bind_some,
        walkItems_items as h.2, Option.map_some]

end

/-- Walking the encoding of a forest returns the forest. -/
theorem walk_encodeAll {as : List Attr} (h : FitAll as) :
    walk (shapes as) (encodeAll as) = some as := by
  rw [walk, forEachAttr_encodeAll h, walkItems_items as h]

end Lwrt.Nl
