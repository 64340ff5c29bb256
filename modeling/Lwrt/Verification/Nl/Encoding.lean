import Lwrt.Applet.Nl

/-! # What the builder appends

Attributes as trees, and the bytes that the calls of the builder leave for them. -/

namespace Lwrt.Nl

open Library

/-! ## Alignment -/

theorem le_align4 (n : ℕ) : n ≤ align4 n := by
  rw [align4]
  omega

theorem align4_mod (n : ℕ) : align4 n % 4 = 0 := by
  rw [align4]
  omega

theorem align4_add {m : ℕ} (h : m % 4 = 0) (n : ℕ) : align4 (m + n) = m + align4 n := by
  rw [align4, align4]
  omega

theorem align4_eq_self {n : ℕ} (h : n % 4 = 0) : align4 n = n := by
  rw [align4]
  omega

theorem length_pad (b : NlBuf) : b.pad.length = align4 b.length := by
  have := le_align4 b.length
  simp only [NlBuf.pad, List.length_append, List.length_replicate]
  omega

/-- Padding depends on the part after an aligned offset only. -/
theorem pad_append {b : NlBuf} (h : b.length % 4 = 0) (x : NlBuf) :
    NlBuf.pad (b ++ x) = b ++ x.pad := by
  rw [NlBuf.pad, NlBuf.pad, List.length_append, align4_add h, Nat.add_sub_add_left,
    List.append_assoc]

theorem pad_eq_self {b : NlBuf} (h : b.length % 4 = 0) : b.pad = b := by
  simp [NlBuf.pad, align4_eq_self h]

/-! ## Attribute trees -/

/-- An attribute as the callers of the builder write it: with a payload, with a string,
nested with a raw payload, or nested with further attributes. -/
inductive Attr where
  | leaf (typ : UInt16) (payload : List UInt8)
  | str (typ : UInt16) (s : List UInt8)
  | raw (typ : UInt16) (payload : List UInt8)
  | nested (typ : UInt16) (children : List Attr)

mutual

/-- The calls for an attribute. -/
def put (b : NlBuf) : Attr → NlBuf
  | .leaf typ payload => b.attr typ payload
  | .str typ s => b.attrStr typ s
  | .raw typ payload =>
      let opened := b.beginNested typ
      (opened.1.bytes payload).endNested opened.2
  | .nested typ children =>
      let opened := b.beginNested typ
      (putAll opened.1 children).endNested opened.2

def putAll (b : NlBuf) : List Attr → NlBuf
  | [] => b
  | a :: as => putAll (put b a) as

end

def Attr.typ : Attr → UInt16
  | .leaf typ _ => typ
  | .str typ _ => typ
  | .raw typ _ => typ
  | .nested typ _ => typ

def Attr.flags : Attr → UInt16
  | .leaf _ _ => 0
  | .str _ _ => 0
  | .raw _ _ => nlaFNested
  | .nested _ _ => nlaFNested

/-- Header, payload and padding. -/
def tlv (typ : UInt16) (payload : List UInt8) : List UInt8 :=
  NlBuf.pad (toLe16 (UInt16.ofNat (4 + payload.length)) ++ toLe16 typ ++ payload)

mutual

/-- The bytes that the length field of an attribute covers, after the header. -/
def Attr.payload : Attr → List UInt8
  | .leaf _ payload => payload
  | .str _ s => s ++ [0]
  | .raw _ payload => payload
  | .nested _ children => encodeAll children

def encodeAll : List Attr → List UInt8
  | [] => []
  | a :: as => tlv (a.typ ||| a.flags) a.payload ++ encodeAll as

end

def Attr.encode (a : Attr) : List UInt8 :=
  tlv (a.typ ||| a.flags) a.payload

theorem length_tlv (typ : UInt16) (payload : List UInt8) :
    (tlv typ payload).length = align4 (4 + payload.length) := by
  rw [tlv, length_pad]
  simp only [List.length_append, length_toLe16]

theorem length_encodeAll_mod (as : List Attr) : (encodeAll as).length % 4 = 0 := by
  induction as with
  | nil => rfl
  | cons a as ih =>
      have := align4_mod (4 + a.payload.length)
      rw [encodeAll, List.length_append, length_tlv]
      omega

/-! ## The builder appends the encoding -/

theorem attr_eq {b : NlBuf} (h : b.length % 4 = 0) (typ : UInt16) (payload : List UInt8) :
    b.attr typ payload = b ++ tlv typ payload := by
  rw [NlBuf.attr, tlv, List.append_assoc, List.append_assoc, pad_append h, ← List.append_assoc]

theorem attrStr_eq (b : NlBuf) (typ : UInt16) (s : List UInt8) :
    b.attrStr typ s = b.attr typ (s ++ [0]) := by
  simp [NlBuf.attrStr, NlBuf.attr, Nat.add_assoc]

/-- A field that was left open is filled in. -/
theorem copyAt_append {b hole src : List UInt8} (rest : List UInt8) (h : hole.length = src.length) :
    copyAt (b ++ hole ++ rest) b.length src = b ++ src ++ rest := by
  rw [copyAt, ← h, ← List.length_append, List.drop_left, List.append_assoc b hole rest,
    List.take_left]

theorem endNested_eq {b : NlBuf} (h : b.length % 4 = 0) (typ : UInt16) (body : List UInt8) :
    NlBuf.endNested ((b.beginNested typ).1 ++ body) (b.beginNested typ).2 =
      b ++ tlv (typ ||| nlaFNested) body := by
  have hlen : (b ++ [0, 0] ++ (toLe16 (typ ||| nlaFNested) ++ body)).length - b.length =
      4 + body.length := by
    simp only [List.length_append, List.length_cons, List.length_nil, length_toLe16]
    omega
  rw [NlBuf.endNested, NlBuf.beginNested, List.append_assoc _ _ body, hlen,
    copyAt_append _ (by rfl), tlv, List.append_assoc, pad_append h, List.append_assoc]

mutual

theorem put_eq {b : NlBuf} (h : b.length % 4 = 0) (a : Attr) : put b a = b ++ a.encode := by
  cases a with
  | leaf typ payload =>
      rw [put, attr_eq h, Attr.encode, Attr.typ, Attr.flags, UInt16.or_zero, Attr.payload]
  | str typ s =>
      rw [put, attrStr_eq, attr_eq h, Attr.encode, Attr.typ, Attr.flags, UInt16.or_zero,
        Attr.payload]
  | raw typ payload =>
      rw [put, NlBuf.bytes, endNested_eq h, Attr.encode, Attr.typ, Attr.flags, Attr.payload]
  | nested typ children =>
      have hopen : (b.beginNested typ).1.length % 4 = 0 := by
        simp only [NlBuf.beginNested, List.length_append, List.length_cons, List.length_nil,
          length_toLe16]
        omega
      rw [put, putAll_eq hopen, endNested_eq h, Attr.encode, Attr.typ, Attr.flags, Attr.payload]

theorem putAll_eq {b : NlBuf} (h : b.length % 4 = 0) (as : List Attr) :
    putAll b as = b ++ encodeAll as := by
  cases as with
  | nil => rw [putAll, encodeAll, List.append_nil]
  | cons a as =>
      have hput : (put b a).length % 4 = 0 := by
        have := align4_mod (4 + a.payload.length)
        rw [put_eq h, Attr.encode, List.length_append, length_tlv]
        omega
      rw [putAll, putAll_eq hput, put_eq h, Attr.encode, encodeAll, List.append_assoc]

end

end Lwrt.Nl
