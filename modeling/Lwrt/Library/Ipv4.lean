import Mathlib.Tactic.Ring
import Lwrt.Library.Numerals

/-! IPv4 addresses: octets, the 32-bit value they spell, and the dotted notation. -/

namespace Lwrt.Library

structure Ipv4Addr where
  a : UInt8
  b : UInt8
  c : UInt8
  d : UInt8
deriving DecidableEq, Repr

namespace Ipv4Addr

def octets (ip : Ipv4Addr) : List UInt8 :=
  [ip.a, ip.b, ip.c, ip.d]

/-- `u32::from`. -/
def toU32 (ip : Ipv4Addr) : UInt32 :=
  UInt32.ofNat (ip.a.toNat * 2 ^ 24 + ip.b.toNat * 2 ^ 16 + ip.c.toNat * 2 ^ 8 + ip.d.toNat)

/-- `Ipv4Addr::from` of a `u32`. -/
def ofU32 (v : UInt32) : Ipv4Addr where
  a := UInt8.ofNat (v.toNat / 2 ^ 24)
  b := UInt8.ofNat (v.toNat / 2 ^ 16)
  c := UInt8.ofNat (v.toNat / 2 ^ 8)
  d := UInt8.ofNat v.toNat

def unspecified : Ipv4Addr := ⟨0, 0, 0, 0⟩

theorem octets_inj {x y : Ipv4Addr} : x.octets = y.octets ↔ x = y := by
  obtain ⟨a, b, c, d⟩ := x
  obtain ⟨a', b', c', d'⟩ := y
  simp [octets]

theorem toNat_toU32 (ip : Ipv4Addr) :
    ip.toU32.toNat =
      ip.a.toNat * 2 ^ 24 + ip.b.toNat * 2 ^ 16 + ip.c.toNat * 2 ^ 8 + ip.d.toNat := by
  have ha := ip.a.toNat_lt
  have hb := ip.b.toNat_lt
  have hc := ip.c.toNat_lt
  have hd := ip.d.toNat_lt
  simp only [toU32, UInt32.toNat_ofNat']
  omega

@[simp] theorem ofU32_toU32 (ip : Ipv4Addr) : ofU32 ip.toU32 = ip := by
  have ha := ip.a.toNat_lt
  have hb := ip.b.toNat_lt
  have hc := ip.c.toNat_lt
  have hd := ip.d.toNat_lt
  obtain ⟨a, b, c, d⟩ := ip
  simp only [ofU32, toNat_toU32, mk.injEq]
  refine ⟨?_, ?_, ?_, ?_⟩ <;>
    (apply UInt8.toNat_inj.mp; simp only [UInt8.toNat_ofNat']; simp only at ha hb hc hd; omega)

@[simp] theorem toU32_ofU32 (v : UInt32) : (ofU32 v).toU32 = v := by
  apply UInt32.toNat_inj.mp
  have hv := v.toNat_lt
  rw [toNat_toU32]
  simp only [ofU32, UInt8.toNat_ofNat']
  omega

theorem toU32_inj {x y : Ipv4Addr} : x.toU32 = y.toU32 ↔ x = y := by
  constructor
  · intro h
    rw [← ofU32_toU32 x, h, ofU32_toU32]
  · rintro rfl
    rfl

/-! ## Dotted notation -/

/-- `Display`. -/
def toText (ip : Ipv4Addr) : Text :=
  Text.decimal ip.a.toNat ++ '.' :: (Text.decimal ip.b.toNat ++ '.' ::
    (Text.decimal ip.c.toNat ++ '.' :: Text.decimal ip.d.toNat))

/-- One octet: one to three digits, no leading zero, at most 255. -/
def readOctet (s : Text) : Option (UInt8 × Text) :=
  let digits := s.takeWhile Char.isDigit
  let value := Nat.ofDigitChars 10 digits 0
  if digits = [] ∨ 3 < digits.length ∨ (digits.head? = some '0' ∧ 1 < digits.length) ∨ 255 < value
  then none
  else some (UInt8.ofNat value, s.dropWhile Char.isDigit)

/-- `FromStr`. -/
def ofText (s : Text) : Option Ipv4Addr := do
  let (a, s) ← readOctet s
  let s ← Text.stripPrefix '.' s
  let (b, s) ← readOctet s
  let s ← Text.stripPrefix '.' s
  let (c, s) ← readOctet s
  let s ← Text.stripPrefix '.' s
  let (d, s) ← readOctet s
  if s = [] then some ⟨a, b, c, d⟩ else none

theorem decimal_octet :
    ∀ n : Fin 256, (Text.decimal n).length ≤ 3 ∧
      ¬ ((Text.decimal n).head? = some '0' ∧ 1 < (Text.decimal n).length) := by
  decide +kernel

theorem readOctet_decimal (x : UInt8) (rest : Text)
    (hrest : ∀ c ∈ rest.head?, c.isDigit = false) :
    readOctet (Text.decimal x.toNat ++ rest) = some (x, rest) := by
  have hdigits : ∀ c ∈ Text.decimal x.toNat, c.isDigit := fun c hc =>
    Nat.isDigit_of_mem_toDigits (by omega) (by omega) hc
  have hstop : rest.takeWhile Char.isDigit = [] ∧ rest.dropWhile Char.isDigit = rest := by
    cases rest with
    | nil => simp
    | cons c rest => simp [hrest c (by simp)]
  have htake : (Text.decimal x.toNat ++ rest).takeWhile Char.isDigit = Text.decimal x.toNat := by
    rw [List.takeWhile_append_of_pos hdigits, hstop.1, List.append_nil]
  have hdrop : (Text.decimal x.toNat ++ rest).dropWhile Char.isDigit = rest := by
    rw [List.dropWhile_append_of_pos hdigits, hstop.2]
  have hx := x.toNat_lt
  obtain ⟨hlen, hzero⟩ := decimal_octet ⟨x.toNat, hx⟩
  have hvalue : Nat.ofDigitChars 10 (Text.decimal x.toNat) 0 = x.toNat :=
    Nat.ofDigitChars_ten_toDigits
  have hne : Text.decimal x.toNat ≠ [] := Nat.toDigits_ne_nil
  simp only [readOctet, htake, hdrop, hvalue]
  rw [if_neg]
  · simp
  · simp only [not_or]
    exact ⟨hne, by simpa using hlen, hzero, by omega⟩

/-- The notation reads back as the address that was written. -/
@[simp] theorem ofText_toText (ip : Ipv4Addr) : ofText ip.toText = some ip := by
  obtain ⟨a, b, c, d⟩ := ip
  have hdot : ∀ s : Text, ∀ x ∈ ('.' :: s).head?, x.isDigit = false := by
    intro s x hx
    simp only [List.head?_cons, Option.mem_def, Option.some.injEq] at hx
    subst hx
    rfl
  have hlast := readOctet_decimal d [] (by simp)
  rw [List.append_nil] at hlast
  simp only [ofText, toText]
  rw [readOctet_decimal a _ (hdot _)]
  simp only [Option.bind_eq_bind, Option.bind_some, Text.stripPrefix, if_true]
  rw [readOctet_decimal b _ (hdot _)]
  simp only [Option.bind_some, if_true]
  rw [readOctet_decimal c _ (hdot _)]
  simp only [Option.bind_some, if_true]
  rw [hlast]
  simp

theorem not_mem_toText {ip : Ipv4Addr} {c : Char} (hdigit : c.isDigit = false) (hdot : c ≠ '.') :
    c ∉ ip.toText := by
  have hdecimal (n : ℕ) : c ∉ Text.decimal n := by
    intro hmem
    rw [Nat.isDigit_of_mem_toDigits (by omega) (by omega) hmem] at hdigit
    cases hdigit
  simp [toText, hdecimal, hdot]

/-- An octet that is read is written at the front. -/
theorem eq_of_readOctet {s rest : Text} {x : UInt8} (h : readOctet s = some (x, rest)) :
    s = Text.decimal x.toNat ++ rest := by
  simp only [readOctet] at h
  split at h
  case isTrue => cases h
  case isFalse hgood =>
    simp only [not_or] at hgood
    obtain ⟨hne, -, hzero, hlt⟩ := hgood
    simp only [Option.some.injEq, Prod.mk.injEq] at h
    obtain ⟨rfl, rfl⟩ := h
    have hall : ∀ c ∈ s.takeWhile Char.isDigit, c.isDigit := fun c hc => List.mem_takeWhile_imp hc
    rw [UInt8.toNat_ofNat_of_lt' (Nat.lt_succ_of_le (Nat.le_of_not_lt hlt)),
      Text.decimal_ofDigitChars hne hall hzero, List.takeWhile_append_dropWhile]

theorem eq_of_stripPrefix {c : Char} {s rest : Text} (h : Text.stripPrefix c s = some rest) :
    s = c :: rest := by
  cases s with
  | nil => cases h
  | cons d s =>
      rw [Text.stripPrefix] at h
      split at h
      case isTrue hd => rw [hd, Option.some.inj h]
      case isFalse => cases h

/-- Nothing but the notation of an address is read as one. -/
theorem ofText_eq_some_iff {s : Text} {ip : Ipv4Addr} : ofText s = some ip ↔ s = ip.toText := by
  constructor
  · intro h
    simp only [ofText, Option.bind_eq_bind, Option.bind_eq_some_iff, Prod.exists] at h
    obtain ⟨a, s₁, ha, s₂, hdot₁, b, s₃, hb, s₄, hdot₂, c, s₅, hc, s₆, hdot₃, d, s₇, hd, h⟩ := h
    split at h
    case isFalse => cases h
    case isTrue hend =>
      obtain rfl := Option.some.inj h
      rw [eq_of_readOctet ha, eq_of_stripPrefix hdot₁, eq_of_readOctet hb,
        eq_of_stripPrefix hdot₂, eq_of_readOctet hc, eq_of_stripPrefix hdot₃, eq_of_readOctet hd,
        hend, List.append_nil, toText]
  · intro h
    rw [h, ofText_toText]

end Ipv4Addr

end Lwrt.Library
