import Lwrt.Library.Utf8

/-! Standard base64: three bytes as four symbols of six bits, with `=` in the place of the symbols
that a shorter last group does not need. -/

namespace Lwrt.Library.Base64

def alphabet : Text :=
  "ABCDEFGHIJKLMNOPQRSTUVWXYZabcdefghijklmnopqrstuvwxyz0123456789+/".toList

def symbol (n : ℕ) : Char :=
  alphabet.getD n '='

/-- The symbols without padding. -/
def symbols : List UInt8 → List ℕ
  | [] => []
  | [a] => [a.toNat / 4, a.toNat % 4 * 16]
  | [a, b] => [a.toNat / 4, a.toNat % 4 * 16 + b.toNat / 16, b.toNat % 16 * 4]
  | a :: b :: c :: rest =>
      a.toNat / 4 :: (a.toNat % 4 * 16 + b.toNat / 16) :: (b.toNat % 16 * 4 + c.toNat / 64) ::
        c.toNat % 64 :: symbols rest

def unpadded (bs : List UInt8) : Text :=
  (symbols bs).map symbol

def encode (bs : List UInt8) : Text :=
  unpadded bs ++ List.replicate ((3 - bs.length % 3) % 3) '='

/-- The text spells the bytes, with or without padding. -/
def Spells (s : Text) (bs : List UInt8) : Prop :=
  s = encode bs ∨ s = unpadded bs

/-- Space, tab, line feed, form feed and carriage return. -/
def isSpace (c : Char) : Bool :=
  c == ' ' || c == '\t' || c == '\n' || c == '\x0c' || c == '\r'

/-- The text spells the bytes, with whitespace anywhere in it. -/
def SpellsSpaced (s : Text) (bs : List UInt8) : Prop :=
  Spells (s.filter fun c => !isSpace c) bs

theorem symbols_lt (bs : List UInt8) : ∀ n ∈ symbols bs, n < 64 := by
  fun_induction symbols bs with
  | case1 => simp
  | case2 a =>
      have := a.toNat_lt
      simp only [List.mem_cons, List.not_mem_nil, or_false, forall_eq_or_imp, forall_eq]
      omega
  | case3 a b =>
      have := a.toNat_lt
      have := b.toNat_lt
      simp only [List.mem_cons, List.not_mem_nil, or_false, forall_eq_or_imp, forall_eq]
      omega
  | case4 a b c rest ih =>
      have := a.toNat_lt
      have := b.toNat_lt
      have := c.toNat_lt
      simp only [List.forall_mem_cons]
      exact ⟨by omega, by omega, by omega, by omega, ih⟩

end Lwrt.Library.Base64
