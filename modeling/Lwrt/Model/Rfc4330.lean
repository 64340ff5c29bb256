import Lwrt.Library.Bytes
import Lwrt.Library.Endian

/-! The timestamps of the Simple Network Time Protocol, as RFC 4330 section 3 reads them. -/

namespace Lwrt.Rfc4330

open Library

/-- The seconds of the 70 years from 1900 to 1970, with 17 leap days. -/
def unixEpoch : ℕ :=
  (70 * 365 + 17) * 86400

/-- The Unix time of a timestamp. With the most significant bit set it is in the years from 1968 to
2036 and counts from 1900; otherwise it is in those from 2036 to 2104 and counts from 2036. -/
def unixSeconds (secs : UInt32) : ℤ :=
  if 2 ^ 31 ≤ secs.toNat then secs.toNat - unixEpoch else 2 ^ 32 + secs.toNat - unixEpoch

/-- A message whose transmit timestamp is this time, with a fraction in units of 2⁻³² seconds. -/
structure Transmits (msg : List UInt8) (unix : ℕ) (frac : UInt32) : Prop where
  length_eq : msg.length = 48
  secs : ∃ secs, extract msg 40 4 = toBe32 secs ∧ unixSeconds secs = unix
  frac : extract msg 44 4 = toBe32 frac

/-- From 1970 on, a time before the end of those years is that of its seconds since 1900,
modulo 2³², and of no other timestamp. -/
theorem unixSeconds_eq_iff {unix : ℕ} (h : unix + unixEpoch < 2 ^ 32 + 2 ^ 31) (secs : UInt32) :
    unixSeconds secs = unix ↔ secs = UInt32.ofNat (unix + unixEpoch) := by
  have hlt := secs.toNat_lt
  rw [← UInt32.toNat_inj, UInt32.toNat_ofNat', unixSeconds]
  simp only [unixEpoch] at h ⊢
  split
  · omega
  · omega

theorem unixSeconds_lt (secs : UInt32) : unixSeconds secs + unixEpoch < 2 ^ 32 + 2 ^ 31 := by
  have hlt := secs.toNat_lt
  rw [unixSeconds]
  split
  · omega
  · omega

end Lwrt.Rfc4330
