import Lwrt.Applet.Ntp
import Lwrt.Model.Rfc4330

/-! # The eras of a timestamp

The client counts every timestamp from 1900, so that it understands those of the first era only. -/

namespace Lwrt.Ntp

open Library Text Rfc4330

/-! ## The fraction -/

theorem nanos_toNat {frac : UInt64} (h : frac.toNat < 2 ^ 32) :
    (nanos frac).toNat = frac.toNat * 10 ^ 9 / 2 ^ 32 := by
  have hmul : (frac * 1000000000).toNat = frac.toNat * 10 ^ 9 := by
    rw [UInt64.toNat_mul, show (1000000000 : UInt64).toNat = 10 ^ 9 from rfl]
    omega
  rw [nanos, UInt64.toNat_shiftRight, hmul, Nat.shiftRight_eq_div_pow]
  rfl

theorem nanos_le {frac : UInt64} (h : frac.toNat < 2 ^ 32) : (nanos frac).toNat ≤ 999999999 := by
  rw [nanos_toNat h]
  omega

theorem nanos_mono {frac frac' : UInt64} (hle : frac ≤ frac') (h : frac'.toNat < 2 ^ 32) :
    nanos frac ≤ nanos frac' := by
  have hle := UInt64.le_iff_toNat_le.mp hle
  rw [UInt64.le_iff_toNat_le, nanos_toNat h, nanos_toNat (Nat.lt_of_le_of_lt hle h)]
  exact Nat.div_le_div_right (Nat.mul_le_mul_right _ hle)

/-! ## Setting the clock -/

/-- A value that fits into 32 bits, with its sign, fits into more of them. -/
theorem bmod_of_lt {n : ℕ} (h : n < 2 ^ 31) {bits : ℕ} (hbits : 32 ≤ bits) :
    Int.bmod n (2 ^ bits) = n := by
  have hpow : 2 ^ 32 ≤ 2 ^ bits := Nat.pow_le_pow_right (by decide) hbits
  apply Int.bmod_eq_of_le
  · omega
  · omega

theorem toInt_nanos {frac : UInt64} (h : frac.toNat < 2 ^ 32) :
    (nanos frac).toInt64.toInt = (nanos frac).toNat := by
  have hle := nanos_le h
  have hbits : (nanos frac).toInt64.toInt = Int.bmod (nanos frac).toNat (2 ^ 64) :=
    BitVec.toInt_eq_toNat_bmod _
  rw [hbits, bmod_of_lt (by omega) (by decide)]

theorem setClock_eq (abi : Abi) {host : Host} (hset : ∀ ts, host.settime ts = none)
    {secs frac : UInt64} (hsecs : secs.toNat < 2 ^ 31) (hfrac : frac.toNat < 2 ^ 32) :
    setClock abi host secs (nanos frac).toInt64 = .ok ⟨secs.toNat, (nanos frac).toNat⟩ := by
  have hle := nanos_le hfrac
  rw [setClock, toInt_nanos hfrac, bmod_of_lt hsecs abi.timeT_le,
    bmod_of_lt (by omega) abi.long_le]
  simp only [hset]

theorem u32At_toBe32 {resp : List UInt8} {i : ℕ} {x : UInt32} (h : extract resp i 4 = toBe32 x) :
    u32At resp i = x := by
  rw [u32At, h, ofBeBytes_toBe32, UInt32.ofNat_toNat]

/-- What the client makes of a timestamp: it counts from 1900, and takes what is not before 1970. -/
theorem syncOnce_eq (abi : Abi) {host : Host} {server : Text} (clock : Timespec)
    {reply : List UInt8} {secs frac : UInt32} (hreply : host.query server request = .ok reply)
    (hset : ∀ ts, host.settime ts = none) (hlen : reply.length = 48)
    (hsecs : extract reply 40 4 = toBe32 secs) (hfrac : extract reply 44 4 = toBe32 frac) :
    syncOnce abi host server clock =
      if secs = 0 then (clock, .error "null timestamp".toList)
      else if secs.toNat < unixEpoch then (clock, .error "pre-1970 timestamp".toList)
      else (⟨(secs.toNat - unixEpoch : ℕ), (nanos frac.toUInt64).toNat⟩,
        .ok (UInt64.ofNat (secs.toNat - unixEpoch))) := by
  have hlt := secs.toNat_lt
  have htake : reply.take 48 = reply := List.take_of_length_le (by omega)
  have hzero : secs.toUInt64 = 0 ↔ secs = 0 := by
    rw [← UInt64.toNat_inj, ← UInt32.toNat_inj]
    rfl
  have hoffset : ntpUnixOffset ≤ secs.toUInt64 ↔ ¬ secs.toNat < unixEpoch := by
    rw [Nat.not_lt]
    exact UInt64.le_iff_toNat_le
  simp only [syncOnce, hreply, htake, hlen, Nat.lt_irrefl, if_false, u32At_toBe32 hsecs,
    u32At_toBe32 hfrac, hzero, checkedSub, hoffset]
  by_cases hnull : secs = 0
  · rw [if_pos hnull, if_pos hnull]
  rw [if_neg hnull, if_neg hnull]
  by_cases hearly : secs.toNat < unixEpoch
  · simp only [hearly, not_true_eq_false, if_false, if_true]
  have hsub : (secs.toUInt64 - ntpUnixOffset).toNat = secs.toNat - unixEpoch :=
    UInt64.toNat_sub_of_le _ _ (hoffset.mpr hearly)
  have hunix : secs.toNat - unixEpoch < 2 ^ 31 := by
    rw [unixEpoch]
    omega
  have hfraclt : frac.toUInt64.toNat < 2 ^ 32 := frac.toNat_lt
  have hset := setClock_eq abi hset (hsub ▸ hunix) hfraclt
  simp only [hearly, not_false_eq_true, if_true, if_false, hset]
  rw [← hsub, UInt64.ofNat_toNat]

/-! ## Servers -/

/-- A query that fails leaves the clock alone. -/
theorem syncOnce_cases (abi : Abi) (host : Host) (server : Text) (clock : Timespec) :
    (∃ e, syncOnce abi host server clock = (clock, .error e)) ∨
      ∃ ts unix, syncOnce abi host server clock = (ts, .ok unix) := by
  rw [syncOnce]
  split
  · exact Or.inl ⟨_, rfl⟩
  dsimp only
  split
  · exact Or.inl ⟨_, rfl⟩
  split
  · exact Or.inl ⟨_, rfl⟩
  split
  · exact Or.inl ⟨_, rfl⟩
  split
  · exact Or.inl ⟨_, rfl⟩
  · exact Or.inr ⟨_, _, rfl⟩

/-- The query sets the clock to a second and to the nanoseconds of a fraction, which are rounded
down and never decrease with it. -/
structure Sets (abi : Abi) (host : Host) (server : Text) (clock : Timespec) (unix : ℕ)
    (frac : UInt32) : Prop where
  eq : syncOnce abi host server clock =
    (⟨unix, (nanos frac.toUInt64).toNat⟩, .ok (UInt64.ofNat unix))
  floor : (nanos frac.toUInt64).toNat = frac.toNat * 10 ^ 9 / 2 ^ 32
  le : (nanos frac.toUInt64).toNat ≤ 999999999
  mono : ∀ later : UInt32, frac ≤ later → nanos frac.toUInt64 ≤ nanos later.toUInt64

theorem Sets.of_eq {abi : Abi} {host : Host} {server : Text} {clock : Timespec} {unix : ℕ}
    {frac : UInt32} (h : syncOnce abi host server clock =
      (⟨unix, (nanos frac.toUInt64).toNat⟩, .ok (UInt64.ofNat unix))) :
    Sets abi host server clock unix frac where
  eq := h
  floor := nanos_toNat frac.toNat_lt
  le := nanos_le frac.toNat_lt
  mono later hle := nanos_mono (UInt64.le_iff_toNat_le.mpr (UInt32.le_iff_toNat_le.mp hle))
    later.toNat_lt

/-- A reply sets the clock to the time it transmits exactly if that time is in the first era, which
ends on 7 February 2036 at 06:28:16. -/
theorem sync_once_iff (abi : Abi) {host : Host} {server : Text} (clock : Timespec)
    {reply : List UInt8} {unix : ℕ} {frac : UInt32}
    (hreply : host.query server request = .ok reply) (hset : ∀ ts, host.settime ts = none)
    (htransmits : Transmits reply unix frac) :
    Sets abi host server clock unix frac ↔ unix < 2085978496 := by
  obtain ⟨hlen, ⟨secs, hsecs, hunix⟩, hfrac⟩ := htransmits
  have hend : unix + unixEpoch < 2 ^ 32 + 2 ^ 31 := by
    have hlt := unixSeconds_lt secs
    rw [hunix] at hlt
    exact_mod_cast hlt
  have hcount : secs.toNat = (unix + unixEpoch) % 2 ^ 32 := by
    rw [(unixSeconds_eq_iff hend secs).mp hunix, UInt32.toNat_ofNat']
  have heq := syncOnce_eq abi clock hreply hset hlen hsecs hfrac
  simp only [unixEpoch] at hend hcount
  constructor
  · intro hsets
    have hresult := hsets.eq
    rw [heq] at hresult
    split at hresult
    · cases hresult
    split at hresult
    · cases hresult
    rename_i hearly
    have hsame := congrArg (fun r => r.1.tvSec) hresult
    simp only [unixEpoch] at hsame hearly
    omega
  · intro hfirst
    have hzero : secs ≠ 0 := by
      intro h
      rw [h, UInt32.toNat_zero] at hcount
      omega
    have hearly : ¬ secs.toNat < unixEpoch := by
      rw [unixEpoch]
      omega
    have hback : secs.toNat - unixEpoch = unix := by
      rw [unixEpoch]
      omega
    rw [if_neg hzero, if_neg hearly, hback] at heq
    exact Sets.of_eq heq

/-- A reply of zeros but for the transmit timestamp. -/
def replyOf (secs frac : UInt32) : List UInt8 :=
  List.replicate 40 0 ++ (toBe32 secs ++ toBe32 frac)

def answering (reply : List UInt8) : Host :=
  ⟨fun _ _ => .ok reply, fun _ => none⟩

/-- The target, where both are 32 bits wide. -/
def mipsel : Abi :=
  ⟨32, 32, Nat.le_refl 32, Nat.le_refl 32⟩

/-- 14 November 2023 at 22:13:20 and a half. -/
theorem sync_once_2023 :
    Sets mipsel (answering (replyOf 3908988800 0x80000000)) "a".toList ⟨0, 0⟩ 1700000000
        0x80000000 ↔ 1700000000 < 2085978496 :=
  sync_once_iff mipsel ⟨0, 0⟩ rfl (fun _ => rfl)
    ⟨by decide, ⟨3908988800, by decide, by decide⟩, by decide⟩

/-- One second into the second era. -/
theorem rolled_over_refused :
    Transmits (replyOf 1 0) 2085978497 0 ∧
      ¬ Sets mipsel (answering (replyOf 1 0)) "a".toList ⟨0, 0⟩ 2085978497 0 ∧
      syncOnce mipsel (answering (replyOf 1 0)) "a".toList ⟨0, 0⟩ =
        (⟨0, 0⟩, .error "pre-1970 timestamp".toList) := by
  have heq : syncOnce mipsel (answering (replyOf 1 0)) "a".toList ⟨0, 0⟩ =
      (⟨0, 0⟩, .error "pre-1970 timestamp".toList) := rfl
  refine ⟨⟨by decide, ⟨1, by decide, by decide⟩, by decide⟩, ?_, heq⟩
  intro hsets
  have heq' := hsets.eq
  rw [heq] at heq'
  cases heq'

end Lwrt.Ntp
