import Lwrt.Verification.Sha256.Compression

/-! # Streaming computes the digest of the concatenation -/

namespace Lwrt.Sha256

open Library

/-- The chaining value after the whole blocks of a message. -/
def chain (m : List UInt8) : Words :=
  (Fips180.blocks m).foldl compress h0

/-- The bytes of a message after its whole blocks. -/
def tail (m : List UInt8) : List UInt8 :=
  m.drop (64 * (m.length / 64))

/-- The state stands for the message fed to it. -/
structure Represents (s : State) (m : List UInt8) : Prop where
  h : s.h = chain m
  size : s.block.length = 64
  fill : s.fill = m.length % 64
  stash : s.block.take s.fill = tail m
  len : s.len = UInt64.ofNat m.length

theorem represents_new : Represents new [] where
  h := rfl
  size := rfl
  fill := rfl
  stash := rfl
  len := rfl

/-! ## Whole blocks -/

theorem length_tail (m : List UInt8) : (tail m).length = m.length % 64 := by
  rw [tail, List.length_drop]
  omega

theorem tail_of_lt {m : List UInt8} (h : m.length < 64) : tail m = m := by
  rw [tail, Nat.div_eq_of_lt h]
  rfl

section Whole

variable {w : List UInt8} (hw : w.length % 64 = 0)
include hw

theorem tail_append (x : List UInt8) : tail (w ++ x) = tail x := by
  have hoff : 64 * ((w ++ x).length / 64) = w.length + 64 * (x.length / 64) := by
    rw [List.length_append]
    omega
  rw [tail, hoff, ← List.drop_drop, List.drop_left, tail]

theorem chain_append (x : List UInt8) :
    chain (w ++ x) = (Fips180.blocks x).foldl compress (chain w) := by
  rw [chain, Fips180.blocks_append hw, List.foldl_append, chain]

theorem chain_append_of_lt {x : List UInt8} (hx : x.length < 64) : chain (w ++ x) = chain w := by
  rw [chain_append hw, Fips180.blocks_of_lt hx, List.foldl_nil]

theorem chain_append_block {x : List UInt8} (hx : x.length = 64) :
    chain (w ++ x) = compress (chain w) x := by
  have hnil : Fips180.blocks [] = [] := rfl
  have hblocks := Fips180.blocks_cons hx []
  rw [List.append_nil, hnil] at hblocks
  rw [chain_append hw, hblocks, List.foldl_cons, List.foldl_nil]

end Whole

/-- A message is whole blocks and a tail, which more input is appended to. -/
theorem exists_whole (m : List UInt8) :
    ∃ w, w.length % 64 = 0 ∧ chain m = chain w ∧ ∀ x, m ++ x = w ++ (tail m ++ x) := by
  have hw : (m.take (64 * (m.length / 64))).length % 64 = 0 := by
    rw [List.length_take]
    omega
  have hm : m.take (64 * (m.length / 64)) ++ tail m = m := List.take_append_drop _ m
  have hshort : (tail m).length < 64 := by
    rw [length_tail]
    omega
  refine ⟨m.take (64 * (m.length / 64)), hw, ?_, ?_⟩
  · rw [← chain_append_of_lt hw hshort, hm]
  · intro x
    rw [← List.append_assoc, hm]

section More

variable {m x : List UInt8}

theorem chain_tail (hx : (tail m ++ x).length < 64) : chain (m ++ x) = chain m := by
  obtain ⟨w, hw, hchain, hmore⟩ := exists_whole m
  rw [hmore, chain_append_of_lt hw hx, hchain]

theorem tail_tail (hx : (tail m ++ x).length < 64) : tail (m ++ x) = tail m ++ x := by
  obtain ⟨w, hw, -, hmore⟩ := exists_whole m
  rw [hmore, tail_append hw, tail_of_lt hx]

/-- What completes the tail is one more block. -/
theorem chain_tail_block (hx : (tail m ++ x).length = 64) :
    chain (m ++ x) = compress (chain m) (tail m ++ x) := by
  obtain ⟨w, hw, hchain, hmore⟩ := exists_whole m
  rw [hmore, chain_append_block hw hx, hchain]

end More

/-- The loop over whole blocks. -/
theorem absorb_eq (fuel : ℕ) (h : Words) (data : List UInt8) (hfuel : data.length ≤ fuel) :
    absorb fuel h data = ((Fips180.blocks data).foldl compress h, tail data) := by
  induction fuel generalizing h data with
  | zero =>
      have hnil : data = [] := List.length_eq_zero_iff.mp (by omega)
      subst hnil
      rfl
  | succ fuel ih =>
      rw [absorb]
      split
      · rename_i hlong
        have htake : (data.take 64).length = 64 := by
          rw [List.length_take]
          omega
        have hdrop : (data.drop 64).length = data.length - 64 := List.length_drop
        have hblocks := Fips180.blocks_cons htake (data.drop 64)
        have htail : tail (data.drop 64) = tail data := by
          rw [tail, tail, hdrop, List.drop_drop]
          congr 1
          omega
        rw [List.take_append_drop] at hblocks
        rw [ih _ _ (by omega), hblocks, List.foldl_cons, htail]
      · rename_i hshort
        have hlen : data.length / 64 = 0 := by omega
        rw [Fips180.blocks_of_lt (by omega), tail, hlen]
        rfl

/-! ## `update` -/

theorem take_copyAt_zero {b src : List UInt8} :
    (copyAt b 0 src).take src.length = src := by
  simp [copyAt]

theorem fillFrom_represents {s : State} {w data : List UInt8} (hw : w.length % 64 = 0)
    (hh : s.h = chain w) (hsize : s.block.length = 64)
    (hlen : s.len = UInt64.ofNat (w ++ data).length) :
    Represents (s.fillFrom data) (w ++ data) := by
  have habsorb := absorb_eq data.length s.h data (Nat.le_refl _)
  have htail : (tail data).length ≤ 64 := by
    rw [length_tail]
    omega
  rw [State.fillFrom, habsorb]
  refine ⟨?_, ?_, ?_, ?_, hlen⟩
  · rw [chain_append hw, hh]
  · exact length_copyAt 0 (tail data) hsize (by omega)
  · rw [List.length_append]
    simp only [length_tail]
    omega
  · rw [tail_append hw]
    exact take_copyAt_zero

/-- The stash of a partial block, topped up. -/
theorem take_copyAt_stash {b t : List UInt8} {n : ℕ} (hn : n ≤ b.length) (ht : b.take n = t)
    (src : List UInt8) :
    (copyAt b n src).take (n + src.length) = t ++ src := by
  have htn : (b.take n).length = n := by
    rw [List.length_take]
    omega
  rw [copyAt, ← ht, List.take_append_of_le_length (by rw [List.length_append, htn]),
    List.take_of_length_le (by rw [List.length_append, htn])]

theorem ofNat_length_append (m data : List UInt8) :
    UInt64.ofNat m.length + UInt64.ofNat data.length = UInt64.ofNat (m ++ data).length := by
  rw [List.length_append, UInt64.ofNat_add]

/-- The block that the first part of the input completes ends the message fed so far. -/
theorem Represents.compress_block {s : State} {m part : List UInt8} (hs : Represents s m)
    (hfull : s.fill + part.length = 64) :
    (m ++ part).length % 64 = 0 ∧
      compress s.h (copyAt s.block s.fill part) = chain (m ++ part) := by
  have hfill := hs.fill
  have htail := length_tail m
  have hstash := take_copyAt_stash (by rw [hs.size]; omega) hs.stash part
  have hsize := length_copyAt s.fill part hs.size (by omega)
  rw [hfull, List.take_of_length_le (Nat.le_of_eq hsize)] at hstash
  have hone : (tail m ++ part).length = 64 := by
    rw [List.length_append]
    omega
  rw [chain_tail_block hone, hs.h, hstash, List.length_append]
  exact ⟨by omega, rfl⟩

/-- Input that does not complete the block is kept behind what is there. -/
theorem Represents.stash_part {s : State} {m data : List UInt8} (hs : Represents s m)
    (hless : s.fill + data.length < 64) {len : UInt64}
    (hlen : len = UInt64.ofNat (m ++ data).length) :
    Represents ⟨s.h, copyAt s.block s.fill data, s.fill + data.length, len⟩ (m ++ data) := by
  have hfill := hs.fill
  have htail := length_tail m
  have hstash := take_copyAt_stash (by rw [hs.size]; omega) hs.stash data
  have hshort : (tail m ++ data).length < 64 := by
    rw [List.length_append]
    omega
  refine ⟨?_, length_copyAt s.fill data hs.size (by omega), ?_, ?_, hlen⟩
  · rw [chain_tail hshort, hs.h]
  · rw [List.length_append]
    simp only
    omega
  · rw [hstash, tail_tail hshort]

/-- `update` appends to the message. -/
theorem Represents.update {s : State} {m : List UInt8} (hs : Represents s m) (data : List UInt8) :
    Represents (s.update data) (m ++ data) := by
  have hlen : s.len + UInt64.ofNat data.length = UInt64.ofNat (m ++ data).length := by
    rw [hs.len, ofNat_length_append]
  have hfill := hs.fill
  rw [State.update]
  simp only
  split
  · rename_i hpos
    generalize htake : min (64 - s.fill) data.length = n
    have hn : (data.take n).length = n := by
      rw [List.length_take]
      omega
    split
    · rename_i hfull
      obtain ⟨hwhole, hchain⟩ := hs.compress_block (by rw [hn]; exact hfull)
      have hsize := length_copyAt s.fill (data.take n) hs.size (by omega)
      have hsplit : m ++ data = (m ++ data.take n) ++ data.drop n := by
        rw [List.append_assoc, List.take_append_drop]
      rw [hsplit] at hlen ⊢
      exact fillFrom_represents hwhole hchain hsize hlen
    · rename_i hless
      have hall : data.take n = data := List.take_of_length_le (by omega)
      rw [hall] at hn
      rw [hall, ← hn]
      exact hs.stash_part (by omega) hlen
  · rename_i hzero
    exact fillFrom_represents (by omega) hs.h hs.size hlen

/-- Chunk after chunk. -/
theorem Represents.foldl_update {s : State} {m : List UInt8} (hs : Represents s m)
    (chunks : List (List UInt8)) :
    Represents (chunks.foldl State.update s) (m ++ chunks.flatten) := by
  induction chunks generalizing s m with
  | nil => simpa using hs
  | cons c chunks ih =>
      rw [List.foldl_cons, List.flatten_cons, ← List.append_assoc]
      exact ih (hs.update c)

/-! ## `finish` -/

/-- The padding loop stops after as many zero bytes as the standard asks for. -/
theorem padZeros_represents {s : State} {m : List UInt8} (hs : Represents s m) (z : ℕ)
    (hz : (m.length + z) % 64 = 56) (hleast : ∀ j < z, (m.length + j) % 64 ≠ 56) {fuel : ℕ}
    (hfuel : z < fuel) :
    Represents (State.padZeros fuel s) (m ++ List.replicate z 0) ∧
      (State.padZeros fuel s).fill = 56 := by
  induction z generalizing s m fuel with
  | zero =>
      obtain ⟨fuel, rfl⟩ := Nat.exists_eq_succ_of_ne_zero (Nat.ne_of_gt hfuel)
      have hfill : s.fill = 56 := by
        rw [hs.fill]
        exact hz
      rw [State.padZeros, if_pos hfill]
      simpa using ⟨hs, hfill⟩
  | succ z ih =>
      obtain ⟨fuel, rfl⟩ := Nat.exists_eq_succ_of_ne_zero (Nat.ne_of_gt (Nat.zero_lt_of_lt hfuel))
      have hfill : s.fill ≠ 56 := by
        rw [hs.fill]
        exact hleast 0 (by omega)
      have hlen : (m ++ [(0 : UInt8)]).length = m.length + 1 := by simp
      have hnext := ih (hs.update [0]) (by rw [hlen]; omega)
        (fun j hj => by
          rw [hlen, Nat.add_assoc, Nat.add_comm 1]
          exact hleast (j + 1) (by omega)) (by omega : z < fuel)
      rw [State.padZeros, if_neg hfill, List.replicate_succ]
      simpa using hnext

theorem foldl_compress_spec (bs : List (List UInt8)) (hbs : ∀ b ∈ bs, b.length = 64) (w : Words) :
    (bs.foldl compress w).spec = bs.foldl Fips180.process w.spec := by
  induction bs generalizing w with
  | nil => rfl
  | cons b bs ih =>
      obtain ⟨hb, hbs⟩ := List.forall_mem_cons.mp hbs
      rw [List.foldl_cons, List.foldl_cons, ih hbs, compress_spec w hb]

theorem chain_spec (m : List UInt8) :
    (chain m).spec = (Fips180.blocks m).foldl Fips180.process Fips180.initial := by
  rw [chain, foldl_compress_spec _ fun _ => Fips180.length_of_mem_blocks, h0_spec]

/-- The words as bytes. -/
theorem toList_flatMap_toBeBytes (w : Words) :
    w.toList.flatMap toBeBytes =
      [w.spec.a, w.spec.b, w.spec.c, w.spec.d, w.spec.e, w.spec.f, w.spec.g, w.spec.h].flatMap
        toBe32 := by
  rw [show toBeBytes = toBe32 from funext toBeBytes_eq]
  rfl

theorem bits_eq (n : ℕ) : UInt64.ofNat n * 8 = UInt64.ofNat (8 * n) := by
  rw [UInt64.ofNat_mul, UInt64.mul_comm]
  rfl

/-- The padding loop of `finish` ends, and then the message fed is the padded message less its
length field. -/
theorem Represents.padded {s : State} {m : List UInt8} (hs : Represents s m) :
    Represents (State.padZeros 64 (s.update [0x80]))
        (m ++ 0x80 :: List.replicate (Fips180.zeroBytes m.length) 0) ∧
      (State.padZeros 64 (s.update [0x80])).fill = 56 := by
  obtain ⟨hlt, hz⟩ := Fips180.zeroBytes_spec m.length
  have hlen : (m ++ [(0x80 : UInt8)]).length = m.length + 1 := by simp
  have hleast : ∀ j < Fips180.zeroBytes m.length,
      ((m ++ [(0x80 : UInt8)]).length + j) % 64 ≠ 56 := by
    intro j hj heq
    rw [hlen] at heq
    exact Nat.not_le_of_lt hj (Fips180.zeroBytes_least heq)
  have hpad := padZeros_represents (hs.update [0x80]) _ (by rw [hlen]; exact hz) hleast hlt
  rw [List.append_assoc] at hpad
  exact hpad

/-- `finish` is the digest of the message fed. -/
theorem Represents.finish_eq {s : State} {m : List UInt8} (hs : Represents s m)
    (hm : m.length < 2 ^ 61) : s.finish = Fips180.sha256 m := by
  have hpadded := hs.padded.1
  have hlast := hpadded.update (lenBytes (s.len * 8))
  have hbits : lenBytes (s.len * 8) = Fips180.toBe64 (8 * m.length) := by
    rw [hs.len, bits_eq, lenBytes_eq (by omega)]
  have hpad : m ++ 0x80 :: List.replicate (Fips180.zeroBytes m.length) 0 ++
      lenBytes (s.len * 8) = Fips180.pad m := by
    rw [hbits, Fips180.pad]
  rw [hpad] at hlast
  rw [State.finish, Fips180.sha256, toList_flatMap_toBeBytes, hlast.h, chain_spec]

/-- However the data is split into chunks, the padding loop ends and the result is the SHA-256
digest of the whole. -/
theorem finish_foldl_update (chunks : List (List UInt8)) (h : chunks.flatten.length < 2 ^ 61) :
    (State.padZeros 64 ((chunks.foldl State.update new).update [0x80])).fill = 56 ∧
      (chunks.foldl State.update new).finish = Fips180.sha256 chunks.flatten ∧
      (chunks.foldl State.update new).finish = digest chunks.flatten := by
  have hs : Represents (chunks.foldl State.update new) chunks.flatten :=
    represents_new.foldl_update chunks
  have hone : Represents (new.update chunks.flatten) chunks.flatten :=
    represents_new.update chunks.flatten
  have hfinish := hs.finish_eq h
  refine ⟨hs.padded.2, hfinish, ?_⟩
  rw [digest, hone.finish_eq h, hfinish]

/-- Two chunks on both sides of a block boundary. -/
theorem finish_foldl_update_boundary :
    ([List.replicate 55 0x61, List.replicate 10 0x62].foldl State.update new).finish =
      digest ([List.replicate 55 0x61, List.replicate 10 0x62] : List (List UInt8)).flatten :=
  (finish_foldl_update [List.replicate 55 0x61, List.replicate 10 0x62] (by simp)).2.2

end Lwrt.Sha256
