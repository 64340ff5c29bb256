import Mathlib.Algebra.Order.Floor.Div
import Lwrt.Applet.Mtd

/-! # Erasing block by block

From the start of a partition on, every block is erased once. -/

namespace Lwrt.Mtd

open Library Mtdchar

/-! ## Geometry -/

theorem field_lt (buf : List UInt8) (off : ℕ) : field buf off < 2 ^ 32 := by
  have hlen : (extract buf off 4).length ≤ 4 := by
    rw [extract, List.length_take]
    omega
  exact (ofLeBytes_lt _).trans_le (Nat.pow_le_pow_right (by decide) hlen)

theorem field_eraseInfo {off bs : ℕ} (hoff : off < 2 ^ 32) (hbs : bs < 2 ^ 32) :
    field (eraseInfo off bs) 0 = off ∧ field (eraseInfo off bs) 4 = bs := by
  have hfirst : extract (eraseInfo off bs) 0 4 = toLe32 (UInt32.ofNat off) := rfl
  have hsecond : extract (eraseInfo off bs) 4 4 = toLe32 (UInt32.ofNat bs) := rfl
  rw [field, field, hfirst, hsecond, ofLeBytes_toLe32, ofLeBytes_toLe32,
    UInt32.toNat_ofNat_of_lt' hoff, UInt32.toNat_ofNat_of_lt' hbs]
  exact ⟨rfl, rfl⟩

theorem length_lt (p : Partition) : p.bytes.length < 2 ^ 32 := by
  rw [p.length_bytes]
  exact field_lt _ _

theorem size_getInfo (p : Partition) : (getInfo p).size = p.bytes.length :=
  p.length_bytes.symm

theorem erasesize_dvd_length (p : Partition) : p.erasesize ∣ p.bytes.length := by
  rw [p.length_bytes]
  exact p.erasesize_dvd

theorem divCeil_eq (n : ℕ) {d : ℕ} (hd : 0 < d) : divCeil n d = n ⌈/⌉ d := by
  apply eq_of_forall_ge_iff
  intro c
  have hdiv := Nat.div_add_mod n d
  rw [ceilDiv_le_iff_le_mul hd, divCeil]
  split
  · rename_i hmod
    rw [Nat.add_one_le_iff, Nat.div_lt_iff_lt_mul hd, Nat.mul_comm]
    refine ⟨Nat.le_of_lt, fun hle => Nat.lt_of_le_of_ne hle ?_⟩
    rintro rfl
    rw [Nat.mul_mod_right] at hmod
    exact Nat.lt_irrefl 0 hmod
  · rename_i hmod
    rw [← Nat.mul_le_mul_left_iff hd]
    omega

/-- A number of bytes rounded up to blocks. -/
def roundUp (p : Partition) (n : ℕ) : ℕ :=
  n ⌈/⌉ p.erasesize * p.erasesize

theorem le_roundUp (p : Partition) (n : ℕ) : n ≤ roundUp p n := by
  rw [roundUp, Nat.mul_comm]
  exact le_smul_ceilDiv p.erasesize_pos

/-- Rounding up stays inside the partition. -/
theorem roundUp_le {p : Partition} {n : ℕ} (h : n ≤ p.bytes.length) :
    roundUp p n ≤ p.bytes.length := by
  obtain ⟨blocks, hblocks⟩ := erasesize_dvd_length p
  rw [hblocks] at h ⊢
  rw [roundUp, Nat.mul_comm]
  exact Nat.mul_le_mul_left _ ((ceilDiv_le_iff_le_mul p.erasesize_pos).mpr h)

/-! ## The loop -/

/-- The requests for the first `m` blocks. -/
def blockRequests (dev : Path) (bs m : ℕ) : List EraseRequest :=
  (List.range m).map fun k => ⟨dev, k * bs, bs⟩

theorem blockRequests_succ (dev : Path) (bs m : ℕ) :
    blockRequests dev bs (m + 1) = blockRequests dev bs m ++ [⟨dev, m * bs, bs⟩] := by
  rw [blockRequests, List.range_succ, List.map_append]
  rfl

/-- What is left of the partition `p` when the first `n` bytes, of whole blocks, were to be
erased. -/
structure Erased (p : Partition) (dev : Path) (n : ℕ) (earlier : List EraseRequest)
    (r : Bool × Partition × List EraseRequest) : Prop where
  info : r.2.1.info = p.info
  requests : ∃ m, m * p.erasesize ≤ n ∧ r.2.2 = earlier ++ blockRequests dev p.erasesize m
  beyond : r.2.1.bytes.drop n = p.bytes.drop n
  blank : r.1 = true → r.2.1.bytes = blank n p.bytes

/-- Erasing the block after the ones that are erased already. -/
theorem memErase_block {p q : Partition} (hinfo : q.info = p.info) {k : ℕ}
    (hbytes : q.bytes = blank (k * p.erasesize) p.bytes)
    (hend : (k + 1) * p.erasesize ≤ p.bytes.length) (o : Erasure) :
    ∃ q', q.memErase o (eraseInfo (k * p.erasesize) p.erasesize) = (o.ok, q') ∧
      q'.info = p.info ∧
      q'.bytes = o.apply (blank (k * p.erasesize) p.bytes) (k * p.erasesize) p.erasesize := by
  have hlt := length_lt p
  rw [Nat.add_mul, Nat.one_mul] at hend
  obtain ⟨hstart, hlength⟩ := field_eraseInfo (show k * p.erasesize < 2 ^ 32 by omega)
    (show p.erasesize < 2 ^ 32 by omega)
  have hsize : q.erasesize = p.erasesize := by
    rw [Partition.erasesize, hinfo]
    rfl
  have hlen : q.bytes.length = p.bytes.length := by
    rw [hbytes, length_blank (by omega)]
  rw [Partition.memErase, if_pos]
  · refine ⟨_, rfl, hinfo, ?_⟩
    rw [Partition.withBytes_bytes, hstart, hlength, hbytes]
  · rw [hstart, hlength, hsize, hlen]
    exact ⟨Nat.dvd_mul_left _ _, Nat.dvd_refl _, hend⟩

/-- The loop from the `k`-th block on. -/
theorem eraseLoop_erased (host : Host) (dev : Path) (p : Partition) (earlier : List EraseRequest)
    {n : ℕ} (hn : n * p.erasesize ≤ p.bytes.length) (fuel k : ℕ) (hk : k ≤ n)
    (hfuel : n - k < fuel) {q : Partition} (hinfo : q.info = p.info)
    (hbytes : q.bytes = blank (k * p.erasesize) p.bytes) :
    ∃ r, eraseLoop host dev p.erasesize (n * p.erasesize) fuel (k * p.erasesize) q
        (earlier ++ blockRequests dev p.erasesize k) = .ok r ∧
      Erased p dev (n * p.erasesize) earlier r := by
  induction fuel generalizing k q with
  | zero => omega
  | succ fuel ih =>
      rw [eraseLoop]
      by_cases hlast : k = n
      · subst hlast
        rw [if_neg (Nat.lt_irrefl _)]
        refine ⟨_, rfl, hinfo, ⟨k, Nat.le_refl _, rfl⟩, ?_, fun _ => hbytes⟩
        simp only
        rw [hbytes, drop_blank (Nat.le_refl _)]
      · have hnext : (k + 1) * p.erasesize ≤ n * p.erasesize :=
          Nat.mul_le_mul_right _ (Nat.lt_of_le_of_ne hk hlast)
        have hblock : (k + 1) * p.erasesize = k * p.erasesize + p.erasesize := by ring
        have hpos : 0 < p.erasesize := p.erasesize_pos
        have hlt := length_lt p
        obtain ⟨q', herase, hinfo', hbytes'⟩ :=
          memErase_block hinfo hbytes (hnext.trans hn) (host.erase (k * p.erasesize))
        rw [if_pos (by omega), List.append_assoc, ← blockRequests_succ, herase]
        cases ho : host.erase (k * p.erasesize) with
        | done =>
            rw [ho, erase_blank (by omega), ← hblock] at hbytes'
            simp only [Erasure.ok]
            rw [u32, if_pos (by omega), ← hblock]
            exact ih (k + 1) (by omega) (by omega) hinfo' hbytes'
        | failed left =>
            refine ⟨_, rfl, hinfo', ⟨k + 1, hnext, rfl⟩, ?_, by simp⟩
            simp only
            rw [hbytes', Erasure.drop_apply _ _ (by omega), drop_blank (by omega)]

/-- Erasing from the start on for `len` bytes: no arithmetic overflows, and the loop ends. -/
theorem eraseRange_erased (host : Host) (dev : Path) (p : Partition)
    (earlier : List EraseRequest) {len : ℕ} (hlen : len ≤ p.bytes.length) :
    ∃ r, eraseRange host dev (getInfo p) 0 len p earlier = .ok r ∧
      Erased p dev (roundUp p len) earlier r := by
  have hlt := length_lt p
  have hround := roundUp_le hlen
  have hpos : 0 < p.erasesize := p.erasesize_pos
  have hbs : max (getInfo p).erasesize 1 = p.erasesize := Nat.max_eq_left p.erasesize_pos
  have hsum : min (0 + len) (2 ^ 32 - 1) = len := by omega
  have hup : divCeil len p.erasesize * p.erasesize = roundUp p len := by
    rw [divCeil_eq len hpos, roundUp]
  have hfuel : len ⌈/⌉ p.erasesize - 0 < roundUp p len + 1 := by
    have hle := Nat.le_mul_of_pos_right (len ⌈/⌉ p.erasesize) hpos
    rw [roundUp]
    omega
  obtain ⟨r, hloop, herased⟩ := eraseLoop_erased host dev p earlier hround (roundUp p len + 1) 0
    (Nat.zero_le _) hfuel rfl (by simp)
  refine ⟨r, ?_, herased⟩
  rw [Nat.zero_mul, blockRequests, List.range_zero, List.map_nil, List.append_nil] at hloop
  simp only [eraseRange, hbs, hsum, hup, size_getInfo, u32, bind, Except.bind]
  rw [if_pos (by omega)]
  simp only [Nat.min_eq_left hround, Nat.zero_mod, Nat.sub_zero]
  exact hloop

/-! ## The requests -/

theorem mem_blockRequests {dev : Path} {bs m : ℕ} {e : EraseRequest}
    (h : e ∈ blockRequests dev bs m) : ∃ k < m, e = ⟨dev, k * bs, bs⟩ := by
  obtain ⟨k, hk, rfl⟩ := List.mem_map.mp h
  exact ⟨k, List.mem_range.mp hk, rfl⟩

theorem nodup_blockRequests (dev : Path) {bs : ℕ} (hbs : 0 < bs) (m : ℕ) :
    (blockRequests dev bs m).Nodup := by
  apply List.Nodup.map _ List.nodup_range
  intro i j hij
  exact Nat.eq_of_mul_eq_mul_right hbs (EraseRequest.mk.inj hij).2.1

end Lwrt.Mtd
