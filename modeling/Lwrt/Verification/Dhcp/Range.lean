import Lwrt.Verification.Dhcp.Capacity

/-! # The sums of the pool

The end of the pool and the addresses of the scan are sums of 32 bits. What is leased is compared
with the interval that the configuration names. -/

namespace Lwrt.Dhcp

open Library

namespace Pool

/-! ## Configured pools -/

/-- Nothing is leased yet. -/
def Fresh (pool : Pool) : Prop :=
  pool.emptied = pool

theorem fresh_of_configured {cfg : Config} {pool : Pool} (h : configured cfg = some pool) :
    pool.Fresh := by
  unfold configured at h
  split at h
  case isTrue => cases h
  case isFalse =>
    simp only [Option.bind_eq_bind, Option.bind_eq_some_iff, Option.some.injEq] at h
    obtain ⟨_, -, _, -, _, -, rfl⟩ := h
    rfl

theorem Fresh.balanced {pool : Pool} (h : pool.Fresh) : pool.Balanced := by
  rw [← h]
  exact new_balanced _ _ _ _ _

theorem Fresh.unused {pool : Pool} (h : pool.Fresh) (v : UInt32) : v ∉ pool.used := by
  rw [← h]
  simp [emptied, new]

theorem Fresh.unbound {pool : Pool} (h : pool.Fresh) (mac : Mac) : pool.byMac[mac]? = none := by
  rw [← h]
  simp [emptied, new]

/-! ## The purpose -/

/-- Between the start and the last address that the limit allows. -/
def InRange (pool : Pool) (v : UInt32) : Prop :=
  pool.start.toNat ≤ v.toNat ∧ v.toNat < pool.start.toNat + pool.count.toNat

/-- The leases are of the configured interval, and a client without one gets any address of it that
it asks for and nobody holds. -/
structure Serving (pool : Pool) : Prop where
  leased : ∀ (m : Mac) (v : UInt32), pool.byMac[m]? = some v → pool.InRange v
  granted : ∀ (m : Mac) (v : UInt32), pool.byMac[m]? = none → pool.InRange v → v ∉ pool.used →
    (pool.leaseFor m (some (Ipv4Addr.ofU32 v))).2 = some (Ipv4Addr.ofU32 v)

/-- The sums of `lease_for` are those of the integers. -/
structure SumsExact (pool : Pool) : Prop where
  limit : (pool.start + pool.count).toNat = pool.start.toNat + pool.count.toNat
  offsets : ∀ off < pool.count.toNat,
    (pool.start + UInt32.ofNat off).toNat = pool.start.toNat + off

theorem sumsExact_iff (pool : Pool) :
    pool.SumsExact ↔ pool.start.toNat + pool.count.toNat < 2 ^ 32 := by
  have hcount := pool.count.toNat_lt
  constructor
  · intro h
    have hlimit := h.limit
    have hlt := (pool.start + pool.count).toNat_lt
    omega
  · intro h
    constructor
    · rw [UInt32.toNat_add, Nat.mod_eq_of_lt h]
    · intro off hoff
      rw [UInt32.toNat_add, UInt32.toNat_ofNat']
      omega

/-! ## Pools that do not wrap -/

theorem owns_iff_inRange {pool : Pool} (h : pool.start.toNat + pool.count.toNat ≤ 2 ^ 32)
    (v : UInt32) : pool.Owns v ↔ pool.InRange v := by
  have hcount := pool.count.toNat_lt
  constructor
  · intro howns
    obtain ⟨off, hoff, rfl⟩ := howns
    rw [InRange, UInt32.toNat_add, UInt32.toNat_ofNat']
    omega
  · intro hrange
    obtain ⟨hlo, hhi⟩ := hrange
    refine ⟨v.toNat - pool.start.toNat, by omega, ?_⟩
    apply UInt32.toNat_inj.mp
    rw [UInt32.toNat_add, UInt32.toNat_ofNat']
    omega

theorem grantable_of_inRange {pool : Pool} (h : pool.start.toNat + pool.count.toNat < 2 ^ 32)
    {v : UInt32} (hv : pool.InRange v) (hfree : v ∉ pool.used) : pool.grantable v = true := by
  have hend : (pool.start + pool.count).toNat = pool.start.toNat + pool.count.toNat :=
    (pool.sumsExact_iff.mpr h).limit
  have hunused := (pool.contains_eq_false_iff v).mpr hfree
  simp only [grantable, hunused, Bool.not_false, Bool.and_true, Bool.and_eq_true,
    decide_eq_true_eq, UInt32.le_iff_toNat_le, UInt32.lt_iff_toNat_lt, hend]
  exact hv

theorem leaseFor_of_grantable {pool : Pool} {m : Mac} (hm : pool.byMac[m]? = none) {v : UInt32}
    (hv : pool.grantable v = true) :
    (pool.leaseFor m (some (Ipv4Addr.ofU32 v))).2 = some (Ipv4Addr.ofU32 v) := by
  simp only [leaseFor, hm, Option.filter_some, Ipv4Addr.toU32_ofU32, hv, if_true]

/-- The end of such a pool may be the end of the addresses, where the sum is zero: a request for
its only address is not taken for sane, and the scan finds the same one. -/
theorem leaseFor_of_single {pool : Pool} (hone : pool.count = 1) {m : Mac}
    (hm : pool.byMac[m]? = none) {v : UInt32} (howns : pool.Owns v) (hfree : v ∉ pool.used) :
    (pool.leaseFor m (some (Ipv4Addr.ofU32 v))).2 = some (Ipv4Addr.ofU32 v) := by
  have honly {w : UInt32} (hw : pool.Owns w) : w = pool.start + UInt32.ofNat 0 := by
    obtain ⟨off, hoff, heq⟩ := hw
    rw [hone] at hoff
    rw [heq, Nat.lt_one_iff.mp hoff]
  rcases pool.leaseFor_unbound hm (some (Ipv4Addr.ofU32 v)) with ⟨hnone, -⟩ | ⟨w, hw, -, heq⟩
  · exact absurd hnone (not_exhausted howns hfree)
  · rw [heq, honly howns, honly hw]

theorem Balanced.serving {pool : Pool} (h : pool.Balanced)
    (hrange : pool.start.toNat + pool.count.toNat < 2 ^ 32 ∨
      pool.start.toNat + 1 = 2 ^ 32 ∧ pool.count = 1) : pool.Serving := by
  have hle : pool.start.toNat + pool.count.toNat ≤ 2 ^ 32 := by
    rcases hrange with hlt | ⟨hlast, hone⟩
    · exact Nat.le_of_lt hlt
    · rw [hone]
      exact Nat.le_of_eq hlast
  constructor
  · intro m v hv
    rw [← owns_iff_inRange hle]
    exact h.owned v ((h.used_iff v).mpr ⟨m, hv⟩)
  · intro m v hm hv hfree
    rcases hrange with hlt | ⟨-, hone⟩
    · exact leaseFor_of_grantable hm (grantable_of_inRange hlt hv hfree)
    · exact leaseFor_of_single hone hm ((owns_iff_inRange hle v).mpr hv) hfree

/-! ## Pools that wrap -/

/-- Beyond the last address of all, the scan starts again at zero. -/
theorem owns_zero {pool : Pool} (h : 2 ^ 32 < pool.start.toNat + pool.count.toNat) :
    pool.Owns 0 := by
  have hstart := pool.start.toNat_lt
  refine ⟨2 ^ 32 - pool.start.toNat, by omega, ?_⟩
  apply UInt32.toNat_inj.mp
  rw [UInt32.toNat_add, UInt32.toNat_ofNat', UInt32.toNat_zero]
  omega

theorem not_inRange_zero {pool : Pool} (h : 2 ^ 32 < pool.start.toNat + pool.count.toNat) :
    ¬ pool.InRange 0 := by
  have hcount := pool.count.toNat_lt
  intro hrange
  have hlo := hrange.1
  rw [UInt32.toNat_zero] at hlo
  omega

/-- Where the end of the pool is zero no request is taken for sane, and the scan finds another
address than the second one. -/
theorem not_serving_of_eq {pool : Pool} (hfresh : pool.Fresh)
    (h : pool.start.toNat + pool.count.toNat = 2 ^ 32) (hmore : pool.start.toNat + 1 < 2 ^ 32) :
    ¬ pool.Serving := by
  intro hserving
  have hsecond : (pool.start + 1).toNat = pool.start.toNat + 1 := by
    rw [UInt32.toNat_add, UInt32.toNat_one, Nat.mod_eq_of_lt hmore]
  have hrange : pool.InRange (pool.start + 1) := by
    rw [InRange, hsecond]
    omega
  have hinsane : pool.grantable (pool.start + 1) = false := by
    have hend : pool.start + pool.count = 0 := by
      apply UInt32.toNat_inj.mp
      rw [UInt32.toNat_add, h]
      rfl
    simp [grantable, hend]
  have hscan : pool.firstFree = some pool.start := by
    rw [firstFree_eq_some_iff]
    refine ⟨0, by omega, by simp, hfresh.unused _, ?_⟩
    intro i hi
    exact absurd hi (Nat.not_lt_zero i)
  have hgranted := hserving.granted #v[2, 0, 0, 0, 0, 1] _ (hfresh.unbound _) hrange
    (hfresh.unused _)
  simp only [leaseFor, hfresh.unbound, Option.filter_some, Ipv4Addr.toU32_ofU32, hinsane,
    Bool.false_eq_true, if_false, hscan, Option.some.injEq] at hgranted
  have hsame := congrArg UInt32.toNat (congrArg Ipv4Addr.toU32 hgranted)
  rw [Ipv4Addr.toU32_ofU32, Ipv4Addr.toU32_ofU32, hsecond] at hsame
  omega

end Pool

/-! ## Every run -/

/-- The server as it starts with a pool. -/
def Server.on (pool : Pool) : Server :=
  ⟨pool, none⟩

/-- An address that was given out is somebody's. -/
theorem GivesOut.bound {s : Server} (h : s.pool.Consistent) {arrivals : List Arrival}
    {ip : Ipv4Addr} (hgives : GivesOut (s.run arrivals).2 ip) :
    ∃ m : Mac, (s.run arrivals).1.pool.byMac[m]? = some ip.toU32 := by
  obtain ⟨reply, hreply, p, hp, htype, hip⟩ := hgives
  have hbacked := (s.run_backed h arrivals).2 reply hreply p hp htype
  exact ⟨p.chaddr, hip ▸ hbacked⟩

theorem serving_run {pool : Pool} (hfresh : pool.Fresh)
    (hrange : pool.start.toNat + pool.count.toNat < 2 ^ 32 ∨
      pool.start.toNat + 1 = 2 ^ 32 ∧ pool.count = 1) (arrivals : List Arrival) :
    ((Server.on pool).run arrivals).1.pool.Serving := by
  obtain ⟨hbalanced, hconfig⟩ :=
    Server.run_balanced (s := Server.on pool) hfresh.balanced arrivals
  obtain ⟨hstart, hcount, -, -⟩ := Pool.config_of_emptied hconfig
  apply hbalanced.serving
  rw [hstart, hcount]
  exact hrange

/-- With more addresses than there are beyond the start, zero is leased in the end. -/
theorem not_serving_run_of_lt {pool : Pool} (hfresh : pool.Fresh)
    (h : 2 ^ 32 < pool.start.toNat + pool.count.toNat) :
    ∃ arrivals, ¬ ((Server.on pool).run arrivals).1.pool.Serving := by
  obtain ⟨arrivals, hgives⟩ := Server.exists_run_givesOut (s := Server.on pool) hfresh.balanced
    (Pool.owns_zero h) (hfresh.unused 0)
  obtain ⟨m, hm⟩ := hgives.bound (s := Server.on pool) hfresh.balanced.toConsistent
  rw [Ipv4Addr.toU32_ofU32] at hm
  refine ⟨arrivals, fun hserving => ?_⟩
  have hconfig := (Server.run_balanced (s := Server.on pool) hfresh.balanced arrivals).2
  obtain ⟨hstart, hcount, -, -⟩ := Pool.config_of_emptied hconfig
  refine Pool.not_inRange_zero ?_ (hserving.leased m 0 hm)
  rw [hstart, hcount]
  exact h

theorem serving_run_iff {pool : Pool} (hfresh : pool.Fresh) :
    (∀ arrivals, ((Server.on pool).run arrivals).1.pool.Serving) ↔
      pool.start.toNat + pool.count.toNat < 2 ^ 32 ∨
        pool.start.toNat + 1 = 2 ^ 32 ∧ pool.count = 1 := by
  refine ⟨fun hall => ?_, serving_run hfresh⟩
  rcases Nat.lt_trichotomy (pool.start.toNat + pool.count.toNat) (2 ^ 32) with hlt | heq | hgt
  · exact Or.inl hlt
  · have hstart := pool.start.toNat_lt
    have hlast : ¬ pool.start.toNat + 1 < 2 ^ 32 := fun hmore =>
      Pool.not_serving_of_eq hfresh heq hmore (hall [])
    refine Or.inr ⟨by omega, UInt32.toNat_inj.mp ?_⟩
    rw [UInt32.toNat_one]
    omega
  · obtain ⟨arrivals, hnot⟩ := not_serving_run_of_lt hfresh hgt
    exact absurd (hall arrivals) hnot

/-- For every configuration, the leases are those of the configured interval and the sums do not
wrap exactly if the start and the limit add up to less than the number of all addresses. The leases
alone also come out right for a pool of one address that is the last one of all. -/
theorem leases_in_range_iff {cfg : Config} {pool : Pool} (h : Pool.configured cfg = some pool) :
    ((∀ arrivals, ((Server.on pool).run arrivals).1.pool.Serving) ∧ pool.SumsExact ↔
      pool.start.toNat + pool.count.toNat < 2 ^ 32) ∧
    ((∀ arrivals, ((Server.on pool).run arrivals).1.pool.Serving) ↔
      pool.start.toNat + pool.count.toNat < 2 ^ 32 ∨
        pool.start.toNat + 1 = 2 ^ 32 ∧ pool.count = 1) := by
  have hiff := serving_run_iff (Pool.fresh_of_configured h)
  refine ⟨?_, hiff⟩
  rw [hiff, pool.sumsExact_iff]
  tauto

theorem exists_configured (cfg : Config) {start count : UInt32}
    (h : (Pool.configured cfg).map (fun pool => (pool.start, pool.count)) = some (start, count)) :
    ∃ pool, Pool.configured cfg = some pool ∧ pool.start = start ∧ pool.count = count := by
  obtain ⟨pool, hpool, heq⟩ := Option.map_eq_some_iff.mp h
  obtain ⟨hstart, hcount⟩ := Prod.mk.inj heq
  exact ⟨pool, hpool, hstart, hcount⟩

/-- The built-in pool does not wrap. -/
theorem leases_in_range_default :
    ∃ pool, Pool.configured (Config.parse []) = some pool ∧
      ∀ arrivals, ((Server.on pool).run arrivals).1.pool.Serving := by
  obtain ⟨pool, hpool, hstart, hcount⟩ :=
    exists_configured (Config.parse []) (show _ = some (0xC0A80164, 100) by decide +kernel)
  refine ⟨pool, hpool, ((leases_in_range_iff hpool).1.mpr ?_).1⟩
  rw [hstart, hcount]
  decide

/-- The default limit, from a start close to the last address of all. -/
def wrapping : Config :=
  Config.parse "[dhcp]\nstart = 255.255.255.200\n".toList

/-- A client that asks for the second address gets the first one, and others get addresses from
zero on. -/
theorem wrapping_not_serving :
    (Pool.configured wrapping).map (fun pool =>
      (pool.leaseFor #v[2, 0, 0, 0, 0, 1] (some ⟨255, 255, 255, 201⟩)).2) =
        some (some ⟨255, 255, 255, 200⟩) ∧
      ∃ pool, Pool.configured wrapping = some pool ∧
        ∃ arrivals, ¬ ((Server.on pool).run arrivals).1.pool.Serving := by
  refine ⟨by decide +kernel, ?_⟩
  obtain ⟨pool, hpool, hstart, hcount⟩ :=
    exists_configured wrapping (show _ = some (0xFFFFFFC8, 100) by decide +kernel)
  refine ⟨pool, hpool, not_serving_run_of_lt (Pool.fresh_of_configured hpool) ?_⟩
  rw [hstart, hcount]
  decide

end Lwrt.Dhcp
