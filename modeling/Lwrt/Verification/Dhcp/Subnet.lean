import Lwrt.Verification.Dhcp.Range

/-! # The subnet of the pool

The pool, the router's own address and the netmask are configured independently of each other, and
nothing compares them. -/

namespace Lwrt.Dhcp

open Library

namespace Pool

/-! ## The purpose -/

/-- An address of the subnet that a client can have: neither the network's nor the broadcast
address, nor the router's own. -/
structure Usable (pool : Pool) (ip : Ipv4Addr) : Prop where
  subnet : ip.toU32 &&& pool.mask.toU32 = pool.server.toU32 &&& pool.mask.toU32
  not_network : ip.toU32 ≠ pool.server.toU32 &&& pool.mask.toU32
  not_broadcast : ip.toU32 ≠ (pool.server.toU32 &&& pool.mask.toU32) ||| ~~~ pool.mask.toU32
  not_server : ip ≠ pool.server

instance (pool : Pool) (ip : Ipv4Addr) : Decidable (pool.Usable ip) :=
  decidable_of_iff
    (ip.toU32 &&& pool.mask.toU32 = pool.server.toU32 &&& pool.mask.toU32 ∧
      ip.toU32 ≠ pool.server.toU32 &&& pool.mask.toU32 ∧
      ip.toU32 ≠ (pool.server.toU32 &&& pool.mask.toU32) ||| ~~~ pool.mask.toU32 ∧
      ip ≠ pool.server)
    ⟨fun h => ⟨h.1, h.2.1, h.2.2.1, h.2.2.2⟩, fun h => ⟨h.1, h.2, h.3, h.4⟩⟩

/-- The address `off` places after the start. -/
def address (pool : Pool) (off : ℕ) : Ipv4Addr :=
  Ipv4Addr.ofU32 (pool.start + UInt32.ofNat off)

/-! ## What is given out -/

/-- Whatever is given out is an address of the pool. -/
theorem exists_address_of_givesOut {pool : Pool} (hfresh : pool.Fresh) {arrivals : List Arrival}
    {ip : Ipv4Addr} (h : GivesOut ((Server.on pool).run arrivals).2 ip) :
    ∃ off < pool.count.toNat, ip = pool.address off := by
  obtain ⟨hbalanced, hconfig⟩ :=
    Server.run_balanced (s := Server.on pool) hfresh.balanced arrivals
  obtain ⟨hstart, hcount, -, -⟩ := config_of_emptied hconfig
  obtain ⟨m, hm⟩ := h.bound (s := Server.on pool) hfresh.balanced.toConsistent
  obtain ⟨off, hoff, heq⟩ := hbalanced.owned _ ((hbalanced.used_iff _).mpr ⟨m, hm⟩)
  rw [hcount] at hoff
  rw [hstart] at heq
  refine ⟨off, hoff, ?_⟩
  rw [address, ← Ipv4Addr.toU32_inj, Ipv4Addr.toU32_ofU32]
  exact heq

/-- And every address of the pool is, sooner or later. -/
theorem givesOut_address {pool : Pool} (hfresh : pool.Fresh) {off : ℕ}
    (hoff : off < pool.count.toNat) :
    ∃ arrivals, GivesOut ((Server.on pool).run arrivals).2 (pool.address off) :=
  Server.exists_run_givesOut (s := Server.on pool) hfresh.balanced ⟨off, hoff, rfl⟩
    (hfresh.unused _)

end Pool

/-- The default subnet, with a pool that starts at the router. -/
def overlapping : Config :=
  Config.parse "[dhcp]\nstart = 192.168.1.1\n".toList

end Lwrt.Dhcp
