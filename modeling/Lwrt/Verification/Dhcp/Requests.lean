import Lwrt.Verification.Dhcp.Pool

/-! # Requests that name an address

A server grants the address that a client asks for or refuses. What this one does is compared
with that, from any state of its pool. -/

namespace Lwrt.Dhcp

open Library

namespace Pool

/-! ## The addresses of a pool -/

/-- The addresses from the start on, as many as there are in the pool. -/
def Owns (pool : Pool) (v : UInt32) : Prop :=
  ∃ off < pool.count.toNat, v = pool.start + UInt32.ofNat off

/-- No address is left. -/
def Exhausted (pool : Pool) : Prop :=
  ∀ off < pool.count.toNat, pool.start + UInt32.ofNat off ∈ pool.used

/-- The first address that is left. -/
def FirstLeft (pool : Pool) (v : UInt32) : Prop :=
  ∃ off < pool.count.toNat, v = pool.start + UInt32.ofNat off ∧ v ∉ pool.used ∧
    ∀ i < off, pool.start + UInt32.ofNat i ∈ pool.used

theorem contains_eq_false_iff (pool : Pool) (v : UInt32) :
    pool.used.contains v = false ↔ v ∉ pool.used := by
  rw [← Std.TreeSet.contains_iff_mem, Bool.not_eq_true]

theorem firstFree_eq_none_iff (pool : Pool) : pool.firstFree = none ↔ pool.Exhausted := by
  rw [firstFree, Option.map_eq_none_iff, List.find?_range_eq_none]
  simp [Exhausted]

theorem firstFree_eq_some_iff (pool : Pool) (v : UInt32) :
    pool.firstFree = some v ↔ pool.FirstLeft v := by
  rw [firstFree, Option.map_eq_some_iff]
  constructor
  · intro h
    obtain ⟨off, hfind, hv⟩ := h
    rw [List.find?_range_eq_some, List.mem_range] at hfind
    obtain ⟨hleft, hlt, hbefore⟩ := hfind
    refine ⟨off, hlt, hv.symm, ?_, ?_⟩
    · rw [← hv, ← contains_eq_false_iff]
      simpa using hleft
    · intro i hi
      simpa using hbefore i hi
  · intro h
    obtain ⟨off, hlt, hv, hleft, hbefore⟩ := h
    refine ⟨off, ?_, hv.symm⟩
    rw [List.find?_range_eq_some, List.mem_range]
    refine ⟨?_, hlt, ?_⟩
    · rw [hv, ← contains_eq_false_iff] at hleft
      rw [hleft, Bool.not_false]
    · intro i hi
      simpa using hbefore i hi

/-- What `lease_for` takes for a sane request is a free address of the pool. The end of the range
does not wrap then, or nothing would lie in it. -/
theorem owns_of_grantable {pool : Pool} {v : UInt32} (h : pool.grantable v = true) :
    pool.Owns v ∧ v ∉ pool.used := by
  simp only [grantable, Bool.and_eq_true, decide_eq_true_eq, Bool.not_eq_true'] at h
  obtain ⟨⟨hstart, hend⟩, hfree⟩ := h
  have hlo : pool.start.toNat ≤ v.toNat := UInt32.le_iff_toNat_le.mp hstart
  have hhi := UInt32.lt_iff_toNat_lt.mp hend
  have hv := v.toNat_lt
  have hcount := pool.count.toNat_lt
  rw [UInt32.toNat_add] at hhi
  refine ⟨⟨v.toNat - pool.start.toNat, by omega, ?_⟩, ?_⟩
  · apply UInt32.toNat_inj.mp
    rw [UInt32.toNat_add, UInt32.toNat_ofNat']
    omega
  · exact (contains_eq_false_iff pool v).mp hfree

/-! ## The purpose -/

/-- The client holds the address already, or holds none and the address is free. -/
def CanGrant (pool : Pool) (mac : Mac) (r : Ipv4Addr) : Prop :=
  pool.byMac[mac]? = some r.toU32 ∨
    (pool.byMac[mac]? = none ∧ pool.Owns r.toU32 ∧ r.toU32 ∉ pool.used)

/-- An ACK is for the address that was asked for, and an address that cannot be granted is
refused. -/
structure Answers (pool : Pool) (mac : Mac) (r : Ipv4Addr) (replies : List (List UInt8)) :
    Prop where
  acked : ∀ d ∈ replies, ∀ p, parse d = some p → p.msgType = ack → p.yiaddr = r
  refused : ¬ pool.CanGrant mac r → ∃ d ∈ replies, ∃ p, parse d = some p ∧ p.msgType = nak

theorem answers_ack_iff (pool : Pool) (s : Server) (req : Packet) (r ip : Ipv4Addr)
    (lease : UInt32) :
    pool.Answers req.chaddr r [s.reply req ack ip lease] ↔ ip = r ∧ pool.CanGrant req.chaddr r := by
  have hparse : parse (s.reply req ack ip lease) = some _ := parse_buildReply _ _ _ _ _ _ _
  constructor
  · intro h
    refine ⟨h.acked _ (by simp) _ hparse rfl, ?_⟩
    by_contra hcannot
    obtain ⟨d, hd, p, hp, ht⟩ := h.refused hcannot
    rw [List.mem_singleton.mp hd, hparse, Option.some.injEq] at hp
    rw [← hp] at ht
    exact absurd (show ack = nak from ht) (by decide)
  · intro h
    refine ⟨?_, fun hcannot => absurd h.2 hcannot⟩
    intro d hd p hp _
    rw [List.mem_singleton.mp hd, hparse, Option.some.injEq] at hp
    rw [← hp]
    exact h.1

theorem answers_nak (pool : Pool) (s : Server) (req : Packet) (r ip : Ipv4Addr) (lease : UInt32) :
    pool.Answers req.chaddr r [s.reply req nak ip lease] := by
  have hparse : parse (s.reply req nak ip lease) = some _ := parse_buildReply _ _ _ _ _ _ _
  refine ⟨?_, fun _ => ⟨_, by simp, _, hparse, rfl⟩⟩
  intro d hd p hp ht
  rw [List.mem_singleton.mp hd, hparse, Option.some.injEq] at hp
  rw [← hp] at ht
  exact absurd (show nak = ack from ht) (by decide)

end Pool

/-! ## What the server grants -/

/-- The binding of the client, else the address that was asked for, else the first one left. -/
theorem Server.grant_snd (s : Server) {req : Packet} {r : Ipv4Addr} (hr : req.reqIp = some r) :
    (s.grant req).2 =
      match s.pool.byMac[req.chaddr]? with
      | some v => some (Ipv4Addr.ofU32 v)
      | none =>
          if s.pool.grantable r.toU32 then some r else s.pool.firstFree.map Ipv4Addr.ofU32 := by
  unfold grant Pool.leaseFor
  cases hmac : s.pool.byMac[req.chaddr]? with
  | some v => rfl
  | none =>
      simp only [hr, Option.filter]
      by_cases hg : s.pool.grantable r.toU32 = true
      · simp only [hg, if_true]
      · simp only [hg, if_false, Bool.false_eq_true]
        cases s.pool.firstFree <;> rfl

theorem Server.onRequest_replies (s : Server) (req : Packet) (now : UInt64) (create : Bool) :
    ∃ t : Server, (s.onRequest req now create).2 =
      match (s.grant req).2 with
      | some ip => [t.reply req ack ip t.pool.lease]
      | none => [t.reply req nak Ipv4Addr.unspecified 0] := by
  unfold onRequest
  split
  · rename_i pool ip heq
    rw [heq]
    exact ⟨_, rfl⟩
  · rename_i pool heq
    rw [heq]
    exact ⟨_, rfl⟩

/-- The address is the client's own, or the client has none and the scan would not give it
another one. -/
def Pool.Serves (pool : Pool) (mac : Mac) (r : Ipv4Addr) : Prop :=
  pool.byMac[mac]? = some r.toU32 ∨
    (pool.byMac[mac]? = none ∧
      (pool.grantable r.toU32 = true ∨ pool.Exhausted ∨ pool.FirstLeft r.toU32))

theorem ofU32_eq_iff (v : UInt32) (r : Ipv4Addr) : Ipv4Addr.ofU32 v = r ↔ v = r.toU32 := by
  rw [← Ipv4Addr.toU32_inj, Ipv4Addr.toU32_ofU32]

/-- A pool of two addresses. -/
def twoLeft : Server :=
  Server.init 0xC0A80164 2 ⟨255, 255, 255, 0⟩ ⟨192, 168, 1, 1⟩ 43200

def asked (ip : Ipv4Addr) : Packet :=
  clientRequest (nthXid 1) (nthMac 1) request (some ip)

def asking (ip : Ipv4Addr) : Arrival :=
  ⟨buildClient (nthXid 1) (nthMac 1) request (some ip) none, 0, true⟩

theorem accept_asking (ip : Ipv4Addr) : Server.accept (asking ip).datagram = some (asked ip) := by
  rw [asking, Server.accept_buildClient, asked]

end Lwrt.Dhcp
