import Lwrt.Library.Allocation
import Lwrt.Library.Machine
import Lwrt.Verification.Dhcp.Packet

/-! # The pool is an exclusive allocation, over every run of the server -/

namespace Lwrt.Dhcp

open Library

/-! ## The pool invariant -/

/-- `by_mac` is injective and `used` is the set of its values. -/
structure Pool.Consistent (pool : Pool) : Prop where
  injective : ∀ (m m' : Mac) (v : UInt32),
    pool.byMac[m]? = some v → pool.byMac[m']? = some v → m = m'
  used_iff : ∀ v, v ∈ pool.used ↔ ∃ m : Mac, pool.byMac[m]? = some v

/-- What a consistent pool is for: addresses allocated to clients. -/
def Pool.allocation (pool : Pool) (h : pool.Consistent) : Allocation Mac UInt32 where
  holds := fun m => pool.byMac[m]?
  exclusive := h.injective

theorem Pool.new_consistent (start count : UInt32) (mask server : Ipv4Addr) (lease : UInt32) :
    (Pool.new start count mask server lease).Consistent := by
  constructor
  · simp [Pool.new]
  · simp [Pool.new]

theorem Pool.byMac_assign (pool : Pool) (mac m : Mac) (v : UInt32) :
    (pool.assign mac v).byMac[m]? = if m = mac then some v else pool.byMac[m]? := by
  simp only [assign, Std.TreeMap.getElem?_insert, Std.compare_eq_iff_eq, eq_comm (a := mac)]

theorem Pool.mem_used_assign (pool : Pool) (mac : Mac) (v w : UInt32) :
    w ∈ (pool.assign mac v).used ↔ w = v ∨ w ∈ pool.used := by
  simp only [assign, Std.TreeSet.mem_insert, Std.compare_eq_iff_eq, eq_comm (a := v)]

/-- Assigning a free address refines the grant of the abstract allocation. -/
theorem Pool.holds_assign (pool : Pool) (h : pool.Consistent) (mac : Mac) (v : UInt32)
    (hv : v ∉ pool.used) :
    ∃ hfree, (fun m => (pool.assign mac v).byMac[m]?) =
      ((pool.allocation h).grant mac v hfree).holds := by
  refine ⟨fun m hm => hv ((h.used_iff v).mpr ⟨m, hm⟩), ?_⟩
  funext m
  rw [byMac_assign]
  simp only [Allocation.grant, allocation, Function.update_apply]

theorem Pool.assign_consistent (pool : Pool) (h : pool.Consistent) (mac : Mac) (v : UInt32)
    (hmac : pool.byMac[mac]? = none) (hv : v ∉ pool.used) : (pool.assign mac v).Consistent := by
  obtain ⟨hfree, hholds⟩ := pool.holds_assign h mac v hv
  constructor
  · intro m m' w hm hm'
    apply ((pool.allocation h).grant mac v hfree).exclusive m m' w
    · rw [← hholds]; exact hm
    · rw [← hholds]; exact hm'
  · intro w
    rw [mem_used_assign, h.used_iff]
    constructor
    · rintro (rfl | ⟨m, hm⟩)
      · exact ⟨mac, by simp [byMac_assign]⟩
      · refine ⟨m, ?_⟩
        rw [byMac_assign, if_neg, hm]
        rintro rfl
        simp [hmac] at hm
    · rintro ⟨m, hm⟩
      rw [byMac_assign] at hm
      split at hm
      · exact Or.inl (Option.some.inj hm).symm
      · exact Or.inr ⟨m, hm⟩

/-! ## One lease -/

/-- Everything `lease_for` can do: repeat a binding, bind a free address, or refuse. -/
theorem Pool.leaseFor_cases (pool : Pool) (mac : Mac) (requested : Option Ipv4Addr) :
    (∃ v, pool.byMac[mac]? = some v ∧
      pool.leaseFor mac requested = (pool, some (Ipv4Addr.ofU32 v))) ∨
    (∃ v, pool.byMac[mac]? = none ∧ v ∉ pool.used ∧
      pool.leaseFor mac requested = (pool.assign mac v, some (Ipv4Addr.ofU32 v))) ∨
    (pool.byMac[mac]? = none ∧ pool.leaseFor mac requested = (pool, none)) := by
  unfold leaseFor
  cases hmac : pool.byMac[mac]? with
  | some v => exact Or.inl ⟨v, rfl, rfl⟩
  | none =>
      cases hreq : requested.filter (fun r => pool.grantable r.toU32) with
      | some r =>
          obtain ⟨-, hr⟩ := Option.filter_eq_some_iff.mp hreq
          have hfree : r.toU32 ∉ pool.used := by
            intro hmem
            simp [grantable, Std.TreeSet.mem_iff_contains.mp hmem] at hr
          exact Or.inr (Or.inl ⟨r.toU32, rfl, hfree, by simp⟩)
      | none =>
          cases hscan : pool.firstFree with
          | some v =>
              obtain ⟨off, hoff, rfl⟩ := Option.map_eq_some_iff.mp hscan
              have hfree := List.find?_some hoff
              refine Or.inr (Or.inl ⟨_, rfl, ?_, rfl⟩)
              intro hmem
              simp [Std.TreeSet.mem_iff_contains.mp hmem] at hfree
          | none => exact Or.inr (Or.inr ⟨rfl, rfl⟩)

/-- What one lease guarantees: the pool stays consistent, no binding is lost or changed, only
the client's own can be new, and an address that is returned is that binding. -/
structure Pool.LeaseSpec (pool : Pool) (mac : Mac) (result : Pool × Option Ipv4Addr) : Prop where
  consistent : pool.Consistent → result.1.Consistent
  keeps : ∀ (m : Mac) (v : UInt32), pool.byMac[m]? = some v → result.1.byMac[m]? = some v
  others : ∀ m : Mac, m ≠ mac → result.1.byMac[m]? = pool.byMac[m]?
  bound : ∀ ip, result.2 = some ip → result.1.byMac[mac]? = some ip.toU32
  names_eq : result.1.names = pool.names
  refused : result.2 = none → result.1 = pool

theorem Pool.leaseFor_spec (pool : Pool) (mac : Mac) (requested : Option Ipv4Addr) :
    pool.LeaseSpec mac (pool.leaseFor mac requested) := by
  obtain ⟨v, hmac, heq⟩ | ⟨v, hmac, hfree, heq⟩ | ⟨hmac, heq⟩ := pool.leaseFor_cases mac requested
  · rw [heq]
    refine ⟨id, fun _ _ h => h, fun _ _ => rfl, ?_, rfl, fun _ => rfl⟩
    rintro ip ⟨⟩
    simpa using hmac
  · rw [heq]
    refine ⟨fun h => pool.assign_consistent h mac v hmac hfree, ?_, ?_, ?_, rfl, by simp⟩
    · intro m w hm
      rw [byMac_assign, if_neg, hm]
      rintro rfl
      simp [hmac] at hm
    · intro m hm
      rw [byMac_assign, if_neg hm]
    · rintro ip ⟨⟩
      simp [byMac_assign]
  · rw [heq]
    exact ⟨id, fun _ _ h => h, fun _ _ => rfl, by simp, rfl, fun _ => rfl⟩

@[simp] theorem Pool.byMac_insertName (pool : Pool) (ip : Ipv4Addr) (h : Option Text) :
    (pool.insertName ip h).byMac = pool.byMac := by
  cases h <;> rfl

@[simp] theorem Pool.used_insertName (pool : Pool) (ip : Ipv4Addr) (h : Option Text) :
    (pool.insertName ip h).used = pool.used := by
  cases h <;> rfl

theorem Pool.Consistent.insertName {pool : Pool} (hp : pool.Consistent) (ip : Ipv4Addr)
    (h : Option Text) : (pool.insertName ip h).Consistent := by
  constructor
  · simpa using hp.injective
  · simpa using hp.used_iff

/-! ## One turn of the server -/

/-- A reply that gives out an address does so for a binding of the pool. -/
def Backed (pool : Pool) (reply : List UInt8) : Prop :=
  ∀ p, parse reply = some p → p.msgType = offer ∨ p.msgType = ack →
    pool.byMac[p.chaddr]? = some p.yiaddr.toU32

theorem Backed.mono {pool pool' : Pool} {reply : List UInt8} (h : Backed pool reply)
    (hkeeps : ∀ (m : Mac) (v : UInt32), pool.byMac[m]? = some v → pool'.byMac[m]? = some v) :
    Backed pool' reply :=
  fun p hp ht => hkeeps _ _ (h p hp ht)

theorem Server.backed_reply (s : Server) (req : Packet) (msgType : UInt8) (ip : Ipv4Addr)
    (lease : UInt32)
    (h : msgType = offer ∨ msgType = ack → s.pool.byMac[req.chaddr]? = some ip.toU32) :
    Backed s.pool (s.reply req msgType ip lease) := by
  intro p hp ht
  rw [reply, parse_buildReply, Option.some.injEq] at hp
  subst hp
  exact h ht

/-- What one arrival does, in whichever branch the request in it is handled: the pool is
left alone or leases an address to the client and records its name, and every reply is
backed by the pool. -/
structure Server.StepSpec (s : Server) (req : Option Packet)
    (result : Server × List (List UInt8)) : Prop where
  pool_cases : result.1.pool = s.pool ∨ ∃ q pool ip, req = some q ∧
    s.pool.LeaseSpec q.chaddr (pool, some ip) ∧ result.1.pool = pool.insertName ip q.hostname
  backed : ∀ reply ∈ result.2, Backed result.1.pool reply
  answers : ∀ reply ∈ result.2, ∃ q msgType ip lease, req = some q ∧
    reply = result.1.reply q msgType ip lease

theorem Server.StepSpec.consistent {s : Server} {req : Option Packet}
    {result : Server × List (List UInt8)} (h : s.StepSpec req result)
    (hs : s.pool.Consistent) : result.1.pool.Consistent := by
  rcases h.pool_cases with heq | ⟨q, pool, ip, -, hl, heq⟩
  · rwa [heq]
  · rw [heq]
    exact (hl.consistent hs).insertName ip q.hostname

theorem Server.StepSpec.keeps {s : Server} {req : Option Packet}
    {result : Server × List (List UInt8)} (h : s.StepSpec req result) (m : Mac) (v : UInt32)
    (hm : s.pool.byMac[m]? = some v) : result.1.pool.byMac[m]? = some v := by
  rcases h.pool_cases with heq | ⟨q, pool, ip, -, hl, heq⟩
  · rwa [heq]
  · rw [heq, Pool.byMac_insertName]
    exact hl.keeps m v hm

/-- A grant: the client's name is recorded and the reply carries its binding. -/
theorem Server.granted_spec (s : Server) {req : Packet} {pool : Pool} {ip : Ipv4Addr}
    (hl : s.pool.LeaseSpec req.chaddr (pool, some ip)) (t : Server)
    (ht : t.pool = pool.insertName ip req.hostname) (msgType : UInt8) (lease : UInt32) :
    s.StepSpec (some req) (t, [t.reply req msgType ip lease]) := by
  refine ⟨Or.inr ⟨req, pool, ip, rfl, hl, ht⟩, ?_, ?_⟩
  · intro reply hr
    rw [List.mem_singleton.mp hr]
    apply backed_reply
    intro _
    rw [ht, Pool.byMac_insertName]
    exact hl.bound ip rfl
  · intro reply hr
    exact ⟨req, _, _, _, rfl, List.mem_singleton.mp hr⟩

theorem Server.onDiscover_spec (s : Server) (req : Packet) :
    s.StepSpec (some req) (s.onDiscover req) := by
  have hl := s.pool.leaseFor_spec req.chaddr req.reqIp
  unfold onDiscover
  split
  · rename_i pool ip heq
    rw [heq] at hl
    exact s.granted_spec hl _ rfl offer _
  · rename_i pool heq
    rw [heq] at hl
    exact ⟨Or.inl (hl.refused rfl), by simp, by simp⟩

theorem Server.grant_spec (s : Server) (req : Packet) :
    s.pool.LeaseSpec req.chaddr (s.grant req) := by
  unfold grant
  split
  · rename_i v hv
    refine ⟨id, fun _ _ h => h, fun _ _ => rfl, ?_, rfl, fun _ => rfl⟩
    rintro ip ⟨⟩
    simpa using hv
  · exact s.pool.leaseFor_spec req.chaddr req.reqIp

theorem Server.onRequest_spec (s : Server) (req : Packet) (now : UInt64) (create : Bool) :
    s.StepSpec (some req) (s.onRequest req now create) := by
  have hl := s.grant_spec req
  unfold onRequest
  split
  · rename_i pool ip heq
    rw [heq] at hl
    exact s.granted_spec hl _ rfl ack _
  · rename_i pool heq
    rw [heq] at hl
    refine ⟨Or.inl (hl.refused rfl), ?_, ?_⟩
    · intro reply hr
      rw [List.mem_singleton.mp hr]
      apply backed_reply
      rintro (h | h) <;> exact absurd h (by decide)
    · intro reply hr
      exact ⟨req, _, _, _, rfl, List.mem_singleton.mp hr⟩

theorem Server.step_spec (s : Server) (arrival : Arrival) :
    s.StepSpec (accept arrival.datagram) (s.step arrival) := by
  have hidle : ∀ req, s.StepSpec req (s, []) := fun _ => ⟨Or.inl rfl, by simp, by simp⟩
  unfold step
  cases accept arrival.datagram with
  | none => exact hidle none
  | some req =>
      dsimp only
      split
      · exact s.onDiscover_spec req
      · split
        · exact s.onRequest_spec req arrival.now arrival.create
        · exact hidle (some req)

/-! ## Every run -/

/-- The server as it starts, with no lease file. -/
def Server.init (start count : UInt32) (mask server : Ipv4Addr) (lease : UInt32) : Server where
  pool := Pool.new start count mask server lease
  leases := none

/-- The state after a run and the replies sent during it. -/
def Server.run (s : Server) (arrivals : List Arrival) : Server × List (List UInt8) :=
  Machine.run Server.step s arrivals

/-- Along every run the pool is consistent and backs every reply sent so far. -/
theorem Server.run_backed (s : Server) (h : s.pool.Consistent) (arrivals : List Arrival) :
    (s.run arrivals).1.pool.Consistent ∧
      ∀ reply ∈ (s.run arrivals).2, Backed (s.run arrivals).1.pool reply := by
  have hrun := Machine.run_invariant Server.step
    (motive := fun (t : Server) (out : List (List UInt8)) =>
      t.pool.Consistent ∧ ∀ reply ∈ out, Backed t.pool reply) arrivals
    (fun t out arrival _ ht => by
      have hstep := t.step_spec arrival
      refine ⟨hstep.consistent ht.1, ?_⟩
      intro reply hr
      rcases List.mem_append.mp hr with hr | hr
      · exact (ht.2 reply hr).mono hstep.keeps
      · exact hstep.backed reply hr)
    s [] ⟨h, by simp⟩
  simpa [run] using hrun

/-- For every pool configuration and every sequence of datagrams, `by_mac` stays injective
with `used` as its range, and any two OFFERs or ACKs carry the same address exactly when
they carry the same client hardware address. -/
theorem server_leases_exclusive (start count : UInt32) (mask server : Ipv4Addr) (lease : UInt32)
    (arrivals : List Arrival) :
    let result := (Server.init start count mask server lease).run arrivals
    result.1.pool.Consistent ∧
      ∀ r ∈ result.2, ∀ r' ∈ result.2, ∀ p p', parse r = some p → parse r' = some p' →
        (p.msgType = offer ∨ p.msgType = ack) → (p'.msgType = offer ∨ p'.msgType = ack) →
        (p.chaddr = p'.chaddr ↔ p.yiaddr = p'.yiaddr) := by
  intro result
  obtain ⟨hcons, hbacked⟩ := (Server.init start count mask server lease).run_backed
    (Pool.new_consistent start count mask server lease) arrivals
  refine ⟨hcons, ?_⟩
  intro r hr r' hr' p p' hp hp' ht ht'
  rw [(result.1.pool.allocation hcons).same_client_iff (hbacked r hr p hp ht)
    (hbacked r' hr' p' hp' ht'), Ipv4Addr.toU32_inj]

/-- A DISCOVER of one client and a REQUEST of another, to a pool of two. -/
def twoClients : Server × List (List UInt8) :=
  (Server.init 0xC0A80164 2 ⟨255, 255, 255, 0⟩ ⟨192, 168, 1, 1⟩ 43200).run
    [⟨buildClient (nthXid 1) (nthMac 1) discover none none, 0, true⟩,
      ⟨buildClient (nthXid 2) (nthMac 2) request none none, 0, true⟩]

theorem server_leases_exclusive_two_clients :
    ∃ r ∈ twoClients.2, ∃ r' ∈ twoClients.2, ∃ p p', parse r = some p ∧ parse r' = some p' ∧
      p.msgType = offer ∧ p'.msgType = ack ∧ (p.chaddr = p'.chaddr ↔ p.yiaddr = p'.yiaddr) := by
  have heq : twoClients.2 =
      [buildReply (clientRequest #v[0, 0, 0, 1] #v[2, 0, 0, 0, 0, 1] discover none) offer
        ⟨192, 168, 1, 100⟩ ⟨192, 168, 1, 1⟩ ⟨255, 255, 255, 0⟩ ⟨192, 168, 1, 1⟩ 43200,
      buildReply (clientRequest #v[0, 0, 0, 2] #v[2, 0, 0, 0, 0, 2] request none) ack
        ⟨192, 168, 1, 101⟩ ⟨192, 168, 1, 1⟩ ⟨255, 255, 255, 0⟩ ⟨192, 168, 1, 1⟩ 43200] := by
    decide +kernel
  have hr := heq ▸ List.mem_cons_self
  have hr' := heq ▸ List.mem_cons_of_mem _ List.mem_cons_self
  have hp := parse_buildReply (clientRequest #v[0, 0, 0, 1] #v[2, 0, 0, 0, 0, 1] discover none)
    offer ⟨192, 168, 1, 100⟩ ⟨192, 168, 1, 1⟩ ⟨255, 255, 255, 0⟩ ⟨192, 168, 1, 1⟩ 43200
  have hp' := parse_buildReply (clientRequest #v[0, 0, 0, 2] #v[2, 0, 0, 0, 0, 2] request none)
    ack ⟨192, 168, 1, 101⟩ ⟨192, 168, 1, 1⟩ ⟨255, 255, 255, 0⟩ ⟨192, 168, 1, 1⟩ 43200
  exact ⟨_, hr, _, hr', _, _, hp, hp', rfl, rfl,
    (server_leases_exclusive _ _ _ _ _ _).2 _ hr _ hr' _ _ hp hp' (Or.inl rfl) (Or.inr rfl)⟩

end Lwrt.Dhcp
