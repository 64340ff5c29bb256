import Lwrt.Verification.Dhcp.Requests

/-! # No address leaks from the pool

A pool is exhausted when there are as many clients with a binding as it has addresses, and not
before. -/

namespace Lwrt.Dhcp

open Library

/-! ## Leases -/

theorem Pool.leaseFor_bound {pool : Pool} {mac : Mac} {v : UInt32}
    (h : pool.byMac[mac]? = some v) (requested : Option Ipv4Addr) :
    pool.leaseFor mac requested = (pool, some (Ipv4Addr.ofU32 v)) := by
  simp only [leaseFor, h]

/-- A client without a binding gets a free address of the pool, whatever it asks for, unless there
is none. -/
theorem Pool.leaseFor_unbound {pool : Pool} {mac : Mac} (h : pool.byMac[mac]? = none)
    (requested : Option Ipv4Addr) :
    (pool.Exhausted ∧ pool.leaseFor mac requested = (pool, none)) ∨
      ∃ v, pool.Owns v ∧ v ∉ pool.used ∧
        pool.leaseFor mac requested = (pool.assign mac v, some (Ipv4Addr.ofU32 v)) := by
  simp only [leaseFor, h]
  cases hreq : requested.filter (fun r => pool.grantable r.toU32) with
  | some r =>
      obtain ⟨-, hr⟩ := Option.filter_eq_some_iff.mp hreq
      obtain ⟨howns, hfree⟩ := owns_of_grantable hr
      exact Or.inr ⟨r.toU32, howns, hfree, by simp⟩
  | none =>
      cases hscan : pool.firstFree with
      | some v =>
          obtain ⟨off, hoff, hv, hfree, -⟩ := (pool.firstFree_eq_some_iff v).mp hscan
          exact Or.inr ⟨v, ⟨off, hoff, hv⟩, hfree, rfl⟩
      | none => exact Or.inl ⟨pool.firstFree_eq_none_iff.mp hscan, rfl⟩

theorem Pool.leaseFor_eq_none_iff {pool : Pool} {mac : Mac} (h : pool.byMac[mac]? = none)
    (requested : Option Ipv4Addr) :
    (pool.leaseFor mac requested).2 = none ↔ pool.Exhausted := by
  rcases pool.leaseFor_unbound h requested with ⟨hnone, heq⟩ | ⟨v, ⟨off, hoff, hv⟩, hfree, heq⟩
  · rw [heq]
    exact iff_of_true rfl hnone
  · rw [heq]
    exact iff_of_false (by simp) fun hall => hfree (hv ▸ hall off hoff)

/-- A REQUEST leases as a DISCOVER does. -/
theorem Server.grant_eq (s : Server) (req : Packet) :
    s.grant req = s.pool.leaseFor req.chaddr req.reqIp := by
  unfold grant
  split
  · rename_i v hv
    rw [Pool.leaseFor_bound hv]
  · rfl

/-- Everything an arrival can do: nothing but refuse, or lease an address and give it out. -/
theorem Server.step_cases (s : Server) (a : Arrival) :
    ((s.step a).1.pool = s.pool ∧
      ∀ reply ∈ (s.step a).2, ∃ q, reply = s.reply q nak Ipv4Addr.unspecified 0) ∨
    ∃ q pool ip msgType, accept a.datagram = some q ∧ (msgType = offer ∨ msgType = ack) ∧
      s.pool.leaseFor q.chaddr q.reqIp = (pool, some ip) ∧
      (s.step a).1.pool = pool.insertName ip q.hostname ∧
      (s.step a).2 = [(s.step a).1.reply q msgType ip (s.step a).1.pool.lease] := by
  have hrefused (q : Packet) {pool : Pool}
      (h : s.pool.leaseFor q.chaddr q.reqIp = (pool, none)) : pool = s.pool := by
    have hl := (s.pool.leaseFor_spec q.chaddr q.reqIp).refused
    rw [h] at hl
    exact hl rfl
  unfold step
  cases hq : accept a.datagram with
  | none => exact Or.inl ⟨rfl, by simp⟩
  | some q =>
      dsimp only
      split
      · unfold onDiscover
        split
        · rename_i pool ip heq
          exact Or.inr ⟨q, pool, ip, offer, rfl, Or.inl rfl, heq, rfl, rfl⟩
        · rename_i pool heq
          exact Or.inl ⟨hrefused q heq, by simp⟩
      · split
        · unfold onRequest
          rw [s.grant_eq q]
          split
          · rename_i pool ip heq
            exact Or.inr ⟨q, pool, ip, ack, rfl, Or.inr rfl, heq, rfl, rfl⟩
          · rename_i pool heq
            obtain rfl := hrefused q heq
            refine Or.inl ⟨rfl, fun reply hr => ⟨q, ?_⟩⟩
            exact List.mem_singleton.mp hr
        · exact Or.inl ⟨rfl, by simp⟩

/-! ## The books of a pool -/

/-- The pool as it was configured. -/
def Pool.emptied (pool : Pool) : Pool :=
  Pool.new pool.start pool.count pool.mask pool.server pool.lease

theorem Pool.emptied_insertName (pool : Pool) (ip : Ipv4Addr) (h : Option Text) :
    (pool.insertName ip h).emptied = pool.emptied := by
  cases h <;> rfl

theorem Pool.config_of_emptied {pool pool' : Pool} (h : pool.emptied = pool'.emptied) :
    pool.start = pool'.start ∧ pool.count = pool'.count ∧ pool.mask = pool'.mask ∧
      pool.server = pool'.server := by
  rw [emptied, emptied] at h
  injection h with hstart hcount hmask hserver
  exact ⟨hstart, hcount, hmask, hserver⟩

/-- A consistent pool in which only addresses of the pool are used, one for each binding. -/
structure Pool.Balanced (pool : Pool) : Prop extends pool.Consistent where
  owned : ∀ v ∈ pool.used, pool.Owns v
  size_eq : pool.byMac.size = pool.used.size

theorem Pool.new_balanced (start count : UInt32) (mask server : Ipv4Addr) (lease : UInt32) :
    (Pool.new start count mask server lease).Balanced where
  toConsistent := Pool.new_consistent start count mask server lease
  owned := by simp [Pool.new]
  size_eq := rfl

theorem Pool.size_byMac_assign {pool : Pool} {mac : Mac} (hmac : pool.byMac[mac]? = none)
    (v : UInt32) : (pool.assign mac v).byMac.size = pool.byMac.size + 1 := by
  have hnew : pool.byMac.contains mac = false := by
    rw [Std.TreeMap.contains_eq_isSome_getElem?, hmac, Option.isSome_none]
  simp only [assign, Std.TreeMap.size_insert, hnew, Bool.false_eq_true, if_false]

theorem Pool.size_used_assign {pool : Pool} {v : UInt32} (hv : v ∉ pool.used) (mac : Mac) :
    (pool.assign mac v).used.size = pool.used.size + 1 := by
  simp only [assign, Std.TreeSet.size_insert, (pool.contains_eq_false_iff v).mpr hv,
    Bool.false_eq_true, if_false]

theorem Pool.Balanced.assign {pool : Pool} (h : pool.Balanced) {mac : Mac} {v : UInt32}
    (hmac : pool.byMac[mac]? = none) (howns : pool.Owns v) (hv : v ∉ pool.used) :
    (pool.assign mac v).Balanced where
  toConsistent := pool.assign_consistent h.toConsistent mac v hmac hv
  owned := by
    intro w hw
    rcases (pool.mem_used_assign mac v w).mp hw with rfl | hold
    · exact howns
    · exact h.owned w hold
  size_eq := by
    rw [Pool.size_byMac_assign hmac, Pool.size_used_assign hv, h.size_eq]

theorem Pool.Balanced.insertName {pool : Pool} (h : pool.Balanced) (ip : Ipv4Addr)
    (name : Option Text) : (pool.insertName ip name).Balanced := by
  cases name with
  | none => exact h
  | some t => exact ⟨⟨h.injective, h.used_iff⟩, h.owned, h.size_eq⟩

theorem Pool.Balanced.leaseFor {pool : Pool} (h : pool.Balanced) (mac : Mac)
    (requested : Option Ipv4Addr) :
    (pool.leaseFor mac requested).1.Balanced ∧
      (pool.leaseFor mac requested).1.emptied = pool.emptied := by
  cases hmac : pool.byMac[mac]? with
  | some v =>
      rw [Pool.leaseFor_bound hmac]
      exact ⟨h, rfl⟩
  | none =>
      rcases pool.leaseFor_unbound hmac requested with ⟨-, heq⟩ | ⟨v, howns, hfree, heq⟩
      · rw [heq]
        exact ⟨h, rfl⟩
      · rw [heq]
        exact ⟨h.assign hmac howns hfree, rfl⟩

theorem Server.step_balanced {s : Server} (h : s.pool.Balanced) (a : Arrival) :
    (s.step a).1.pool.Balanced ∧ (s.step a).1.pool.emptied = s.pool.emptied := by
  rcases s.step_cases a with ⟨heq, -⟩ | ⟨q, pool, ip, -, -, -, hlease, heq, -⟩
  · rw [heq]
    exact ⟨h, rfl⟩
  · have hleased := h.leaseFor q.chaddr q.reqIp
    rw [hlease] at hleased
    rw [heq, Pool.emptied_insertName]
    exact ⟨hleased.1.insertName ip q.hostname, hleased.2⟩

/-- The books balance after every run, and the configuration stays. -/
theorem Server.run_balanced {s : Server} (h : s.pool.Balanced) (arrivals : List Arrival) :
    (s.run arrivals).1.pool.Balanced ∧ (s.run arrivals).1.pool.emptied = s.pool.emptied :=
  Machine.run_invariant Server.step
    (motive := fun t _ => t.pool.Balanced ∧ t.pool.emptied = s.pool.emptied) arrivals
    (fun _ _ a _ ht => ⟨(step_balanced ht.1 a).1, (step_balanced ht.1 a).2.trans ht.2⟩)
    s [] ⟨h, rfl⟩

/-! ## Counting -/

/-- The addresses of a pool. -/
def Pool.stock (pool : Pool) : Finset UInt32 :=
  (Finset.range pool.count.toNat).image fun off => pool.start + UInt32.ofNat off

theorem Pool.mem_stock (pool : Pool) (v : UInt32) : v ∈ pool.stock ↔ pool.Owns v := by
  simp only [stock, Finset.mem_image, Finset.mem_range, Owns, eq_comm (a := v)]

theorem Pool.card_stock (pool : Pool) : pool.stock.card = pool.count.toNat := by
  rw [stock, Finset.card_image_of_injOn, Finset.card_range]
  intro i hi j hj heq
  have hcount := pool.count.toNat_lt
  have hsum := congrArg UInt32.toNat heq
  simp only [Finset.coe_range, Set.mem_Iio] at hi hj
  simp only [UInt32.toNat_add, UInt32.toNat_ofNat'] at hsum
  omega

/-- The clients with a binding. -/
def Pool.clients (pool : Pool) : Finset Mac :=
  pool.byMac.keys.toFinset

theorem Pool.mem_clients (pool : Pool) (m : Mac) :
    m ∈ pool.clients ↔ ∃ v, pool.byMac[m]? = some v := by
  rw [clients, List.mem_toFinset, Std.TreeMap.mem_keys, Std.TreeMap.mem_iff_isSome_getElem?,
    Option.isSome_iff_exists]

theorem Pool.card_clients (pool : Pool) : pool.clients.card = pool.byMac.size := by
  rw [clients, List.toFinset_card_of_nodup Std.TreeMap.nodup_keys, Std.TreeMap.length_keys]

theorem Pool.Balanced.holds_stock {pool : Pool} (h : pool.Balanced) :
    ∀ m ∈ pool.clients, ∃ v ∈ pool.stock, (pool.allocation h.toConsistent).holds m = some v := by
  intro m hm
  obtain ⟨v, hv⟩ := (pool.mem_clients m).mp hm
  exact ⟨v, (pool.mem_stock v).mpr (h.owned v ((h.used_iff v).mpr ⟨m, hv⟩)), hv⟩

theorem Pool.Balanced.size_le {pool : Pool} (h : pool.Balanced) :
    pool.byMac.size ≤ pool.count.toNat := by
  rw [← pool.card_clients, ← pool.card_stock]
  exact (pool.allocation h.toConsistent).card_le_card h.holds_stock

/-- The addresses run out exactly when every one of them has its client. -/
theorem Pool.Balanced.exhausted_iff {pool : Pool} (h : pool.Balanced) :
    pool.Exhausted ↔ pool.byMac.size = pool.count.toNat := by
  rw [← pool.card_clients, ← pool.card_stock, ← (pool.allocation
    h.toConsistent).covers_iff_card h.holds_stock fun m v hv => (pool.mem_clients m).mpr ⟨v, hv⟩]
  constructor
  · intro hall v hv
    obtain ⟨off, hoff, rfl⟩ := (pool.mem_stock v).mp hv
    exact (h.used_iff _).mp (hall off hoff)
  · intro hall off hoff
    exact (h.used_iff _).mpr (hall _ ((pool.mem_stock _).mpr ⟨off, hoff, rfl⟩))

theorem Pool.not_exhausted {pool : Pool} {v : UInt32} (howns : pool.Owns v)
    (hfree : v ∉ pool.used) : ¬ pool.Exhausted := by
  intro hall
  obtain ⟨off, hoff, rfl⟩ := howns
  exact hfree (hall off hoff)

theorem Pool.Balanced.size_lt {pool : Pool} (h : pool.Balanced) {v : UInt32}
    (howns : pool.Owns v) (hfree : v ∉ pool.used) : pool.byMac.size < pool.count.toNat :=
  Nat.lt_of_le_of_ne h.size_le fun heq => not_exhausted howns hfree (h.exhausted_iff.mpr heq)

/-! ## Handing out what is left -/

/-- A hardware address for each number of 32 bits. -/
def macOf (v : UInt32) : Mac :=
  let ip := Ipv4Addr.ofU32 v
  #v[2, 0, ip.a, ip.b, ip.c, ip.d]

theorem macOf_inj {v w : UInt32} (h : macOf v = macOf w) : v = w := by
  have hlist := congrArg Vector.toList h
  simp only [macOf, Vector.toList_mk, List.cons.injEq] at hlist
  rw [← Ipv4Addr.toU32_ofU32 v, ← Ipv4Addr.toU32_ofU32 w, Ipv4Addr.toU32_inj,
    ← Ipv4Addr.octets_inj]
  simp only [Ipv4Addr.octets, List.cons.injEq]
  tauto

/-- There are more hardware addresses than a pool has addresses. -/
theorem Pool.Balanced.exists_unbound {pool : Pool} (h : pool.Balanced) :
    ∃ m : Mac, pool.byMac[m]? = none := by
  by_contra hall
  have hcard : (Finset.range (2 ^ 32)).card ≤ pool.clients.card := by
    refine Finset.card_le_card_of_injOn (fun n => macOf (UInt32.ofNat n)) ?_ ?_
    · intro n _
      rw [Finset.mem_coe, Pool.mem_clients, ← Option.isSome_iff_exists,
        Option.isSome_iff_ne_none]
      exact fun hnone => hall ⟨_, hnone⟩
    · intro i hi j hj heq
      have hsame := congrArg UInt32.toNat (macOf_inj heq)
      simp only [Finset.coe_range, Set.mem_Iio] at hi hj
      simp only [UInt32.toNat_ofNat'] at hsame
      omega
  have hle := h.size_le
  have hcount := pool.count.toNat_lt
  rw [Finset.card_range, pool.card_clients] at hcard
  omega

/-- An OFFER or an ACK among the replies gives out the address. -/
def GivesOut (replies : List (List UInt8)) (ip : Ipv4Addr) : Prop :=
  ∃ reply ∈ replies, ∃ p, parse reply = some p ∧ (p.msgType = offer ∨ p.msgType = ack) ∧
    p.yiaddr = ip

theorem GivesOut.mono {replies more : List (List UInt8)} {ip : Ipv4Addr} (h : GivesOut replies ip)
    (hsub : replies ⊆ more) : GivesOut more ip := by
  obtain ⟨reply, hreply, hgiven⟩ := h
  exact ⟨reply, hsub hreply, hgiven⟩

/-- A DISCOVER of a client that asks for no address. -/
def discovering (mac : Mac) : Arrival :=
  ⟨buildClient (nthXid 1) mac discover none none, 0, true⟩

/-- A new client is offered an address while there is one. -/
theorem Server.step_discovering {s : Server} {mac : Mac} (hmac : s.pool.byMac[mac]? = none)
    (hleft : ¬ s.pool.Exhausted) :
    ∃ v, s.pool.Owns v ∧ v ∉ s.pool.used ∧
      (s.step (discovering mac)).1.pool = s.pool.assign mac v ∧
      GivesOut (s.step (discovering mac)).2 (Ipv4Addr.ofU32 v) := by
  have hstep : s.step (discovering mac) =
      s.onDiscover (clientRequest (nthXid 1) mac discover none) := by
    simp only [step, discovering, accept_buildClient]
    rfl
  rcases s.pool.leaseFor_unbound hmac none with ⟨hnone, -⟩ | ⟨v, howns, hfree, heq⟩
  · exact absurd hnone hleft
  · refine ⟨v, howns, hfree, ?_, ?_⟩
    · rw [hstep, onDiscover]
      simp only [clientRequest, heq]
      rfl
    · rw [hstep, onDiscover]
      simp only [clientRequest, heq]
      exact ⟨_, List.mem_singleton_self _, _, parse_buildReply _ _ _ _ _ _ _, Or.inl rfl, rfl⟩

/-- From every state, new clients are offered all that is left: each takes one address away, until
it is the turn of the given one. -/
theorem Server.exists_run_givesOut {s : Server} (h : s.pool.Balanced) {v : UInt32}
    (howns : s.pool.Owns v) (hfree : v ∉ s.pool.used) :
    ∃ arrivals, GivesOut (s.run arrivals).2 (Ipv4Addr.ofU32 v) := by
  generalize hn : s.pool.count.toNat - s.pool.byMac.size = n
  induction n generalizing s with
  | zero =>
      have hsize := h.size_lt howns hfree
      omega
  | succ n ih =>
      obtain ⟨mac, hmac⟩ := h.exists_unbound
      obtain ⟨w, hw, hwfree, hpool, hgives⟩ :=
        step_discovering hmac (Pool.not_exhausted howns hfree)
      by_cases hvw : v = w
      · refine ⟨[discovering mac], ?_⟩
        rw [run, Machine.run_cons, hvw]
        exact hgives.mono (List.subset_append_left _ _)
      · have hbalanced := (step_balanced h (discovering mac)).1
        have hnext : (s.step (discovering mac)).1.pool.Owns v := by
          rw [hpool]
          exact howns
        have hstill : v ∉ (s.step (discovering mac)).1.pool.used := by
          rw [hpool, Pool.mem_used_assign]
          exact not_or.mpr ⟨hvw, hfree⟩
        have hless : (s.step (discovering mac)).1.pool.count.toNat -
            (s.step (discovering mac)).1.pool.byMac.size = n := by
          rw [hpool, Pool.size_byMac_assign hmac]
          show s.pool.count.toNat - (s.pool.byMac.size + 1) = n
          omega
        obtain ⟨arrivals, hrest⟩ := ih hbalanced hnext hstill hless
        refine ⟨discovering mac :: arrivals, ?_⟩
        rw [run, Machine.run_cons]
        exact hrest.mono (List.subset_append_right _ _)

/-! ## Every run -/

/-- After every sequence of datagrams, a client without a binding is refused exactly if as many
clients have one as there are addresses. There are as many bindings as used addresses, and each
address of the pool is in use or can still be given out. -/
theorem no_address_leaks (start count : UInt32) (mask server : Ipv4Addr) (lease : UInt32)
    (arrivals : List Arrival) :
    let s := ((Server.init start count mask server lease).run arrivals).1
    (∀ (mac : Mac) (requested : Option Ipv4Addr), s.pool.byMac[mac]? = none →
      ((s.pool.leaseFor mac requested).2 = none ↔ s.pool.byMac.size = count.toNat)) ∧
    s.pool.byMac.size = s.pool.used.size ∧
    ∀ off < count.toNat, start + UInt32.ofNat off ∈ s.pool.used ∨
      ∃ more, GivesOut (s.run more).2 (Ipv4Addr.ofU32 (start + UInt32.ofNat off)) := by
  intro s
  obtain ⟨hbalanced, hconfig⟩ :=
    Server.run_balanced (s := Server.init start count mask server lease)
      (Pool.new_balanced start count mask server lease) arrivals
  obtain ⟨hstart, hcount, -, -⟩ := Pool.config_of_emptied hconfig
  change s.pool.start = start at hstart
  change s.pool.count = count at hcount
  refine ⟨?_, hbalanced.size_eq, ?_⟩
  · intro mac requested hmac
    rw [Pool.leaseFor_eq_none_iff hmac, hbalanced.exhausted_iff, hcount]
  · intro off hoff
    by_cases hused : start + UInt32.ofNat off ∈ s.pool.used
    · exact Or.inl hused
    · refine Or.inr (Server.exists_run_givesOut hbalanced ⟨off, ?_, ?_⟩ hused)
      · rw [hcount]
        exact hoff
      · rw [hstart]

end Lwrt.Dhcp
