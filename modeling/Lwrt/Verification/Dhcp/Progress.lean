import Lwrt.Verification.Dhcp.Capacity
import Lwrt.Verification.Dhcp.Exchange

/-! # A client gets its lease

An exchange in which no datagram is lost configures the client, from every state the clients and
the server can get into, unless the pool has nothing left for it. -/

namespace Lwrt.Dhcp

open Library

/-- The pool has an address for this client, its own or a free one. -/
def Pool.CanServe (pool : Pool) (mac : Mac) : Prop :=
  (∃ v, pool.byMac[mac]? = some v) ∨ ¬pool.Exhausted

/-- A run of `client` that has not come to its end. -/
def Client.Running : Client → Prop
  | .start | .waitOffer | .waitAck _ => True
  | .configured .. | .failed => False

/-! ## The server -/

theorem Pool.CanServe.leaseFor {pool : Pool} {mac : Mac} (h : pool.CanServe mac)
    (requested : Option Ipv4Addr) :
    ∃ pool' ip, pool.leaseFor mac requested = (pool', some ip) := by
  cases hmac : pool.byMac[mac]? with
  | some v => exact ⟨pool, _, Pool.leaseFor_bound hmac requested⟩
  | none =>
      rcases pool.leaseFor_unbound hmac requested with ⟨hall, -⟩ | ⟨v, -, -, heq⟩
      · rcases h with ⟨v, hv⟩ | hfree
        · simp [hmac] at hv
        · exact absurd hall hfree
      · exact ⟨_, _, heq⟩

theorem Pool.exhausted_insertName (pool : Pool) (ip : Ipv4Addr) (h : Option Text) :
    (pool.insertName ip h).Exhausted ↔ pool.Exhausted := by
  cases h <;> rfl

theorem Pool.emptied_leaseFor (pool : Pool) (mac : Mac) (requested : Option Ipv4Addr) :
    (pool.leaseFor mac requested).1.emptied = pool.emptied := by
  obtain ⟨v, -, heq⟩ | ⟨v, -, -, heq⟩ | ⟨-, heq⟩ := pool.leaseFor_cases mac requested
  · rw [heq]
  · rw [heq]
    rfl
  · rw [heq]

theorem Server.emptied_step (s : Server) (a : Arrival) :
    (s.step a).1.pool.emptied = s.pool.emptied := by
  rcases s.step_cases a with ⟨hpool, -⟩ | ⟨q, pool, ip, msgType, -, -, hlease, hpool, -⟩
  · rw [hpool]
  · have hkept := s.pool.emptied_leaseFor q.chaddr q.reqIp
    rw [hlease] at hkept
    rw [hpool, Pool.emptied_insertName]
    exact hkept

/-- Nobody gets an address from an exhausted pool who has none. -/
theorem Server.exhausted_step {s : Server} {mac : Mac} (h : ¬s.pool.CanServe mac) (a : Arrival) :
    ¬(s.step a).1.pool.CanServe mac := by
  obtain ⟨hunbound, hall⟩ : (¬∃ v, s.pool.byMac[mac]? = some v) ∧ s.pool.Exhausted := by
    simpa only [Pool.CanServe, not_or, not_not] using h
  rcases s.step_cases a with ⟨hpool, -⟩ | ⟨q, pool, ip, msgType, -, -, hlease, hpool, -⟩
  · rwa [hpool]
  · -- an address that is given out now is an old binding
    have hsame : pool = s.pool := by
      cases hq : s.pool.byMac[q.chaddr]? with
      | some v => exact (Prod.mk.inj ((Pool.leaseFor_bound hq q.reqIp).symm.trans hlease)).1.symm
      | none =>
          have hnone := (Pool.leaseFor_eq_none_iff hq q.reqIp).mpr hall
          rw [hlease] at hnone
          cases hnone
    rw [hpool, hsame]
    rintro (⟨v, hv⟩ | hfree)
    · exact hunbound ⟨v, by simpa using hv⟩
    · exact hfree ((s.pool.exhausted_insertName ip q.hostname).mpr hall)

theorem Server.step_discover {s : Server} {mac : Mac} (h : s.pool.CanServe mac) (xid : Xid)
    (now : UInt64) (create : Bool) :
    ∃ s' ip, s.step ⟨buildClient xid mac discover none none, now, create⟩ =
        (s', [s'.reply (clientRequest xid mac discover none) offer ip s'.pool.lease]) ∧
      s'.pool.byMac[mac]? = some ip.toU32 := by
  obtain ⟨pool, ip, hlease⟩ := h.leaseFor none
  have hspec := s.pool.leaseFor_spec mac none
  rw [hlease] at hspec
  refine ⟨{ s with pool }, ip, ?_, hspec.bound ip rfl⟩
  have hdiscover : (clientRequest xid mac discover none).msgType = discover := rfl
  simp only [step, accept_buildClient, hdiscover, if_true]
  simp only [onDiscover, clientRequest, hlease]
  rfl

theorem Server.step_request {s : Server} {mac : Mac} {v : UInt32} (h : s.pool.byMac[mac]? = some v)
    (xid : Xid) (reqIp server : Option Ipv4Addr) (now : UInt64) (create : Bool) :
    ∃ s', s.step ⟨buildClient xid mac request reqIp server, now, create⟩ =
        (s', [s'.reply (clientRequest xid mac request reqIp) ack (Ipv4Addr.ofU32 v)
          s'.pool.lease]) ∧
      s'.pool = s.pool := by
  refine ⟨⟨s.pool, if create then some (s.pool.persist now) else s.leases⟩, ?_, rfl⟩
  have hrequest : (clientRequest xid mac request reqIp).msgType = request := rfl
  have hother : request ≠ discover := by decide
  simp only [step, accept_buildClient, hrequest, hother, if_false, if_true]
  simp only [onRequest, grant, clientRequest, h]
  rfl

/-! ## The client -/

/-- What an acknowledgement is read from, before any option. -/
def unread : AckFields where
  isAck := false
  mask := ⟨255, 255, 255, 0⟩
  gw := none
  dns := none

/-- The parameters of a reply, whatever its type. -/
theorem foldl_buildReply (req : Packet) (msgType : UInt8) (ip server mask dns : Ipv4Addr)
    (lease : UInt32) :
    (options (buildReply req msgType ip server mask dns lease)).foldl AckFields.readOption unread =
      ⟨decide (msgType = ack), mask, some server, some dns⟩ := by
  have hlen := (replyHeader_isHeader req ip server).length_eq
  simp only [buildReply, pushOption, List.append_assoc]
  rw [options, ← hlen, List.drop_left]
  by_cases htype : msgType = ack
  · rw [htype]
    simp [optionsFrom, leaseBytes, Ipv4Addr.octets, ipv4, ack, optMsgtype, optServerid, optLease,
      optSubnet, optRouter, optDns, optEnd, AckFields.readOption, unread]
  · simp [htype, optionsFrom, leaseBytes, Ipv4Addr.octets, ipv4, optMsgtype, optServerid, optLease,
      optSubnet, optRouter, optDns, optEnd, AckFields.readOption, unread]

/-- A reply header followed by options. -/
theorem IsHeader.parseAck_eq {b opts : List UInt8} {xid : Xid} {chaddr : Mac} {yiaddr : Ipv4Addr}
    (h : IsHeader b opReply xid chaddr yiaddr) {f : AckFields}
    (hf : (options (b ++ opts)).foldl AckFields.readOption unread = f) (hack : f.isAck = true) :
    parseAck (b ++ opts) xid = some (f.mask, f.gw, f.dns) := by
  have hlen := h.length_eq
  have hmagic : extract (b ++ opts) 236 4 = magic := by
    rw [extract_append_left (by omega), h.magic_eq]
  have hop : (b ++ opts)[0]? = some opReply := by
    rw [List.getElem?_append_left (by omega), h.op_eq]
  have hxid : extract (b ++ opts) 4 4 = xid.toList := by
    rw [extract_append_left (by omega), h.xid_eq]
  rw [unread] at hf
  rw [parseAck, if_neg]
  · simp only [hf, hack, if_true]
  · simp only [hmagic, hop, hxid, List.length_append, hlen]
    simp

theorem parseAck_buildReply (req : Packet) (yiaddr server mask dns : Ipv4Addr) (lease : UInt32) :
    parseAck (buildReply req ack yiaddr server mask dns lease) req.xid =
      some (mask, some server, some dns) := by
  have hfields := foldl_buildReply req ack yiaddr server mask dns lease
  simp only [buildReply, pushOption, List.append_assoc] at hfields ⊢
  exact (replyHeader_isHeader req yiaddr server).parseAck_eq hfields rfl

section Replies

variable (xid : Xid) (mac : Mac) (asked : UInt8) (reqIp : Option Ipv4Addr)
variable (ip server mask dns : Ipv4Addr) (lease : UInt32)

theorem Client.step_offer :
    ∃ p, p.yiaddr = ip ∧
      Client.step xid mac .waitOffer (.recv
        (buildReply (clientRequest xid mac asked reqIp) offer ip server mask dns lease) true) =
          (.waitAck p, [buildClient xid mac request (some p.yiaddr) (some p.yiaddr)]) := by
  refine ⟨⟨opReply, xid, mac, ip, offer, none, none⟩, rfl, ?_⟩
  rw [step, List.take_of_length_le (by rw [length_buildReply]; decide), parse_buildReply]
  exact if_pos ⟨rfl, rfl, rfl⟩

theorem Client.step_ack (p : Packet) :
    Client.step xid mac (.waitAck p) (.recv
      (buildReply (clientRequest xid mac asked reqIp) ack ip server mask dns lease) true) =
        (.configured p.yiaddr mask (some server) (some dns), []) := by
  have hack : parseAck (buildReply (clientRequest xid mac asked reqIp) ack ip server mask dns lease)
      xid = some (mask, some server, some dns) :=
    parseAck_buildReply (clientRequest xid mac asked reqIp) ip server mask dns lease
  rw [step, List.take_of_length_le (by rw [length_buildReply]; decide), hack]
  rfl

end Replies

/-- A client that waits has just sent the packet it waits for an answer to. -/
theorem Client.step_waits (xid : Xid) (mac : Mac) (s : Client) (e : ClientEvent) :
    ((s.step xid mac e).1 = .waitOffer →
      s = .waitOffer ∨ buildClient xid mac discover none none ∈ (s.step xid mac e).2) ∧
    ∀ p, (s.step xid mac e).1 = .waitAck p → s = .waitAck p ∨
      buildClient xid mac request (some p.yiaddr) (some p.yiaddr) ∈ (s.step xid mac e).2 := by
  unfold step
  split
  · split
    · simp
    · simp
  · split
    · split
      · refine ⟨by simp, ?_⟩
        rintro p ⟨⟩
        exact Or.inr (List.mem_singleton.mpr rfl)
      · simp
    · simp
  · simp
  · split
    · split <;> simp
    · simp
  · simp
  · exact ⟨Or.inl, fun _ h => Or.inl h⟩

namespace Net

variable {ι : Type*} (c : Clients ι) [DecidableEq ι]

/-! ## What the wire keeps -/

/-- The packets that the clients wait for answers to. -/
structure Asked (n : Net ι) : Prop where
  discovers : ∀ i, n.client i = .waitOffer →
    buildClient (c.xid i) (c.mac i) discover none none ∈ n.wire
  requests : ∀ i p, n.client i = .waitAck p →
    buildClient (c.xid i) (c.mac i) request (some p.yiaddr) (some p.yiaddr) ∈ n.wire

theorem asked_of_reachable {n : Net ι} (h : Reachable Init (Step c) n) : Asked c n := by
  apply Reachable.invariant (motive := Asked c) _ _ h
  · rintro n ⟨start, count, mask, server, lease, rfl⟩
    exact ⟨by simp, by simp⟩
  · rintro n n' hn ⟨a, -, rfl⟩
    cases a with
    | server arrival =>
        exact ⟨fun i hi => List.mem_append_right _ (hn.discovers i hi),
          fun i p hi => List.mem_append_right _ (hn.requests i p hi)⟩
    | client j e =>
        have hwaits := Client.step_waits (c.xid j) (c.mac j) (n.client j) e
        constructor
        · intro i hi
          by_cases hij : i = j
          · subst hij
            simp only [act, Function.update_self] at hi
            rcases hwaits.1 hi with hold | hsent
            · exact List.mem_append_right _ (hn.discovers i hold)
            · exact List.mem_append_left _ hsent
          · simp only [act, Function.update_of_ne hij] at hi
            exact List.mem_append_right _ (hn.discovers i hi)
        · intro i p hi
          by_cases hij : i = j
          · subst hij
            simp only [act, Function.update_self] at hi
            rcases hwaits.2 p hi with hold | hsent
            · exact List.mem_append_right _ (hn.requests i p hold)
            · exact List.mem_append_left _ hsent
          · simp only [act, Function.update_of_ne hij] at hi
            exact List.mem_append_right _ (hn.requests i p hi)

theorem emptied_run {n n' : Net ι} (h : Relation.ReflTransGen (Step c) n n') :
    n'.server.pool.emptied = n.server.pool.emptied := by
  induction h with
  | refl => rfl
  | tail _ hstep ih =>
      obtain ⟨a, -, rfl⟩ := hstep
      cases a with
      | server arrival => exact (Server.emptied_step _ arrival).trans ih
      | client j e => exact ih

theorem exhausted_run {n n' : Net ι} {mac : Mac} (h : ¬n.server.pool.CanServe mac)
    (hrun : Relation.ReflTransGen (Step c) n n') : ¬n'.server.pool.CanServe mac := by
  induction hrun with
  | refl => exact h
  | tail _ hstep ih =>
      obtain ⟨a, -, rfl⟩ := hstep
      cases a with
      | server arrival => exact Server.exhausted_step ih arrival
      | client j e => exact ih

/-! ## An exchange -/

/-- Some run from here configures the client with what the server has for it. -/
def GetsLease (n : Net ι) (i : ι) : Prop :=
  ∃ n', Relation.ReflTransGen (Step c) n n' ∧ ∃ v, n'.server.pool.byMac[c.mac i]? = some v ∧
    n'.client i = .configured (Ipv4Addr.ofU32 v) n.server.pool.mask (some n.server.pool.server)
      (some n.server.pool.server)

theorem GetsLease.of_run {n m : Net ι} {i : ι} (hrun : Relation.ReflTransGen (Step c) n m)
    (h : GetsLease c m i) : GetsLease c n i := by
  obtain ⟨n', hmore, v, hv, hclient⟩ := h
  obtain ⟨-, -, hmask, hserver⟩ := Pool.config_of_emptied (emptied_run c hrun)
  rw [hmask, hserver] at hclient
  exact ⟨n', hrun.trans hmore, v, hv, hclient⟩

/-- The server gets a packet from the wire, and the client what the server answers. -/
theorem answered {n : Net ι} {i : ι} {arrival : Arrival} {s' : Server} {d : List UInt8}
    {result : Client × List (List UInt8)} (hwire : arrival.datagram ∈ n.wire)
    (hserver : n.server.step arrival = (s', [d]))
    (hclient : (n.client i).step (c.xid i) (c.mac i) (.recv d true) = result) :
    ∃ n', Relation.ReflTransGen (Step c) n n' ∧ n'.server = s' ∧ n'.client i = result.1 := by
  have hserved : Step c n (n.act c (.server arrival)) := by
    refine ⟨_, ?_, rfl⟩
    rintro d ⟨⟩
    exact hwire
  have hread : Step c (n.act c (.server arrival))
      ((n.act c (.server arrival)).act c (.client i (.recv d true))) := by
    refine ⟨_, ?_, rfl⟩
    rintro d ⟨⟩
    simp [act, hserver]
  refine ⟨_, (Relation.ReflTransGen.single hserved).tail hread, ?_, ?_⟩
  · simp [act, hserver]
  · simp [act, hclient]

/-- The REQUEST is delivered, and then the ACK. -/
theorem getsLease_of_waitAck {n : Net ι} (h : Reachable Init (Step c) n) {i : ι} {p : Packet}
    (hi : n.client i = .waitAck p) : GetsLease c n i := by
  have hbound := (safe_of_reachable c h).offered i p hi
  obtain ⟨s', hserver, hpool⟩ := Server.step_request hbound (c.xid i) (some p.yiaddr)
    (some p.yiaddr) 0 true
  have hclient := Client.step_ack (c.xid i) (c.mac i) request (some p.yiaddr) p.yiaddr
    s'.pool.server s'.pool.mask s'.pool.server s'.pool.lease p
  rw [Ipv4Addr.ofU32_toU32] at hserver
  rw [← hi] at hclient
  obtain ⟨n', hrun, rfl, hconfigured⟩ :=
    answered c ((asked_of_reachable c h).requests i p hi) hserver hclient
  rw [hpool] at hconfigured
  refine ⟨n', hrun, p.yiaddr.toU32, hpool ▸ hbound, ?_⟩
  rw [Ipv4Addr.ofU32_toU32]
  exact hconfigured

/-- The DISCOVER is delivered, and then the OFFER. -/
theorem getsLease_of_waitOffer {n : Net ι} (h : Reachable Init (Step c) n) {i : ι}
    (hi : n.client i = .waitOffer) (hserve : n.server.pool.CanServe (c.mac i)) :
    GetsLease c n i := by
  obtain ⟨s', ip, hserver, -⟩ := Server.step_discover hserve (c.xid i) 0 true
  obtain ⟨p, -, hclient⟩ := Client.step_offer (c.xid i) (c.mac i) discover none ip s'.pool.server
    s'.pool.mask s'.pool.server s'.pool.lease
  rw [← hi] at hclient
  obtain ⟨n', hrun, -, hoffered⟩ :=
    answered c ((asked_of_reachable c h).discovers i hi) hserver hclient
  obtain ⟨start, hstart, hbefore⟩ := h
  exact GetsLease.of_run c hrun
    (getsLease_of_waitAck c ⟨start, hstart, hbefore.trans hrun⟩ hoffered)

theorem getsLease_of_start {n : Net ι} (h : Reachable Init (Step c) n) {i : ι}
    (hi : n.client i = .start) (hserve : n.server.pool.CanServe (c.mac i)) : GetsLease c n i := by
  have hbegin : Step c n (n.act c (.client i (.begin true))) := by
    refine ⟨_, ?_, rfl⟩
    rintro d ⟨⟩
  refine GetsLease.of_run c (.single hbegin) (getsLease_of_waitOffer c (h.next hbegin) ?_ hserve)
  simp only [act, Function.update_self, hi]
  rfl

theorem getsLease_of_running {n : Net ι} (h : Reachable Init (Step c) n) {i : ι}
    (hi : (n.client i).Running) (hserve : n.server.pool.CanServe (c.mac i)) : GetsLease c n i := by
  cases hclient : n.client i with
  | start => exact getsLease_of_start c h hclient hserve
  | waitOffer => exact getsLease_of_waitOffer c h hclient hserve
  | waitAck p => exact getsLease_of_waitAck c h hclient
  | configured addr mask gw dns => simp [hclient, Client.Running] at hi
  | failed => simp [hclient, Client.Running] at hi

/-- A server with one address, before anything happens. -/
def oneLease : Net (Fin 2) :=
  ⟨Server.init 0xC0A80164 1 ⟨255, 255, 255, 0⟩ ⟨192, 168, 1, 1⟩ 43200, fun _ => .start, []⟩

end Net

end Lwrt.Dhcp
