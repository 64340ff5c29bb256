import Mathlib.Logic.Function.Basic
import Lwrt.Verification.Dhcp.Pool

/-! # Clients and one server over a lossy broadcast network

A datagram that was ever sent stays on the wire and may be delivered to any party any number
of times, in any order, or never. -/

namespace Lwrt.Dhcp

open Library

/-- The clients of a run, with distinct hardware addresses and transaction ids. -/
structure Clients (ι : Type*) where
  mac : ι → Mac
  xid : ι → Xid
  mac_injective : Function.Injective mac
  xid_injective : Function.Injective xid

/-- What a client sends, and where an accepted offer and a configured address come from. -/
structure Client.StepSpec (xid : Xid) (mac : Mac) (s : Client) (e : ClientEvent)
    (result : Client × List (List UInt8)) : Prop where
  sends : ∀ d ∈ result.2, ∃ msgType reqIp server, d = buildClient xid mac msgType reqIp server
  offered : ∀ p, result.1 = .waitAck p → s = .waitAck p ∨
    ∃ d configures, e = .recv d configures ∧ parse (d.take 1024) = some p ∧
      p.op = opReply ∧ p.msgType = offer ∧ p.xid = xid
  configured : ∀ addr mask gw dns, result.1 = .configured addr mask gw dns →
    s = .configured addr mask gw dns ∨ ∃ p, s = .waitAck p ∧ p.yiaddr = addr

theorem Client.step_spec (xid : Xid) (mac : Mac) (s : Client) (e : ClientEvent) :
    StepSpec xid mac s e (s.step xid mac e) := by
  unfold step
  split
  · split
    · refine ⟨?_, by simp, by simp⟩
      intro d hd
      exact ⟨_, _, _, List.mem_singleton.mp hd⟩
    · exact ⟨by simp, by simp, by simp⟩
  · rename_i datagram configures
    split
    · rename_i p hp
      split
      · rename_i hc
        refine ⟨?_, ?_, by simp⟩
        · intro d hd
          exact ⟨_, _, _, List.mem_singleton.mp hd⟩
        · rintro q ⟨⟩
          exact Or.inr ⟨datagram, configures, rfl, hp, hc⟩
      · exact ⟨by simp, by simp, by simp⟩
    · exact ⟨by simp, by simp, by simp⟩
  · exact ⟨by simp, by simp, by simp⟩
  · rename_i p datagram configures
    split
    · split
      · refine ⟨by simp, by simp, ?_⟩
        rintro addr mask gw dns ⟨⟩
        exact Or.inr ⟨p, rfl, rfl⟩
      · exact ⟨by simp, by simp, by simp⟩
    · exact ⟨by simp, fun q hq => Or.inl hq, by simp⟩
  · exact ⟨by simp, by simp, by simp⟩
  · exact ⟨by simp, fun q hq => Or.inl hq, fun _ _ _ _ h => Or.inl h⟩

structure Net (ι : Type*) where
  server : Server
  client : ι → Client
  wire : List (List UInt8)

namespace Net

variable {ι : Type*} (c : Clients ι)

/-- One party acts: a client on its next event, or the server on its next datagram. -/
inductive Act (ι : Type*) where
  | client (i : ι) (e : ClientEvent)
  | server (arrival : Arrival)

/-- The datagram an action needs from the network. -/
def Act.delivers : Act ι → Option (List UInt8)
  | .client _ (.recv d _) => some d
  | .client _ _ => none
  | .server arrival => some arrival.datagram

def act [DecidableEq ι] (n : Net ι) : Act ι → Net ι
  | .client i e =>
      { n with
        client := Function.update n.client i ((n.client i).step (c.xid i) (c.mac i) e).1
        wire := ((n.client i).step (c.xid i) (c.mac i) e).2 ++ n.wire }
  | .server arrival =>
      { n with
        server := (n.server.step arrival).1
        wire := (n.server.step arrival).2 ++ n.wire }

/-- Only datagrams on the wire are delivered. -/
def Step [DecidableEq ι] (n n' : Net ι) : Prop :=
  ∃ a : Act ι, (∀ d ∈ a.delivers, d ∈ n.wire) ∧ n' = n.act c a

/-- The server has an empty pool, no client has started and nothing was sent. -/
def Init (n : Net ι) : Prop :=
  ∃ start count mask server lease,
    n = ⟨Server.init start count mask server lease, fun _ => .start, []⟩

/-! ## What is on the wire -/

def FromClient (d : List UInt8) : Prop :=
  ∃ i msgType reqIp server, d = buildClient (c.xid i) (c.mac i) msgType reqIp server

/-- A reply to one of the clients. -/
def FromServer (d : List UInt8) : Prop :=
  ∃ i req msgType ip server mask dns lease, req.xid = c.xid i ∧ req.chaddr = c.mac i ∧
    d = buildReply req msgType ip server mask dns lease

/-- The inductive invariant: the wire carries client packets and backed replies, and an
address a client has accepted is its binding. -/
structure Safe (n : Net ι) : Prop where
  consistent : n.server.pool.Consistent
  wire : ∀ d ∈ n.wire, FromClient c d ∨ (FromServer c d ∧ Backed n.server.pool d)
  offered : ∀ i p, n.client i = .waitAck p →
    n.server.pool.byMac[c.mac i]? = some p.yiaddr.toU32
  configured : ∀ i addr mask gw dns, n.client i = .configured addr mask gw dns →
    n.server.pool.byMac[c.mac i]? = some addr.toU32

theorem safe_of_init {n : Net ι} (h : Init n) : Safe c n := by
  obtain ⟨start, count, mask, server, lease, rfl⟩ := h
  exact ⟨Pool.new_consistent start count mask server lease, by simp, by simp, by simp⟩

/-! ## Steps -/

/-- An OFFER with a client's own transaction id is backed by that client's binding. -/
theorem Safe.offer_bound {n : Net ι} (h : Safe c n) {d : List UInt8} (hd : d ∈ n.wire) (i : ι)
    {p : Packet} (hp : parse (d.take 1024) = some p) (hop : p.op = opReply)
    (ht : p.msgType = offer) (hx : p.xid = c.xid i) :
    n.server.pool.byMac[c.mac i]? = some p.yiaddr.toU32 := by
  rcases h.wire d hd with ⟨j, msgType, reqIp, server, rfl⟩ | ⟨hserver, hbacked⟩
  · rw [List.take_of_length_le (length_buildClient_le _ _ _ _ _), parse_buildClient,
      Option.some.injEq] at hp
    rw [← hp] at hop
    exact absurd hop (by simp [clientRequest, opRequest, opReply])
  · obtain ⟨j, req, msgType, ip, server, mask, dns, lease, hxid, hmac, heq⟩ := hserver
    rw [heq] at hbacked
    rw [heq, List.take_of_length_le (by rw [length_buildReply]; omega)] at hp
    have hb := hbacked p hp (Or.inl ht)
    rw [parse_buildReply, Option.some.injEq] at hp
    have hj : j = i := c.xid_injective (by rw [← hxid, ← hx, ← hp])
    rw [← hj, ← hmac]
    rw [← hp] at hb ⊢
    exact hb

variable [DecidableEq ι]

theorem safe_client {n : Net ι} (h : Safe c n) (i : ι) (e : ClientEvent)
    (hwire : ∀ d configures, e = .recv d configures → d ∈ n.wire) :
    Safe c (n.act c (.client i e)) := by
  have hstep := Client.step_spec (c.xid i) (c.mac i) (n.client i) e
  refine ⟨h.consistent, ?_, ?_, ?_⟩
  · intro d hd
    rcases List.mem_append.mp hd with hd | hd
    · obtain ⟨msgType, reqIp, server, heq⟩ := hstep.sends d hd
      exact Or.inl ⟨i, msgType, reqIp, server, heq⟩
    · exact h.wire d hd
  · intro j p hj
    by_cases hij : j = i
    · subst hij
      simp only [act, Function.update_self] at hj
      rcases hstep.offered p hj with hold | ⟨d, configures, he, hp, hop, ht, hx⟩
      · exact h.offered j p hold
      · exact h.offer_bound c (hwire d configures he) j hp hop ht hx
    · simp only [act, Function.update_of_ne hij] at hj
      exact h.offered j p hj
  · intro j addr mask gw dns hj
    by_cases hij : j = i
    · subst hij
      simp only [act, Function.update_self] at hj
      rcases hstep.configured addr mask gw dns hj with hold | ⟨p, hold, rfl⟩
      · exact h.configured j addr mask gw dns hold
      · exact h.offered j p hold
    · simp only [act, Function.update_of_ne hij] at hj
      exact h.configured j addr mask gw dns hj

theorem safe_server {n : Net ι} (h : Safe c n) (arrival : Arrival)
    (hwire : arrival.datagram ∈ n.wire) : Safe c (n.act c (.server arrival)) := by
  have hstep := n.server.step_spec arrival
  refine ⟨hstep.consistent h.consistent, ?_, ?_, ?_⟩
  · intro d hd
    rcases List.mem_append.mp hd with hd | hd
    · obtain ⟨req, msgType, ip, lease, hreq, hreply⟩ := hstep.answers d hd
      refine Or.inr ⟨?_, hstep.backed _ hd⟩
      rcases h.wire _ hwire with ⟨i, t, reqIp, server, heq⟩ | ⟨hserver, -⟩
      · rw [heq, Server.accept_buildClient, Option.some.injEq] at hreq
        exact ⟨i, req, _, _, _, _, _, _, by rw [← hreq]; rfl, by rw [← hreq]; rfl, hreply⟩
      · obtain ⟨i, q, t, ip', server, mask, dns, l, hxid, hmac, heq⟩ := hserver
        rw [heq, Server.accept, List.take_of_length_le (by rw [length_buildReply]; omega),
          parse_buildReply] at hreq
        simp [Option.filter, opReply, opRequest] at hreq
    · rcases h.wire d hd with hc | ⟨hs, hb⟩
      · exact Or.inl hc
      · exact Or.inr ⟨hs, hb.mono hstep.keeps⟩
  · intro i p hp
    exact hstep.keeps _ _ (h.offered i p hp)
  · intro i addr mask gw dns hi
    exact hstep.keeps _ _ (h.configured i addr mask gw dns hi)

theorem safe_of_reachable {n : Net ι} (h : Reachable Init (Step c) n) : Safe c n := by
  apply Reachable.invariant (motive := Safe c) (fun n hn => safe_of_init c hn) _ h
  intro n n' hn hstep
  obtain ⟨a, hwire, rfl⟩ := hstep
  cases a with
  | client i e =>
      apply safe_client c hn i e
      rintro d configures rfl
      exact hwire d rfl
  | server arrival => exact safe_server c hn arrival (hwire _ rfl)

/-- In every reachable state an address a client has configured is the server's current
binding of its hardware address, and no two clients have configured the same address. -/
theorem configured_is_binding {n : Net ι} (h : Reachable Init (Step c) n) :
    (∀ i addr mask gw dns, n.client i = .configured addr mask gw dns →
      n.server.pool.byMac[c.mac i]? = some addr.toU32) ∧
    ∀ i j addr mask gw dns mask' gw' dns', n.client i = .configured addr mask gw dns →
      n.client j = .configured addr mask' gw' dns' → i = j := by
  have hsafe := safe_of_reachable c h
  refine ⟨hsafe.configured, ?_⟩
  intro i j addr mask gw dns mask' gw' dns' hi hj
  apply c.mac_injective
  exact hsafe.consistent.injective _ _ _ (hsafe.configured i addr mask gw dns hi)
    (hsafe.configured j addr mask' gw' dns' hj)

/-- A schedule, run as long as every datagram it delivers is on the wire. -/
def exec : Net ι → List (Act ι) → Option (Net ι)
  | n, [] => some n
  | n, a :: acts => if a.delivers.all n.wire.contains then exec (n.act c a) acts else none

theorem reachable_exec {n n' : Net ι} (h : Reachable Init (Step c) n) (acts : List (Act ι))
    (hexec : exec c n acts = some n') : Reachable Init (Step c) n' := by
  induction acts generalizing n with
  | nil =>
      rw [exec, Option.some.injEq] at hexec
      exact hexec ▸ h
  | cons a acts ih =>
      rw [exec] at hexec
      split at hexec
      · rename_i hwire
        have hdelivers : ∀ d ∈ a.delivers, d ∈ n.wire := by
          intro d hd
          rw [Option.mem_def.mp hd, Option.all_some, List.contains_iff_mem] at hwire
          exact hwire
        exact ih (h.next ⟨a, hdelivers, rfl⟩) hexec
      · cases hexec

/-- Two clients. -/
def pair : Clients (Fin 2) where
  mac := fun i => #v[2, 0, 0, 0, 0, i.val.toUInt8]
  xid := fun i => #v[0, 0, 0, i.val.toUInt8]
  mac_injective := fun i j => by revert i j; decide
  xid_injective := fun i j => by revert i j; decide

def pairSent (i : Fin 2) (msgType : UInt8) (ip : Option Ipv4Addr) : List UInt8 :=
  buildClient (pair.xid i) (pair.mac i) msgType ip ip

def pairReply (i : Fin 2) (asked : UInt8) (reqIp : Option Ipv4Addr) (msgType : UInt8)
    (ip : Ipv4Addr) : List UInt8 :=
  buildReply (clientRequest (pair.xid i) (pair.mac i) asked reqIp) msgType ip ⟨192, 168, 1, 1⟩
    ⟨255, 255, 255, 0⟩ ⟨192, 168, 1, 1⟩ 43200

/-- Their exchanges overlap: the server reads the second DISCOVER first, and the first client
sees the other one's OFFER, and its own twice. -/
def overlapping : List (Act (Fin 2)) :=
  [.client 0 (.begin true), .client 1 (.begin true),
    .server ⟨pairSent 1 discover none, 0, true⟩, .server ⟨pairSent 0 discover none, 0, true⟩,
    .client 0 (.recv (pairReply 1 discover none offer ⟨192, 168, 1, 100⟩) true),
    .client 0 (.recv (pairReply 0 discover none offer ⟨192, 168, 1, 101⟩) true),
    .client 0 (.recv (pairReply 0 discover none offer ⟨192, 168, 1, 101⟩) true),
    .client 1 (.recv (pairReply 1 discover none offer ⟨192, 168, 1, 100⟩) true),
    .server ⟨pairSent 0 request (some ⟨192, 168, 1, 101⟩), 0, true⟩,
    .server ⟨pairSent 1 request (some ⟨192, 168, 1, 100⟩), 0, true⟩,
    .client 1 (.recv (pairReply 1 request (some ⟨192, 168, 1, 100⟩) ack ⟨192, 168, 1, 100⟩) true),
    .client 0 (.recv (pairReply 0 request (some ⟨192, 168, 1, 101⟩) ack ⟨192, 168, 1, 101⟩) true)]

theorem configured_is_binding_pair :
    ∃ n, Reachable Init (Step pair) n ∧ n.client 0 = .configured ⟨192, 168, 1, 101⟩
        ⟨255, 255, 255, 0⟩ (some ⟨192, 168, 1, 1⟩) (some ⟨192, 168, 1, 1⟩) ∧
      n.server.pool.byMac[pair.mac 0]? = some 0xC0A80165 := by
  let start : Net (Fin 2) :=
    ⟨Server.init 0xC0A80164 2 ⟨255, 255, 255, 0⟩ ⟨192, 168, 1, 1⟩ 43200, fun _ => .start, []⟩
  have hstart : Reachable Init (Step pair) start := Reachable.start ⟨_, _, _, _, _, rfl⟩
  have hclient : (exec pair start overlapping).map (fun n => n.client 0) =
      some (.configured ⟨192, 168, 1, 101⟩ ⟨255, 255, 255, 0⟩ (some ⟨192, 168, 1, 1⟩)
        (some ⟨192, 168, 1, 1⟩)) := by
    decide +kernel
  obtain ⟨n, hexec, hn⟩ := Option.map_eq_some_iff.mp hclient
  have hreach := reachable_exec pair hstart overlapping hexec
  exact ⟨n, hreach, hn, (configured_is_binding pair hreach).1 0 _ _ _ _ hn⟩

end Net

end Lwrt.Dhcp
