import Lwrt.Verification.Dhcp.Acknowledgement
import Lwrt.Verification.Dhcp.Progress
import Lwrt.Verification.Dhcp.Range

/-! # What clients are configured with

Mask, gateway and resolver of every client are those of the pool, whatever the network does. -/

namespace Lwrt.Dhcp

open Library

/-! ## Acknowledgements that are read -/

/-- An acknowledgement is a reply, and its parameters are read from its options. -/
theorem of_parseAck {buf : List UInt8} {asked : Xid} {mask : Ipv4Addr} {gw dns : Option Ipv4Addr}
    (h : parseAck buf asked = some (mask, gw, dns)) :
    buf[0]? = some opReply ∧
      ∃ isAck, (options buf).foldl AckFields.readOption unread = ⟨isAck, mask, gw, dns⟩ := by
  rw [parseAck] at h
  split at h
  case isTrue => cases h
  case isFalse hheader =>
    simp only [not_or, not_not] at hheader
    refine ⟨hheader.2.2.2, ?_⟩
    obtain ⟨-, hread⟩ := Option.ite_none_right_eq_some.mp h
    injection hread with hread
    injection hread with hmask hread
    injection hread with hgw hdns
    refine ⟨((options buf).foldl AckFields.readOption unread).isAck, ?_⟩
    rw [← hmask, ← hgw, ← hdns]
    rfl

theorem of_parseAck_buildReply {req : Packet} {msgType : UInt8} {ip server mask dns : Ipv4Addr}
    {lease : UInt32} {asked : Xid} {mask' : Ipv4Addr} {gw' dns' : Option Ipv4Addr}
    (h : parseAck (buildReply req msgType ip server mask dns lease) asked =
      some (mask', gw', dns')) : mask' = mask ∧ gw' = some server ∧ dns' = some dns := by
  obtain ⟨-, isAck, hfields⟩ := of_parseAck h
  rw [foldl_buildReply] at hfields
  injection hfields with _ hmask hgw hdns
  exact ⟨hmask.symm, hgw.symm, hdns.symm⟩

/-- A client's packet is no acknowledgement. -/
theorem parseAck_buildClient (xid : Xid) (mac : Mac) (msgType : UInt8)
    (reqIp server : Option Ipv4Addr) (asked : Xid) :
    parseAck (buildClient xid mac msgType reqIp server) asked = none := by
  obtain ⟨b, hb, heq⟩ := buildClient_eq xid mac msgType reqIp server
  have hlen := hb.length_eq
  rw [heq, Option.eq_none_iff_forall_ne_some]
  rintro ⟨mask, gw, dns⟩ hread
  obtain ⟨hop, -⟩ := of_parseAck hread
  rw [List.getElem?_append_left (by omega), hb.op_eq] at hop
  exact absurd hop (by decide)

namespace Net

variable {ι : Type*} (c : Clients ι)

/-! ## The invariant -/

/-- All replies on the wire, and all configured clients, have the parameters of the pool. -/
structure Told (pool : Pool) (n : Net ι) : Prop where
  server : n.server.pool.emptied = pool.emptied
  wire : ∀ d ∈ n.wire, FromClient c d ∨ ∃ req msgType ip lease,
    d = buildReply req msgType ip pool.server pool.mask pool.server lease
  configured : ∀ i addr mask gw dns, n.client i = .configured addr mask gw dns →
    mask = pool.mask ∧ gw = some pool.server ∧ dns = some pool.server

theorem Told.of_parseAck {pool : Pool} {n : Net ι} (h : Told c pool n) {d : List UInt8}
    (hd : d ∈ n.wire) {asked : Xid} {mask : Ipv4Addr} {gw dns : Option Ipv4Addr}
    (hread : parseAck (d.take 1024) asked = some (mask, gw, dns)) :
    mask = pool.mask ∧ gw = some pool.server ∧ dns = some pool.server := by
  rcases h.wire d hd with ⟨i, msgType, reqIp, server, rfl⟩ | ⟨req, msgType, ip, lease, rfl⟩
  · rw [List.take_of_length_le (length_buildClient_le _ _ _ _ _), parseAck_buildClient] at hread
    cases hread
  · rw [List.take_of_length_le (by rw [length_buildReply]; omega)] at hread
    exact of_parseAck_buildReply hread

/-- The network when a server starts with a pool. -/
def starting (pool : Pool) : Net ι :=
  ⟨Server.on pool, fun _ => .start, []⟩

/-- A configured pool is empty. -/
theorem init_starting {cfg : Config} {pool : Pool} (h : Pool.configured cfg = some pool) :
    Init (starting pool : Net ι) := by
  have hfresh : pool.emptied = pool := Pool.fresh_of_configured h
  refine ⟨pool.start, pool.count, pool.mask, pool.server, pool.lease, ?_⟩
  rw [starting, ← hfresh]
  rfl

theorem told_starting (pool : Pool) : Told c pool (starting pool) where
  server := rfl
  wire := by simp [starting]
  configured := by simp [starting]

variable [DecidableEq ι]

theorem told_client {pool : Pool} {n : Net ι} (h : Told c pool n) (i : ι) (e : ClientEvent)
    (hwire : ∀ d configures, e = .recv d configures → d ∈ n.wire) :
    Told c pool (n.act c (.client i e)) where
  server := h.server
  wire := by
    intro d hd
    rcases List.mem_append.mp hd with hd | hd
    · obtain ⟨msgType, reqIp, server, heq⟩ :=
        (Client.step_spec (c.xid i) (c.mac i) (n.client i) e).sends d hd
      exact Or.inl ⟨i, msgType, reqIp, server, heq⟩
    · exact h.wire d hd
  configured := by
    intro j addr mask gw dns hj
    by_cases hij : j = i
    · subst hij
      simp only [act, Function.update_self] at hj
      rcases Client.step_eq_configured hj with hold | ⟨p, d, -, rfl, -, hread⟩
      · exact h.configured j addr mask gw dns hold
      · exact h.of_parseAck c (hwire d true rfl) hread
    · simp only [act, Function.update_of_ne hij] at hj
      exact h.configured j addr mask gw dns hj

theorem told_server {pool : Pool} {n : Net ι} (h : Told c pool n) (arrival : Arrival) :
    Told c pool (n.act c (.server arrival)) where
  server := (Server.emptied_step n.server arrival).trans h.server
  wire := by
    intro d hd
    rcases List.mem_append.mp hd with hd | hd
    · obtain ⟨req, msgType, ip, lease, -, hreply⟩ := (n.server.step_spec arrival).answers d hd
      obtain ⟨-, -, hmask, hserver⟩ :=
        Pool.config_of_emptied ((Server.emptied_step n.server arrival).trans h.server)
      rw [Server.reply, hmask, hserver] at hreply
      exact Or.inr ⟨req, msgType, ip, lease, hreply⟩
    · exact h.wire d hd
  configured := h.configured

/-- A client that is configured in a run has the parameters of the pool. -/
theorem told_run {pool : Pool} {n n' : Net ι} (h : Told c pool n)
    (hrun : Relation.ReflTransGen (Step c) n n') : Told c pool n' := by
  induction hrun with
  | refl => exact h
  | tail _ hstep ih =>
      obtain ⟨a, hwire, rfl⟩ := hstep
      cases a with
      | client i e =>
          refine told_client c ih i e ?_
          rintro d configures rfl
          exact hwire d rfl
      | server arrival => exact told_server c ih arrival

end Net

end Lwrt.Dhcp
