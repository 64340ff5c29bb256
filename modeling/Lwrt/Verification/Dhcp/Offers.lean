import Lwrt.Verification.Dhcp.Options

/-! # The REQUEST for an offered address

A client that accepts an offer names the offered address and the server that made the offer. What
this client sends is compared with that, for every datagram it can take for an offer. -/

namespace Lwrt.Dhcp

open Library

/-! ## Options of a client packet -/

/-- The value of the option, the last one if it is repeated. -/
def optionValue (code : UInt8) (buf : List UInt8) : Option (List UInt8) :=
  ((options buf).filter (·.1 = code)).getLast?.map (·.2)

theorem options_buildClient (xid : Xid) (mac : Mac) (msgType : UInt8)
    (reqIp server : Option Ipv4Addr) :
    options (buildClient xid mac msgType reqIp server) =
      (optMsgtype, [msgType]) :: ((reqIp.map fun ip => (optReqip, ip.octets)).toList ++
        ((server.map fun ip => (optServerid, ip.octets)).toList ++
          [(55, [optSubnet, optRouter, optDns])])) := by
  obtain ⟨b, hb, heq⟩ := buildClient_eq xid mac msgType reqIp server
  rw [options, heq, List.drop_left' hb.length_eq]
  cases reqIp <;> cases server <;>
    simp [optionsFrom, Ipv4Addr.octets, optMsgtype, optServerid, optSubnet, optRouter, optDns,
      optEnd, optReqip]

/-! ## The purpose -/

/-- A REQUEST of the client for the offered address, to the server that the offer names. -/
structure AcceptsOffer (xid : Xid) (mac : Mac) (p : Packet) (o r : List UInt8) : Prop where
  identity : parse r = some (clientRequest xid mac request (some p.yiaddr))
  address : optionValue optReqip r = some p.yiaddr.octets
  server : ∃ id, optionValue optServerid o = some id ∧ optionValue optServerid r = some id

/-- The server that is named is the one whose identifier the offered address would be. -/
theorem acceptsOffer_buildClient_iff (xid : Xid) (mac : Mac) (p : Packet) (o : List UInt8) :
    AcceptsOffer xid mac p o (buildClient xid mac request (some p.yiaddr) (some p.yiaddr)) ↔
      optionValue optServerid o = some p.yiaddr.octets := by
  have hserver : optionValue optServerid
      (buildClient xid mac request (some p.yiaddr) (some p.yiaddr)) = some p.yiaddr.octets := by
    rw [optionValue, options_buildClient]
    rfl
  constructor
  · intro h
    obtain ⟨id, ho, hr⟩ := h.server
    rw [ho, ← hr, hserver]
  · intro h
    refine ⟨parse_buildClient xid mac request _ _, ?_, _, h, hserver⟩
    rw [optionValue, options_buildClient]
    rfl

/-- What a client does with a datagram that it takes for an offer. -/
theorem Client.step_waitOffer {xid : Xid} {mac : Mac} {d : List UInt8} {configures : Bool}
    {p : Packet} {sent : List (List UInt8)}
    (h : Client.step xid mac .waitOffer (.recv d configures) = (.waitAck p, sent)) :
    sent = [buildClient xid mac request (some p.yiaddr) (some p.yiaddr)] := by
  simp only [step] at h
  split at h
  · split at h
    · obtain ⟨hp, hsent⟩ := Prod.mk.inj h
      obtain rfl := Client.waitAck.inj hp
      exact hsent.symm
    · cases (Prod.mk.inj h).1
  · cases (Prod.mk.inj h).1

/-- The REQUEST goes to the offering server exactly if the offer gives the offered address for the
identifier of its server. -/
theorem request_accepts_offer_iff {xid : Xid} {mac : Mac} {d : List UInt8} {configures : Bool}
    {p : Packet} {sent : List (List UInt8)}
    (h : Client.step xid mac .waitOffer (.recv d configures) = (.waitAck p, sent)) :
    (∃ r, sent = [r] ∧ AcceptsOffer xid mac p (d.take 1024) r) ↔
      optionValue optServerid (d.take 1024) = some p.yiaddr.octets := by
  rw [← acceptsOffer_buildClient_iff xid mac p, Client.step_waitOffer h]
  constructor
  · intro hall
    obtain ⟨r, hr, haccepts⟩ := hall
    rw [(List.cons.inj hr).1]
    exact haccepts
  · intro haccepts
    exact ⟨_, rfl, haccepts⟩

/-- The offer of a server for an address. -/
def offerOf (ip server : Ipv4Addr) : List UInt8 :=
  buildReply (clientRequest #v[0, 0, 0, 1] #v[2, 0, 0, 0, 0, 1] discover none) offer ip server
    ⟨255, 255, 255, 0⟩ server 43200

def offered (ip : Ipv4Addr) : Packet :=
  { op := opReply, xid := #v[0, 0, 0, 1], chaddr := #v[2, 0, 0, 0, 0, 1], yiaddr := ip,
    msgType := offer, reqIp := none, hostname := none }

theorem step_offerOf (ip server : Ipv4Addr) :
    Client.step #v[0, 0, 0, 1] #v[2, 0, 0, 0, 0, 1] .waitOffer (.recv (offerOf ip server) true) =
      (.waitAck (offered ip), [buildClient #v[0, 0, 0, 1] #v[2, 0, 0, 0, 0, 1] request (some ip)
        (some ip)]) := by
  have hshort : (offerOf ip server).length ≤ 1024 := by
    rw [offerOf, length_buildReply]
    decide
  have hparse : parse ((offerOf ip server).take 1024) = some (offered ip) := by
    rw [List.take_of_length_le hshort]
    exact parse_buildReply _ _ _ _ _ _ _
  simp only [Client.step, hparse]
  rw [if_pos ⟨rfl, rfl, rfl⟩]
  rfl

/-- A server that offers its own address is named. -/
theorem request_accepts_offer_own :
    ∃ r, [buildClient #v[0, 0, 0, 1] #v[2, 0, 0, 0, 0, 1] request (some ⟨10, 0, 0, 1⟩)
        (some ⟨10, 0, 0, 1⟩)] = [r] ∧
      AcceptsOffer #v[0, 0, 0, 1] #v[2, 0, 0, 0, 0, 1] (offered ⟨10, 0, 0, 1⟩)
        ((offerOf ⟨10, 0, 0, 1⟩ ⟨10, 0, 0, 1⟩).take 1024) r :=
  (request_accepts_offer_iff (step_offerOf ⟨10, 0, 0, 1⟩ ⟨10, 0, 0, 1⟩)).mpr (by decide +kernel)

/-- Any other is not: the REQUEST names the offered address for a server. -/
theorem request_misses_server :
    Client.step #v[0, 0, 0, 1] #v[2, 0, 0, 0, 0, 1] .waitOffer
        (.recv (offerOf ⟨10, 0, 0, 7⟩ ⟨10, 0, 0, 1⟩) true) =
      (.waitAck (offered ⟨10, 0, 0, 7⟩), [buildClient #v[0, 0, 0, 1] #v[2, 0, 0, 0, 0, 1] request
        (some ⟨10, 0, 0, 7⟩) (some ⟨10, 0, 0, 7⟩)]) ∧
      ¬ AcceptsOffer #v[0, 0, 0, 1] #v[2, 0, 0, 0, 0, 1] (offered ⟨10, 0, 0, 7⟩)
        ((offerOf ⟨10, 0, 0, 7⟩ ⟨10, 0, 0, 1⟩).take 1024)
        (buildClient #v[0, 0, 0, 1] #v[2, 0, 0, 0, 0, 1] request (some ⟨10, 0, 0, 7⟩)
          (some ⟨10, 0, 0, 7⟩)) := by
  refine ⟨step_offerOf _ _, fun h => ?_⟩
  obtain ⟨id, hoffer, hrequest⟩ := h.server
  have hne : optionValue optServerid ((offerOf ⟨10, 0, 0, 7⟩ ⟨10, 0, 0, 1⟩).take 1024) ≠
      optionValue optServerid (buildClient #v[0, 0, 0, 1] #v[2, 0, 0, 0, 0, 1] request
        (some ⟨10, 0, 0, 7⟩) (some ⟨10, 0, 0, 7⟩)) := by
    decide +kernel
  exact hne (hoffer.trans hrequest.symm)

end Lwrt.Dhcp
