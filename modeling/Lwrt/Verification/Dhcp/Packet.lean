import Lwrt.Applet.Dhcp

/-! # What the packet readers make of the packets the applet builds -/

namespace Lwrt.Dhcp

open Library

/-! ## Headers -/

/-- A 240-byte header with the fields both readers look at. -/
structure IsHeader (b : List UInt8) (op : UInt8) (xid : Xid) (chaddr : Mac) (yiaddr : Ipv4Addr) :
    Prop where
  length_eq : b.length = 240
  op_eq : b[0]? = some op
  xid_eq : extract b 4 4 = xid.toList
  chaddr_eq : extract b 28 6 = chaddr.toList
  yiaddr_eq : extract b 16 4 = yiaddr.octets
  magic_eq : extract b 236 4 = magic

theorem ipv4_octets (ip : Ipv4Addr) : ipv4 ip.octets = some ip := rfl

theorem length_octets (ip : Ipv4Addr) : ip.octets.length = 4 := rfl

/-- A header followed by options is read field by field. -/
theorem IsHeader.parse_eq {b opts : List UInt8} {op : UInt8} {xid : Xid} {chaddr : Mac}
    {yiaddr : Ipv4Addr} (h : IsHeader b op xid chaddr yiaddr) :
    parse (b ++ opts) = some ((optionsFrom opts.length opts).foldl Packet.readOption
      { op, xid, chaddr, yiaddr, msgType := 0, reqIp := none, hostname := none }) := by
  have hlen := h.length_eq
  have hopts : options (b ++ opts) = optionsFrom opts.length opts := by
    rw [options, ← hlen, List.drop_left]
  have hmagic : extract (b ++ opts) 236 4 = magic := by
    rw [extract_append_left (by omega), h.magic_eq]
  have hop : (b ++ opts)[0]? = some op := by
    rw [List.getElem?_append_left (by omega), h.op_eq]
  have hxid : slice? 4 (b ++ opts) 4 = some xid := by
    apply slice?_eq_some
    rw [extract_append_left (by omega), h.xid_eq]
  have hchaddr : slice? 6 (b ++ opts) 28 = some chaddr := by
    apply slice?_eq_some
    rw [extract_append_left (by omega), h.chaddr_eq]
  have hyiaddr : ipv4 (extract (b ++ opts) 16 4) = some yiaddr := by
    rw [extract_append_left (by omega), h.yiaddr_eq, ipv4_octets]
  rw [parse, if_neg]
  · simp only [hop, hxid, hchaddr, hyiaddr, hopts, Option.bind_eq_bind, Option.bind_some]
  · simp only [hmagic, List.length_append, hlen]
    simp

/-- The packet before its options are read. -/
structure StartsWith (buf : List UInt8) (p : Packet) : Prop where
  op_eq : buf[0]? = some p.op
  xid_eq : extract buf 4 4 = p.xid.toList
  msgType_eq : p.msgType = 0

/-- A header with the magic cookie is all that `parse` asks for. -/
theorem exists_parse {buf : List UInt8} (hlen : 240 ≤ buf.length)
    (hmagic : extract buf 236 4 = magic) :
    ∃ p, StartsWith buf p ∧ parse buf = some ((options buf).foldl Packet.readOption p) := by
  have hpos : 0 < buf.length := by omega
  have hop : buf[0]? = some buf[0] := List.getElem?_eq_getElem hpos
  obtain ⟨x, hx, hxid⟩ : ∃ x, slice? 4 buf 4 = some x ∧ _ := slice?_of_le (by omega)
  obtain ⟨m, hm, -⟩ : ∃ m, slice? 6 buf 28 = some m ∧ _ := slice?_of_le (by omega)
  have hy : ∃ y, ipv4 (extract buf 16 4) = some y := by
    have hfour : (extract buf 16 4).length = 4 := length_extract (by omega)
    match extract buf 16 4, hfour with
    | [a, b, c, d], _ => exact ⟨_, rfl⟩
  obtain ⟨y, hy⟩ := hy
  have hhead : ¬ (buf.length < 240 ∨ extract buf 236 4 ≠ magic) := by
    rw [not_or, not_not]
    exact ⟨Nat.not_lt.mpr hlen, hmagic⟩
  refine ⟨⟨buf[0], x, m, y, 0, none, none⟩, ⟨hop, hxid, rfl⟩, ?_⟩
  rw [parse, if_neg hhead]
  simp only [hop, hx, hm, hy, Option.bind_eq_bind, Option.bind_some]

/-! ## Built packets

The fixed fields are copied over a zeroed buffer at disjoint places, so each reads back. -/

/-- The buffer that the fields are copied over. -/
theorem exists_blank (op : UInt8) :
    ∃ b, (((List.replicate 240 (0 : UInt8)).set 0 op).set 1 1).set 2 6 = b ∧ b.length = 240 ∧
      b[0]? = some op ∧ extract b 16 4 = Ipv4Addr.unspecified.octets := by
  refine ⟨_, rfl, ?_, rfl, rfl⟩
  rw [List.length_set, List.length_set, List.length_set, List.length_replicate]

theorem replyHeader_isHeader (req : Packet) (yiaddr server : Ipv4Addr) :
    IsHeader (replyHeader req yiaddr server) opReply req.xid req.chaddr yiaddr := by
  have hx : req.xid.toList.length = 4 := by simp
  have hm : req.chaddr.toList.length = 6 := by simp
  have hg : magic.length = 4 := rfl
  have hy := length_octets yiaddr
  have hs := length_octets server
  obtain ⟨b₀, hb₀, h₀, hop, -⟩ := exists_blank opReply
  unfold replyHeader
  simp only [hb₀]
  have h₁ := length_copyAt 4 req.xid.toList h₀ (by omega)
  have h₂ := length_copyAt 16 yiaddr.octets h₁ (by omega)
  have h₃ := length_copyAt 20 server.octets h₂ (by omega)
  have h₄ := length_copyAt 28 req.chaddr.toList h₃ (by omega)
  refine ⟨length_copyAt 236 magic h₄ (by omega), ?_, ?_, ?_, ?_, ?_⟩
  · rw [getElem?_copyAt (by omega), if_neg (by omega), getElem?_copyAt (by omega),
      if_neg (by omega), getElem?_copyAt (by omega), if_neg (by omega),
      getElem?_copyAt (by omega), if_neg (by omega), getElem?_copyAt (by omega),
      if_neg (by omega), hop]
  · rw [extract_copyAt_of_disjoint (by omega) (by omega),
      extract_copyAt_of_disjoint (by omega) (by omega),
      extract_copyAt_of_disjoint (by omega) (by omega),
      extract_copyAt_of_disjoint (by omega) (by omega), extract_copyAt_self hx (by omega)]
  · rw [extract_copyAt_of_disjoint (by omega) (by omega), extract_copyAt_self hm (by omega)]
  · rw [extract_copyAt_of_disjoint (by omega) (by omega),
      extract_copyAt_of_disjoint (by omega) (by omega),
      extract_copyAt_of_disjoint (by omega) (by omega), extract_copyAt_self hy (by omega)]
  · exact extract_copyAt_self hg (by omega)

theorem parse_buildReply (req : Packet) (msgType : UInt8) (yiaddr server mask dns : Ipv4Addr)
    (lease : UInt32) :
    parse (buildReply req msgType yiaddr server mask dns lease) =
      some { op := opReply, xid := req.xid, chaddr := req.chaddr, yiaddr, msgType,
             reqIp := none, hostname := none } := by
  simp only [buildReply, pushOption, List.append_assoc]
  rw [(replyHeader_isHeader req yiaddr server).parse_eq]
  simp [optionsFrom, leaseBytes, Ipv4Addr.octets, optMsgtype, optServerid, optLease, optSubnet,
    optRouter, optDns, optEnd, Packet.readOption, optReqip, optHostname]

theorem length_buildReply (req : Packet) (msgType : UInt8) (yiaddr server mask dns : Ipv4Addr)
    (lease : UInt32) :
    (buildReply req msgType yiaddr server mask dns lease).length = 274 := by
  simp [buildReply, pushOption, (replyHeader_isHeader req yiaddr server).length_eq, leaseBytes,
    length_octets]

/-- The header of a client packet carries the client's identity. -/
theorem buildClient_eq (xid : Xid) (mac : Mac) (msgType : UInt8)
    (reqIp server : Option Ipv4Addr) :
    ∃ b, IsHeader b opRequest xid mac Ipv4Addr.unspecified ∧
      buildClient xid mac msgType reqIp server =
        b ++ ([optMsgtype, 1, msgType] ++ ((reqIp.elim [] fun ip => [optReqip, 4] ++ ip.octets) ++
          ((server.elim [] fun ip => [optServerid, 4] ++ ip.octets) ++
            [55, 3, optSubnet, optRouter, optDns, optEnd]))) := by
  have hx : xid.toList.length = 4 := by simp
  have hm : mac.toList.length = 6 := by simp
  have hg : magic.length = 4 := rfl
  obtain ⟨b₀, hb₀, h₀, hop, hy⟩ := exists_blank opRequest
  have h₁ := length_copyAt 4 xid.toList h₀ (by omega)
  have h₂ := length_copyAt 10 [0x80] h₁ (by decide)
  have h₃ := length_copyAt 28 mac.toList h₂ (by omega)
  have hone : ([0x80] : List UInt8).length = 1 := rfl
  refine ⟨copyAt (copyAt (copyAt (copyAt b₀ 4 xid.toList) 10 [0x80]) 28 mac.toList) 236 magic,
    ⟨length_copyAt 236 magic h₃ (by omega), ?_, ?_, ?_, ?_, ?_⟩, ?_⟩
  · rw [getElem?_copyAt (by omega), if_neg (by omega), getElem?_copyAt (by omega),
      if_neg (by omega), getElem?_copyAt (by omega), if_neg (by omega),
      getElem?_copyAt (by omega), if_neg (by omega), hop]
  · rw [extract_copyAt_of_disjoint (by omega) (by omega),
      extract_copyAt_of_disjoint (by omega) (by omega),
      extract_copyAt_of_disjoint (by omega) (by omega), extract_copyAt_self hx (by omega)]
  · rw [extract_copyAt_of_disjoint (by omega) (by omega), extract_copyAt_self hm (by omega)]
  · rw [extract_copyAt_of_disjoint (by omega) (by omega),
      extract_copyAt_of_disjoint (by omega) (by omega),
      extract_copyAt_of_disjoint (by omega) (by omega),
      extract_copyAt_of_disjoint (by omega) (by omega), hy]
  · exact extract_copyAt_self hg (by omega)
  · simp only [buildClient, hb₀]
    rw [set_eq_copyAt (by omega)]
    cases reqIp <;> cases server <;> simp

/-- The request the server reads from a client's own packet. -/
def clientRequest (xid : Xid) (mac : Mac) (msgType : UInt8) (reqIp : Option Ipv4Addr) : Packet :=
  { op := opRequest, xid, chaddr := mac, yiaddr := Ipv4Addr.unspecified, msgType, reqIp,
    hostname := none }

/-- The transaction id of a numbered client. -/
def nthXid (n : UInt8) : Xid :=
  #v[0, 0, 0, n]

/-- The hardware address of a numbered client. -/
def nthMac (n : UInt8) : Mac :=
  #v[2, 0, 0, 0, 0, n]

theorem parse_buildClient (xid : Xid) (mac : Mac) (msgType : UInt8)
    (reqIp server : Option Ipv4Addr) :
    parse (buildClient xid mac msgType reqIp server) =
      some (clientRequest xid mac msgType reqIp) := by
  obtain ⟨b, hb, heq⟩ := buildClient_eq xid mac msgType reqIp server
  rw [heq, hb.parse_eq]
  cases reqIp <;> cases server <;>
    simp [optionsFrom, Ipv4Addr.octets, ipv4, optMsgtype, optServerid, optSubnet, optRouter, optDns,
      optEnd, Packet.readOption, optReqip, optHostname, clientRequest]

theorem length_buildClient_le (xid : Xid) (mac : Mac) (msgType : UInt8)
    (reqIp server : Option Ipv4Addr) :
    (buildClient xid mac msgType reqIp server).length ≤ 1024 := by
  obtain ⟨b, hb, heq⟩ := buildClient_eq xid mac msgType reqIp server
  rw [heq]
  cases reqIp <;> cases server <;> simp [hb.length_eq, length_octets]

/-- The server takes every client packet for a request of that client. -/
theorem Server.accept_buildClient (xid : Xid) (mac : Mac) (msgType : UInt8)
    (reqIp server : Option Ipv4Addr) :
    Server.accept (buildClient xid mac msgType reqIp server) =
      some (clientRequest xid mac msgType reqIp) := by
  rw [accept, List.take_of_length_le (length_buildClient_le xid mac msgType reqIp server),
    parse_buildClient]
  rfl

end Lwrt.Dhcp
