import Lwrt.Model.Wireguard
import Lwrt.Verification.Fw.Decoding
import Lwrt.Verification.Nl.Lengths
import Lwrt.Verification.Wg.Message

/-! # What the kernel decodes of a device

Tree by tree, the kernel's reading of what the applet writes. -/

namespace Lwrt.Wg

open Library Text Nl Nftables Wireguard

/-! ## Payloads -/

theorem u16_toLe16 (x : UInt16) : u16 (toLe16 x) = some x := by
  rw [u16, if_pos (length_toLe16 x), ofLeBytes_toLe16, UInt16.ofNat_toNat]

theorem u32_toLe32 (x : UInt32) : u32 (toLe32 x) = some x := by
  rw [u32, if_pos (length_toLe32 x), ofLeBytes_toLe32, UInt32.ofNat_toNat]

theorem sockaddr_sockaddrBytes (ep : Ipv4Addr × UInt16) : sockaddr (sockaddrBytes ep) = some ep := by
  have hport : ofBeBytes (toBe16 ep.2) = ep.2.toNat := by
    rw [ofBeBytes, toBe16, List.reverse_reverse, ofLeBytes_toLe16]
  have hbytes : extract (sockaddrBytes ep) 2 2 = toBe16 ep.2 := rfl
  have hcond : (sockaddrBytes ep).length = 16 ∧ ofLeBytes (extract (sockaddrBytes ep) 0 2) = 2 :=
    ⟨rfl, rfl⟩
  rw [sockaddr, if_pos hcond, hbytes, hport, UInt16.ofNat_toNat]
  rfl

theorem optional_map {α : Type} {decode : List UInt8 → Option α} {encode : α → List UInt8}
    (h : ∀ x, decode (encode x) = some x) (o : Option α) :
    optional decode (o.map encode) = some o := by
  cases o with
  | none => rfl
  | some x => exact congrArg (Option.map some) (h x)

/-! ## Attributes -/

/-- The walk over attributes with plain types. -/
theorem map_walked {as : List Attr} (h : ∀ a ∈ as, a.typ.toNat < 2 ^ 14) :
    as.map Attr.walked = as.map Attr.item :=
  List.map_congr_left fun a ha => by rw [Attr.walked, typ_and_mask (h a ha), Attr.item]

theorem forEachAttr_plain {as : List Attr} (hlen : (encodeAll as).length < 2 ^ 16)
    (htyp : ∀ a ∈ as, a.typ.toNat < 2 ^ 14) : forEachAttr (encodeAll as) = as.map Attr.item := by
  rw [forEachAttr_walked, map_walked htyp]
  intro a ha
  have := payload_le_encodeAll ha
  omega

/-! ## Allowed addresses -/

theorem length_allowedTree (idx : ℕ) (route : Ipv4Addr × UInt8) :
    (allowedTree idx route).payload.length = 24 := by
  simp [allowedTree, Attr.payload, encodeAll, length_tlv, align4, Ipv4Addr.octets]

theorem decodeAllowed_allowedTree (idx : ℕ) (route : Ipv4Addr × UInt8) :
    decodeAllowed (forEachAttr (allowedTree idx route).walked.2) = some route := by
  have hlen := length_allowedTree idx route
  rw [allowedTree, Attr.payload] at hlen
  rw [Attr.walked, allowedTree, Attr.payload, forEachAttr_plain (by omega)]
  · rfl
  · simp only [List.mem_cons, List.not_mem_nil, or_false, forall_eq_or_imp, forall_eq, Attr.typ]
    decide

theorem mapM_decodeAllowed (routes : List (ℕ × (Ipv4Addr × UInt8))) :
    (((routes.map fun route => allowedTree route.1 route.2).map Attr.walked).mapM fun item =>
      decodeAllowed (forEachAttr item.2)) = some (routes.map (·.2)) := by
  induction routes with
  | nil => rfl
  | cons route routes ih =>
      rw [List.map_cons, List.map_cons, List.mapM_cons, decodeAllowed_allowedTree, ih]
      rfl

theorem map_snd_routes (items : List Text) :
    (routes items).map (·.2) = items.filterMap routeOf := by
  rw [routes, List.map_filterMap]
  simp only [Option.map_map, Function.comp_def, Option.map_id']
  generalize 0 = idx
  induction items generalizing idx with
  | nil => rfl
  | cons item items ih =>
      rw [List.zipIdx_cons, List.filterMap_cons, List.filterMap_cons, ih]

/-! ## Peers -/

/-- The peer that is written for a section. -/
def peerAt (pubk : List UInt8) (sect : Std.TreeMap Text Text) : Peer where
  publicKey := pubk
  keepalive := keepaliveAt sect
  endpoint := endpointAt sect
  allowed := ((itemsAt sect).getD []).filterMap routeOf

def peerChildren (pubk : List UInt8) (sect : Std.TreeMap Text Text) : List Attr :=
  .leaf wgpeerAPublicKey pubk :: (((keepaliveAt sect).map keepaliveTree).toList ++
    (((endpointAt sect).map endpointTree).toList ++ ((itemsAt sect).map listTree).toList))

theorem peerTree_eq (idx : ℕ) (pubk : List UInt8) (sect : Std.TreeMap Text Text) :
    peerTree idx pubk sect = .nested (UInt16.ofNat idx) (peerChildren pubk sect) :=
  rfl

theorem typ_peerChildren (pubk : List UInt8) (sect : Std.TreeMap Text Text) :
    ∀ a ∈ peerChildren pubk sect, a.typ.toNat < 2 ^ 14 := by
  rw [peerChildren]
  cases keepaliveAt sect <;> cases endpointAt sect <;> cases itemsAt sect <;>
    simp [keepaliveTree, endpointTree, listTree, Attr.typ] <;> decide

theorem attr?_peerChildren (pubk : List UInt8) (sect : Std.TreeMap Text Text) :
    let attrs := (peerChildren pubk sect).map Attr.item
    attr? attrs 1 = some pubk ∧ attr? attrs 5 = (keepaliveAt sect).map toLe16 ∧
      attr? attrs 4 = (endpointAt sect).map sockaddrBytes ∧
      attr? attrs 9 = (itemsAt sect).map fun items => encodeAll (allowedTrees items) := by
  rw [peerChildren]
  cases keepaliveAt sect <;> cases endpointAt sect <;> cases itemsAt sect <;>
    exact ⟨rfl, rfl, rfl, rfl⟩

theorem forEachAttr_allowedTrees (items : List Text) :
    forEachAttr (encodeAll (allowedTrees items)) = (allowedTrees items).map Attr.walked := by
  apply forEachAttr_walked
  intro a ha
  obtain ⟨route, -, rfl⟩ := List.mem_map.mp ha
  rw [length_allowedTree]
  decide

theorem decodePeer_peerTree {idx : ℕ} {pubk : List UInt8} {sect : Std.TreeMap Text Text}
    (h : 4 + (peerTree idx pubk sect).payload.length < 2 ^ 16) :
    decodePeer (forEachAttr (peerTree idx pubk sect).walked.2) = some (peerAt pubk sect) := by
  rw [peerTree_eq, Attr.payload] at h
  obtain ⟨hkey, hkeepalive, hendpoint, hlist⟩ := attr?_peerChildren pubk sect
  have hallowed : (((nested? ((peerChildren pubk sect).map Attr.item) 9).getD []).mapM fun item =>
      decodeAllowed (forEachAttr item.2)) =
        some (((itemsAt sect).getD []).filterMap routeOf) := by
    rw [nested?, hlist]
    cases itemsAt sect with
    | none => rfl
    | some items =>
        rw [Option.map_some, Option.map_some, Option.getD_some, Option.getD_some,
          forEachAttr_allowedTrees, allowedTrees, mapM_decodeAllowed, map_snd_routes]
  rw [peerTree_eq, Attr.walked, Attr.payload, forEachAttr_plain (by omega) (typ_peerChildren pubk sect),
    decodePeer, hkey, hkeepalive, hendpoint, optional_map u16_toLe16,
    optional_map sockaddr_sockaddrBytes, hallowed]
  rfl

/-- Peers that fit are few enough for their numbers. -/
theorem decodePeers_peerTrees {peers : List (List UInt8 × Std.TreeMap Text Text)} {idx : ℕ}
    (h : (encodeAll (peerTrees idx peers)).length < 2 ^ 16 - 4 * idx) :
    decodePeers ((peerTrees idx peers).map Attr.walked) =
      some ((peers.zipIdx idx).map fun peer => (peer.2, peerAt peer.1.1 peer.1.2)) := by
  induction peers generalizing idx with
  | nil => rfl
  | cons peer peers ih =>
      have htrees : peerTrees idx (peer :: peers) =
          peerTree idx peer.1 peer.2 :: peerTrees (idx + 1) peers := rfl
      have hpad := le_align4 (4 + (peerTree idx peer.1 peer.2).payload.length)
      rw [htrees, encodeAll, List.length_append, length_tlv] at h
      have htyp : (peerTree idx peer.1 peer.2).walked.1.toNat = idx := by
        have hidx : (peerTree idx peer.1 peer.2).typ.toNat = idx :=
          UInt16.toNat_ofNat_of_lt' (show idx < 2 ^ 16 by omega)
        rw [Attr.walked, typ_and_mask (by omega), hidx]
      rw [htrees, decodePeers, List.map_cons, List.mapM_cons, decodePeer_peerTree (by omega), htyp,
        ← decodePeers, ih (by omega)]
      rfl

/-! ## The device -/

theorem length_encodeAll_le_mul {as : List Attr} (h : ∀ a ∈ as, 4 + a.payload.length < 2 ^ 16) :
    (encodeAll as).length ≤ 2 ^ 16 * as.length := by
  induction as with
  | nil => simp [encodeAll]
  | cons a as ih =>
      obtain ⟨ha, has⟩ := List.forall_mem_cons.mp h
      have hrest := ih has
      rw [encodeAll, List.length_append, length_tlv, List.length_cons, align4]
      omega

section Device

variable {family : UInt16} {ifname : Text} {privk : List UInt8} {port : UInt16} {cfg : Config}

theorem typ_deviceMsg :
    ∀ a ∈ (deviceMsg family ifname privk port cfg).attrs, a.typ.toNat < 2 ^ 14 := by
  rw [deviceMsg, deviceAttrs, peersAttr]
  split <;> simp [Attr.typ] <;> decide

theorem size_deviceMsg
    (h : ∀ a ∈ (deviceMsg family ifname privk port cfg).attrs, 4 + a.payload.length < 2 ^ 16) :
    (deviceMsg family ifname privk port cfg).size < 2 ^ 32 := by
  have hbody := length_encodeAll_le_mul h
  have hcount : (deviceMsg family ifname privk port cfg).attrs.length ≤ 5 := by
    rw [deviceMsg, deviceAttrs, peersAttr]
    split <;> simp
  have hheader : (deviceMsg family ifname privk port cfg).header.length = 4 := rfl
  rw [Msg.size, Msg.body, List.length_append, hheader]
  omega

variable (family ifname privk port cfg) in
theorem attr?_deviceMsg :
    let attrs := (deviceMsg family ifname privk port cfg).attrs.map Attr.item
    attr? attrs 2 = some (Utf8.encode ifname ++ [0]) ∧ attr? attrs 5 = some (toLe32 1) ∧
      attr? attrs 3 = some privk ∧ attr? attrs 6 = some (toLe16 port) ∧
      attr? attrs 8 =
        if peersOf cfg = [] then none else some (encodeAll (peerTrees 0 (peersOf cfg))) := by
  rw [deviceMsg, peersAttr]
  split
  · exact ⟨rfl, rfl, rfl, rfl, rfl⟩
  · exact ⟨rfl, rfl, rfl, rfl, rfl⟩

theorem decodePeers_deviceMsg
    (h : ∀ a ∈ (deviceMsg family ifname privk port cfg).attrs, 4 + a.payload.length < 2 ^ 16) :
    decodePeers
        ((nested? ((deviceMsg family ifname privk port cfg).attrs.map Attr.item) 8).getD []) =
      some ((peersOf cfg).zipIdx.map fun peer => (peer.2, peerAt peer.1.1 peer.1.2)) := by
  obtain ⟨-, -, -, -, hpeers⟩ := attr?_deviceMsg family ifname privk port cfg
  rw [nested?, hpeers]
  by_cases hnil : peersOf cfg = []
  · rw [if_pos hnil, hnil]
    rfl
  · have hlen := h (.nested wgdeviceAPeers (peerTrees 0 (peersOf cfg)))
      (by rw [deviceMsg, peersAttr, if_neg hnil]; simp)
    rw [Attr.payload] at hlen
    rw [if_neg hnil, Option.map_some, Option.getD_some, forEachAttr_walked,
      decodePeers_peerTrees (by omega)]
    intro a ha
    have := payload_le_encodeAll ha
    omega

theorem takeWhile_append_zero (s : List UInt8) :
    (s ++ [0]).takeWhile (· ≠ 0) = s.takeWhile (· ≠ 0) := by
  induction s with
  | nil => rfl
  | cons c s ih => rw [List.cons_append, List.takeWhile_cons, List.takeWhile_cons, ih]

/-- A message whose attributes fit is decoded to the device with all its peers. -/
theorem decodeDevice_setDevice
    (h : ∀ a ∈ (deviceMsg family ifname privk port cfg).attrs, 4 + a.payload.length < 2 ^ 16) :
    decodeDevice (setDevice family ifname privk port cfg) = some
      { ifname := (Utf8.encode ifname).takeWhile (· ≠ 0)
        flags := 1
        privateKey := privk
        listenPort := port
        peers := (peersOf cfg).zipIdx.map fun peer => (peer.2, peerAt peer.1.1 peer.1.2) } := by
  have hsplit : messages (setDevice family ifname privk port cfg) =
      some [(deviceMsg family ifname privk port cfg).encode] := by
    have haligned : ∀ m ∈ [deviceMsg family ifname privk port cfg], m.Aligned := by
      simp [deviceMsg_aligned]
    have hsplit := messages_flatMap haligned (by simpa using size_deviceMsg h)
    rwa [List.flatMap_singleton, ← setDevice_eq] at hsplit
  have hcmd : extract (deviceMsg family ifname privk port cfg).encode 16 2 = [1, 1] := by
    refine extract_middle (a := toLe32 (UInt32.ofNat (deviceMsg family ifname privk port cfg).size)
      ++ (deviceMsg family ifname privk port cfg).fields)
      (c := [0, 0] ++ encodeAll (deviceMsg family ifname privk port cfg).attrs) ?_ ?_ rfl
    · simp only [Msg.encode, Msg.body, List.append_assoc]
      rfl
    · rw [List.length_append, length_toLe32, length_fields]
  have hattrs : forEachAttr ((deviceMsg family ifname privk port cfg).encode.drop 20) =
      (deviceMsg family ifname privk port cfg).attrs.map Attr.item := by
    rw [← map_walked typ_deviceMsg, ← forEachAttr_walked h]
    exact congrArg forEachAttr (drop_header (deviceMsg family ifname privk port cfg))
  obtain ⟨hname, hflags, hkey, hport, -⟩ := attr?_deviceMsg family ifname privk port cfg
  rw [decodeDevice, hsplit]
  simp only [hcmd, if_true, hattrs, str?, hname, hflags, hkey, hport, decodePeers_deviceMsg h,
    Option.map_some, Option.bind_eq_bind, Option.bind_some, u16_toLe16, u32_toLe32,
    takeWhile_append_zero]
  rfl

end Device

end Lwrt.Wg
