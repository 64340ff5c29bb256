import Lwrt.Applet.Wg
import Lwrt.Verification.Nl.Messages

/-! # The message of the WireGuard applet

The calls of `set_device` as one message: the attributes of the device, and below them a list of
peers with their lists of allowed addresses. -/

namespace Lwrt.Wg

open Library Text Nl

/-! ## Values from text -/

/-- The address and the mask that are written for an entry. -/
def routeOf (cidr : Text) : Option (Ipv4Addr × UInt8) :=
  (Ipv4Addr.ofText (splitCidr cidr).1).map fun addr => (addr, parseMask (splitCidr cidr).2)

def endpointOf (ep : Text) : Option (Ipv4Addr × UInt16) := do
  let (host, port) ← rsplitOnce ':' ep
  let addr ← Ipv4Addr.ofText host
  let port ← (parseUnsigned (2 ^ 16) port).map UInt16.ofNat
  some (addr, port)

def sockaddrBytes (ep : Ipv4Addr × UInt16) : List UInt8 :=
  toLe16 afInet ++ toBe16 ep.2 ++ ep.1.octets ++ List.replicate 8 0

theorem sockaddrIn_eq (ep : Text) : sockaddrIn ep = (endpointOf ep).map sockaddrBytes := by
  rw [sockaddrIn, endpointOf]
  cases rsplitOnce ':' ep with
  | none => rfl
  | some parts =>
      cases haddr : Ipv4Addr.ofText parts.1 with
      | none => simp [haddr]
      | some addr => cases parseUnsigned (2 ^ 16) parts.2 <;> simp [haddr, sockaddrBytes]

section Section

variable (sect : Std.TreeMap Text Text)

def keepaliveAt : Option UInt16 :=
  (sect["keepalive".toList]?.bind (parseUnsigned (2 ^ 16))).map UInt16.ofNat

def endpointAt : Option (Ipv4Addr × UInt16) :=
  sect["endpoint".toList]?.bind endpointOf

/-- The comma-separated entries, if there is a list of them. -/
def itemsAt : Option (List Text) :=
  sect["allowed_ips".toList]?.map fun aips => (aips.splitOn ',').map trim

end Section

/-- The key of a section that is a peer. -/
def peerKey (s : Text × Std.TreeMap Text Text) : Option (List UInt8) :=
  if "peer".toList.isPrefixOf s.1 then s.2["public_key".toList]?.bind key32 else none

/-- The peers among the sections, with their keys. -/
def peersIn (sects : List (Text × Std.TreeMap Text Text)) :
    List (List UInt8 × Std.TreeMap Text Text) :=
  sects.filterMap fun s => (peerKey s).map (·, s.2)

theorem peersIn_cons_none {s : Text × Std.TreeMap Text Text} (h : peerKey s = none)
    (sects : List (Text × Std.TreeMap Text Text)) : peersIn (s :: sects) = peersIn sects :=
  List.filterMap_cons_none (by rw [h, Option.map_none])

theorem peersIn_cons_some {s : Text × Std.TreeMap Text Text} {pubk : List UInt8}
    (h : peerKey s = some pubk) (sects : List (Text × Std.TreeMap Text Text)) :
    peersIn (s :: sects) = (pubk, s.2) :: peersIn sects :=
  List.filterMap_cons_some (by rw [h, Option.map_some])

/-- The peers of a configuration, in the order of their sections. -/
def peersOf (cfg : Config) : List (List UInt8 × Std.TreeMap Text Text) :=
  peersIn cfg.sections.toList

/-! ## Trees -/

def allowedTree (idx : ℕ) (route : Ipv4Addr × UInt8) : Attr :=
  .nested (UInt16.ofNat idx) [.leaf wgallowedipAFamily (toLe16 afInet),
    .leaf wgallowedipAIpaddr route.1.octets, .leaf wgallowedipACidrMask [route.2]]

/-- The entries that are written, by their positions. -/
def routes (items : List Text) : List (ℕ × (Ipv4Addr × UInt8)) :=
  items.zipIdx.filterMap fun item => (routeOf item.1).map (item.2, ·)

def allowedTrees (items : List Text) : List Attr :=
  (routes items).map fun route => allowedTree route.1 route.2

def keepaliveTree (ka : UInt16) : Attr :=
  .leaf wgpeerAPersistentKeepaliveInterval (toLe16 ka)

def endpointTree (ep : Ipv4Addr × UInt16) : Attr :=
  .leaf wgpeerAEndpoint (sockaddrBytes ep)

def listTree (items : List Text) : Attr :=
  .nested wgpeerAAllowedips (allowedTrees items)

def peerTree (idx : ℕ) (pubk : List UInt8) (sect : Std.TreeMap Text Text) : Attr :=
  .nested (UInt16.ofNat idx) (.leaf wgpeerAPublicKey pubk ::
    (((keepaliveAt sect).map keepaliveTree).toList ++
      (((endpointAt sect).map endpointTree).toList ++ ((itemsAt sect).map listTree).toList)))

/-- The trees of peers that are numbered from `idx` on. -/
def peerTrees (idx : ℕ) (peers : List (List UInt8 × Std.TreeMap Text Text)) : List Attr :=
  (peers.zipIdx idx).map fun peer => peerTree peer.2 peer.1.1 peer.1.2

/-- The list of peers is only there when there is one. -/
def peersAttr (peers : List (List UInt8 × Std.TreeMap Text Text)) : List Attr :=
  if peers = [] then [] else [.nested wgdeviceAPeers (peerTrees 0 peers)]

def deviceAttrs (ifname : Text) (privk : List UInt8) (port : UInt16) : List Attr :=
  [.str wgdeviceAIfname (Utf8.encode ifname), .leaf wgdeviceAFlags (toLe32 wgdeviceFReplacePeers),
    .leaf wgdeviceAPrivateKey privk, .leaf wgdeviceAListenPort (toLe16 port)]

def deviceMsg (family : UInt16) (ifname : Text) (privk : List UInt8) (port : UInt16)
    (cfg : Config) : Msg :=
  ⟨family, nlmFRequest ||| nlmFAck, 1, [wgCmdSetDevice, 1, 0, 0],
    deviceAttrs ifname privk port ++ peersAttr (peersOf cfg)⟩

/-! ## The code writes the trees -/

theorem putAll_append (b : NlBuf) (as bs : List Attr) :
    putAll b (as ++ bs) = putAll (putAll b as) bs := by
  induction as generalizing b with
  | nil => rfl
  | cons a as ih => rw [List.cons_append, putAll, ih, putAll]

theorem allowedip_eq (b : NlBuf) (idx : ℕ) (cidr : Text) :
    allowedip b (UInt16.ofNat idx) cidr =
      putAll b ((routeOf cidr).map (allowedTree idx)).toList := by
  rw [allowedip, routeOf]
  cases Ipv4Addr.ofText (splitCidr cidr).1 with
  | none => rfl
  | some addr => rfl

theorem foldl_allowedip (b : NlBuf) (items : List Text) (idx : ℕ) :
    (items.zipIdx idx).foldl (fun b cidr => allowedip b (UInt16.ofNat cidr.2) cidr.1) b =
      putAll b (((items.zipIdx idx).filterMap fun item => (routeOf item.1).map (item.2, ·)).map
        fun route => allowedTree route.1 route.2) := by
  induction items generalizing b idx with
  | nil => rfl
  | cons item items ih =>
      rw [List.zipIdx_cons, List.foldl_cons, ih, allowedip_eq]
      cases hroute : routeOf item with
      | none => rw [List.filterMap_cons_none (by simp [hroute]), Option.map_none, Option.toList,
          putAll]
      | some route =>
          rw [List.filterMap_cons_some (b := (idx, route)) (by simp [hroute]), List.map_cons, putAll,
            Option.map_some, Option.toList_some, putAll, putAll]

theorem keepaliveTree_eq (b : NlBuf) (sect : Std.TreeMap Text Text) :
    (match sect["keepalive".toList]?.bind (parseUnsigned (2 ^ 16)) with
      | some ka => b.attrU16Ne wgpeerAPersistentKeepaliveInterval (UInt16.ofNat ka)
      | none => b) = putAll b ((keepaliveAt sect).map keepaliveTree).toList := by
  rw [keepaliveAt]
  cases sect["keepalive".toList]?.bind (parseUnsigned (2 ^ 16)) with
  | none => rfl
  | some ka => rfl

theorem endpointTree_eq (b : NlBuf) (sect : Std.TreeMap Text Text) :
    (match sect["endpoint".toList]?.bind sockaddrIn with
      | some sa => b.attr wgpeerAEndpoint sa
      | none => b) = putAll b ((endpointAt sect).map endpointTree).toList := by
  have hsockaddr : sect["endpoint".toList]?.bind sockaddrIn =
      (endpointAt sect).map sockaddrBytes := by
    rw [endpointAt, Option.map_bind]
    exact congrArg _ (funext sockaddrIn_eq)
  rw [hsockaddr]
  cases endpointAt sect with
  | none => rfl
  | some ep => rfl

theorem listTree_eq (b : NlBuf) (sect : Std.TreeMap Text Text) :
    (match sect["allowed_ips".toList]? with
      | some aips =>
          let list := b.beginNested wgpeerAAllowedips
          ((aips.splitOn ',').zipIdx.foldl
            (fun b cidr => allowedip b (UInt16.ofNat cidr.2) (trim cidr.1)) list.1).endNested list.2
      | none => b) = putAll b ((itemsAt sect).map listTree).toList := by
  rw [itemsAt]
  cases sect["allowed_ips".toList]? with
  | none => rfl
  | some aips =>
      have hfold := foldl_allowedip (b.beginNested wgpeerAAllowedips).1
        ((aips.splitOn ',').map trim) 0
      rw [List.zipIdx_map, List.foldl_map] at hfold
      simp only [Option.map_some, Option.toList_some, putAll, put, listTree, allowedTrees,
        routes, List.zipIdx_map, ← hfold]
      rfl

theorem peerAttrs_eq (b : NlBuf) (sect : Std.TreeMap Text Text) :
    peerAttrs b sect = putAll b (((keepaliveAt sect).map keepaliveTree).toList ++
      (((endpointAt sect).map endpointTree).toList ++ ((itemsAt sect).map listTree).toList)) := by
  rw [putAll_append, putAll_append, ← keepaliveTree_eq, ← endpointTree_eq, ← listTree_eq]
  rfl

theorem addPeer_of_none {s : Text × Std.TreeMap Text Text} (h : peerKey s = none)
    (st : PeerLoop) : addPeer st s.1 s.2 = st := by
  rw [peerKey] at h
  rw [addPeer]
  cases hname : "peer".toList.isPrefixOf s.1 with
  | false => rfl
  | true =>
      rw [hname, if_pos rfl] at h
      rw [h]
      rfl

/-- What a peer adds: the first one opens the list. -/
theorem addPeer_of_some {s : Text × Std.TreeMap Text Text} {pubk : List UInt8}
    (h : peerKey s = some pubk) (st : PeerLoop) :
    addPeer st s.1 s.2 =
      let opened := match st.peersScope with
        | some scope => (st.buf, scope)
        | none => st.buf.beginNested wgdeviceAPeers
      let peer := opened.1.beginNested st.peerIdx
      ⟨(peerAttrs (peer.1.attr wgpeerAPublicKey pubk) s.2).endNested peer.2, some opened.2,
        st.peerIdx + 1⟩ := by
  rw [peerKey] at h
  rw [addPeer]
  cases hname : "peer".toList.isPrefixOf s.1 with
  | false => simp only [hname, Bool.false_eq_true, if_false, reduceCtorEq] at h
  | true =>
      rw [hname, if_pos rfl] at h
      rw [h]
      rfl

/-- A peer is appended to the list that its state has open. -/
theorem addPeer_open {s : Text × Std.TreeMap Text Text} {pubk : List UInt8}
    (h : peerKey s = some pubk) (b : NlBuf) (scope : Scope) (idx : ℕ) :
    addPeer ⟨b, some scope, UInt16.ofNat idx⟩ s.1 s.2 =
      ⟨put b (peerTree idx pubk s.2), some scope, UInt16.ofNat (idx + 1)⟩ := by
  simp only [addPeer_of_some h, peerTree, put, putAll, peerAttrs_eq, UInt16.ofNat_add]
  rfl

theorem foldl_addPeer (b : NlBuf) (scope : Scope) (idx : ℕ)
    (sects : List (Text × Std.TreeMap Text Text)) :
    ∃ next, sects.foldl (fun st s => addPeer st s.1 s.2) ⟨b, some scope, UInt16.ofNat idx⟩ =
      ⟨putAll b (peerTrees idx (peersIn sects)), some scope, next⟩ := by
  induction sects generalizing b idx with
  | nil => exact ⟨_, rfl⟩
  | cons s sects ih =>
      cases hkey : peerKey s with
      | none =>
          rw [List.foldl_cons, addPeer_of_none hkey, peersIn_cons_none hkey]
          exact ih b idx
      | some pubk =>
          rw [List.foldl_cons, addPeer_open hkey, peersIn_cons_some hkey]
          exact ih (put b (peerTree idx pubk s.2)) (idx + 1)

def closePeers (st : PeerLoop) : NlBuf :=
  match st.peersScope with
  | some scope => st.buf.endNested scope
  | none => st.buf

theorem closePeers_foldl (b : NlBuf) (sects : List (Text × Std.TreeMap Text Text)) :
    closePeers (sects.foldl (fun st s => addPeer st s.1 s.2) ⟨b, none, 0⟩) =
      putAll b (peersAttr (peersIn sects)) := by
  induction sects with
  | nil => rfl
  | cons s sects ih =>
      cases hkey : peerKey s with
      | none => rw [List.foldl_cons, addPeer_of_none hkey, peersIn_cons_none hkey, ih]
      | some pubk =>
          -- the loop goes on as if the list had been open from the start
          obtain ⟨next, hfold⟩ := foldl_addPeer (b.beginNested wgdeviceAPeers).1
            (b.beginNested wgdeviceAPeers).2 0 (s :: sects)
          have hopen : addPeer ⟨b, none, 0⟩ s.1 s.2 =
              addPeer ⟨(b.beginNested wgdeviceAPeers).1,
                some (b.beginNested wgdeviceAPeers).2, UInt16.ofNat 0⟩ s.1 s.2 := by
            rw [addPeer_of_some hkey, addPeer_of_some hkey]
            rfl
          rw [List.foldl_cons, hopen, ← List.foldl_cons, hfold, closePeers, peersAttr,
            peersIn_cons_some hkey, if_neg (List.cons_ne_nil _ _), putAll, put, putAll]

theorem deviceMsg_aligned (family : UInt16) (ifname : Text) (privk : List UInt8) (port : UInt16)
    (cfg : Config) : (deviceMsg family ifname privk port cfg).Aligned := by
  simp [Msg.Aligned, deviceMsg]

/-- The buffer that is sent is one message with the trees of the device and its peers. -/
theorem setDevice_eq (family : UInt16) (ifname : Text) (privk : List UInt8) (port : UInt16)
    (cfg : Config) :
    setDevice family ifname privk port cfg = (deviceMsg family ifname privk port cfg).encode := by
  have hput := putMsg_eq (b := []) rfl (deviceMsg_aligned family ifname privk port cfg)
  rw [List.nil_append] at hput
  rw [← hput, putMsg, deviceMsg, putAll_append, peersOf, ← closePeers_foldl]
  rfl

end Lwrt.Wg
