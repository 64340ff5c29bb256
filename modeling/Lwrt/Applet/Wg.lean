import Lwrt.Applet.Config
import Lwrt.Applet.Nl
import Lwrt.Applet.Util
import Lwrt.Library.Ipv4

/-! The WireGuard applet: the message that hands keys, port and peers to the kernel. -/

namespace Lwrt.Wg

open Library Text Nl Util

/-! ## Constants -/

def netlinkRoute : ℕ := 0
def netlinkGeneric : ℕ := 16
def genlIdCtrl : UInt16 := 16

def rtmNewlink : UInt16 := 16
def iflaIfname : UInt16 := 3
def iflaLinkinfo : UInt16 := 18
def iflaInfoKind : UInt16 := 1

def ctrlCmdGetfamily : UInt8 := 3
def ctrlAttrFamilyId : UInt16 := 1
def ctrlAttrFamilyName : UInt16 := 2

def wgCmdSetDevice : UInt8 := 1
def wgdeviceAIfname : UInt16 := 2
def wgdeviceAPrivateKey : UInt16 := 3
def wgdeviceAFlags : UInt16 := 5
def wgdeviceAListenPort : UInt16 := 6
def wgdeviceAPeers : UInt16 := 8
def wgdeviceFReplacePeers : UInt32 := 1
def wgpeerAPublicKey : UInt16 := 1
def wgpeerAEndpoint : UInt16 := 4
def wgpeerAPersistentKeepaliveInterval : UInt16 := 5
def wgpeerAAllowedips : UInt16 := 9
def wgallowedipAFamily : UInt16 := 1
def wgallowedipAIpaddr : UInt16 := 2
def wgallowedipACidrMask : UInt16 := 3

def afInet : UInt16 := 2

/-! ## Values from text -/

def splitCidr (s : Text) : Text × Text :=
  (splitOnce '/' s).getD (s, "32".toList)

/-- `host:port` as the bytes of a `sockaddr_in`. -/
def sockaddrIn (ep : Text) : Option (List UInt8) := do
  let (host, port) ← rsplitOnce ':' ep
  let addr ← Ipv4Addr.ofText host
  let port ← (parseUnsigned (2 ^ 16) port).map UInt16.ofNat
  some (toLe16 afInet ++ toBe16 port ++ addr.octets ++ List.replicate 8 0)

/-- A mask that is no number, or none of a byte, becomes 32. -/
def parseMask (mask : Text) : UInt8 :=
  ((parseUnsigned (2 ^ 8) mask).map UInt8.ofNat).getD 32

/-! ## The message -/

def genlmsghdr (b : NlBuf) (cmd version : UInt8) : NlBuf :=
  b.bytes [cmd, version, 0, 0]

def allowedip (b : NlBuf) (idx : UInt16) (cidr : Text) : NlBuf :=
  match Ipv4Addr.ofText (splitCidr cidr).1 with
  | none => b
  | some addr =>
      let s := b.beginNested idx
      let b := s.1.attrU16Ne wgallowedipAFamily afInet
      let b := b.attr wgallowedipAIpaddr addr.octets
      let b := b.attr wgallowedipACidrMask [parseMask (splitCidr cidr).2]
      b.endNested s.2

/-- The buffer, the list of peers once it is open, and the index of the next peer. -/
structure PeerLoop where
  buf : NlBuf
  peersScope : Option Scope
  peerIdx : UInt16

/-- What a peer's section adds after its key. -/
def peerAttrs (b : NlBuf) (sect : Std.TreeMap Text Text) : NlBuf :=
  let b := match sect["keepalive".toList]?.bind (parseUnsigned (2 ^ 16)) with
    | some ka => b.attrU16Ne wgpeerAPersistentKeepaliveInterval (UInt16.ofNat ka)
    | none => b
  let b := match sect["endpoint".toList]?.bind sockaddrIn with
    | some sa => b.attr wgpeerAEndpoint sa
    | none => b
  match sect["allowed_ips".toList]? with
  | some aips =>
      let list := b.beginNested wgpeerAAllowedips
      ((aips.splitOn ',').zipIdx.foldl
        (fun b cidr => allowedip b (UInt16.ofNat cidr.2) (trim cidr.1)) list.1).endNested list.2
  | none => b

/-- A key is text that decodes to 32 bytes. -/
def key32 (s : Text) : Option (List UInt8) :=
  (b64Decode s).filter (·.length = 32)

/-- One turn of the loop over the sections. The index is a `u16`, and wraps. -/
def addPeer (st : PeerLoop) (name : Text) (sect : Std.TreeMap Text Text) : PeerLoop :=
  if !"peer".toList.isPrefixOf name then st
  else match sect["public_key".toList]?.bind key32 with
    | none => st
    | some pubk =>
        let opened := match st.peersScope with
          | some scope => (st.buf, scope)
          | none => st.buf.beginNested wgdeviceAPeers
        let peer := opened.1.beginNested st.peerIdx
        let b := peer.1.attr wgpeerAPublicKey pubk
        { buf := (peerAttrs b sect).endNested peer.2
          peersScope := some opened.2
          peerIdx := st.peerIdx + 1 }

/-- The bytes that `set_device` sends; `family` is what the kernel calls the WireGuard family. -/
def setDevice (family : UInt16) (ifname : Text) (privk : List UInt8) (port : UInt16)
    (cfg : Config) : NlBuf :=
  let m := NlBuf.beginMessage [] family (nlmFRequest ||| nlmFAck) 1
  let b := genlmsghdr m.1 wgCmdSetDevice 1
  let b := b.attrStr wgdeviceAIfname (Utf8.encode ifname)
  let b := b.attrU32Le wgdeviceAFlags wgdeviceFReplacePeers
  let b := b.attr wgdeviceAPrivateKey privk
  let b := b.attrU16Ne wgdeviceAListenPort port
  let st := cfg.sections.toList.foldl (fun st s => addPeer st s.1 s.2) ⟨b, none, 0⟩
  let b := match st.peersScope with
    | some scope => st.buf.endNested scope
    | none => st.buf
  b.endMessage m.2

/-- What `up` sends under a configuration, if it gets that far. -/
def up (family : UInt16) (cfg : Config) : Option NlBuf :=
  if cfg.getOr "wireguard".toList "enabled".toList "0".toList ≠ "1".toList then none
  else
    ((cfg.get "wireguard".toList "private_key".toList).bind key32).map fun privk =>
      let port := ((parseUnsigned (2 ^ 16) (cfg.getOr "wireguard".toList "listen_port".toList
        "51820".toList)).map UInt16.ofNat).getD 51820
      setDevice family "wg0".toList privk port cfg

/-! ## Talking to the kernel -/

/-- How the kernel answers a message: it cannot be sent, or something is received, or nothing. -/
inductive Answer where
  | unsent (errno : Int32)
  | sent (received : Except Int32 (List UInt8))

/-- The kernel behind a netlink socket of a protocol. -/
abbrev Kernel := ℕ → List UInt8 → Answer

/-- A message, by the protocol of its socket. -/
abbrev Sent := ℕ × List UInt8

/-- Send a message and receive the answer. -/
def exchange (kernel : Kernel) (protocol : ℕ) (message : List UInt8) :
    List Sent × Except Int32 (List UInt8) :=
  match kernel protocol message with
  | .unsent errno => ([], .error errno)
  | .sent received => ([(protocol, message)], received)

/-- What `ensure_link` sends: a link of the kind `wireguard`. -/
def newlink (ifname : Text) : NlBuf :=
  let m := NlBuf.beginMessage [] rtmNewlink (nlmFRequest ||| nlmFCreate ||| nlmFExcl ||| nlmFAck) 1
  let b := m.1.bytes (List.replicate 16 0)
  let b := b.attrStr iflaIfname (Utf8.encode ifname)
  let info := b.beginNested iflaLinkinfo
  let b := info.1.attrStr iflaInfoKind (Utf8.encode "wireguard".toList)
  (b.endNested info.2).endMessage m.2

/-- What `genl_family_id` sends. -/
def getfamily (name : Text) : NlBuf :=
  let m := NlBuf.beginMessage [] genlIdCtrl (nlmFRequest ||| nlmFAck) 1
  let b := genlmsghdr m.1 ctrlCmdGetfamily 1
  (b.attrStr ctrlAttrFamilyName (Utf8.encode name)).endMessage m.2

/-- An error of the system, or one of the applet. -/
inductive Error where
  | os (errno : Int32)
  | notFound (text : Text)

/-- The id in a reply, behind the two headers. The last attribute for it counts. -/
def familyIdIn (reply : List UInt8) : Except Error UInt16 :=
  if reply.length < 20 then .error (.notFound "wg: short genl reply".toList)
  else
    let id := (forEachAttr (reply.drop 20)).foldl (fun id a =>
      if a.1 = ctrlAttrFamilyId ∧ 2 ≤ a.2.length then UInt16.ofNat (ofLeBytes (a.2.take 2))
      else id) 0
    if id = 0 then .error (.notFound "wg: kernel module not loaded?".toList) else .ok id

def genlFamilyId (kernel : Kernel) (name : Text) : List Sent × Except Error UInt16 :=
  let asked := exchange kernel netlinkGeneric (getfamily name)
  (asked.1, (recvMsg asked.2).mapError .os >>= familyIdIn)

/-- `set_device`, with the family looked up first. -/
def sendDevice (kernel : Kernel) (ifname : Text) (privk : List UInt8) (port : UInt16)
    (cfg : Config) : List Sent × Except Error Unit :=
  let asked := genlFamilyId kernel "wireguard".toList
  match asked.2 with
  | .error e => (asked.1, .error e)
  | .ok family =>
      let set := exchange kernel netlinkGeneric (setDevice family ifname privk port cfg)
      (asked.1 ++ set.1, (recvAck set.2).mapError .os)

/-- The messages of the applet and its exit code. Whether the link is there already is not looked
at; what comes after the device is set changes the code no more. -/
def run (kernel : Kernel) (args : List Text) (cfg : Config) : List Sent × ℕ :=
  if args.head? = some "down".toList then ([], 0)
  else if cfg.getOr "wireguard".toList "enabled".toList "0".toList ≠ "1".toList then ([], 0)
  else
    let link := exchange kernel netlinkRoute (newlink "wg0".toList)
    match (cfg.get "wireguard".toList "private_key".toList).bind key32 with
    | none => (link.1, 1)
    | some privk =>
        let port := ((parseUnsigned (2 ^ 16) (cfg.getOr "wireguard".toList "listen_port".toList
          "51820".toList)).map UInt16.ofNat).getD 51820
        let device := sendDevice kernel "wg0".toList privk port cfg
        match device.2 with
        | .error _ => (link.1 ++ device.1, 1)
        | .ok () => (link.1 ++ device.1, 0)

end Lwrt.Wg
