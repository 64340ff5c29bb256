import Lwrt.Verification.Fw.Draining
import Lwrt.Verification.Wg.Peers

/-! # The exchange with the kernel

A kernel with generic netlink, in which the WireGuard module is registered under an id of the
kernel's choice or missing, and the device that a run of the applet sets in it. -/

namespace Lwrt.Wg

open Library Text Nl Nftables Wireguard

/-! ## The kernel -/

/-- A registered WireGuard module: its id, the other attributes that the controller tells of it,
and the error that setting a device gives, 0 for none. -/
structure WgModule where
  id : UInt16
  others : List Attr
  set : Device → Int32
  id_gt : genlIdCtrl.toNat < id.toNat
  others_fit : FitAll others
  others_typ : ∀ a ∈ others, a.typ ≠ ctrlAttrFamilyId
  others_length : (encodeAll others).length ≤ 8000

/-- The controller has an id of its own. -/
theorem WgModule.id_ne (m : WgModule) : m.id ≠ genlIdCtrl :=
  fun h => absurd m.id_gt (h ▸ Nat.lt_irrefl _)

def enoent : Int32 := -2
def einval : Int32 := -22

def msgType (request : List UInt8) : UInt16 :=
  UInt16.ofNat (ofLeBytes (extract request 4 2))

/-- An error, or 0 for none, and the request it is about. -/
def acknowledge (error : Int32) (request : List UInt8) : List UInt8 :=
  toLe32 (UInt32.ofNat (20 + request.length)) ++ (toLe16 nlmsgError ++ toLe16 0 ++ toLe32 1 ++
    toLe32 0) ++ (toLe32 error.toUInt32 ++ request)

/-- What the controller tells of a module. -/
def newfamily (m : WgModule) : Msg :=
  ⟨genlIdCtrl, 0, 1, [1, 2, 0, 0], .str ctrlAttrFamilyName (Utf8.encode "wireguard".toList) ::
    .leaf ctrlAttrFamilyId (toLe16 m.id) :: m.others⟩

/-- Look up a family by the name in the request. -/
def controller (module? : Option WgModule) (request : List UInt8) : List UInt8 :=
  let named := decide (extract request 16 1 = [ctrlCmdGetfamily] ∧
    str? (forEachAttr (request.drop 20)) ctrlAttrFamilyName =
      some (Utf8.encode "wireguard".toList))
  ((module?.filter fun _ => named).map fun m => (newfamily m).encode).getD
    (acknowledge enoent request)

/-- A module answers the messages to its id. -/
def WgModule.handle (m : WgModule) (request : List UInt8) : List UInt8 :=
  acknowledge (((decodeDevice request).map m.set).getD einval) request

/-- Links are left to any kernel. -/
def kernel (link : List UInt8 → Answer) (module? : Option WgModule) : Kernel :=
  fun protocol request =>
    if protocol ≠ netlinkGeneric then link request
    else if msgType request = genlIdCtrl then .sent (.ok (controller module? request))
    else .sent (.ok (((module?.filter fun m => m.id = msgType request).map
      fun m => m.handle request).getD (acknowledge enoent request)))

/-- Name and kind of the link that a message asks for. -/
def linkIn (request : List UInt8) : Option (List UInt8 × List UInt8) := do
  let attrs := forEachAttr (request.drop 32)
  let ifname ← str? attrs iflaIfname
  let info ← nested? attrs iflaLinkinfo
  let kind ← str? info iflaInfoKind
  return (ifname, kind)

/-- What reaches a module, as it reads it. -/
def delivered (m : WgModule) (sent : List Sent) : List (Option Device) :=
  (sent.filter fun s => s.1 = netlinkGeneric ∧ msgType s.2 = m.id).map fun s => decodeDevice s.2

/-! ## What a run is for -/

/-- Nothing is asked for. -/
def Idle (args : List Text) (cfg : Config) : Prop :=
  args.head? = some "down".toList ∨
    cfg.getOr "wireguard".toList "enabled".toList "0".toList ≠ "1".toList

def deviceOf (cfg : Config) (ps : List Peer) (privk : List UInt8) : Device where
  ifname := Utf8.encode "wg0".toList
  flags := 1
  privateKey := privk
  listenPort := listenPort cfg
  peers := ps.zipIdx.map Prod.swap

/-- The device with these peers that a run is to set, if there is one. -/
def target (args : List Text) (cfg : Config) (ps : List Peer) : Option Device :=
  if args.head? = some "down".toList then none else (privateKey cfg).map (deviceOf cfg ps)

/-- A run sets just its target in the module that is registered, and says so. -/
structure Configured (module? : Option WgModule) (args : List Text) (cfg : Config)
    (ps : List Peer) (done : List Sent × ℕ) : Prop where
  links : ∀ s ∈ done.1, s.1 ≠ netlinkGeneric → s.1 = netlinkRoute ∧
    linkIn s.2 = some (Utf8.encode "wg0".toList, Utf8.encode "wireguard".toList)
  registered : ∀ s ∈ done.1, s.1 = netlinkGeneric → msgType s.2 = genlIdCtrl ∨
    ∃ m ∈ module?, msgType s.2 = m.id
  devices : ∀ m ∈ module?, delivered m done.1 = ((target args cfg ps).map some).toList
  exit_code : done.2 = 0 ↔ Idle args cfg ∨
    ∃ m ∈ module?, ∃ device ∈ target args cfg ps, m.set device = 0

/-! ## Requests and answers -/

theorem msgType_encode (m : Msg) : msgType m.encode = m.msgType := by
  rw [msgType, extract_msgType, ofLeBytes_toLe16, UInt16.ofNat_toNat]

def getfamilyMsg (name : Text) : Msg :=
  ⟨genlIdCtrl, nlmFRequest ||| nlmFAck, 1, [ctrlCmdGetfamily, 1, 0, 0],
    [.str ctrlAttrFamilyName (Utf8.encode name)]⟩

theorem getfamilyMsg_aligned (name : Text) : (getfamilyMsg name).Aligned := by
  simp [Msg.Aligned, getfamilyMsg]

theorem getfamily_eq (name : Text) : getfamily name = (getfamilyMsg name).encode := by
  have hput := putMsg_eq (b := []) rfl (getfamilyMsg_aligned name)
  rw [List.nil_append] at hput
  rw [← hput]
  rfl

theorem msgType_getfamily (name : Text) : msgType (getfamily name) = genlIdCtrl := by
  rw [getfamily_eq, msgType_encode, getfamilyMsg]

theorem msgType_setDevice (family : UInt16) (ifname : Text) (privk : List UInt8) (port : UInt16)
    (cfg : Config) : msgType (setDevice family ifname privk port cfg) = family := by
  rw [setDevice_eq, msgType_encode, deviceMsg]

def newlinkMsg (ifname : Text) : Msg :=
  ⟨rtmNewlink, nlmFRequest ||| nlmFCreate ||| nlmFExcl ||| nlmFAck, 1, List.replicate 16 0,
    [.str iflaIfname (Utf8.encode ifname),
      .nested iflaLinkinfo [.str iflaInfoKind (Utf8.encode "wireguard".toList)]]⟩

theorem newlinkMsg_aligned (ifname : Text) : (newlinkMsg ifname).Aligned := by
  simp [Msg.Aligned, newlinkMsg]

theorem newlink_eq (ifname : Text) : newlink ifname = (newlinkMsg ifname).encode := by
  have hput := putMsg_eq (b := []) rfl (newlinkMsg_aligned ifname)
  rw [List.nil_append] at hput
  rw [← hput]
  rfl

theorem linkIn_newlink :
    linkIn (newlink "wg0".toList) =
      some (Utf8.encode "wg0".toList, Utf8.encode "wireguard".toList) := by
  have hfit : FitAll (newlinkMsg "wg0".toList).attrs :=
    fitAll_of_weights _ (by decide) (by decide)
  have hinfo : FitAll [Attr.str iflaInfoKind (Utf8.encode "wireguard".toList)] :=
    fitAll_of_weights _ (by decide) (by decide)
  have hdrop : (newlinkMsg "wg0".toList).encode.drop 32 =
      encodeAll (newlinkMsg "wg0".toList).attrs := drop_header (newlinkMsg "wg0".toList)
  have hnested : nested? ((newlinkMsg "wg0".toList).attrs.map Attr.item) iflaLinkinfo =
      some ([Attr.str iflaInfoKind (Utf8.encode "wireguard".toList)].map Attr.item) :=
    congrArg some (forEachAttr_encodeAll hinfo)
  rw [newlink_eq, linkIn, hdrop, forEachAttr_encodeAll hfit, hnested]
  rfl

theorem length_acknowledge (error : Int32) (request : List UInt8) :
    (acknowledge error request).length = 20 + request.length := by
  simp only [acknowledge, List.length_append, length_toLe32, length_toLe16]
  omega

theorem recvAck_acknowledge (error : Int32) (request : List UInt8) :
    recvAck (.ok (acknowledge error request)) = if error = 0 then .ok () else .error (-error) :=
  Fw.recvAck_datagram
    { datagram := acknowledge error request
      error := error
      length_le := by rw [length_acknowledge]; omega
      type_eq := rfl
      error_eq := rfl }

/-! ## The lookup -/

theorem WgModule.id_ne_zero (m : WgModule) : m.id ≠ 0 := by
  intro h
  have hgt := m.id_gt
  rw [h] at hgt
  exact absurd hgt (by decide)

theorem length_newfamily (m : WgModule) :
    (newfamily m).encode.length = 44 + (encodeAll m.others).length := by
  have hname : (Utf8.encode "wireguard".toList).length = 9 := by decide
  simp only [length_encode, Msg.size, Msg.body, newfamily, encodeAll, List.length_append,
    length_tlv, Attr.payload, hname, length_toLe16, List.length_cons, List.length_nil, align4]
  omega

theorem forEachAttr_newfamily (m : WgModule) :
    forEachAttr ((newfamily m).encode.drop 20) =
      (ctrlAttrFamilyName, Utf8.encode "wireguard".toList ++ [0]) ::
        (ctrlAttrFamilyId, toLe16 m.id) :: m.others.map Attr.item := by
  have hfit : FitAll (newfamily m).attrs :=
    ⟨⟨by decide, by decide⟩, ⟨by decide, by rw [length_toLe16]; decide⟩, m.others_fit⟩
  have hdrop : (newfamily m).encode.drop 20 = encodeAll (newfamily m).attrs :=
    drop_header (newfamily m)
  rw [hdrop, forEachAttr_encodeAll hfit]
  rfl

/-- The attributes behind the id leave it as it is. -/
theorem foldl_others (m : WgModule) (id : UInt16) :
    (m.others.map Attr.item).foldl (fun id a =>
      if a.1 = ctrlAttrFamilyId ∧ 2 ≤ a.2.length then UInt16.ofNat (ofLeBytes (a.2.take 2))
      else id) id = id := by
  rw [List.foldl_map]
  exact (List.foldl_ext _ (fun id _ => id) id fun _ a ha =>
    if_neg fun h => m.others_typ a ha h.1).trans (List.foldl_fixed m.others)

theorem familyIdIn_newfamily (m : WgModule) :
    familyIdIn ((newfamily m).encode.take 8192) = .ok m.id := by
  have hlen := length_newfamily m
  have hothers := m.others_length
  have hname : ¬ (ctrlAttrFamilyName = ctrlAttrFamilyId ∧
      2 ≤ (Utf8.encode "wireguard".toList ++ [0]).length) := fun h => absurd h.1 (by decide)
  have hfound : ctrlAttrFamilyId = ctrlAttrFamilyId ∧ 2 ≤ (toLe16 m.id).length :=
    ⟨rfl, Nat.le_refl 2⟩
  have hvalue : UInt16.ofNat (ofLeBytes ((toLe16 m.id).take 2)) = m.id := by
    rw [List.take_of_length_le (by rw [length_toLe16]), ofLeBytes_toLe16, UInt16.ofNat_toNat]
  rw [familyIdIn, List.take_of_length_le (by omega), if_neg (by omega), forEachAttr_newfamily,
    List.foldl_cons, List.foldl_cons, if_neg hname, if_pos hfound, hvalue, foldl_others]
  exact if_neg m.id_ne_zero

theorem toLe32_short {n : ℕ} (h : n < 2 ^ 16) :
    toLe32 (UInt32.ofNat n) = toLe16 (UInt16.ofNat n) ++ toLe16 0 := by
  have h16 : (UInt16.ofNat n).toNat = n := UInt16.toNat_ofNat_of_lt h
  have h32 : (UInt32.ofNat n).toNat = n := UInt32.toNat_ofNat_of_lt (Nat.lt_trans h (by decide))
  have hthird : n / 65536 = 0 := Nat.div_eq_of_lt h
  have hfourth : n / 16777216 = 0 := Nat.div_eq_of_lt (Nat.lt_trans h (by decide))
  rw [toLe32, toLe16, h16, h32, hthird, hfourth]
  rfl

/-- A short message is, read as attributes, one attribute of type 0. -/
theorem forEachAttr_encode {m : Msg} (h : m.Aligned) (hsize : m.size < 2 ^ 16) :
    forEachAttr m.encode = [(0, m.fields ++ m.body)] := by
  have hlen : 4 + (m.fields ++ m.body).length = m.size := by
    rw [List.length_append, length_fields, Msg.size]
    omega
  have htlv : m.encode = encodeAll [.leaf 0 (m.fields ++ m.body)] := by
    have hmod : (toLe16 (UInt16.ofNat m.size) ++ toLe16 0 ++ (m.fields ++ m.body)).length % 4 =
        0 := by
      have := h.size_mod
      rw [List.length_append, List.length_append, length_toLe16, length_toLe16]
      omega
    rw [encodeAll, encodeAll, List.append_nil, Attr.typ, Attr.flags, UInt16.or_zero, Attr.payload,
      tlv, hlen, pad_eq_self hmod, Msg.encode, toLe32_short hsize]
  rw [htlv, forEachAttr_walked]
  · simp [Attr.walked, Attr.typ, Attr.flags, Attr.payload]
  · rw [List.forall_mem_singleton, Attr.payload, hlen]
    exact hsize

/-- The echo of a request that failed is no id. -/
theorem familyIdIn_acknowledge {m : Msg} (h : m.Aligned) (hsize : m.size < 8000) (error : Int32) :
    ∃ text, familyIdIn ((acknowledge error m.encode).take 8192) = .error (.notFound text) := by
  have hlen := length_acknowledge error m.encode
  have hdrop : (acknowledge error m.encode).drop 20 = m.encode := rfl
  rw [length_encode] at hlen
  rw [familyIdIn, List.take_of_length_le (by omega), if_neg (by omega), hdrop,
    forEachAttr_encode h (by omega)]
  exact ⟨_, rfl⟩

theorem kernel_getfamily (link : List UInt8 → Answer) (module? : Option WgModule) :
    kernel link module? netlinkGeneric (getfamily "wireguard".toList) =
      .sent (.ok ((module?.map fun m => (newfamily m).encode).getD
        (acknowledge enoent (getfamily "wireguard".toList)))) := by
  have hfit : FitAll (getfamilyMsg "wireguard".toList).attrs :=
    fitAll_of_weights _ (by decide) (by decide)
  have hcmd : extract (getfamilyMsg "wireguard".toList).encode 16 1 = [ctrlCmdGetfamily] := rfl
  have hdrop : (getfamilyMsg "wireguard".toList).encode.drop 20 =
      encodeAll (getfamilyMsg "wireguard".toList).attrs :=
    drop_header (getfamilyMsg "wireguard".toList)
  have hname : str? ((getfamilyMsg "wireguard".toList).attrs.map Attr.item) ctrlAttrFamilyName =
      some (Utf8.encode "wireguard".toList) := rfl
  rw [kernel, if_neg (not_not.mpr rfl), if_pos (msgType_getfamily _), controller, getfamily_eq,
    hcmd, hdrop, forEachAttr_encodeAll hfit, hname]
  cases module? <;> rfl

theorem genlFamilyId_registered (link : List UInt8 → Answer) (m : WgModule) :
    genlFamilyId (kernel link (some m)) "wireguard".toList =
      ([(netlinkGeneric, getfamily "wireguard".toList)], .ok m.id) := by
  rw [genlFamilyId, exchange, kernel_getfamily]
  exact congrArg (Prod.mk _) (familyIdIn_newfamily m)

theorem genlFamilyId_missing (link : List UInt8 → Answer) :
    ∃ text, genlFamilyId (kernel link none) "wireguard".toList =
      ([(netlinkGeneric, getfamily "wireguard".toList)], .error (.notFound text)) := by
  have hsize : (getfamilyMsg "wireguard".toList).size < 8000 := by decide
  obtain ⟨text, htext⟩ := familyIdIn_acknowledge (getfamilyMsg_aligned _) hsize enoent
  rw [← getfamily_eq] at htext
  refine ⟨text, ?_⟩
  rw [genlFamilyId, exchange, kernel_getfamily]
  exact congrArg (Prod.mk _) htext

/-! ## Setting the device -/

section Run

variable {cfg : Config} {privk : List UInt8} {ps : List Peer}

/-- A device that fits reaches its module. -/
theorem decodeDevice_target (family : UInt16) (hsize : peersSize cfg + 4 < 2 ^ 16)
    (hkey : privateKey cfg = some privk)
    (hps : cfg.sections.toList.filterMap peerOf = ps) :
    decodeDevice (setDevice family "wg0".toList privk (listenPort cfg) cfg) =
      some (deviceOf cfg ps privk) := by
  have hname : (Utf8.encode "wg0".toList).length = 3 := by decide
  have hlen := length_privateKey hkey
  have hpeers : ((peersOf cfg).zipIdx.map fun peer => (peer.2, peerAt peer.1.1 peer.1.2)) =
      ps.zipIdx.map Prod.swap := by
    rw [← hps, filterMap_peerOf, List.zipIdx_map, List.map_map]
    rfl
  rw [decodeDevice_setDevice ((deviceMsg_fits_iff ..).mpr ⟨by omega, by omega, hsize⟩), hpeers]
  rfl

theorem sendDevice_registered (link : List UInt8 → Answer) (m : WgModule)
    (hsize : peersSize cfg + 4 < 2 ^ 16) (hkey : privateKey cfg = some privk)
    (hps : cfg.sections.toList.filterMap peerOf = ps) :
    sendDevice (kernel link (some m)) "wg0".toList privk (listenPort cfg) cfg =
      ([(netlinkGeneric, getfamily "wireguard".toList),
          (netlinkGeneric, setDevice m.id "wg0".toList privk (listenPort cfg) cfg)],
        if m.set (deviceOf cfg ps privk) = 0 then .ok ()
        else .error (.os (-m.set (deviceOf cfg ps privk)))) := by
  have hanswer : kernel link (some m) netlinkGeneric
      (setDevice m.id "wg0".toList privk (listenPort cfg) cfg) =
        .sent (.ok (acknowledge (m.set (deviceOf cfg ps privk))
          (setDevice m.id "wg0".toList privk (listenPort cfg) cfg))) := by
    rw [kernel, if_neg (not_not.mpr rfl), msgType_setDevice, if_neg m.id_ne,
      Option.filter_some_pos (by simp), Option.map_some, Option.getD_some, WgModule.handle,
      decodeDevice_target m.id hsize hkey hps, Option.map_some, Option.getD_some]
  simp only [sendDevice, genlFamilyId_registered, exchange, hanswer, recvAck_acknowledge]
  split <;> rfl

theorem sendDevice_missing (link : List UInt8 → Answer) (privk : List UInt8) (port : UInt16)
    (cfg : Config) :
    ∃ e, sendDevice (kernel link none) "wg0".toList privk port cfg =
      ([(netlinkGeneric, getfamily "wireguard".toList)], .error e) := by
  obtain ⟨text, htext⟩ := genlFamilyId_missing link
  exact ⟨.notFound text, by simp only [sendDevice, htext]⟩

/-! ## A run -/

theorem run_idle (kernel : Kernel) {args : List Text} (h : Idle args cfg) :
    run kernel args cfg = ([], 0) := by
  rw [run]
  by_cases hdown : args.head? = some "down".toList
  · rw [if_pos hdown]
  · rw [if_neg hdown, if_pos (h.resolve_left hdown)]

theorem run_keyless (kernel : Kernel) {args : List Text} (h : ¬ Idle args cfg)
    (hkey : privateKey cfg = none) :
    run kernel args cfg = ((exchange kernel netlinkRoute (newlink "wg0".toList)).1, 1) := by
  obtain ⟨hdown, henabled⟩ := not_or.mp h
  rw [privateKey, if_pos (not_not.mp henabled)] at hkey
  rw [run, if_neg hdown, if_neg henabled, hkey]

theorem run_keyed (kernel : Kernel) {args : List Text} (h : ¬ Idle args cfg)
    (hkey : privateKey cfg = some privk) :
    run kernel args cfg =
      ((exchange kernel netlinkRoute (newlink "wg0".toList)).1 ++
          (sendDevice kernel "wg0".toList privk (listenPort cfg) cfg).1,
        if (sendDevice kernel "wg0".toList privk (listenPort cfg) cfg).2.isOk then 0 else 1) := by
  obtain ⟨hdown, henabled⟩ := not_or.mp h
  rw [privateKey, if_pos (not_not.mp henabled)] at hkey
  rw [run, if_neg hdown, if_neg henabled, hkey, listenPort]
  simp only
  split
  case h_1 _ e he => rw [he]; rfl
  case h_2 _ he => rw [he]; rfl

theorem mem_exchange {kernel : Kernel} {protocol : ℕ} {message : List UInt8} {s : Sent}
    (h : s ∈ (exchange kernel protocol message).1) : s = (protocol, message) := by
  rw [exchange] at h
  split at h
  · simp at h
  · simpa using h

theorem delivered_eq_nil {m : WgModule} {sent : List Sent}
    (h : ∀ s ∈ sent, s.1 = netlinkGeneric → msgType s.2 ≠ m.id) : delivered m sent = [] := by
  rw [delivered, List.map_eq_nil_iff, List.filter_eq_nil_iff]
  intro s hs hto
  have hto := of_decide_eq_true hto
  exact h s hs hto.1 hto.2

theorem delivered_append (m : WgModule) (sent rest : List Sent) :
    delivered m (sent ++ rest) = delivered m sent ++ delivered m rest := by
  rw [delivered, delivered, delivered, List.filter_append, List.map_append]

theorem delivered_singleton {m : WgModule} {request : List UInt8} (h : msgType request = m.id) :
    delivered m [(netlinkGeneric, request)] = [decodeDevice request] := by
  simp [delivered, h]

/-- Of the two requests the module gets the second one. -/
theorem delivered_requests (m : WgModule) (ifname : Text) (privk : List UInt8) (port : UInt16)
    (cfg : Config) :
    delivered m [(netlinkGeneric, getfamily "wireguard".toList),
      (netlinkGeneric, setDevice m.id ifname privk port cfg)] =
        [decodeDevice (setDevice m.id ifname privk port cfg)] := by
  have hlookup : delivered m [(netlinkGeneric, getfamily "wireguard".toList)] = [] := by
    refine delivered_eq_nil ?_
    rw [List.forall_mem_singleton, msgType_getfamily]
    exact fun _ => m.id_ne.symm
  rw [← List.singleton_append, delivered_append, hlookup, List.nil_append,
    delivered_singleton (msgType_setDevice m.id ifname privk port cfg)]

variable {args : List Text}

/-- Requests for the link come first, and only generic netlink counts. -/
theorem configured_of_generic {module? : Option WgModule} {linked rest : List Sent} {code : ℕ}
    (hlinked : ∀ s ∈ linked, s = (netlinkRoute, newlink "wg0".toList))
    (hrest : ∀ s ∈ rest, s.1 = netlinkGeneric ∧
      (msgType s.2 = genlIdCtrl ∨ ∃ m ∈ module?, msgType s.2 = m.id))
    (hdevices : ∀ m ∈ module?, delivered m rest = ((target args cfg ps).map some).toList)
    (hcode : code = 0 ↔ Idle args cfg ∨
      ∃ m ∈ module?, ∃ device ∈ target args cfg ps, m.set device = 0) :
    Configured module? args cfg ps (linked ++ rest, code) where
  links := by
    intro s hs hprotocol
    rcases List.mem_append.mp hs with hs | hs
    · rw [hlinked s hs]
      exact ⟨rfl, linkIn_newlink⟩
    · exact absurd (hrest s hs).1 hprotocol
  registered := by
    intro s hs hprotocol
    rcases List.mem_append.mp hs with hs | hs
    · rw [hlinked s hs] at hprotocol
      exact absurd hprotocol (by decide)
    · exact (hrest s hs).2
  devices := by
    intro m hm
    have hnone : delivered m linked = [] := by
      refine delivered_eq_nil fun s hs hprotocol => ?_
      rw [hlinked s hs] at hprotocol
      exact absurd hprotocol (by decide)
    rw [delivered_append, hnone, List.nil_append, hdevices m hm]
  exit_code := hcode

theorem target_idle (h : Idle args cfg) : target args cfg ps = none := by
  rw [target]
  split
  case isTrue => rfl
  case isFalse hdown =>
    rw [privateKey, if_neg (h.resolve_left hdown)]
    rfl

theorem target_keyless (h : privateKey cfg = none) : target args cfg ps = none := by
  rw [target, h, Option.map_none, ite_self]

theorem target_keyed (h : ¬ Idle args cfg) (hkey : privateKey cfg = some privk) :
    target args cfg ps = some (deviceOf cfg ps privk) := by
  rw [target, if_neg (not_or.mp h).1, hkey, Option.map_some]

theorem configured_run (hsize : peersSize cfg + 4 < 2 ^ 16)
    (hps : cfg.sections.toList.filterMap peerOf = ps) (link : List UInt8 → Answer)
    (module? : Option WgModule) (args : List Text) :
    Configured module? args cfg ps (run (kernel link module?) args cfg) := by
  have hlinked : ∀ s ∈ (exchange (kernel link module?) netlinkRoute (newlink "wg0".toList)).1,
      s = (netlinkRoute, newlink "wg0".toList) := fun s => mem_exchange
  by_cases hidle : Idle args cfg
  · rw [run_idle _ hidle]
    show Configured module? args cfg ps ([] ++ [], 0)
    refine configured_of_generic (by simp) (by simp) ?_ ?_
    · intro m _
      rw [target_idle hidle]
      rfl
    · exact iff_of_true rfl (Or.inl hidle)
  · cases hkey : privateKey cfg with
    | none =>
        rw [run_keyless _ hidle hkey, ← List.append_nil (exchange _ _ _).1]
        refine configured_of_generic hlinked (by simp) ?_ ?_
        · intro m _
          rw [target_keyless hkey]
          rfl
        · simp [hidle, target_keyless hkey]
    | some privk =>
        have htarget : target args cfg ps = some (deviceOf cfg ps privk) := target_keyed hidle hkey
        rw [run_keyed _ hidle hkey]
        cases module? with
        | none =>
            obtain ⟨e, he⟩ := sendDevice_missing link privk (listenPort cfg) cfg
            rw [he]
            refine configured_of_generic hlinked ?_ (by simp) ?_
            · rw [List.forall_mem_singleton]
              exact ⟨rfl, Or.inl (msgType_getfamily _)⟩
            · simp [hidle, Except.isOk, Except.toBool]
        | some m =>
            rw [sendDevice_registered link m hsize hkey hps]
            refine configured_of_generic hlinked ?_ ?_ ?_
            · rw [List.forall_mem_cons, List.forall_mem_singleton]
              exact ⟨⟨rfl, Or.inl (msgType_getfamily _)⟩, rfl,
                Or.inr ⟨m, rfl, msgType_setDevice _ _ _ _ _⟩⟩
            · intro m' hm'
              obtain rfl : m = m' := Option.some.inj hm'
              rw [delivered_requests, decodeDevice_target m.id hsize hkey hps, htarget]
              rfl
            · rw [htarget]
              by_cases hset : m.set (deviceOf cfg ps privk) = 0
              · simp [hset, Except.isOk, Except.toBool]
              · simp [hset, hidle, Except.isOk, Except.toBool]

end Run

/-- A device with one peer. -/
def tunnel : Config :=
  Config.parse (unlines ["[wireguard]".toList, "enabled = 1".toList,
    "private_key = ".toList ++ Base64.encode sampleKey, "[peer1]".toList,
    "public_key = ".toList ++ Base64.encode sampleKey, "allowed_ips = 10.7.0.2".toList])

theorem tunnel_strict : ∀ s ∈ tunnel.sections.toList, "peer".toList <+: s.1 → Strict s.2 := by
  have hall : ∀ s ∈ tunnel.sections.toList, s.2["public_key".toList]? = none ∨
      (s.2["public_key".toList]? = some (Base64.encode sampleKey) ∧
        (itemsAt s.2).getD [] = ["10.7.0.2".toList]) := by
    decide +kernel
  have hmasked : Masked "10.7.0.2".toList := masked_of_not_mem (by decide +kernel)
  intro s hs _ text htext _
  rcases hall s hs with hnone | ⟨hkey, hitems⟩
  · rw [htext] at hnone
    cases hnone
  · obtain rfl := Option.some.inj (htext.symm.trans hkey)
    rw [hitems, List.forall_mem_singleton]
    exact ⟨⟨sampleKey, Or.inl rfl⟩, hmasked⟩

end Lwrt.Wg
