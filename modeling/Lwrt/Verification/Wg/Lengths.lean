import Lwrt.Verification.Config.Reading
import Lwrt.Verification.Fw.Lengths
import Lwrt.Verification.Wg.Decoding

/-! # Length fields of the device

The sizes of peers and of lists of allowed addresses, from the texts of their sections, and the
configurations under which no length and no index is cut off. -/

namespace Lwrt.Wg

open Library Text Nl

/-! ## Sizes -/

/-- The bytes of a peer: header and key, and what the section adds. -/
def peerSize (sect : Std.TreeMap Text Text) : ℕ :=
  40 + (if (keepaliveAt sect).isSome then 8 else 0) + (if (endpointAt sect).isSome then 20 else 0) +
    match itemsAt sect with
    | none => 0
    | some items => 4 + 28 * (routes items).length

/-- The bytes of all peers. -/
def peersSize (cfg : Config) : ℕ :=
  ((peersOf cfg).map fun peer => peerSize peer.2).sum

theorem length_allowedTrees (items : List Text) :
    (encodeAll (allowedTrees items)).length = 28 * (routes items).length := by
  rw [allowedTrees]
  induction routes items with
  | nil => rfl
  | cons route routes ih =>
      rw [List.map_cons, encodeAll, List.length_append, length_tlv, length_allowedTree, ih,
        List.length_cons, align4]
      omega

theorem length_peerTree {pubk : List UInt8} (h : pubk.length = 32) (idx : ℕ)
    (sect : Std.TreeMap Text Text) : 4 + (peerTree idx pubk sect).payload.length = peerSize sect := by
  have hsockaddr (ep : Ipv4Addr × UInt16) : (sockaddrBytes ep).length = 16 := rfl
  rw [peerTree_eq, Attr.payload, peerChildren, peerSize]
  cases keepaliveAt sect <;> cases endpointAt sect <;> cases itemsAt sect <;>
    simp [encodeAll, length_tlv, Attr.payload, keepaliveTree, endpointTree, listTree, hsockaddr,
      length_allowedTrees, h, align4] <;> omega

theorem peerSize_mod (sect : Std.TreeMap Text Text) : peerSize sect % 4 = 0 := by
  rw [peerSize]
  cases keepaliveAt sect <;> cases endpointAt sect <;> cases itemsAt sect <;> simp <;> omega

theorem length_peerTrees {peers : List (List UInt8 × Std.TreeMap Text Text)}
    (h : ∀ peer ∈ peers, peer.1.length = 32) (idx : ℕ) :
    (encodeAll (peerTrees idx peers)).length = (peers.map fun peer => peerSize peer.2).sum := by
  induction peers generalizing idx with
  | nil => rfl
  | cons peer peers ih =>
      obtain ⟨hkey, hpeers⟩ := List.forall_mem_cons.mp h
      have htrees : peerTrees idx (peer :: peers) =
          peerTree idx peer.1 peer.2 :: peerTrees (idx + 1) peers := rfl
      rw [htrees, encodeAll, List.length_append, length_tlv, length_peerTree hkey,
        align4_eq_self (peerSize_mod peer.2), ih hpeers, List.map_cons, List.sum_cons]

theorem length_key32 {text : Text} {key : List UInt8} (h : key32 text = some key) :
    key.length = 32 := by
  rw [key32, Option.filter_eq_some_iff] at h
  exact of_decide_eq_true h.2

theorem length_key_of_mem (cfg : Config) : ∀ peer ∈ peersOf cfg, peer.1.length = 32 := by
  intro peer hpeer
  obtain ⟨s, -, hs⟩ := List.mem_filterMap.mp hpeer
  obtain ⟨key, hkey, rfl⟩ := Option.map_eq_some_iff.mp hs
  rw [peerKey] at hkey
  split at hkey
  case isFalse => cases hkey
  case isTrue =>
    obtain ⟨text, -, hkey⟩ := Option.bind_eq_some_iff.mp hkey
    exact length_key32 hkey

/-- The attributes of a device fit when its name, its key and all its peers together do. -/
theorem deviceMsg_fits_iff (family : UInt16) (ifname : Text) (privk : List UInt8) (port : UInt16)
    (cfg : Config) :
    (∀ a ∈ (deviceMsg family ifname privk port cfg).attrs, 4 + a.payload.length < 2 ^ 16) ↔
      (Utf8.encode ifname).length + 5 < 2 ^ 16 ∧ privk.length + 4 < 2 ^ 16 ∧
        peersSize cfg + 4 < 2 ^ 16 := by
  have hpeers : (∀ a ∈ peersAttr (peersOf cfg), 4 + a.payload.length < 2 ^ 16) ↔
      peersSize cfg + 4 < 2 ^ 16 := by
    have hlen := length_peerTrees (length_key_of_mem cfg) 0
    rw [peersAttr, peersSize]
    split
    case isTrue hnil => simp [hnil]
    case isFalse => rw [List.forall_mem_singleton, Attr.payload, hlen, Nat.add_comm]
  rw [deviceMsg, List.forall_mem_append, hpeers]
  simp only [deviceAttrs, List.forall_mem_cons, Attr.payload, List.length_append,
    List.length_singleton, length_toLe32, length_toLe16, List.not_mem_nil, false_implies,
    implies_true, and_true]
  omega

/-! ## What is sent -/

/-- The private key that `up` hands on, if WireGuard is enabled. -/
def privateKey (cfg : Config) : Option (List UInt8) :=
  if cfg.getOr "wireguard".toList "enabled".toList "0".toList = "1".toList then
    (cfg.get "wireguard".toList "private_key".toList).bind key32
  else none

def listenPort (cfg : Config) : UInt16 :=
  ((parseUnsigned (2 ^ 16) (cfg.getOr "wireguard".toList "listen_port".toList
    "51820".toList)).map UInt16.ofNat).getD 51820

def upMsg (family : UInt16) (cfg : Config) : Option Msg :=
  (privateKey cfg).map fun privk => deviceMsg family "wg0".toList privk (listenPort cfg) cfg

theorem up_eq (family : UInt16) (cfg : Config) :
    up family cfg = (upMsg family cfg).map Msg.encode := by
  rw [up, upMsg, privateKey, ite_not]
  split
  · simp only [Option.map_map, Function.comp_def, setDevice_eq, listenPort]
  · rfl

/-- All length fields that are sent count what they cover, and the types of the peers and of
their allowed addresses are the positions of these. -/
structure TrueFraming (family : UInt16) (cfg : Config) : Prop where
  device : ∀ m, upMsg family cfg = some m → m.TrueLengths
  ruleset : ∀ m ∈ Fw.runMsgs cfg, m.TrueLengths
  peers : (privateKey cfg).isSome →
    (peerTrees 0 (peersOf cfg)).map (·.typ.toNat) = List.range (peersOf cfg).length
  allowed : (privateKey cfg).isSome → ∀ peer ∈ peersOf cfg, ∀ items, itemsAt peer.2 = some items →
    (allowedTrees items).map (·.typ.toNat) = (routes items).map (·.1)

theorem length_privateKey {cfg : Config} {privk : List UInt8} (h : privateKey cfg = some privk) :
    privk.length = 32 := by
  rw [privateKey] at h
  split at h
  case isFalse => cases h
  case isTrue =>
    obtain ⟨text, -, hkey⟩ := Option.bind_eq_some_iff.mp h
    exact length_key32 hkey

theorem upMsg_trueLengths_iff (family : UInt16) (cfg : Config) :
    (∀ m, upMsg family cfg = some m → m.TrueLengths) ↔
      ((privateKey cfg).isSome → peersSize cfg + 4 < 2 ^ 16) := by
  have hname : (Utf8.encode "wg0".toList).length = 3 := by decide
  rw [upMsg]
  cases hkey : privateKey cfg with
  | none => simp
  | some privk =>
      have hlen := length_privateKey hkey
      have hfits := deviceMsg_fits_iff family "wg0".toList privk (listenPort cfg) cfg
      simp only [Option.map_some, Option.some.injEq, forall_eq', Option.isSome_some, true_implies,
        Msg.trueLengths_iff]
      constructor
      · intro h
        exact (hfits.mp h.2).2.2
      · intro h
        have hall := hfits.mpr ⟨by omega, by omega, h⟩
        exact ⟨size_deviceMsg hall, hall⟩

theorem map_typ_peerTrees {peers : List (List UInt8 × Std.TreeMap Text Text)}
    (h : peers.length < 2 ^ 16) :
    (peerTrees 0 peers).map (·.typ.toNat) = List.range peers.length := by
  rw [List.range_eq_range', ← List.zipIdx_map_snd, peerTrees, List.map_map, List.map_inj_left]
  intro peer hpeer
  have hlt := List.snd_lt_of_mem_zipIdx hpeer
  exact UInt16.toNat_ofNat_of_lt' (show peer.2 < 2 ^ 16 by omega)

theorem length_peersOf_le (cfg : Config) : 40 * (peersOf cfg).length ≤ peersSize cfg := by
  rw [peersSize]
  induction peersOf cfg with
  | nil => exact Nat.le_refl 0
  | cons peer peers ih =>
      have hsize : 40 ≤ peerSize peer.2 := by
        rw [peerSize]
        omega
      rw [List.length_cons, List.map_cons, List.sum_cons]
      omega

theorem map_typ_allowedTrees_iff (items : List Text) :
    (allowedTrees items).map (·.typ.toNat) = (routes items).map (·.1) ↔
      ∀ route ∈ routes items, route.1 < 2 ^ 16 := by
  rw [allowedTrees, List.map_map, List.map_inj_left]
  refine forall₂_congr fun route _ => ?_
  rw [Function.comp_apply, allowedTree, Attr.typ, UInt16.toNat_ofNat', Nat.mod_eq_iff_lt (by decide)]

theorem trueFraming_iff (family : UInt16) (cfg : Config) :
    TrueFraming family cfg ↔
      (Utf8.encode (cfg.getOr "lan".toList "ifname".toList "br-lan".toList)).length ≤ 65403 ∧
        ((privateKey cfg).isSome → peersSize cfg + 4 < 2 ^ 16 ∧
          ∀ peer ∈ peersOf cfg, ∀ items, itemsAt peer.2 = some items →
            ∀ route ∈ routes items, route.1 < 2 ^ 16) := by
  rw [← Fw.runMsgs_trueLengths_iff]
  constructor
  · intro h
    refine ⟨h.ruleset, fun hkey => ⟨(upMsg_trueLengths_iff family cfg).mp h.device hkey, ?_⟩⟩
    intro peer hpeer items hitems
    exact (map_typ_allowedTrees_iff items).mp (h.allowed hkey peer hpeer items hitems)
  · intro h
    obtain ⟨hruleset, hkey⟩ := h
    exact
      { device := (upMsg_trueLengths_iff family cfg).mpr fun hsome => (hkey hsome).1
        ruleset := hruleset
        peers := by
          intro hsome
          have hsize := (hkey hsome).1
          have hcount := length_peersOf_le cfg
          exact map_typ_peerTrees (by omega)
        allowed := fun hsome peer hpeer items hitems =>
          (map_typ_allowedTrees_iff items).mpr ((hkey hsome).2 peer hpeer items hitems) }

/-- What is sent are these messages, and their lengths and indices are true when the name of the
LAN interface, the peers together, and the positions of the allowed addresses are small. -/
theorem sent_lengths_true_iff (family : UInt16) (cfg : Config) :
    up family cfg = (upMsg family cfg).map Msg.encode ∧
    Fw.run cfg = (Fw.runMsgs cfg).flatMap Msg.encode ∧
    (TrueFraming family cfg ↔
      (Utf8.encode (cfg.getOr "lan".toList "ifname".toList "br-lan".toList)).length ≤ 65403 ∧
        ((privateKey cfg).isSome → peersSize cfg + 4 < 2 ^ 16 ∧
          ∀ peer ∈ peersOf cfg, ∀ items, itemsAt peer.2 = some items →
            ∀ route ∈ routes items, route.1 < 2 ^ 16)) :=
  ⟨up_eq family cfg, Fw.run_eq cfg, trueFraming_iff family cfg⟩

/-! ## A name that is too long -/

/-- A configuration with this name of the LAN interface. -/
def lanText (name : Text) : Text :=
  "[lan]\nifname = ".toList ++ name

theorem getOr_lanText {name : Text} (h : IsToken name) (hhash : '#' ∉ name) (fallback : Text) :
    (Config.parse (lanText name)).getOr "lan".toList "ifname".toList fallback = name := by
  have htext : lanText name = "[lan]".toList ++ '\n' :: ("ifname = ".toList ++ name) := rfl
  have hnewline : '\n' ∉ "ifname = ".toList ++ name := by
    simpa using h.newline_not_mem
  have hlines : lines (lanText name) = ["[lan]".toList, "ifname = ".toList ++ name] := by
    rw [htext, lines_append_newline _ _ (by decide), lines_of_not_mem hnewline (by simp)]
    rfl
  have hlan : IsWord "lan".toList := by decide
  have hifname : IsWord "ifname".toList := by decide
  have hheader : Config.reading "[lan]".toList = .header "lan".toList :=
    Config.reading_bracket hlan
  have hassign : Config.reading ("ifname = ".toList ++ name) = .assign "ifname".toList name := by
    have hread := Config.reading_assign (List.forall_mem_nil _) hifname name
    rwa [before_eq_self hhash, trim_token h] at hread
  rw [Config.getOr, Config.get_parse, hlines, Config.writes, Config.writes, Config.writes, hheader,
    hassign]
  simp [Config.Reading.log, Config.Reading.next, WriteLog.final_cons, WriteLog.final_nil]

def longName : Text :=
  List.replicate 65404 'a'

theorem longName_plain : IsToken longName ∧ '#' ∉ longName ∧
    (Utf8.encode longName).length = 65404 := by
  have hmem : ∀ c ∈ longName, c = 'a' := fun c hc => List.eq_of_mem_replicate hc
  have hlen : longName.length = 65404 := List.length_replicate
  refine ⟨⟨List.ne_nil_of_length_pos (by omega), ?_⟩, ?_, ?_⟩
  · intro c hc
    rw [hmem c hc]
    decide
  · intro hc
    exact absurd (hmem _ hc) (by decide)
  · have hascii : ∀ c ∈ longName, c.toNat < 0x80 := by
      intro c hc
      rw [hmem c hc]
      decide
    rw [Utf8.encode_ascii hascii, List.length_map, hlen]

/-- The list of expressions takes 65536 bytes, and its length field says 0. -/
theorem longName_wraps :
    (Attr.nested Fw.nftaRuleExpressions (Fw.iifAcceptTrees longName)).lengthField = 0 ∧
    ¬ TrueFraming 28 (Config.parse (lanText longName)) := by
  obtain ⟨htoken, hhash, hlen⟩ := longName_plain
  constructor
  · rw [lengthField_eq, Attr.payload, Fw.length_iifAcceptTrees, hlen, align4]
    rfl
  · rw [trueFraming_iff, getOr_lanText htoken hhash, hlen]
    omega

end Lwrt.Wg
