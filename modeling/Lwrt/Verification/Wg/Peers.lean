import Lwrt.Library.Selection
import Lwrt.Verification.Util.Base64
import Lwrt.Verification.Wg.Lengths

/-! # The peers that a configuration asks for

What the texts of a section ask for, and when the message sets just that. -/

namespace Lwrt.Wg

open Library Text Nl Util Wireguard

/-! ## What is asked for -/

/-- An address and a port. -/
def IsEndpoint (text : Text) (ep : Ipv4Addr × UInt16) : Prop :=
  ∃ port, text = ep.1.toText ++ ':' :: port ∧ Numeral port ep.2.toNat

/-- An address, with a mask of at most 32 bits or with none. -/
def IsAllowed (item : Text) (route : Ipv4Addr × UInt8) : Prop :=
  (item = route.1.toText ∧ route.2 = 32) ∨
    ∃ m, item = route.1.toText ++ '/' :: m ∧ Numeral m route.2.toNat ∧ route.2 ≤ 32

/-- A section, by its name and its values, asks for a peer. -/
structure Configures (s : Text × Std.TreeMap Text Text) (p : Peer) : Prop where
  name : "peer".toList <+: s.1
  key : ∃ text, s.2["public_key".toList]? = some text ∧ Base64.Spells text p.publicKey
  key_length : p.publicKey.length = 32
  keepalive : ∀ ka, p.keepalive = some ka ↔
    ∃ text, s.2["keepalive".toList]? = some text ∧ Numeral text ka.toNat
  endpoint : ∀ ep, p.endpoint = some ep ↔
    ∃ text, s.2["endpoint".toList]? = some text ∧ IsEndpoint text ep
  allowed : Selects IsAllowed ((itemsAt s.2).getD []) p.allowed

/-- The buffer is a message that sets these peers, numbered from 0. -/
def Carries (buf : NlBuf) (ps : List Peer) : Prop :=
  (decodeDevice buf).map Device.peers = some (ps.zipIdx.map Prod.swap)

/-! ## Where the code is lenient -/

/-- A text with the symbols of 32 bytes, once `=` and whitespace are passed over. -/
def Readable (text : Text) : Prop :=
  (symbolsOf text).length = 43 ∧ ∀ c ∈ symbolsOf text, (val c).isSome

/-- What follows the address of an entry is a mask. -/
def Masked (item : Text) : Prop :=
  ∀ (ip : Ipv4Addr) m, item = ip.toText ++ '/' :: m → ∃ n ≤ 32, Numeral m n

/-- A key that can be read is standard base64, and then every mask is one. -/
def Strict (sect : Std.TreeMap Text Text) : Prop :=
  ∀ text, sect["public_key".toList]? = some text → Readable text →
    (∃ key, Base64.Spells text key) ∧ ∀ item ∈ (itemsAt sect).getD [], Masked item

/-! ## Keys -/

theorem key32_eq_some_iff {text : Text} {key : List UInt8} :
    key32 text = some key ↔ b64Decode text = some key ∧ key.length = 32 := by
  rw [key32, Option.filter_eq_some_iff, decide_eq_true_eq]

theorem readable_iff (text : Text) : Readable text ↔ (key32 text).isSome := by
  rw [Readable, ← b64Decode_isSome_iff, Option.isSome_iff_exists, Option.isSome_iff_exists]
  simp only [key32_eq_some_iff]
  constructor
  · intro h
    obtain ⟨hlen, key, hkey⟩ := h
    have := length_b64Decode hkey
    exact ⟨key, hkey, by omega⟩
  · intro h
    obtain ⟨key, hkey, hlen⟩ := h
    have := length_b64Decode hkey
    exact ⟨by omega, key, hkey⟩

/-- A text that is decoded spells nothing else. -/
theorem exists_spells_iff {text : Text} {key : List UInt8} (h : b64Decode text = some key) :
    (∃ key, Base64.Spells text key) ↔ Base64.Spells text key := by
  constructor
  · intro hspells
    obtain ⟨other, hother⟩ := hspells
    rwa [← Option.some.inj ((b64Decode_spells hother).symm.trans h)]
  · exact fun hspells => ⟨key, hspells⟩

/-! ## Endpoints -/

theorem endpointOf_eq_some_iff {text : Text} {ep : Ipv4Addr × UInt16} :
    endpointOf text = some ep ↔ IsEndpoint text ep := by
  simp only [endpointOf, Option.bind_eq_bind, Option.bind_eq_some_iff, Prod.exists,
    rsplitOnce_eq_some_iff, Ipv4Addr.ofText_eq_some_iff, parseU16_eq_some_iff, Option.some.injEq]
  constructor
  · intro h
    obtain ⟨host, port, ⟨htext, -⟩, ip, rfl, p, hp, rfl⟩ := h
    exact ⟨port, htext, hp⟩
  · intro h
    obtain ⟨port, htext, hp⟩ := h
    exact ⟨_, port, ⟨htext, hp.not_mem (by decide) (by decide)⟩, ep.1, rfl, ep.2, hp, rfl⟩

/-! ## Allowed addresses -/

theorem slash_not_mem_toText (ip : Ipv4Addr) : '/' ∉ ip.toText :=
  Ipv4Addr.not_mem_toText (by decide) (by decide)

/-- An entry without a mask. -/
theorem routeOf_plain {item : Text} (h : '/' ∉ item) :
    routeOf item = (Ipv4Addr.ofText item).map (·, 32) := by
  have hmask : parseMask "32".toList = 32 := by decide +kernel
  rw [routeOf, splitCidr, splitOnce_eq_none_iff.mpr h, Option.getD_none, hmask]

theorem routeOf_masked {x : Text} (h : '/' ∉ x) (m : Text) :
    routeOf (x ++ '/' :: m) = (Ipv4Addr.ofText x).map (·, parseMask m) := by
  rw [routeOf, splitCidr, splitOnce_append h, Option.getD_some]

theorem parseMask_of_numeral {m : Text} {n : ℕ} (h : Numeral m n) (hn : n < 2 ^ 8) :
    parseMask m = UInt8.ofNat n := by
  rw [parseMask, parseUnsigned_eq_some_iff.mpr ⟨h, hn⟩, Option.map_some, Option.getD_some]

theorem routeOf_isSome {item : Text} {route : Ipv4Addr × UInt8} (h : IsAllowed item route) :
    (routeOf item).isSome := by
  have hslash := slash_not_mem_toText route.1
  rcases h with ⟨rfl, -⟩ | ⟨m, rfl, -⟩
  · simp [routeOf_plain hslash]
  · simp [routeOf_masked hslash]

/-- An entry is written as it is meant when what follows its address is a mask. -/
theorem masked_iff (item : Text) :
    Masked item ↔ ∀ route, routeOf item = some route → IsAllowed item route := by
  constructor
  · intro h route hroute
    by_cases hitem : '/' ∈ item
    · obtain ⟨x, m, rfl, hx⟩ := List.eq_append_cons_of_mem hitem
      rw [routeOf_masked hx, Option.map_eq_some_iff] at hroute
      obtain ⟨ip, hip, rfl⟩ := hroute
      obtain rfl := Ipv4Addr.ofText_eq_some_iff.mp hip
      obtain ⟨n, hn, hm⟩ := h ip m rfl
      have hmask := parseMask_of_numeral hm (by omega)
      have htoNat : (UInt8.ofNat n).toNat = n := UInt8.toNat_ofNat_of_lt' (show n < 256 by omega)
      refine Or.inr ⟨m, rfl, ?_, ?_⟩
      · rwa [hmask, htoNat]
      · rw [hmask, UInt8.le_iff_toNat_le, htoNat]
        exact hn
    · rw [routeOf_plain hitem, Option.map_eq_some_iff] at hroute
      obtain ⟨ip, hip, rfl⟩ := hroute
      exact Or.inl ⟨Ipv4Addr.ofText_eq_some_iff.mp hip, rfl⟩
  · intro h ip m hitem
    have hslash := slash_not_mem_toText ip
    have hroute : routeOf item = some (ip, parseMask m) := by
      rw [hitem, routeOf_masked hslash, Ipv4Addr.ofText_toText, Option.map_some]
    rcases h _ hroute with ⟨hplain, -⟩ | ⟨m', hitem', hm, hle⟩
    · have := hplain.symm.trans hitem
      simp at this
    · rw [hitem, List.append_cancel_left_eq, List.cons.injEq] at hitem'
      exact ⟨_, UInt8.le_iff_toNat_le.mp hle, hitem'.2 ▸ hm⟩

theorem masked_of_not_mem {item : Text} (h : '/' ∉ item) : Masked item := by
  intro ip m hitem
  simp [hitem] at h

theorem masked_of_splitOnce {item x m : Text} (h : splitOnce '/' item = some (x, m)) {n : ℕ}
    (hn : n ≤ 32) (hm : Numeral m n) : Masked item := by
  intro ip m' hitem
  rw [hitem, splitOnce_append (slash_not_mem_toText ip), Option.some.injEq, Prod.mk.injEq] at h
  exact ⟨n, hn, h.2 ▸ hm⟩

/-! ## Sections -/

theorem keepaliveAt_eq_some_iff {sect : Std.TreeMap Text Text} {ka : UInt16} :
    keepaliveAt sect = some ka ↔
      ∃ text, sect["keepalive".toList]? = some text ∧ Numeral text ka.toNat := by
  simp only [keepaliveAt, Option.map_bind, Option.bind_eq_some_iff, Function.comp_apply,
    parseU16_eq_some_iff]

theorem endpointAt_eq_some_iff {sect : Std.TreeMap Text Text} {ep : Ipv4Addr × UInt16} :
    endpointAt sect = some ep ↔
      ∃ text, sect["endpoint".toList]? = some text ∧ IsEndpoint text ep := by
  simp only [endpointAt, Option.bind_eq_some_iff, endpointOf_eq_some_iff]

theorem configures_peerAt_iff {s : Text × Std.TreeMap Text Text} {text : Text} {key : List UInt8}
    (hname : "peer".toList <+: s.1) (htext : s.2["public_key".toList]? = some text)
    (hkey : key32 text = some key) : Configures s (peerAt key s.2) ↔ Strict s.2 := by
  obtain ⟨hdecode, hlen⟩ := key32_eq_some_iff.mp hkey
  have hallowed : Selects IsAllowed ((itemsAt s.2).getD []) (peerAt key s.2).allowed ↔
      ∀ item ∈ (itemsAt s.2).getD [], Masked item := by
    rw [peerAt, selects_filterMap_iff fun _ _ h => routeOf_isSome h]
    simp only [masked_iff]
  constructor
  · intro h text' htext' _
    obtain rfl := Option.some.inj (htext.symm.trans htext')
    obtain ⟨text'', htext'', hspells⟩ := h.key
    obtain rfl := Option.some.inj (htext.symm.trans htext'')
    exact ⟨⟨key, hspells⟩, hallowed.mp h.allowed⟩
  · intro h
    have hreadable : Readable text := by
      rw [readable_iff, hkey]
      rfl
    obtain ⟨hspells, hmasked⟩ := h text htext hreadable
    exact
      { name := hname
        key := ⟨text, htext, (exists_spells_iff hdecode).mp hspells⟩
        key_length := hlen
        keepalive := fun _ => keepaliveAt_eq_some_iff
        endpoint := fun _ => endpointAt_eq_some_iff
        allowed := hallowed.mpr hmasked }

/-- The peer that is written for a section, if it is a peer. -/
def peerOf (s : Text × Std.TreeMap Text Text) : Option Peer :=
  (peerKey s).map (peerAt · s.2)

theorem peerKey_eq_some_iff {s : Text × Std.TreeMap Text Text} {key : List UInt8} :
    peerKey s = some key ↔ "peer".toList <+: s.1 ∧
      ∃ text, s.2["public_key".toList]? = some text ∧ key32 text = some key := by
  rw [peerKey, ← List.isPrefixOf_iff_prefix, ← Option.bind_eq_some_iff]
  cases "peer".toList.isPrefixOf s.1 with
  | false => simp only [Bool.false_eq_true, if_false, reduceCtorEq, false_and]
  | true => simp only [if_true, true_and]

theorem peerOf_isSome {s : Text × Std.TreeMap Text Text} {p : Peer} (h : Configures s p) :
    (peerOf s).isSome := by
  obtain ⟨text, htext, hspells⟩ := h.key
  have hkey : key32 text = some p.publicKey :=
    key32_eq_some_iff.mpr ⟨b64Decode_spells hspells, h.key_length⟩
  rw [peerOf, peerKey_eq_some_iff.mpr ⟨h.name, text, htext, hkey⟩]
  rfl

theorem strict_iff (s : Text × Std.TreeMap Text Text) :
    ("peer".toList <+: s.1 → Strict s.2) ↔ ∀ p, peerOf s = some p → Configures s p := by
  constructor
  · intro h p hp
    obtain ⟨key, hkey, rfl⟩ := Option.map_eq_some_iff.mp hp
    obtain ⟨hname, text, htext, hkey⟩ := peerKey_eq_some_iff.mp hkey
    exact (configures_peerAt_iff hname htext hkey).mpr (h hname)
  · intro h hname text htext hreadable
    obtain ⟨key, hkey⟩ := Option.isSome_iff_exists.mp ((readable_iff text).mp hreadable)
    have hpeer : peerOf s = some (peerAt key s.2) := by
      rw [peerOf, peerKey_eq_some_iff.mpr ⟨hname, text, htext, hkey⟩, Option.map_some]
    exact (configures_peerAt_iff hname htext hkey).mp (h _ hpeer) text htext hreadable

/-! ## The message -/

section Message

variable {family : UInt16} {ifname : Text} {privk : List UInt8} {port : UInt16} {cfg : Config}

theorem filterMap_peerOf (cfg : Config) :
    cfg.sections.toList.filterMap peerOf = (peersOf cfg).map fun peer => peerAt peer.1 peer.2 := by
  rw [peersOf, peersIn, List.map_filterMap]
  simp only [Option.map_map]
  rfl

/-- A message that fits carries the peers of the sections. -/
theorem carries_setDevice
    (h : ∀ a ∈ (deviceMsg family ifname privk port cfg).attrs, 4 + a.payload.length < 2 ^ 16)
    {ps : List Peer} :
    Carries (setDevice family ifname privk port cfg) ps ↔
      cfg.sections.toList.filterMap peerOf = ps := by
  have hinj : Function.Injective fun ps : List Peer => ps.zipIdx.map Prod.swap := by
    intro ps qs hpq
    have := congrArg (List.map Prod.snd) hpq
    simpa [Function.comp_def] using this
  have hnumbered : ((peersOf cfg).zipIdx.map fun peer => (peer.2, peerAt peer.1.1 peer.1.2)) =
      (cfg.sections.toList.filterMap peerOf).zipIdx.map Prod.swap := by
    rw [filterMap_peerOf, List.zipIdx_map, List.map_map]
    rfl
  rw [Carries, decodeDevice_setDevice h, Option.map_some, Option.some.injEq, hnumbered]
  exact hinj.eq_iff

theorem selects_peerOf_iff (sects : List (Text × Std.TreeMap Text Text)) :
    Selects Configures sects (sects.filterMap peerOf) ↔
      ∀ s ∈ sects, "peer".toList <+: s.1 → Strict s.2 := by
  simp only [strict_iff]
  exact selects_filterMap_iff (fun _ _ h => peerOf_isSome h) sects

/-- The message carries the peers that are asked for when no section is read leniently. -/
theorem carries_configured_iff
    (h : ∀ a ∈ (deviceMsg family ifname privk port cfg).attrs, 4 + a.payload.length < 2 ^ 16) :
    (∃ ps, Selects Configures cfg.sections.toList ps ∧
        Carries (setDevice family ifname privk port cfg) ps) ↔
      ∀ s ∈ cfg.sections.toList, "peer".toList <+: s.1 → Strict s.2 := by
  simp only [carries_setDevice h, exists_eq_right']
  exact selects_peerOf_iff cfg.sections.toList

end Message

def sampleKey : List UInt8 :=
  List.replicate 31 0 ++ [65]

/-- A peer with everything, and a section that is none for lack of a key. -/
def onePeer : Config :=
  Config.parse (unlines ["[lan]".toList, "ifname = br-lan".toList, "[peer1]".toList,
    "public_key = ".toList ++ Base64.encode sampleKey, "endpoint = 192.0.2.1:51820".toList,
    "keepalive = 25".toList, "allowed_ips = 10.7.0.2/32, nowhere, ".toList ++ "10.8.0.0".toList,
    "[peer2]".toList, "allowed_ips = 10.7.0.3/x".toList])

theorem onePeer_strict : ∀ s ∈ onePeer.sections.toList, "peer".toList <+: s.1 → Strict s.2 := by
  have hall : ∀ s ∈ onePeer.sections.toList, s.2["public_key".toList]? = none ∨
      (s.2["public_key".toList]? = some (Base64.encode sampleKey) ∧
        (itemsAt s.2).getD [] =
          ["10.7.0.2/32".toList, "nowhere".toList, "10.8.0.0".toList]) := by
    decide +kernel
  have hmasked : ∀ item ∈ ["10.7.0.2/32".toList, "nowhere".toList, "10.8.0.0".toList],
      Masked item := by
    have hnumeral : Numeral "32".toList 32 :=
      ⟨"32".toList, Or.inl rfl, by decide, List.all_eq_true.mp (by decide), by decide +kernel⟩
    have hsplit : splitOnce '/' "10.7.0.2/32".toList = some ("10.7.0.2".toList, "32".toList) := by
      decide +kernel
    have hmask := masked_of_splitOnce hsplit (Nat.le_refl 32) hnumeral
    have hnowhere : Masked "nowhere".toList := masked_of_not_mem (by decide +kernel)
    have haddress : Masked "10.8.0.0".toList := masked_of_not_mem (by decide +kernel)
    simp only [List.forall_mem_cons, List.not_mem_nil, false_implies, implies_true, and_true]
    exact ⟨hmask, hnowhere, haddress⟩
  intro s hs _ text htext _
  rcases hall s hs with hnone | ⟨hkey, hitems⟩
  · rw [htext] at hnone
    cases hnone
  · obtain rfl := Option.some.inj (htext.symm.trans hkey)
    rw [hitems]
    exact ⟨⟨sampleKey, Or.inl rfl⟩, hmasked⟩

theorem onePeer_fits : ∀ a ∈ (deviceMsg 28 "wg0".toList sampleKey 51820 onePeer).attrs,
    4 + a.payload.length < 2 ^ 16 :=
  (deviceMsg_fits_iff ..).mpr (by decide +kernel)

theorem carries_configured_onePeer :
    (∀ a ∈ (deviceMsg 28 "wg0".toList sampleKey 51820 onePeer).attrs,
      4 + a.payload.length < 2 ^ 16) ∧
    ∃ ps, Selects Configures onePeer.sections.toList ps ∧
      Carries (setDevice 28 "wg0".toList sampleKey 51820 onePeer) ps :=
  ⟨onePeer_fits, (carries_configured_iff onePeer_fits).mpr onePeer_strict⟩

/-- A peer with one allowed address, whose mask is no number. -/
def openMask : Config :=
  Config.parse (unlines ["[peer1]".toList, "public_key = ".toList ++ Base64.encode sampleKey,
    "allowed_ips = 10.8.0.0/x".toList])

/-- The entry becomes an address of its own. -/
theorem openMask_not_carried :
    (∀ a ∈ (deviceMsg 28 "wg0".toList sampleKey 51820 openMask).attrs,
      4 + a.payload.length < 2 ^ 16) ∧
    Carries (setDevice 28 "wg0".toList sampleKey 51820 openMask)
      [⟨sampleKey, none, none, [(⟨10, 8, 0, 0⟩, 32)]⟩] ∧
    ¬ ∃ ps, Selects Configures openMask.sections.toList ps ∧
      Carries (setDevice 28 "wg0".toList sampleKey 51820 openMask) ps := by
  have hfits : ∀ a ∈ (deviceMsg 28 "wg0".toList sampleKey 51820 openMask).attrs,
      4 + a.payload.length < 2 ^ 16 :=
    (deviceMsg_fits_iff ..).mpr (by decide +kernel)
  have hcarries : Carries (setDevice 28 "wg0".toList sampleKey 51820 openMask)
      [⟨sampleKey, none, none, [(⟨10, 8, 0, 0⟩, 32)]⟩] := by
    rw [carries_setDevice hfits]
    decide +kernel
  refine ⟨hfits, hcarries, ?_⟩
  intro h
  obtain ⟨ps, hselects, hps⟩ := h
  rw [← (carries_setDevice hfits).mp hps, selects_peerOf_iff] at hselects
  have hsect : ∃ s ∈ openMask.sections.toList, "peer".toList <+: s.1 ∧
      s.2["public_key".toList]? = some (Base64.encode sampleKey) ∧
      "10.8.0.0/x".toList ∈ (itemsAt s.2).getD [] := by
    decide +kernel
  obtain ⟨s, hs, hname, hkey, hitem⟩ := hsect
  have hreadable : Readable (Base64.encode sampleKey) :=
    (readable_iff _).mpr (by decide +kernel)
  obtain ⟨-, hmasked⟩ := hselects s hs hname _ hkey hreadable
  obtain ⟨n, -, hn⟩ := hmasked _ hitem ⟨10, 8, 0, 0⟩ ['x'] (by decide +kernel)
  exact hn.not_mem (c := 'x') (by decide) (by decide) (by simp)

end Lwrt.Wg
