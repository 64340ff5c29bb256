import Lwrt.Model.Nftables
import Lwrt.Verification.Fw.Batch

/-! # What the kernel decodes

Expression by expression and message by message, the kernel's reading of what the firewall
writes. -/

namespace Lwrt.Nftables

open Library Nl

/-! ## Attributes -/

theorem u32?_eq {attrs : List (UInt16 × List UInt8)} {typ : UInt16} {v : UInt32}
    (h : attr? attrs typ = some (toBe32 v)) : u32? attrs typ = some v := by
  rw [u32?, h, Option.bind_some, if_pos (length_toBe32 v), ofBeBytes_toBe32, UInt32.ofNat_toNat]

theorem nested?_eq {attrs : List (UInt16 × List UInt8)} {typ : UInt16} {as : List Attr}
    (h : attr? attrs typ = some (encodeAll as)) (hfits : FitAll as) :
    nested? attrs typ = some (as.map Attr.item) := by
  rw [nested?, h, Option.map_some, forEachAttr_encodeAll hfits]

theorem value?_eq {attrs : List (UInt16 × List UInt8)} {typ : UInt16} {bytes : List UInt8}
    (h : attr? attrs typ = some (encodeAll [.raw 1 bytes])) (hlen : 4 + bytes.length < 2 ^ 16) :
    value? attrs typ = some bytes := by
  have hfits : FitAll [.raw 1 bytes] := ⟨⟨by decide, hlen⟩, trivial⟩
  rw [value?, nested?_eq h hfits]
  rfl

theorem str?_eq {attrs : List (UInt16 × List UInt8)} {typ : UInt16} {s : List UInt8}
    (h : attr? attrs typ = some (s ++ [0])) (hs : 0 ∉ s) : str? attrs typ = some s := by
  have hall : ∀ x ∈ s, decide (x ≠ 0) := by
    intro x hx
    exact decide_eq_true fun hzero => hs (hzero ▸ hx)
  rw [str?, h, Option.map_some, List.takeWhile_append_of_pos hall]
  simp

end Lwrt.Nftables

namespace Lwrt.Fw

open Library Nl Nftables

/-! ## Expressions -/

theorem decodeElem_exprTree {name : Text} {data : List Attr} (h : (exprTree name data).Fits)
    (hname : 0 ∉ Utf8.encode name) :
    decodeElem (exprTree name data).item =
      decodeData (Utf8.encode name) (data.map Attr.item) := by
  obtain ⟨-, -, hfits⟩ := h
  have hpayload : (exprTree name data).item.2 =
      encodeAll [.str nftaExprName (Utf8.encode name), .nested nftaExprData data] := by
    rw [Attr.item, exprTree, Attr.payload]
  rw [decodeElem, hpayload, forEachAttr_encodeAll hfits, str?_eq rfl hname,
    nested?_eq (by rfl) hfits.2.1.2.2, Option.bind_some, Option.getD_some]

/-- Trees that are far from the limits of the length fields. -/
structure Small (a : Attr) : Prop where
  typed : a.typed
  weight : a.weight ≤ 256

theorem Small.fits {a : Attr} (h : Small a) : a.Fits := by
  have hweight := h.weight
  exact Attr.fits_of_weight a h.typed (by omega)

theorem exprTree_small {name : Text} {data : List Attr} (hname : (Utf8.encode name).length ≤ 16)
    (ht : typedAll data) (hw : weights data ≤ 192) : Small (exprTree name data) where
  typed := by
    simp only [exprTree, Attr.typed, typedAll, ht, Bool.and_true, Bool.and_eq_true,
      decide_eq_true_eq]
    decide
  weight := by
    simp only [exprTree, Attr.weight, weights]
    omega

/-- The kernel reads a tree as an expression. -/
structure Reads (a : Attr) (e : Expr) : Prop where
  small : Small a
  decodes : decodeElem a.item = some e

theorem reads_exprTree {name : Text} {data : List Attr} {e : Expr}
    (hname : (Utf8.encode name).length ≤ 16) (hzero : 0 ∉ Utf8.encode name) (ht : typedAll data)
    (hw : weights data ≤ 192)
    (h : decodeData (Utf8.encode name) (data.map Attr.item) = some e) :
    Reads (exprTree name data) e where
  small := exprTree_small hname ht hw
  decodes := by rw [decodeElem_exprTree (exprTree_small hname ht hw).fits hzero, h]

theorem verdictTree_reads {code : UInt32} {v : Verdict} (h : decodeVerdict code = some v) :
    Reads (verdictTree code) (.verdict v) := by
  have hcode : u32? ([.leaf nftaVerdictCode (toBe32 code)].map Attr.item) 1 = some code :=
    u32?_eq rfl
  have hdata : FitAll [.nested nftaDataVerdict [.leaf nftaVerdictCode (toBe32 code)]] :=
    fitAll_of_weights _ rfl (by simp [weights, Attr.weight])
  refine reads_exprTree (by decide) (by decide) rfl (by simp [weights, Attr.weight]) ?_
  rw [decodeData, if_pos rfl, decodeImmediate, u32?_eq (by rfl), nested?_eq (by rfl) hdata,
    Option.bind_some, nested?_eq (by rfl) hdata.1.2.2]
  simp only [Option.bind_eq_bind, Option.bind_some, nftRegVerdict, if_true, hcode, h]
  rfl

theorem immediateTree_reads {reg : UInt32} (hreg : reg ≠ 0) {bytes : List UInt8}
    (h : bytes.length ≤ 16) : Reads (immediateTree reg bytes) (.immediate reg bytes) := by
  refine reads_exprTree (by decide) (by decide) rfl ?_ ?_
  · simp only [weights, Attr.weight, valueTree, length_toBe32]
    omega
  · rw [decodeData, if_pos rfl, decodeImmediate, u32?_eq (by rfl), value?_eq (by rfl) (by omega)]
    exact if_neg hreg

theorem metaTree_reads (key reg : UInt32) : Reads (metaTree key reg) (.load key reg) := by
  refine reads_exprTree (by decide) (by decide) rfl (by simp [weights, Attr.weight]) ?_
  rw [decodeData, if_neg (by decide), if_pos rfl, u32?_eq (by rfl), u32?_eq (by rfl)]
  rfl

/-- The kernel takes the register for the base and the base for the register. -/
theorem payloadTree_reads (base offset len reg : UInt32) :
    Reads (payloadTree base offset len reg) (.payload reg offset len base) := by
  refine reads_exprTree (by decide) (by decide) rfl (by simp [weights, Attr.weight]) ?_
  rw [decodeData, if_neg (by decide), if_neg (by decide), if_pos rfl, u32?_eq (by rfl),
    u32?_eq (by rfl), u32?_eq (by rfl), u32?_eq (by rfl)]
  rfl

theorem cmpTree_reads (reg : UInt32) {op : UInt32} {o : CmpOp} (ho : decodeOp op = some o)
    {bytes : List UInt8} (h : bytes.length ≤ 16) :
    Reads (cmpTree reg op bytes) (.cmp reg o bytes) := by
  refine reads_exprTree (by decide) (by decide) rfl ?_ ?_
  · simp only [weights, Attr.weight, valueTree, length_toBe32]
    omega
  · rw [decodeData, if_neg (by decide), if_neg (by decide), if_neg (by decide), if_pos rfl,
      u32?_eq (by rfl), u32?_eq (by rfl), Option.bind_some, ho, value?_eq (by rfl) (by omega)]
    rfl

/-- The mask is in network byte order. -/
theorem ctStateMatch_reads :
    Reads ctTree (.ct 0 1) ∧
    Reads bitwiseTree (.bitwise 1 1 4 [0, 0, 0, 6] [0, 0, 0, 0]) := by
  constructor
  · exact reads_exprTree (by decide) (by decide) rfl (by simp [weights, Attr.weight])
      (by decide +kernel)
  · exact reads_exprTree (by decide) (by decide) rfl (by simp [weights, Attr.weight, valueTree])
      (by decide +kernel)

theorem natTree_reads : Reads natTree (.dnat 2 1 2) :=
  reads_exprTree (by decide) (by decide) rfl (by simp [weights, Attr.weight]) (by decide +kernel)

theorem masqTree_reads : Reads masqTree .masq :=
  reads_exprTree (by decide) (by decide) rfl (by simp [weights]) (by decide +kernel)

/-! ## Rules -/

/-- The kernel reads the trees of a rule as its expressions. -/
structure Compiles (trees : List Attr) (rule : List Expr) : Prop where
  reads : List.Forall₂ Reads trees rule
  length : trees.length ≤ 8

def ctAcceptRule : List Expr :=
  [.ct 0 1, .bitwise 1 1 4 [0, 0, 0, 6] [0, 0, 0, 0], .cmp 1 .neq [0, 0, 0, 0], .verdict .accept]

/-- Key 11 is the group of the packet's socket. -/
def iifAcceptRule (name : List UInt8) : List Expr :=
  [.load 11 1, .cmp 1 .eq (name ++ [0]), .verdict .accept]

def l4protoAcceptRule (proto : UInt8) : List Expr :=
  [.load 16 1, .cmp 1 .eq [proto], .verdict .accept]

/-- The port goes from the network header to the second register, and the comparison reads
the first one. -/
def dnatRule (fwd : Forward) : List Expr :=
  [.load 16 1, .cmp 1 .eq [fwd.proto], .payload 1 2 2 2, .cmp 1 .eq (toBe16 fwd.dport),
    .immediate 1 fwd.destIp.octets, .immediate 2 (toBe16 fwd.destPort), .dnat 2 1 2]

def forwardRule (fwd : Forward) : List Expr :=
  [.load 16 1, .cmp 1 .eq [fwd.proto], .payload 1 16 4 1, .cmp 1 .eq fwd.destIp.octets,
    .payload 1 2 2 2, .cmp 1 .eq (toBe16 fwd.destPort), .verdict .accept]

theorem ctAccept_compiles : Compiles ctAcceptTrees ctAcceptRule := by
  obtain ⟨hct, hbitwise⟩ := ctStateMatch_reads
  refine ⟨.cons hct (.cons hbitwise (.cons ?_ (.cons ?_ .nil))), by decide⟩
  · exact cmpTree_reads nftReg1 rfl (by decide)
  · exact verdictTree_reads rfl

theorem iifAccept_compiles {ifname : Text} (h : (Utf8.encode ifname).length ≤ 15) :
    Compiles (iifAcceptTrees ifname) (iifAcceptRule (Utf8.encode ifname)) := by
  refine ⟨.cons (metaTree_reads _ _) (.cons ?_ (.cons (verdictTree_reads rfl) .nil)),
    by simp [iifAcceptTrees]⟩
  exact cmpTree_reads nftReg1 rfl (by rw [List.length_append, List.length_singleton]; omega)

theorem l4protoAccept_compiles (proto : UInt8) :
    Compiles (l4protoAcceptTrees proto) (l4protoAcceptRule proto) := by
  refine ⟨.cons (metaTree_reads _ _) (.cons ?_ (.cons (verdictTree_reads rfl) .nil)),
    by simp [l4protoAcceptTrees]⟩
  exact cmpTree_reads nftReg1 rfl (by simp)

theorem dnat_compiles (fwd : Forward) : Compiles (dnatTrees fwd) (dnatRule fwd) where
  reads :=
    .cons (metaTree_reads _ _) <| .cons (cmpTree_reads nftReg1 rfl (by simp)) <|
    .cons (payloadTree_reads _ _ _ _) <| .cons (cmpTree_reads nftReg1 rfl (by simp)) <|
    .cons (immediateTree_reads (by decide) (by simp [Ipv4Addr.octets])) <|
    .cons (immediateTree_reads (by decide) (by simp)) <| .cons natTree_reads .nil
  length := by simp [dnatTrees]

theorem forward_compiles (fwd : Forward) : Compiles (forwardTrees fwd) (forwardRule fwd) where
  reads :=
    .cons (metaTree_reads _ _) <| .cons (cmpTree_reads nftReg1 rfl (by simp)) <|
    .cons (payloadTree_reads _ _ _ _) <|
    .cons (cmpTree_reads nftReg1 rfl (by simp [Ipv4Addr.octets])) <|
    .cons (payloadTree_reads _ _ _ _) <| .cons (cmpTree_reads nftReg1 rfl (by simp)) <|
    .cons (verdictTree_reads rfl) .nil
  length := by simp [forwardTrees]

theorem masq_compiles : Compiles [masqTree] [.masq] :=
  ⟨.cons masqTree_reads .nil, by decide⟩

theorem Compiles.typedAll {trees : List Attr} {rule : List Expr} (h : Compiles trees rule) :
    typedAll trees := by
  obtain ⟨hreads, -⟩ := h
  induction hreads with
  | nil => rfl
  | cons hhead _ ih => rw [Nl.typedAll, hhead.small.typed, ih, Bool.and_true]

theorem Compiles.weights {trees : List Attr} {rule : List Expr} (h : Compiles trees rule) :
    weights trees ≤ 2048 := by
  have hsum : Nl.weights trees ≤ 256 * trees.length := by
    obtain ⟨hreads, -⟩ := h
    induction hreads with
    | nil => simp [Nl.weights]
    | cons hhead _ ih =>
        have hweight := hhead.small.weight
        rw [Nl.weights, List.length_cons]
        omega
  have hlength := h.length
  omega

theorem Compiles.mapM {trees : List Attr} {rule : List Expr} (h : Compiles trees rule) :
    (trees.map Attr.item).mapM decodeElem = some rule := by
  obtain ⟨hreads, -⟩ := h
  induction hreads with
  | nil => rfl
  | cons hhead _ ih =>
      rw [List.map_cons, List.mapM_cons, hhead.decodes, ih]
      rfl

end Lwrt.Fw
