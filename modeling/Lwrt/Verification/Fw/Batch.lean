import Lwrt.Applet.Fw
import Lwrt.Verification.Nl.Messages

/-! # The messages of the firewall

Each function of the firewall appends an attribute tree or a message, and the whole batch is a
list of messages with consecutive sequence numbers. -/

namespace Lwrt.Fw

open Library Nl

/-! ## Expressions -/

def exprTree (name : Text) (data : List Attr) : Attr :=
  .nested nftaListElem [.str nftaExprName (Utf8.encode name), .nested nftaExprData data]

/-- A data attribute with a raw value. -/
def valueTree (typ : UInt16) (bytes : List UInt8) : Attr :=
  .nested typ [.raw nftaDataValue bytes]

def verdictTree (code : UInt32) : Attr :=
  exprTree "immediate".toList [.leaf nftaImmediateDreg (toBe32 nftRegVerdict),
    .nested nftaImmediateData [.nested nftaDataVerdict [.leaf nftaVerdictCode (toBe32 code)]]]

def immediateTree (reg : UInt32) (bytes : List UInt8) : Attr :=
  exprTree "immediate".toList [.leaf nftaImmediateDreg (toBe32 reg),
    valueTree nftaImmediateData bytes]

def metaTree (key reg : UInt32) : Attr :=
  exprTree "meta".toList [.leaf nftaMetaKey (toBe32 key), .leaf nftaMetaDreg (toBe32 reg)]

def payloadTree (base offset len reg : UInt32) : Attr :=
  exprTree "payload".toList [.leaf nftaPayloadDreg (toBe32 reg),
    .leaf nftaPayloadBase (toBe32 base), .leaf nftaPayloadOffset (toBe32 offset),
    .leaf nftaPayloadLen (toBe32 len)]

def cmpTree (reg op : UInt32) (bytes : List UInt8) : Attr :=
  exprTree "cmp".toList [.leaf nftaCmpSreg (toBe32 reg), .leaf nftaCmpOp (toBe32 op),
    valueTree nftaCmpData bytes]

def ctTree : Attr :=
  exprTree "ct".toList [.leaf nftaCtKey (toBe32 nftCtState), .leaf nftaCtDreg (toBe32 nftReg1)]

def bitwiseTree : Attr :=
  exprTree "bitwise".toList [.leaf nftaBitwiseSreg (toBe32 nftReg1),
    .leaf nftaBitwiseDreg (toBe32 nftReg1), .leaf nftaBitwiseLen (toBe32 4),
    valueTree nftaBitwiseMask (toBe32 (ctEstablished ||| ctRelated)),
    valueTree nftaBitwiseXor (toBe32 0)]

def natTree : Attr :=
  exprTree "nat".toList [.leaf nftaNatType (toBe32 nftNatDnat),
    .leaf nftaNatFamily (toBe32 nfprotoIpv4), .leaf nftaNatRegAddrMin (toBe32 nftReg1),
    .leaf nftaNatRegProtoMin (toBe32 nftReg2)]

def masqTree : Attr :=
  exprTree "masq".toList []

theorem expr_eq (b : NlBuf) (name : Text) {build : NlBuf → NlBuf} {data : List Attr}
    (h : ∀ b, build b = putAll b data) : expr b name build = put b (exprTree name data) := by
  simp only [expr, h, exprTree, put, putAll]

theorem valueData_eq (b : NlBuf) (typ : UInt16) (bytes : List UInt8) :
    (valueData (b.beginNested typ).1 bytes).endNested (b.beginNested typ).2 =
      put b (valueTree typ bytes) := by
  simp only [valueData, valueTree, put, putAll]

theorem verdictExpr_eq (b : NlBuf) (code : UInt32) :
    verdictExpr b code = put b (verdictTree code) :=
  expr_eq b _ fun b => by simp only [putAll, put, NlBuf.attrU32Be]

theorem immediateValue_eq (b : NlBuf) (reg : UInt32) (bytes : List UInt8) :
    immediateValue b reg bytes = put b (immediateTree reg bytes) :=
  expr_eq b _ fun b => by simp only [putAll, put, NlBuf.attrU32Be, valueData_eq]

theorem metaLoad_eq (b : NlBuf) (key reg : UInt32) :
    metaLoad b key reg = put b (metaTree key reg) :=
  expr_eq b _ fun b => by simp only [putAll, put, NlBuf.attrU32Be]

theorem payloadLoad_eq (b : NlBuf) (base offset len reg : UInt32) :
    payloadLoad b base offset len reg = put b (payloadTree base offset len reg) :=
  expr_eq b _ fun b => by simp only [putAll, put, NlBuf.attrU32Be]

theorem cmp_eq (b : NlBuf) (reg op : UInt32) (bytes : List UInt8) :
    cmp b reg op bytes = put b (cmpTree reg op bytes) :=
  expr_eq b _ fun b => by simp only [putAll, put, NlBuf.attrU32Be, valueData_eq]

theorem ctStateMatch_eq (b : NlBuf) :
    ctStateMatch b = putAll b [ctTree, bitwiseTree, cmpTree nftReg1 nftCmpNeq (toBe32 0)] := by
  have hct (b : NlBuf) : expr b "ct".toList (fun b =>
      (b.attrU32Be nftaCtKey nftCtState).attrU32Be nftaCtDreg nftReg1) = put b ctTree :=
    expr_eq b _ fun b => by simp only [putAll, put, NlBuf.attrU32Be]
  rw [ctStateMatch, hct, cmp_eq, putAll, putAll, putAll, putAll]
  congr 1

/-! ## Rules -/

def ctAcceptTrees : List Attr :=
  [ctTree, bitwiseTree, cmpTree nftReg1 nftCmpNeq (toBe32 0), verdictTree nfAccept]

def iifAcceptTrees (ifname : Text) : List Attr :=
  [metaTree nftMetaIifname nftReg1, cmpTree nftReg1 nftCmpEq (Utf8.encode ifname ++ [0]),
    verdictTree nfAccept]

def l4protoAcceptTrees (proto : UInt8) : List Attr :=
  [metaTree nftMetaL4proto nftReg1, cmpTree nftReg1 nftCmpEq [proto], verdictTree nfAccept]

def dnatTrees (fwd : Forward) : List Attr :=
  [metaTree nftMetaL4proto nftReg1, cmpTree nftReg1 nftCmpEq [fwd.proto],
    payloadTree nftPayloadTransportHeader 2 2 nftReg1,
    cmpTree nftReg1 nftCmpEq (toBe16 fwd.dport), immediateTree nftReg1 fwd.destIp.octets,
    immediateTree nftReg2 (toBe16 fwd.destPort), natTree]

def forwardTrees (fwd : Forward) : List Attr :=
  [metaTree nftMetaL4proto nftReg1, cmpTree nftReg1 nftCmpEq [fwd.proto],
    payloadTree nftPayloadNetworkHeader 16 4 nftReg1,
    cmpTree nftReg1 nftCmpEq fwd.destIp.octets,
    payloadTree nftPayloadTransportHeader 2 2 nftReg1,
    cmpTree nftReg1 nftCmpEq (toBe16 fwd.destPort), verdictTree nfAccept]

/-! ## Messages -/

/-- Appends a message under the next sequence number. -/
def emit (st : Batch) (m : Msg) : Batch :=
  (putMsg st.1 { m with seq := st.2 }, st.2 + 1)

def batchMsg (msgType : UInt16) : Msg :=
  ⟨msgType, nlmFRequest, 0, [0, 0] ++ toBe16 nfnlSubsysNftables, []⟩

/-- A message of the `inet` family that creates something. -/
def createMsg (msg : UInt16) (attrs : List Attr) : Msg :=
  ⟨nftType msg, createFlags, 0, [nfprotoInet, 0] ++ toBe16 0, attrs⟩

def tableMsg : Msg :=
  createMsg nftMsgNewtable [.str nftaTableName (Utf8.encode table)]

def chainMsg (name chainType : Text) (hook priority policy : UInt32) : Msg :=
  createMsg nftMsgNewchain [.str nftaChainTable (Utf8.encode table),
    .str nftaChainName (Utf8.encode name),
    .nested nftaChainHook [.leaf nftaHookHooknum (toBe32 hook),
      .leaf nftaHookPriority (toBe32 priority)],
    .str nftaChainType (Utf8.encode chainType), .leaf nftaChainPolicy (toBe32 policy)]

def ruleMsg (chain : Text) (exprs : List Attr) : Msg :=
  createMsg nftMsgNewrule [.str nftaRuleTable (Utf8.encode table),
    .str nftaRuleChain (Utf8.encode chain), .nested nftaRuleExpressions exprs]

theorem nfgenmsg_eq (b : NlBuf) (family : UInt8) (resId : UInt16) :
    nfgenmsg b family resId = b.bytes ([family, 0] ++ toBe16 resId) := by
  rw [nfgenmsg, NlBuf.bytes, NlBuf.bytes, NlBuf.bytes, List.append_assoc]

theorem batchMessage_eq (st : Batch) (msgType : UInt16) :
    batchMessage st msgType = emit st (batchMsg msgType) := by
  simp only [batchMessage, nfgenmsg_eq, emit, batchMsg, putMsg, putAll]

theorem newTable_eq (st : Batch) : newTable st = emit st tableMsg := by
  simp only [newTable, nfgenmsg_eq, emit, tableMsg, createMsg, putMsg, putAll, put]

theorem newBaseChain_eq (st : Batch) (name chainType : Text) (hook priority policy : UInt32) :
    newBaseChain st name chainType hook priority policy =
      emit st (chainMsg name chainType hook priority policy) := by
  simp only [newBaseChain, nfgenmsg_eq, emit, chainMsg, createMsg, putMsg, putAll, put,
    NlBuf.attrU32Be]

theorem newRule_eq (st : Batch) (chain : Text) {build : NlBuf → NlBuf} {exprs : List Attr}
    (h : ∀ b, build b = putAll b exprs) :
    newRule st chain build = emit st (ruleMsg chain exprs) := by
  simp only [newRule, nfgenmsg_eq, emit, ruleMsg, createMsg, putMsg, putAll, put, h]

theorem ruleCtAccept_eq (st : Batch) (chain : Text) :
    ruleCtAccept st chain = emit st (ruleMsg chain ctAcceptTrees) :=
  newRule_eq st chain fun b => by
    simp only [ctStateMatch_eq, verdictExpr_eq, ctAcceptTrees, putAll]

theorem ruleIifAccept_eq (st : Batch) (chain ifname : Text) :
    ruleIifAccept st chain ifname = emit st (ruleMsg chain (iifAcceptTrees ifname)) := by
  rw [ruleIifAccept]
  refine newRule_eq st chain fun b => ?_
  simp only [metaLoad_eq, cmp_eq, verdictExpr_eq, iifAcceptTrees, putAll]

theorem ruleL4protoAccept_eq (st : Batch) (chain : Text) (proto : UInt8) :
    ruleL4protoAccept st chain proto = emit st (ruleMsg chain (l4protoAcceptTrees proto)) :=
  newRule_eq st chain fun b => by
    simp only [metaLoad_eq, cmp_eq, verdictExpr_eq, l4protoAcceptTrees, putAll]

theorem ruleDnat_eq (st : Batch) (fwd : Forward) :
    ruleDnat st fwd = emit st (ruleMsg "prerouting".toList (dnatTrees fwd)) := by
  have hnat (b : NlBuf) : expr b "nat".toList (fun b =>
      (((b.attrU32Be nftaNatType nftNatDnat).attrU32Be nftaNatFamily nfprotoIpv4).attrU32Be
        nftaNatRegAddrMin nftReg1).attrU32Be nftaNatRegProtoMin nftReg2) = put b natTree :=
    expr_eq b _ fun b => by simp only [putAll, put, NlBuf.attrU32Be]
  refine newRule_eq st _ fun b => ?_
  simp only [metaLoad_eq, cmp_eq, payloadLoad_eq, immediateValue_eq, hnat, dnatTrees, putAll]

theorem ruleForwardToDest_eq (st : Batch) (fwd : Forward) :
    ruleForwardToDest st fwd = emit st (ruleMsg "forward".toList (forwardTrees fwd)) :=
  newRule_eq st _ fun b => by
    simp only [metaLoad_eq, cmp_eq, payloadLoad_eq, verdictExpr_eq, forwardTrees, putAll]

/-! ## The batch -/

/-- The table and its chains. -/
def frameMsgs : List Msg :=
  [tableMsg,
    chainMsg "input".toList "filter".toList nfInetLocalIn 0 nfDrop,
    chainMsg "forward".toList "filter".toList nfInetForward 0 nfDrop,
    chainMsg "prerouting".toList "nat".toList nfInetPreRouting dstnatPrio nfAccept,
    chainMsg "postrouting".toList "nat".toList nfInetPostRouting 100 nfAccept]

/-- The rules that do not depend on the port forwards. -/
def baseRuleMsgs (lan : Text) : List Msg :=
  [ruleMsg "input".toList ctAcceptTrees,
    ruleMsg "input".toList (iifAcceptTrees "lo".toList),
    ruleMsg "input".toList (iifAcceptTrees lan),
    ruleMsg "input".toList (l4protoAcceptTrees ipprotoIcmp),
    ruleMsg "forward".toList ctAcceptTrees,
    ruleMsg "forward".toList (iifAcceptTrees lan)]

def forwardMsgs (forwards : List Forward) : List Msg :=
  forwards.map (fun f => ruleMsg "forward".toList (forwardTrees f)) ++
    forwards.map (fun f => ruleMsg "prerouting".toList (dnatTrees f))

def masqMsgs (masq : Bool) : List Msg :=
  if masq then [ruleMsg "postrouting".toList [masqTree]] else []

/-- What the batch creates, between its first and its last message. -/
def commandMsgs (lan : Text) (masq : Bool) (forwards : List Forward) : List Msg :=
  frameMsgs ++ baseRuleMsgs lan ++ forwardMsgs forwards ++ masqMsgs masq

theorem foldl_ruleForwardToDest (st : Batch) (forwards : List Forward) :
    forwards.foldl ruleForwardToDest st =
      (forwards.map fun f => ruleMsg "forward".toList (forwardTrees f)).foldl emit st := by
  have hstep : ruleForwardToDest =
      fun st f => emit st (ruleMsg "forward".toList (forwardTrees f)) := by
    funext st f
    exact ruleForwardToDest_eq st f
  rw [List.foldl_map, hstep]

theorem foldl_ruleDnat (st : Batch) (forwards : List Forward) :
    forwards.foldl ruleDnat st =
      (forwards.map fun f => ruleMsg "prerouting".toList (dnatTrees f)).foldl emit st := by
  have hstep : ruleDnat = fun st f => emit st (ruleMsg "prerouting".toList (dnatTrees f)) := by
    funext st f
    exact ruleDnat_eq st f
  rw [List.foldl_map, hstep]

theorem foldl_masqMsgs (st : Batch) (masq : Bool) :
    (masqMsgs masq).foldl emit st =
      if masq then newRule st "postrouting".toList fun b => expr b "masq".toList id else st := by
  cases masq with
  | false => simp [masqMsgs]
  | true =>
      have hmasq (b : NlBuf) : expr b "masq".toList id = putAll b [masqTree] := by
        have hempty (b : NlBuf) : id b = putAll b [] := by rw [putAll, id]
        rw [expr_eq b _ hempty, putAll, putAll, masqTree]
      simp only [masqMsgs, if_true, List.foldl_cons, List.foldl_nil, newRule_eq st _ hmasq]

/-- The batch holds its messages with sequence numbers from 1 on. -/
theorem buildRuleset_eq (lan : Text) (masq : Bool) (forwards : List Forward) :
    buildRuleset lan masq forwards =
      ((batchMsg nfnlMsgBatchBegin ::
        (commandMsgs lan masq forwards ++ [batchMsg nfnlMsgBatchEnd])).foldl emit ([], 1)).1 := by
  simp only [buildRuleset, batchMessage_eq, newTable_eq, newBaseChain_eq, ruleCtAccept_eq,
    ruleIifAccept_eq, ruleL4protoAccept_eq, foldl_ruleForwardToDest, foldl_ruleDnat,
    ← foldl_masqMsgs, commandMsgs, frameMsgs, baseRuleMsgs, forwardMsgs, List.foldl_cons,
    List.foldl_append, List.foldl_nil]

def numbered (seq : UInt32) : List Msg → List Msg
  | [] => []
  | m :: ms => { m with seq := seq } :: numbered (seq + 1) ms

theorem foldl_emit (st : Batch) (ms : List Msg) :
    (ms.foldl emit st).1 = (numbered st.2 ms).foldl putMsg st.1 := by
  induction ms generalizing st with
  | nil => rfl
  | cons m ms ih => rw [List.foldl_cons, ih, numbered, List.foldl_cons, emit]

theorem length_numbered (seq : UInt32) (ms : List Msg) : (numbered seq ms).length = ms.length := by
  induction ms generalizing seq with
  | nil => rfl
  | cons m ms ih => rw [numbered, List.length_cons, List.length_cons, ih]

theorem map_size_numbered (seq : UInt32) (ms : List Msg) :
    (numbered seq ms).map Msg.size = ms.map Msg.size := by
  induction ms generalizing seq with
  | nil => rfl
  | cons m ms ih => exact congrArg (m.size :: ·) (ih (seq + 1))

theorem numbered_append (seq : UInt32) (ms ns : List Msg) :
    ∃ next, numbered seq (ms ++ ns) = numbered seq ms ++ numbered next ns := by
  induction ms generalizing seq with
  | nil => exact ⟨seq, rfl⟩
  | cons m ms ih =>
      obtain ⟨next, hnext⟩ := ih (seq + 1)
      exact ⟨next, by rw [List.cons_append, numbered, hnext, numbered, List.cons_append]⟩

/-! ## The split of the batch -/

def batchMsgs (lan : Text) (masq : Bool) (forwards : List Forward) : List Msg :=
  batchMsg nfnlMsgBatchBegin :: (commandMsgs lan masq forwards ++ [batchMsg nfnlMsgBatchEnd])

/-- Between the two messages of the batch itself stand those of its commands. -/
theorem numbered_batchMsgs (lan : Text) (masq : Bool) (forwards : List Forward) :
    ∃ first last, numbered 1 (batchMsgs lan masq forwards) =
      first :: (numbered 2 (commandMsgs lan masq forwards) ++ [last]) ∧
        first.msgType = nfnlMsgBatchBegin ∧ last.msgType = nfnlMsgBatchEnd := by
  obtain ⟨last, hlast⟩ := numbered_append 2 (commandMsgs lan masq forwards)
    [batchMsg nfnlMsgBatchEnd]
  exact ⟨_, _, congrArg _ hlast, rfl, rfl⟩

/-- A number does not matter to what holds of the other fields. -/
theorem forall_mem_numbered {P : Msg → Prop} (hseq : ∀ m seq, P m → P { m with seq := seq })
    {ms : List Msg} (h : ∀ m ∈ ms, P m) (seq : UInt32) : ∀ m ∈ numbered seq ms, P m := by
  induction ms generalizing seq with
  | nil => simp [numbered]
  | cons m ms ih =>
      obtain ⟨hm, hms⟩ := List.forall_mem_cons.mp h
      exact List.forall_mem_cons.mpr ⟨hseq m seq hm, ih hms (seq + 1)⟩

theorem commandMsgs_aligned (lan : Text) (masq : Bool) (forwards : List Forward) :
    ∀ m ∈ commandMsgs lan masq forwards, m.Aligned := by
  have hcreate (msg : UInt16) (attrs : List Attr) : (createMsg msg attrs).Aligned := by
    simp [Msg.Aligned, createMsg]
  have hrule (chain : Text) (exprs : List Attr) : (ruleMsg chain exprs).Aligned := hcreate _ _
  simp only [commandMsgs, List.forall_mem_append]
  refine ⟨⟨⟨?_, ?_⟩, ?_⟩, ?_⟩
  · simp [frameMsgs, tableMsg, chainMsg, hcreate]
  · simp [baseRuleMsgs, hrule]
  · simp [forwardMsgs, hrule, or_imp, forall_and]
  · cases masq <;> simp [masqMsgs, hrule]

theorem batchMsgs_aligned (lan : Text) (masq : Bool) (forwards : List Forward) :
    ∀ m ∈ batchMsgs lan masq forwards, m.Aligned := by
  have hbatch (msgType : UInt16) : (batchMsg msgType).Aligned := by simp [Msg.Aligned, batchMsg]
  intro m hm
  simp only [batchMsgs, List.mem_cons, List.mem_append, List.not_mem_nil, or_false] at hm
  rcases hm with rfl | hm | rfl
  · exact hbatch _
  · exact commandMsgs_aligned lan masq forwards m hm
  · exact hbatch _

theorem buildRuleset_eq_flatMap (lan : Text) (masq : Bool) (forwards : List Forward) :
    buildRuleset lan masq forwards =
      (numbered 1 (batchMsgs lan masq forwards)).flatMap Msg.encode := by
  have haligned := forall_mem_numbered (fun _ _ h => h) (batchMsgs_aligned lan masq forwards) 1
  rw [← putMsgs_eq haligned, putMsgs, buildRuleset_eq, foldl_emit, batchMsgs]

/-- The lengths of the messages split the batch into them. -/
theorem messages_buildRuleset {lan : Text} {masq : Bool} {forwards : List Forward}
    (h : ∀ m ∈ commandMsgs lan masq forwards, m.size < 2 ^ 32) :
    messages (buildRuleset lan masq forwards) =
      some ((numbered 1 (batchMsgs lan masq forwards)).map Msg.encode) := by
  have hbatch (msgType : UInt16) : (batchMsg msgType).size < 2 ^ 32 := by
    simp [batchMsg, Msg.size, Msg.body, encodeAll]
  have hsize : ∀ m ∈ batchMsgs lan masq forwards, m.size < 2 ^ 32 := by
    intro m hm
    simp only [batchMsgs, List.mem_cons, List.mem_append, List.not_mem_nil, or_false] at hm
    rcases hm with rfl | hm | rfl
    · exact hbatch _
    · exact h m hm
    · exact hbatch _
  rw [buildRuleset_eq_flatMap]
  exact messages_flatMap
    (forall_mem_numbered (fun _ _ hm => hm) (batchMsgs_aligned lan masq forwards) 1)
    (forall_mem_numbered (P := fun m => m.size < 2 ^ 32) (fun _ _ hm => hm) hsize 1)

end Lwrt.Fw
