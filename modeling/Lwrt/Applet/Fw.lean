import Lwrt.Applet.Config
import Lwrt.Applet.Nl
import Lwrt.Library.Ipv4

/-! The firewall: port forwards as the configuration lists them, and the batch of nf_tables
messages that programs the kernel. -/

namespace Lwrt.Fw

open Library Text Nl

/-! ## Constants -/

def nfnlSubsysNftables : UInt16 := 10

def nfnlMsgBatchBegin : UInt16 := 16
def nfnlMsgBatchEnd : UInt16 := 17

def nftMsgNewtable : UInt16 := 0
def nftMsgNewchain : UInt16 := 3
def nftMsgNewrule : UInt16 := 6

def nfprotoInet : UInt8 := 1
def nfprotoIpv4 : UInt32 := 2

def nfInetPreRouting : UInt32 := 0
def nfInetLocalIn : UInt32 := 1
def nfInetForward : UInt32 := 2
def nfInetPostRouting : UInt32 := 4

def nfDrop : UInt32 := 0
def nfAccept : UInt32 := 1

def nftaTableName : UInt16 := 1
def nftaChainTable : UInt16 := 1
def nftaChainName : UInt16 := 3
def nftaChainHook : UInt16 := 4
def nftaChainPolicy : UInt16 := 5
def nftaChainType : UInt16 := 7
def nftaHookHooknum : UInt16 := 1
def nftaHookPriority : UInt16 := 2
def nftaRuleTable : UInt16 := 1
def nftaRuleChain : UInt16 := 2
def nftaRuleExpressions : UInt16 := 4
def nftaListElem : UInt16 := 1
def nftaExprName : UInt16 := 1
def nftaExprData : UInt16 := 2
def nftaDataValue : UInt16 := 1
def nftaDataVerdict : UInt16 := 2
def nftaVerdictCode : UInt16 := 1
def nftaCtDreg : UInt16 := 1
def nftaCtKey : UInt16 := 2
def nftCtState : UInt32 := 0
def nftaBitwiseSreg : UInt16 := 1
def nftaBitwiseDreg : UInt16 := 2
def nftaBitwiseLen : UInt16 := 3
def nftaBitwiseMask : UInt16 := 4
def nftaBitwiseXor : UInt16 := 5
def nftaCmpSreg : UInt16 := 1
def nftaCmpOp : UInt16 := 2
def nftaCmpData : UInt16 := 3
def nftCmpEq : UInt32 := 0
def nftCmpNeq : UInt32 := 1
def nftaMetaDreg : UInt16 := 1
def nftaMetaKey : UInt16 := 2
def nftMetaIifname : UInt32 := 11
def nftMetaL4proto : UInt32 := 16
def nftaPayloadDreg : UInt16 := 2
def nftaPayloadBase : UInt16 := 1
def nftaPayloadOffset : UInt16 := 3
def nftaPayloadLen : UInt16 := 4
def nftPayloadNetworkHeader : UInt32 := 1
def nftPayloadTransportHeader : UInt32 := 2
def nftaImmediateDreg : UInt16 := 1
def nftaImmediateData : UInt16 := 2
def nftaNatType : UInt16 := 1
def nftaNatFamily : UInt16 := 2
def nftaNatRegAddrMin : UInt16 := 3
def nftaNatRegProtoMin : UInt16 := 5
def nftNatDnat : UInt32 := 1

def nftRegVerdict : UInt32 := 0
def nftReg1 : UInt32 := 1
def nftReg2 : UInt32 := 2

def ctEstablished : UInt32 := 2
def ctRelated : UInt32 := 4

def ipprotoTcp : UInt8 := 6
def ipprotoUdp : UInt8 := 17
def ipprotoIcmp : UInt8 := 1

def table : Text := "lwrt".toList

/-! ## Port forwards -/

structure Forward where
  proto : UInt8
  dport : UInt16
  destIp : Ipv4Addr
  destPort : UInt16
deriving DecidableEq, Repr

def parseProto (s : Text) : Option UInt8 :=
  let name := s.map Char.toLower
  if name = "tcp".toList then some ipprotoTcp
  else if name = "udp".toList then some ipprotoUdp
  else none

def parsePort (s : Text) : Option UInt16 :=
  (parseUnsigned (2 ^ 16) s).map UInt16.ofNat

/-- One `proto:wan_dport:dest_ip:dest_port`; a missing or a fifth field is an error. -/
def parseForward (spec : Text) : Option Forward :=
  match (trim spec).splitOn ':' with
  | [proto, dport, destIp, destPort] => do
      let proto ← parseProto (trim proto)
      let dport ← parsePort (trim dport)
      let destIp ← Ipv4Addr.ofText (trim destIp)
      let destPort ← parsePort (trim destPort)
      some { proto, dport, destIp, destPort }
  | _ => none

def parseForwards (spec : Text) : List Forward :=
  (((spec.splitOn ',').map trim).filter (· ≠ [])).filterMap parseForward

/-! ## Expressions -/

def nftType (msg : UInt16) : UInt16 :=
  nfnlSubsysNftables <<< 8 ||| msg

/-- Family, version and resource id. -/
def nfgenmsg (b : NlBuf) (family : UInt8) (resId : UInt16) : NlBuf :=
  (b.bytes [family, 0]).bytes (toBe16 resId)

def valueData (b : NlBuf) (bytes : List UInt8) : NlBuf :=
  let s := b.beginNested nftaDataValue
  (s.1.bytes bytes).endNested s.2

def expr (b : NlBuf) (name : Text) (buildData : NlBuf → NlBuf) : NlBuf :=
  let elem := b.beginNested nftaListElem
  let data := (elem.1.attrStr nftaExprName (Utf8.encode name)).beginNested nftaExprData
  ((buildData data.1).endNested data.2).endNested elem.2

def verdictExpr (b : NlBuf) (code : UInt32) : NlBuf :=
  expr b "immediate".toList fun b =>
    let data := (b.attrU32Be nftaImmediateDreg nftRegVerdict).beginNested nftaImmediateData
    let verdict := data.1.beginNested nftaDataVerdict
    ((verdict.1.attrU32Be nftaVerdictCode code).endNested verdict.2).endNested data.2

def immediateValue (b : NlBuf) (reg : UInt32) (bytes : List UInt8) : NlBuf :=
  expr b "immediate".toList fun b =>
    let data := (b.attrU32Be nftaImmediateDreg reg).beginNested nftaImmediateData
    (valueData data.1 bytes).endNested data.2

def metaLoad (b : NlBuf) (key reg : UInt32) : NlBuf :=
  expr b "meta".toList fun b =>
    (b.attrU32Be nftaMetaKey key).attrU32Be nftaMetaDreg reg

def payloadLoad (b : NlBuf) (base offset len reg : UInt32) : NlBuf :=
  expr b "payload".toList fun b =>
    (((b.attrU32Be nftaPayloadDreg reg).attrU32Be nftaPayloadBase base).attrU32Be
      nftaPayloadOffset offset).attrU32Be nftaPayloadLen len

def cmp (b : NlBuf) (reg op : UInt32) (bytes : List UInt8) : NlBuf :=
  expr b "cmp".toList fun b =>
    let data := ((b.attrU32Be nftaCmpSreg reg).attrU32Be nftaCmpOp op).beginNested nftaCmpData
    (valueData data.1 bytes).endNested data.2

/-- Load of the conntrack state, mask and comparison with zero. -/
def ctStateMatch (b : NlBuf) : NlBuf :=
  let b := expr b "ct".toList fun b =>
    (b.attrU32Be nftaCtKey nftCtState).attrU32Be nftaCtDreg nftReg1
  let b := expr b "bitwise".toList fun b =>
    let mask := (((b.attrU32Be nftaBitwiseSreg nftReg1).attrU32Be nftaBitwiseDreg
      nftReg1).attrU32Be nftaBitwiseLen 4).beginNested nftaBitwiseMask
    let xor := ((valueData mask.1 (toBe32 (ctEstablished ||| ctRelated))).endNested
      mask.2).beginNested nftaBitwiseXor
    (valueData xor.1 (toBe32 0)).endNested xor.2
  cmp b nftReg1 nftCmpNeq (toBe32 0)

/-! ## Messages -/

/-- The buffer and the sequence number of the next message. -/
abbrev Batch := NlBuf × UInt32

/-- Flags of the messages that create something. -/
def createFlags : UInt16 :=
  nlmFRequest ||| nlmFCreate ||| nlmFAck

def newBaseChain (st : Batch) (name chainType : Text) (hook priority policy : UInt32) : Batch :=
  let msg := st.1.beginMessage (nftType nftMsgNewchain) createFlags st.2
  let b := nfgenmsg msg.1 nfprotoInet 0
  let b := b.attrStr nftaChainTable (Utf8.encode table)
  let b := b.attrStr nftaChainName (Utf8.encode name)
  let hookS := b.beginNested nftaChainHook
  let b := ((hookS.1.attrU32Be nftaHookHooknum hook).attrU32Be nftaHookPriority
    priority).endNested hookS.2
  let b := b.attrStr nftaChainType (Utf8.encode chainType)
  let b := b.attrU32Be nftaChainPolicy policy
  (b.endMessage msg.2, st.2 + 1)

def newRule (st : Batch) (chain : Text) (buildExprs : NlBuf → NlBuf) : Batch :=
  let msg := st.1.beginMessage (nftType nftMsgNewrule) createFlags st.2
  let b := nfgenmsg msg.1 nfprotoInet 0
  let b := b.attrStr nftaRuleTable (Utf8.encode table)
  let b := b.attrStr nftaRuleChain (Utf8.encode chain)
  let exprs := b.beginNested nftaRuleExpressions
  let b := (buildExprs exprs.1).endNested exprs.2
  (b.endMessage msg.2, st.2 + 1)

def ruleCtAccept (st : Batch) (chain : Text) : Batch :=
  newRule st chain fun b => verdictExpr (ctStateMatch b) nfAccept

def ruleIifAccept (st : Batch) (chain ifname : Text) : Batch :=
  let name := Utf8.encode ifname ++ [0]
  newRule st chain fun b =>
    let b := metaLoad b nftMetaIifname nftReg1
    let b := cmp b nftReg1 nftCmpEq name
    verdictExpr b nfAccept

def ruleL4protoAccept (st : Batch) (chain : Text) (proto : UInt8) : Batch :=
  newRule st chain fun b =>
    let b := metaLoad b nftMetaL4proto nftReg1
    let b := cmp b nftReg1 nftCmpEq [proto]
    verdictExpr b nfAccept

def ruleDnat (st : Batch) (fwd : Forward) : Batch :=
  newRule st "prerouting".toList fun b =>
    let b := metaLoad b nftMetaL4proto nftReg1
    let b := cmp b nftReg1 nftCmpEq [fwd.proto]
    let b := payloadLoad b nftPayloadTransportHeader 2 2 nftReg1
    let b := cmp b nftReg1 nftCmpEq (toBe16 fwd.dport)
    let b := immediateValue b nftReg1 fwd.destIp.octets
    let b := immediateValue b nftReg2 (toBe16 fwd.destPort)
    expr b "nat".toList fun b =>
      (((b.attrU32Be nftaNatType nftNatDnat).attrU32Be nftaNatFamily nfprotoIpv4).attrU32Be
        nftaNatRegAddrMin nftReg1).attrU32Be nftaNatRegProtoMin nftReg2

def ruleForwardToDest (st : Batch) (fwd : Forward) : Batch :=
  newRule st "forward".toList fun b =>
    let b := metaLoad b nftMetaL4proto nftReg1
    let b := cmp b nftReg1 nftCmpEq [fwd.proto]
    let b := payloadLoad b nftPayloadNetworkHeader 16 4 nftReg1
    let b := cmp b nftReg1 nftCmpEq fwd.destIp.octets
    let b := payloadLoad b nftPayloadTransportHeader 2 2 nftReg1
    let b := cmp b nftReg1 nftCmpEq (toBe16 fwd.destPort)
    verdictExpr b nfAccept

/-- The messages that open and close a batch. -/
def batchMessage (st : Batch) (msgType : UInt16) : Batch :=
  let msg := st.1.beginMessage msgType nlmFRequest st.2
  ((nfgenmsg msg.1 0 nfnlSubsysNftables).endMessage msg.2, st.2 + 1)

def newTable (st : Batch) : Batch :=
  let msg := st.1.beginMessage (nftType nftMsgNewtable) createFlags st.2
  let b := nfgenmsg msg.1 nfprotoInet 0
  let b := b.attrStr nftaTableName (Utf8.encode table)
  (b.endMessage msg.2, st.2 + 1)

/-- `-100` as a 32-bit word. -/
def dstnatPrio : UInt32 :=
  0 - 100

def buildRuleset (lan : Text) (masq : Bool) (forwards : List Forward) : NlBuf :=
  let st := batchMessage ([], 1) nfnlMsgBatchBegin
  let st := newTable st
  let st := newBaseChain st "input".toList "filter".toList nfInetLocalIn 0 nfDrop
  let st := newBaseChain st "forward".toList "filter".toList nfInetForward 0 nfDrop
  let st := newBaseChain st "prerouting".toList "nat".toList nfInetPreRouting dstnatPrio nfAccept
  let st := newBaseChain st "postrouting".toList "nat".toList nfInetPostRouting 100 nfAccept
  let st := ruleCtAccept st "input".toList
  let st := ruleIifAccept st "input".toList "lo".toList
  let st := ruleIifAccept st "input".toList lan
  let st := ruleL4protoAccept st "input".toList ipprotoIcmp
  let st := ruleCtAccept st "forward".toList
  let st := ruleIifAccept st "forward".toList lan
  let st := forwards.foldl ruleForwardToDest st
  let st := forwards.foldl ruleDnat st
  let st := if masq then newRule st "postrouting".toList fun b => expr b "masq".toList id else st
  (batchMessage st nfnlMsgBatchEnd).1

/-! ## Programming -/

def eagain : Int32 := 11

/-- What the calls of `program` meet: the one that opens the socket, the one that sends the batch,
and the receives after it, one by one. A receive beyond them waits for ever. -/
structure Kernel where
  opened : Except Int32 Unit
  sent : NlBuf → Except Int32 Unit
  answers : NlBuf → List (Except Int32 (List UInt8))

/-- How many receives were called, and what is returned, if the last one does not wait. -/
structure Programmed where
  receives : ℕ
  result : Option (Except Int32 Unit)

/-- The loop over the acknowledgements, for a number of turns. -/
def drain : ℕ → List (Except Int32 (List UInt8)) → Programmed
  | 0, _ => ⟨0, some (.ok ())⟩
  | _ + 1, [] => ⟨1, none⟩
  | turns + 1, received :: queue =>
      match recvAck received with
      | .ok () => ⟨(drain turns queue).receives + 1, (drain turns queue).result⟩
      | .error e => ⟨1, some (if e = eagain then .ok () else .error e)⟩

def program (k : Kernel) (buf : NlBuf) : Programmed :=
  match k.opened, k.sent buf with
  | .error e, _ => ⟨0, some (.error e)⟩
  | .ok (), .error e => ⟨0, some (.error e)⟩
  | .ok (), .ok () => drain 32 (k.answers buf)

/-- What is programmed under a configuration. -/
def run (cfg : Config) : NlBuf :=
  let lan := cfg.getOr "lan".toList "ifname".toList "br-lan".toList
  let masq := cfg.getOr "firewall".toList "masq".toList "1".toList == "1".toList
  let forwards := parseForwards (cfg.getOr "firewall".toList "forward".toList [])
  buildRuleset lan masq forwards

end Lwrt.Fw
