import Lwrt.Applet.Nl

/-! The kernel's side of nf_tables: how a batch becomes chains of rules, and how the rules
judge a packet. Attribute and key numbers are those of the kernel's interface. -/

namespace Lwrt.Nftables

open Library Nl

/-! ## Packets -/

inductive Family where
  | ipv4
  | ipv6
deriving DecidableEq, Repr

/-- `NFPROTO_IPV4` and `NFPROTO_IPV6`. -/
def Family.number : Family → UInt32
  | .ipv4 => 2
  | .ipv6 => 10

/-- The conntrack state of a packet. -/
inductive CtState where
  | invalid
  | established
  | related
  | new
  | untracked
deriving DecidableEq, Repr

/-- The bit for a state in the word that `ct state` loads. -/
def CtState.bit : CtState → UInt32
  | .invalid => 1
  | .established => 2
  | .related => 4
  | .new => 8
  | .untracked => 64

/-- A packet as a hook sees it. The network header is whole; the transport header is missing
on later fragments, and the socket on a packet that belongs to no local one. -/
structure Packet where
  family : Family
  ctState : CtState
  iifname : List UInt8
  l4proto : Option UInt8
  network : List UInt8
  transport : Option (List UInt8)
  skgid : Option UInt32
  iifname_length : iifname.length ≤ 15
  network_length : 20 ≤ network.length

/-! ## Expressions -/

inductive Verdict where
  | accept
  | drop
  | dnat (addr port : List UInt8)
  | masquerade
deriving DecidableEq, Repr

inductive CmpOp where
  | eq
  | neq
deriving DecidableEq, Repr

/-- The expressions that the firewall uses. -/
inductive Expr where
  | verdict (v : Verdict)
  | immediate (dreg : UInt32) (data : List UInt8)
  | load (key dreg : UInt32)
  | payload (base offset len dreg : UInt32)
  | cmp (sreg : UInt32) (op : CmpOp) (data : List UInt8)
  | ct (key dreg : UInt32)
  | bitwise (sreg dreg len : UInt32) (mask xor : List UInt8)
  | dnat (family addrMin protoMin : UInt32)
  | masq
deriving DecidableEq, Repr

/-! ## Registers -/

/-- The verdict register and the data registers, 16 bytes each. -/
abbrev Regs := List UInt8

def Regs.zero : Regs :=
  List.replicate 80 0

/-- Registers 1 to 4 are 16 bytes long; those from 8 on name the same bytes by words of 4. -/
def offset (reg : UInt32) : ℕ :=
  if reg.toNat ≤ 4 then 16 * reg.toNat else 16 + 4 * (reg.toNat - 8)

/-- A load fills the last word it touches with zeros, and leaves the words after it. -/
def Regs.store (regs : Regs) (reg : UInt32) (bytes : List UInt8) : Regs :=
  copyAt regs (offset reg) (NlBuf.pad bytes)

def Regs.read (regs : Regs) (reg : UInt32) (len : ℕ) : List UInt8 :=
  extract regs (offset reg) len

/-! ## Evaluation -/

/-- `skb_copy_bits`. -/
def copyBits (bytes : List UInt8) (start len : ℕ) : Option (List UInt8) :=
  if start + len ≤ bytes.length then some (extract bytes start len) else none

def Packet.loadMeta (p : Packet) (key : UInt32) : Option (List UInt8) :=
  if key = 6 then some (p.iifname ++ List.replicate (16 - p.iifname.length) 0)
  else if key = 11 then p.skgid.map toLe32
  else if key = 16 then p.l4proto.map ([·])
  else none

def Packet.loadPayload (p : Packet) (base start len : UInt32) : Option (List UInt8) :=
  if base = 1 then copyBits p.network start.toNat len.toNat
  else if base = 2 then p.transport.bind (copyBits · start.toNat len.toNat)
  else none

/-- What an expression does to the rule that it stands in. -/
inductive Outcome where
  | next (regs : Regs)
  | stop
  | judge (v : Verdict)

def storeOrStop (regs : Regs) (reg : UInt32) : Option (List UInt8) → Outcome
  | some bytes => .next (regs.store reg bytes)
  | none => .stop

def Expr.eval (p : Packet) (regs : Regs) : Expr → Outcome
  | .verdict v => .judge v
  | .immediate dreg data => .next (regs.store dreg data)
  | .load key dreg => storeOrStop regs dreg (p.loadMeta key)
  | .payload base start len dreg => storeOrStop regs dreg (p.loadPayload base start len)
  | .cmp sreg .eq data => if regs.read sreg data.length = data then .next regs else .stop
  | .cmp sreg .neq data => if regs.read sreg data.length = data then .stop else .next regs
  | .ct key dreg => storeOrStop regs dreg (if key = 0 then some (toLe32 p.ctState.bit) else none)
  | .bitwise sreg dreg len mask xor =>
      let masked := List.zipWith (· &&& ·) (regs.read sreg len.toNat) mask
      .next (regs.store dreg (List.zipWith (· ^^^ ·) masked xor))
  | .dnat family addrMin protoMin =>
      if family = p.family.number then
        .judge (.dnat (regs.read addrMin 4) (regs.read protoMin 2))
      else .next regs
  | .masq => .judge .masquerade

/-- A rule, from the registers that the rules before it left. -/
def evalRule (p : Packet) (regs : Regs) : List Expr → Option Verdict × Regs
  | [] => (none, regs)
  | e :: es =>
      match e.eval p regs with
      | .next regs => evalRule p regs es
      | .stop => (none, regs)
      | .judge v => (some v, regs)

/-- The first verdict of the rules. -/
def evalRules (p : Packet) (regs : Regs) : List (List Expr) → Option Verdict
  | [] => none
  | r :: rs =>
      match evalRule p regs r with
      | (some v, _) => some v
      | (none, regs) => evalRules p regs rs

/-! ## Chains -/

structure Chain where
  table : List UInt8
  name : List UInt8
  hook : UInt32
  policy : Verdict
  rules : List (List Expr)
deriving DecidableEq, Repr

def Chain.verdict (c : Chain) (p : Packet) : Verdict :=
  (evalRules p Regs.zero c.rules).getD c.policy

structure Ruleset where
  tables : List (List UInt8)
  chains : List Chain
deriving DecidableEq, Repr

def Ruleset.empty : Ruleset :=
  ⟨[], []⟩

/-- The chain that a hook calls. -/
def Ruleset.chainAt (rs : Ruleset) (hook : UInt32) : Option Chain :=
  rs.chains.find? (·.hook = hook)

inductive Command where
  | newTable (name : List UInt8)
  | newChain (table name : List UInt8) (hook : UInt32) (policy : Verdict)
  | newRule (table chain : List UInt8) (append : Bool) (exprs : List Expr)
deriving DecidableEq, Repr

/-- Without `NLM_F_APPEND` a rule goes to the head of its chain. -/
def Chain.addRule (c : Chain) (append : Bool) (exprs : List Expr) : Chain :=
  { c with rules := if append then c.rules ++ [exprs] else exprs :: c.rules }

/-- A table or a chain that exists is kept as it is. -/
def Ruleset.apply (rs : Ruleset) : Command → Option Ruleset
  | .newTable name =>
      if name ∈ rs.tables then some rs else some { rs with tables := rs.tables ++ [name] }
  | .newChain table name hook policy =>
      if table ∉ rs.tables then none
      else if rs.chains.any (fun c => c.table = table ∧ c.name = name) then some rs
      else some { rs with chains := rs.chains ++ [⟨table, name, hook, policy, []⟩] }
  | .newRule table chain append exprs =>
      if rs.chains.any (fun c => c.table = table ∧ c.name = chain) then
        some { rs with chains := rs.chains.map fun c =>
          if c.table = table ∧ c.name = chain then c.addRule append exprs else c }
      else none

/-! ## Decoding -/

/-- `nla_parse`: of two attributes with one type the later counts. -/
def attr? (attrs : List (UInt16 × List UInt8)) (typ : UInt16) : Option (List UInt8) :=
  (attrs.reverse.find? (·.1 = typ)).map (·.2)

def u32? (attrs : List (UInt16 × List UInt8)) (typ : UInt16) : Option UInt32 :=
  (attr? attrs typ).bind fun payload =>
    if payload.length = 4 then some (UInt32.ofNat (ofBeBytes payload)) else none

def nested? (attrs : List (UInt16 × List UInt8)) (typ : UInt16) :
    Option (List (UInt16 × List UInt8)) :=
  (attr? attrs typ).map forEachAttr

/-- A string ends at its first zero. -/
def str? (attrs : List (UInt16 × List UInt8)) (typ : UInt16) : Option (List UInt8) :=
  (attr? attrs typ).map (·.takeWhile (· ≠ 0))

/-- The bytes in a nested data attribute. -/
def value? (attrs : List (UInt16 × List UInt8)) (typ : UInt16) : Option (List UInt8) :=
  (nested? attrs typ).bind (attr? · 1)

/-- `NF_DROP` and `NF_ACCEPT`; the other codes are not modelled. -/
def decodeVerdict (code : UInt32) : Option Verdict :=
  if code = 0 then some .drop else if code = 1 then some .accept else none

def decodeOp (op : UInt32) : Option CmpOp :=
  if op = 0 then some .eq else if op = 1 then some .neq else none

def decodeImmediate (data : List (UInt16 × List UInt8)) : Option Expr := do
  let dreg ← u32? data 1
  if dreg = 0 then
    let verdict ← (nested? data 2).bind (nested? · 2)
    return .verdict (← (u32? verdict 1).bind decodeVerdict)
  else return .immediate dreg (← value? data 2)

def decodeBitwise (data : List (UInt16 × List UInt8)) : Option Expr := do
  return .bitwise (← u32? data 1) (← u32? data 2) (← u32? data 3) (← value? data 4)
    (← value? data 5)

/-- The expressions by name, on the attributes of their data. -/
def decodeData (name : List UInt8) (data : List (UInt16 × List UInt8)) : Option Expr :=
  if name = Utf8.encode "immediate".toList then decodeImmediate data
  else if name = Utf8.encode "meta".toList then do
    return .load (← u32? data 2) (← u32? data 1)
  else if name = Utf8.encode "payload".toList then do
    return .payload (← u32? data 2) (← u32? data 3) (← u32? data 4) (← u32? data 1)
  else if name = Utf8.encode "cmp".toList then do
    return .cmp (← u32? data 1) (← (u32? data 2).bind decodeOp) (← value? data 3)
  else if name = Utf8.encode "ct".toList then do
    return .ct (← u32? data 2) (← u32? data 1)
  else if name = Utf8.encode "bitwise".toList then decodeBitwise data
  else if name = Utf8.encode "nat".toList then do
    let typ ← u32? data 1
    if typ = 1 then return .dnat (← u32? data 2) (← u32? data 3) (← u32? data 5) else none
  else if name = Utf8.encode "masq".toList then some .masq
  else none

/-- An element of an expression list. -/
def decodeElem (elem : UInt16 × List UInt8) : Option Expr :=
  let attrs := forEachAttr elem.2
  (str? attrs 1).bind fun name => decodeData name ((nested? attrs 2).getD [])

/-- A message of the subsystem, from its type, its flags and its attributes. -/
def decodeCommand (msgType flags : UInt16) (attrs : List (UInt16 × List UInt8)) :
    Option Command :=
  if msgType = 0xa00 then do
    return .newTable (← str? attrs 1)
  else if msgType = 0xa03 then do
    let hook ← nested? attrs 4
    return .newChain (← str? attrs 1) (← str? attrs 3) (← u32? hook 1)
      (← (u32? attrs 5).bind decodeVerdict)
  else if msgType = 0xa06 then do
    let exprs ← ((nested? attrs 4).getD []).mapM decodeElem
    return .newRule (← str? attrs 1) (← str? attrs 2) (flags &&& 0x800 != 0) exprs
  else none

/-- The messages of a batch after its first one, up to the one that ends it. -/
def applyBatch (rs : Ruleset) : List (List UInt8) → Option Ruleset
  | [] => none
  | part :: parts =>
      let msgType := UInt16.ofNat (ofLeBytes (extract part 4 2))
      if msgType = 17 then some rs
      else do
        let flags := UInt16.ofNat (ofLeBytes (extract part 6 2))
        let command ← decodeCommand msgType flags (forEachAttr (part.drop 20))
        applyBatch (← rs.apply command) parts

/-- A batch is applied as a whole or not at all. -/
def Ruleset.load (rs : Ruleset) (buf : List UInt8) : Option Ruleset :=
  match messages buf with
  | some (first :: parts) =>
      if ofLeBytes (extract first 4 2) = 16 then applyBatch rs parts else none
  | _ => none

end Lwrt.Nftables
