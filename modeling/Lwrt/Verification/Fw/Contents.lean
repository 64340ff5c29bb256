import Lwrt.Library.Selection
import Lwrt.Verification.Fw.Loading

/-! # What the batch contains

The port forwards of the configuration are read from one text, and come back as rules of the
batch that is built from it. -/

namespace Lwrt.Fw

open Library Text Nl Nftables

/-! ## The items of the text -/

/-- The name of a protocol, in any case. -/
def SpellsProto (s : Text) (proto : UInt8) : Prop :=
  (s.map Char.toLower = "tcp".toList ∧ proto = 6) ∨
    (s.map Char.toLower = "udp".toList ∧ proto = 17)

/-- A well-formed item `proto:port:ip:port`, with whitespace around it and its fields. -/
def Specifies (item : Text) (f : Forward) : Prop :=
  ∃ proto dport destIp destPort,
    trim item = [':'].intercalate [proto, dport, destIp, destPort] ∧
    (∀ field ∈ [proto, dport, destIp, destPort], ':' ∉ field) ∧
    SpellsProto (trim proto) f.proto ∧ Numeral (trim dport) f.dport.toNat ∧
    trim destIp = f.destIp.toText ∧ Numeral (trim destPort) f.destPort.toNat

/-- The forwards that the well-formed ones among the items specify, in order. -/
abbrev Selects : List Text → List Forward → Prop :=
  Library.Selects Specifies

theorem parseProto_eq_some_iff {s : Text} {proto : UInt8} :
    parseProto s = some proto ↔ SpellsProto s proto := by
  have hne : "tcp".toList ≠ "udp".toList := by decide
  simp only [parseProto, SpellsProto]
  generalize "tcp".toList = tcp, "udp".toList = udp at hne
  by_cases htcp : s.map Char.toLower = tcp
  · simp [htcp, hne, ipprotoTcp, eq_comm]
  · by_cases hudp : s.map Char.toLower = udp
    · simp [hudp, hne.symm, ipprotoUdp, eq_comm]
    · simp [htcp, hudp]

theorem parsePort_eq_some_iff {s : Text} {port : UInt16} :
    parsePort s = some port ↔ Numeral s port.toNat := by
  rw [parsePort, parseU16_eq_some_iff]

theorem splitOn_eq_iff {c : Char} {s : Text} {fields : List Text} (h : fields ≠ []) :
    s.splitOn c = fields ↔ s = [c].intercalate fields ∧ ∀ field ∈ fields, c ∉ field := by
  constructor
  · intro hsplit
    rw [← hsplit]
    refine ⟨(List.intercalate_splitOn c).symm, ?_⟩
    intro field hfield hmem
    have := not_mem_of_mem_splitOnP (· == c) s field hfield c hmem
    simp at this
  · intro hfields
    rw [hfields.1, List.splitOn_intercalate c hfields.2 h]

/-- The code reads exactly the well-formed items. -/
theorem parseForward_eq_some_iff {item : Text} {f : Forward} :
    parseForward item = some f ↔ Specifies item f := by
  have hread (proto dport destIp destPort : Text) :
      (do let proto ← parseProto (trim proto)
          let dport ← parsePort (trim dport)
          let destIp ← Ipv4Addr.ofText (trim destIp)
          let destPort ← parsePort (trim destPort)
          some (⟨proto, dport, destIp, destPort⟩ : Forward)) = some f ↔
        SpellsProto (trim proto) f.proto ∧ Numeral (trim dport) f.dport.toNat ∧
          trim destIp = f.destIp.toText ∧ Numeral (trim destPort) f.destPort.toNat := by
    simp only [Option.bind_eq_bind, Option.bind_eq_some_iff, Option.some.injEq,
      parseProto_eq_some_iff, parsePort_eq_some_iff, Ipv4Addr.ofText_eq_some_iff]
    constructor
    · intro h
      obtain ⟨p, hp, d, hd, a, ha, q, hq, rfl⟩ := h
      exact ⟨hp, hd, ha, hq⟩
    · intro h
      exact ⟨f.proto, h.1, f.dport, h.2.1, f.destIp, h.2.2.1, f.destPort, h.2.2.2, rfl⟩
  constructor
  · intro h
    rw [parseForward] at h
    split at h
    case h_2 => cases h
    case h_1 proto dport destIp destPort hsplit =>
      obtain ⟨hitem, hfields⟩ := (splitOn_eq_iff (by simp)).mp hsplit
      exact ⟨proto, dport, destIp, destPort, hitem, hfields, (hread _ _ _ _).mp h⟩
  · intro h
    obtain ⟨proto, dport, destIp, destPort, hitem, hfields, hspells⟩ := h
    have hsplit := (splitOn_eq_iff (by simp)).mpr ⟨hitem, hfields⟩
    simp only [parseForward, hsplit]
    exact (hread _ _ _ _).mpr hspells

theorem not_specifies_of_blank {item : Text} (h : trim item = []) (f : Forward) :
    ¬ Specifies item f := by
  intro hspec
  obtain ⟨proto, dport, destIp, destPort, hitem, -⟩ := hspec
  rw [h] at hitem
  simp [List.intercalate] at hitem

theorem selects_parseForwards (spec : Text) : Selects (spec.splitOn ',') (parseForwards spec) := by
  rw [parseForwards]
  induction spec.splitOn ',' with
  | nil => exact .nil
  | cons item items ih =>
      have htrim : parseForward (trim item) = parseForward item := by
        rw [parseForward, parseForward, trim_trim]
      by_cases hblank : trim item = []
      · rw [List.map_cons, List.filter_cons_of_neg (by simpa using hblank)]
        exact .skip (not_specifies_of_blank hblank) ih
      · rw [List.map_cons, List.filter_cons_of_pos (by simpa using hblank), List.filterMap_cons,
          htrim]
        cases hparse : parseForward item with
        | none =>
            refine .skip (fun f hf => ?_) ih
            rw [parseForward_eq_some_iff.mpr hf] at hparse
            cases hparse
        | some f => exact .keep (parseForward_eq_some_iff.mp hparse) ih

/-! ## The commands -/

/-- The buffer is a batch with these commands: its messages are numbered from 1 on, the first one
begins the batch and the last one ends it. -/
def HoldsBatch (buf : NlBuf) (cs : List Command) : Prop :=
  ∃ first parts last, messages buf = some (first :: (parts ++ [last])) ∧
    ofLeBytes (extract first 4 2) = 16 ∧ ofLeBytes (extract last 4 2) = 17 ∧
    (∀ (i : ℕ) part, (first :: (parts ++ [last]))[i]? = some part →
      ofLeBytes (extract part 8 4) = i + 1) ∧
    parts.mapM commandOf = some cs

def tableOf : Command → Option (List UInt8)
  | .newTable name => some name
  | _ => none

def chainOf : Command → Option (List UInt8 × List UInt8)
  | .newChain table name _ _ => some (table, name)
  | _ => none

/-- The rule that a command adds to a chain. -/
def ruleOf (table chain : List UInt8) : Command → Option (List Expr)
  | .newRule t c _ exprs => if t = table ∧ c = chain then some exprs else none
  | _ => none

def rulesOf (chain : Text) (cs : List Command) : List (List Expr) :=
  cs.filterMap (ruleOf (Utf8.encode table) (Utf8.encode chain))

/-- What a batch is for: one table with four chains, and the rules for the forwards. -/
structure Contents (masq : Bool) (forwards : List Forward) (cs : List Command) : Prop where
  tables : cs.filterMap tableOf = [Utf8.encode table]
  chains : cs.filterMap chainOf =
    ["input".toList, "forward".toList, "prerouting".toList, "postrouting".toList].map
      fun name => (Utf8.encode table, Utf8.encode name)
  table_first : ∀ pre post t name hook policy, cs = pre ++ .newChain t name hook policy :: post →
    t ∈ pre.filterMap tableOf
  chain_first : ∀ pre post t chain append exprs,
    cs = pre ++ .newRule t chain append exprs :: post → (t, chain) ∈ pre.filterMap chainOf
  input : (rulesOf "input".toList cs).length = 4
  forward : (rulesOf "forward".toList cs).length = 2 + forwards.length
  prerouting : (rulesOf "prerouting".toList cs).length = forwards.length
  postrouting : (rulesOf "postrouting".toList cs).length = if masq then 1 else 0
  accepts : ∀ (i : ℕ) f, forwards[i]? = some f →
    (rulesOf "forward".toList cs)[2 + i]? = some (forwardRule f)
  dnats : ∀ (i : ℕ) f, forwards[i]? = some f →
    (rulesOf "prerouting".toList cs)[i]? = some (dnatRule f)

/-! ## The rules of a chain -/

theorem rulesOf_append (chain : Text) (cs ds : List Command) :
    rulesOf chain (cs ++ ds) = rulesOf chain cs ++ rulesOf chain ds :=
  List.filterMap_append

theorem rulesOf_addRule {α : Type} (chain : Text) (rule : α → List Expr) (xs : List α) :
    rulesOf chain (xs.map fun x => addRule chain (rule x)) = xs.map rule := by
  rw [rulesOf, List.filterMap_map]
  simp [Function.comp_def, addRule, ruleOf]

theorem rulesOf_addRule_of_ne {α : Type} {chain other : Text}
    (h : Utf8.encode other ≠ Utf8.encode chain) (rule : α → List Expr) (xs : List α) :
    rulesOf chain (xs.map fun x => addRule other (rule x)) = [] := by
  rw [rulesOf, List.filterMap_map]
  simp [Function.comp_def, addRule, ruleOf, h]

section Rules

variable (lan : Text) (masq : Bool) (forwards : List Forward)

theorem rulesOf_input :
    rulesOf "input".toList (commands lan masq forwards) =
      [ctAcceptRule, iifAcceptRule (Utf8.encode "lo".toList), iifAcceptRule (Utf8.encode lan),
        l4protoAcceptRule 1] := by
  have hmasq : rulesOf "input".toList (masqCommands masq) = [] := by cases masq <;> decide +kernel
  rw [commands, forwardCommands, rulesOf_append, rulesOf_append, rulesOf_append, rulesOf_append,
    rulesOf_addRule_of_ne (by decide), rulesOf_addRule_of_ne (by decide), hmasq]
  rfl

theorem rulesOf_forward :
    rulesOf "forward".toList (commands lan masq forwards) =
      [ctAcceptRule, iifAcceptRule (Utf8.encode lan)] ++ forwards.map forwardRule := by
  have hmasq : rulesOf "forward".toList (masqCommands masq) = [] := by
    cases masq <;> decide +kernel
  rw [commands, forwardCommands, rulesOf_append, rulesOf_append, rulesOf_append, rulesOf_append,
    rulesOf_addRule, rulesOf_addRule_of_ne (by decide), hmasq, List.append_nil, List.append_nil]
  rfl

theorem rulesOf_prerouting :
    rulesOf "prerouting".toList (commands lan masq forwards) = forwards.map dnatRule := by
  have hmasq : rulesOf "prerouting".toList (masqCommands masq) = [] := by
    cases masq <;> decide +kernel
  rw [commands, forwardCommands, rulesOf_append, rulesOf_append, rulesOf_append, rulesOf_append,
    rulesOf_addRule_of_ne (by decide), rulesOf_addRule, hmasq, List.append_nil]
  rfl

theorem rulesOf_postrouting :
    rulesOf "postrouting".toList (commands lan masq forwards) =
      if masq then [[.masq]] else [] := by
  have hmasq : rulesOf "postrouting".toList (masqCommands masq) =
      if masq then [[.masq]] else [] := by
    cases masq <;> decide +kernel
  rw [commands, forwardCommands, rulesOf_append, rulesOf_append, rulesOf_append, rulesOf_append,
    rulesOf_addRule_of_ne (by decide), rulesOf_addRule_of_ne (by decide), hmasq]
  rfl

end Rules

/-! ## Order -/

/-- The rules, which follow the table and its chains. -/
def ruleCommands (lan : Text) (masq : Bool) (forwards : List Forward) : List Command :=
  baseRuleCommands lan ++ (forwardCommands forwards ++ masqCommands masq)

theorem commands_eq (lan : Text) (masq : Bool) (forwards : List Forward) :
    commands lan masq forwards = frameCommands ++ ruleCommands lan masq forwards := by
  rw [commands, ruleCommands, List.append_assoc, List.append_assoc]

/-- Every rule is for a chain that the batch creates. -/
theorem mem_ruleCommands {lan : Text} {masq : Bool} {forwards : List Forward} {c : Command}
    (h : c ∈ ruleCommands lan masq forwards) :
    ∃ chain rule, c = addRule chain rule ∧
      (Utf8.encode table, Utf8.encode chain) ∈ frameCommands.filterMap chainOf := by
  have hchain : ∀ chain ∈ ["input".toList, "forward".toList, "prerouting".toList,
      "postrouting".toList],
      (Utf8.encode table, Utf8.encode chain) ∈ frameCommands.filterMap chainOf := by
    decide +kernel
  suffices ∃ chain ∈ ["input".toList, "forward".toList, "prerouting".toList,
      "postrouting".toList], ∃ rule, c = addRule chain rule by
    obtain ⟨chain, hmem, rule, hc⟩ := this
    exact ⟨chain, rule, hc, hchain chain hmem⟩
  rw [ruleCommands, forwardCommands, List.mem_append, List.mem_append, List.mem_append] at h
  rcases h with h | (h | h) | h
  · simp only [baseRuleCommands, List.mem_cons, List.not_mem_nil, or_false] at h
    rcases h with rfl | rfl | rfl | rfl | rfl | rfl
    all_goals exact ⟨_, by simp, _, rfl⟩
  · obtain ⟨f, -, rfl⟩ := List.mem_map.mp h
    exact ⟨_, by simp, _, rfl⟩
  · obtain ⟨f, -, rfl⟩ := List.mem_map.mp h
    exact ⟨_, by simp, _, rfl⟩
  · cases masq with
    | false => cases h
    | true => exact ⟨_, by simp, _, List.mem_singleton.mp h⟩

theorem filterMap_ruleCommands {α : Type} {f : Command → Option α}
    (hf : ∀ chain rule, f (addRule chain rule) = none) (lan : Text) (masq : Bool)
    (forwards : List Forward) : (ruleCommands lan masq forwards).filterMap f = [] := by
  rw [List.filterMap_eq_nil_iff]
  intro c hc
  obtain ⟨chain, rule, rfl, -⟩ := mem_ruleCommands hc
  exact hf chain rule

/-- An entry that is not in the front part comes after all of it. -/
theorem prefix_of_not_mem {α : Type} {front back pre post : List α} {x : α}
    (h : front ++ back = pre ++ x :: post) (hx : x ∉ front) : front <+: pre ∧ x ∈ back := by
  rcases List.append_eq_append_iff.mp h with ⟨rest, hpre, hback⟩ | ⟨rest, hfront, hrest⟩
  · exact ⟨⟨rest, hpre.symm⟩, by simp [hback]⟩
  · cases rest with
    | nil =>
        rw [List.nil_append] at hrest
        exact ⟨by simp [hfront], by simp [← hrest]⟩
    | cons y rest =>
        rw [List.cons_append] at hrest
        exact absurd (by simp [hfront, (List.cons.inj hrest).1]) hx

theorem table_before_chain {lan : Text} {masq : Bool} {forwards : List Forward}
    {pre post : List Command} {t name : List UInt8} {hook : UInt32} {policy : Verdict}
    (h : commands lan masq forwards = pre ++ .newChain t name hook policy :: post) :
    t ∈ pre.filterMap tableOf := by
  rw [commands_eq] at h
  have hchain : .newChain t name hook policy ∈ frameCommands := by
    have hmem : .newChain t name hook policy ∈ frameCommands ++ ruleCommands lan masq forwards := by
      simp [h]
    refine (List.mem_append.mp hmem).resolve_right fun hrule => ?_
    obtain ⟨chain, rule, heq, -⟩ := mem_ruleCommands hrule
    cases heq
  have ht : t = Utf8.encode table := by
    simp only [frameCommands, List.mem_cons, List.not_mem_nil, or_false, reduceCtorEq, false_or,
      Command.newChain.injEq] at hchain
    tauto
  cases pre with
  | nil => cases h
  | cons c pre =>
      rw [frameCommands, List.cons_append, List.cons_append] at h
      rw [← (List.cons.inj h).1, ht]
      simp [tableOf]

theorem chain_before_rule {lan : Text} {masq : Bool} {forwards : List Forward}
    {pre post : List Command} {t chain : List UInt8} {append : Bool} {exprs : List Expr}
    (h : commands lan masq forwards = pre ++ .newRule t chain append exprs :: post) :
    (t, chain) ∈ pre.filterMap chainOf := by
  rw [commands_eq] at h
  have hnot : Command.newRule t chain append exprs ∉ frameCommands := by simp [frameCommands]
  obtain ⟨⟨rest, rfl⟩, hrule⟩ := prefix_of_not_mem h hnot
  obtain ⟨name, rule, heq, hchain⟩ := mem_ruleCommands hrule
  injection heq with ht hname
  rw [List.filterMap_append, ht, hname]
  exact List.mem_append_left _ hchain

theorem commands_contents (lan : Text) (masq : Bool) (forwards : List Forward) :
    Contents masq forwards (commands lan masq forwards) where
  tables := by
    rw [commands_eq, List.filterMap_append, filterMap_ruleCommands fun _ _ => rfl]
    rfl
  chains := by
    rw [commands_eq, List.filterMap_append, filterMap_ruleCommands fun _ _ => rfl]
    rfl
  table_first := fun _ _ _ _ _ _ h => table_before_chain h
  chain_first := fun _ _ _ _ _ _ h => chain_before_rule h
  input := by
    rw [rulesOf_input]
    rfl
  forward := by
    rw [rulesOf_forward, List.length_append, List.length_map]
    rfl
  prerouting := by rw [rulesOf_prerouting, List.length_map]
  postrouting := by
    rw [rulesOf_postrouting]
    cases masq <;> rfl
  accepts := by
    intro i f hf
    have hlen : [ctAcceptRule, iifAcceptRule (Utf8.encode lan)].length = 2 := rfl
    rw [rulesOf_forward, List.getElem?_append_right (by omega), hlen, Nat.add_sub_cancel_left,
      List.getElem?_map, hf, Option.map_some]
  dnats := by
    intro i f hf
    rw [rulesOf_prerouting, List.getElem?_map, hf, Option.map_some]

/-! ## Numbers -/

theorem getElem?_numbered (seq : UInt32) (ms : List Msg) (i : ℕ) :
    (numbered seq ms)[i]? = ms[i]?.map fun m => { m with seq := seq + UInt32.ofNat i } := by
  induction ms generalizing seq i with
  | nil => rfl
  | cons m ms ih =>
      cases i with
      | zero => simp [numbered]
      | succ i =>
          have hseq : seq + 1 + UInt32.ofNat i = seq + UInt32.ofNat (i + 1) := by
            rw [UInt32.ofNat_add, UInt32.add_assoc, UInt32.add_comm 1]
            rfl
          rw [numbered, List.getElem?_cons_succ, List.getElem?_cons_succ, ih, hseq]

theorem mapM_commandOf {ms : List Msg} {cs : List Command} (h : List.Forall₂ Loads ms cs) :
    (ms.map Msg.encode).mapM commandOf = some cs := by
  induction h with
  | nil => rfl
  | cons hhead _ ih =>
      rw [List.map_cons, List.mapM_cons, hhead.commandOf, ih]
      rfl

/-- The buffer is the batch, as long as it fits in memory. -/
theorem holdsBatch_buildRuleset {lan : Text} (h : (Utf8.encode lan).length ≤ 15) (masq : Bool)
    (forwards : List Forward)
    (hbuf : (buildRuleset lan masq forwards).length ≤ isizeMax) :
    HoldsBatch (buildRuleset lan masq forwards) (commands lan masq forwards) := by
  have hloads := commandMsgs_load h masq forwards
  have hsplit := messages_buildRuleset (Loads.size_of_mem hloads)
  obtain ⟨first, last, hmsgs, hfirst, hlast⟩ := numbered_batchMsgs lan masq forwards
  have hparts := congrArg (List.map Msg.encode) hmsgs
  rw [List.map_cons, List.map_append, List.map_singleton] at hparts
  refine ⟨_, _, _, by rw [hsplit, hparts], ?_, ?_, ?_, mapM_commandOf (Loads.numbered hloads 2)⟩
  · rw [extract_msgType, ofLeBytes_toLe16, hfirst]
    rfl
  · rw [extract_msgType, ofLeBytes_toLe16, hlast]
    rfl
  · intro i part hpart
    rw [← hparts, List.getElem?_map, getElem?_numbered, Option.map_map,
      Option.map_eq_some_iff] at hpart
    obtain ⟨m, hm, rfl⟩ := hpart
    have hi : i < (numbered 1 (batchMsgs lan masq forwards)).length := by
      rw [length_numbered]
      exact (List.getElem?_eq_some_iff.mp hm).1
    have hcount := length_le_flatMap (numbered 1 (batchMsgs lan masq forwards))
    rw [← buildRuleset_eq_flatMap] at hcount
    have hfits : i + 1 < 2 ^ 32 := by
      rw [isizeMax] at hbuf
      omega
    have hseq : 1 + UInt32.ofNat i = UInt32.ofNat (i + 1) := by
      rw [UInt32.ofNat_add, UInt32.add_comm]
      rfl
    rw [Function.comp_apply, extract_seq, ofLeBytes_toLe32]
    exact (congrArg UInt32.toNat hseq).trans (UInt32.toNat_ofNat_of_lt' hfits)

/-- The buffer for a text of port forwards is a batch with the table, its chains, and the rules
for the well-formed items of the text. It exists as long as it fits in memory. -/
theorem buildRuleset_contents {lan : Text} (h : (Utf8.encode lan).length ≤ 15) (masq : Bool)
    (spec : Text) (hbuf : (buildRuleset lan masq (parseForwards spec)).length ≤ isizeMax) :
    ∃ forwards cs, Selects (spec.splitOn ',') forwards ∧
      HoldsBatch (buildRuleset lan masq (parseForwards spec)) cs ∧ Contents masq forwards cs :=
  ⟨parseForwards spec, commands lan masq (parseForwards spec), selects_parseForwards spec,
    holdsBatch_buildRuleset h masq _ hbuf, commands_contents lan masq _⟩

/-- Two port forwards, with an item between them that is none. -/
def twoForwards : Text :=
  "tcp:8080:192.168.1.10:80, udp:dns:10.0.0.1:53, UDP:+53:192.168.1.53:053".toList

theorem buildRuleset_contents_two :
    (parseForwards twoForwards).length = 2 ∧ ∃ forwards cs,
      Selects (twoForwards.splitOn ',') forwards ∧
      HoldsBatch (buildRuleset "br-lan".toList true (parseForwards twoForwards)) cs ∧
      Contents true forwards cs := by
  have hbuf : (buildRuleset "br-lan".toList true (parseForwards twoForwards)).length ≤
      isizeMax := by
    rw [buildRuleset_eq_flatMap, length_flatMap_encode]
    decide +kernel
  exact ⟨by decide +kernel, buildRuleset_contents (by decide) true twoForwards hbuf⟩

end Lwrt.Fw
