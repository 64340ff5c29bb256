import Lwrt.Verification.Fw.Decoding

/-! # The ruleset that the batch loads -/

namespace Lwrt.Fw

open Library Nl Nftables

/-! ## Messages as commands -/

/-- The kernel reads a message as a command. -/
structure Loads (m : Msg) (c : Command) : Prop where
  fits : m.Fits
  header : m.header.length = 4
  size : m.size < 2 ^ 32
  msgType : m.msgType ≠ 17
  decodes : decodeCommand m.msgType m.flags (m.attrs.map Attr.item) = some c

theorem Loads.withSeq {m : Msg} {c : Command} (h : Loads m c) (seq : UInt32) :
    Loads { m with seq := seq } c :=
  ⟨⟨h.fits.header, h.fits.attrs⟩, h.header, h.size, h.msgType, h.decodes⟩

/-- A message of a batch, read as a command. -/
def commandOf (part : List UInt8) : Option Command :=
  decodeCommand (UInt16.ofNat (ofLeBytes (extract part 4 2)))
    (UInt16.ofNat (ofLeBytes (extract part 6 2))) (forEachAttr (part.drop 20))

theorem Loads.commandOf {m : Msg} {c : Command} (h : Loads m c) : commandOf m.encode = some c := by
  have hrest : m.encode.drop 20 = encodeAll m.attrs := by
    rw [← drop_header m, h.header]
  rw [Fw.commandOf, extract_msgType, extract_flags, ofLeBytes_toLe16, ofLeBytes_toLe16,
    UInt16.ofNat_toNat, UInt16.ofNat_toNat, hrest, forEachAttr_encodeAll h.fits.attrs, h.decodes]

theorem applyBatch_of_ne {m : Msg} (h : m.msgType ≠ 17) (rs : Ruleset)
    (parts : List (List UInt8)) :
    applyBatch rs (m.encode :: parts) =
      (Fw.commandOf m.encode).bind fun c => (rs.apply c).bind (applyBatch · parts) := by
  have htype : UInt16.ofNat (ofLeBytes (extract m.encode 4 2)) ≠ 17 := by
    rwa [extract_msgType, ofLeBytes_toLe16, UInt16.ofNat_toNat]
  exact if_neg htype

theorem applyBatch_cons {m : Msg} {c : Command} (h : Loads m c) (rs : Ruleset)
    (parts : List (List UInt8)) :
    applyBatch rs (m.encode :: parts) = (rs.apply c).bind (applyBatch · parts) := by
  rw [applyBatch_of_ne h.msgType, h.commandOf, Option.bind_some]

theorem applyBatch_end {m : Msg} (h : m.msgType = 17) (rs : Ruleset)
    (parts : List (List UInt8)) : applyBatch rs (m.encode :: parts) = some rs := by
  simp only [applyBatch, extract_msgType, ofLeBytes_toLe16, UInt16.ofNat_toNat]
  rw [if_pos h]

theorem Loads.numbered {ms : List Msg} {cs : List Command} (h : List.Forall₂ Loads ms cs)
    (seq : UInt32) : List.Forall₂ Loads (numbered seq ms) cs := by
  induction h generalizing seq with
  | nil => exact .nil
  | cons hhead _ ih => exact .cons (hhead.withSeq seq) (ih (seq + 1))

theorem applyBatch_append {ms : List Msg} {cs : List Command} (h : List.Forall₂ Loads ms cs)
    (rs : Ruleset) (parts : List (List UInt8)) :
    applyBatch rs (ms.map Msg.encode ++ parts) =
      (cs.foldlM Ruleset.apply rs).bind (applyBatch · parts) := by
  induction h generalizing rs with
  | nil => rfl
  | cons hhead _ ih =>
      rw [List.map_cons, List.cons_append, applyBatch_cons hhead, List.foldlM_cons]
      simp only [ih, Option.bind_eq_bind, Option.bind_assoc]

theorem createMsg_size {msg : UInt16} {attrs : List Attr} (h : weights attrs < 2 ^ 16) :
    (createMsg msg attrs).size < 2 ^ 32 := by
  have hlen := length_encodeAll_le attrs
  simp only [createMsg, Msg.size, Msg.body, List.length_append, List.length_cons, List.length_nil,
    length_toBe16]
  omega

theorem createMsg_loads {msg : UInt16} {attrs : List Attr} {c : Command} (ht : typedAll attrs)
    (hw : weights attrs < 2 ^ 16) (hmsg : nftType msg ≠ 17)
    (h : decodeCommand (nftType msg) createFlags (attrs.map Attr.item) = some c) :
    Loads (createMsg msg attrs) c := by
  have hheader : (createMsg msg attrs).header.length = 4 := by simp [createMsg]
  exact ⟨⟨by rw [hheader], fitAll_of_weights attrs ht hw⟩, hheader, createMsg_size hw, hmsg, h⟩

theorem tableMsg_loads : Loads tableMsg (.newTable (Utf8.encode table)) :=
  createMsg_loads rfl (by decide) (by decide) (by decide +kernel)

/-- The part of a name that the kernel's reading depends on. -/
structure Named (name : Text) : Prop where
  length : (Utf8.encode name).length ≤ 16
  zero : 0 ∉ Utf8.encode name

theorem chainMsg_loads {name chainType : Text} {hook priority policy : UInt32} {v : Verdict}
    (hname : Named name) (htype : Named chainType) (hv : decodeVerdict policy = some v) :
    Loads (chainMsg name chainType hook priority policy)
      (.newChain (Utf8.encode table) (Utf8.encode name) hook v) := by
  have hhook : FitAll [.leaf nftaHookHooknum (toBe32 hook),
      .leaf nftaHookPriority (toBe32 priority)] :=
    fitAll_of_weights _ rfl (by simp [weights, Attr.weight])
  have htable : (Utf8.encode table).length = 4 := by decide
  have hnum : u32? ([.leaf nftaHookHooknum (toBe32 hook),
      .leaf nftaHookPriority (toBe32 priority)].map Attr.item) 1 = some hook :=
    u32?_eq rfl
  refine createMsg_loads rfl ?_ (by decide) ?_
  · have hn := hname.length
    have ht := htype.length
    simp only [weights, Attr.weight, length_toBe32]
    omega
  · rw [decodeCommand, if_neg (by decide), if_pos (by decide), nested?_eq (by rfl) hhook,
      str?_eq (by rfl) (by decide), str?_eq (by rfl) hname.zero, u32?_eq (by rfl)]
    simp only [Option.bind_eq_bind, Option.bind_some, hnum, hv]
    rfl

theorem ruleMsg_loads {chain : Text} {trees : List Attr} {rule : List Expr} (hchain : Named chain)
    (h : Compiles trees rule) :
    Loads (ruleMsg chain trees)
      (.newRule (Utf8.encode table) (Utf8.encode chain) false rule) := by
  have htable : (Utf8.encode table).length = 4 := by decide
  have hweights := h.weights
  have htrees : FitAll trees := fitAll_of_weights trees h.typedAll (by omega)
  refine createMsg_loads ?_ ?_ (by decide) ?_
  · simp only [typedAll, Attr.typed, h.typedAll]
    decide
  · have hn := hchain.length
    simp only [weights, Attr.weight]
    omega
  · rw [decodeCommand, if_neg (by decide), if_neg (by decide), if_pos (by decide),
      nested?_eq (by rfl) htrees, Option.getD_some, h.mapM, str?_eq (by rfl) (by decide),
      str?_eq (by rfl) hchain.zero]
    rfl

/-! ## The commands of the batch -/

/-- A rule for the table of the firewall. -/
def addRule (chain : Text) (rule : List Expr) : Command :=
  .newRule (Utf8.encode table) (Utf8.encode chain) false rule

def frameCommands : List Command :=
  [.newTable (Utf8.encode table),
    .newChain (Utf8.encode table) (Utf8.encode "input".toList) 1 .drop,
    .newChain (Utf8.encode table) (Utf8.encode "forward".toList) 2 .drop,
    .newChain (Utf8.encode table) (Utf8.encode "prerouting".toList) 0 .accept,
    .newChain (Utf8.encode table) (Utf8.encode "postrouting".toList) 4 .accept]

def baseRuleCommands (lan : Text) : List Command :=
  [addRule "input".toList ctAcceptRule,
    addRule "input".toList (iifAcceptRule (Utf8.encode "lo".toList)),
    addRule "input".toList (iifAcceptRule (Utf8.encode lan)),
    addRule "input".toList (l4protoAcceptRule 1),
    addRule "forward".toList ctAcceptRule,
    addRule "forward".toList (iifAcceptRule (Utf8.encode lan))]

def forwardCommands (forwards : List Forward) : List Command :=
  forwards.map (fun f => addRule "forward".toList (forwardRule f)) ++
    forwards.map (fun f => addRule "prerouting".toList (dnatRule f))

def masqCommands (masq : Bool) : List Command :=
  if masq then [addRule "postrouting".toList [.masq]] else []

def commands (lan : Text) (masq : Bool) (forwards : List Forward) : List Command :=
  frameCommands ++ baseRuleCommands lan ++ forwardCommands forwards ++ masqCommands masq

theorem named_input : Named "input".toList := ⟨by decide, by decide⟩

theorem named_forward : Named "forward".toList := ⟨by decide, by decide⟩

theorem named_prerouting : Named "prerouting".toList := ⟨by decide, by decide⟩

theorem named_postrouting : Named "postrouting".toList := ⟨by decide, by decide⟩

theorem frameMsgs_load : List.Forall₂ Loads frameMsgs frameCommands := by
  have hfilter : Named "filter".toList := ⟨by decide, by decide⟩
  have hnat : Named "nat".toList := ⟨by decide, by decide⟩
  exact .cons tableMsg_loads <| .cons (chainMsg_loads named_input hfilter rfl) <|
    .cons (chainMsg_loads named_forward hfilter rfl) <|
    .cons (chainMsg_loads named_prerouting hnat rfl) <|
    .cons (chainMsg_loads named_postrouting hnat rfl) .nil

theorem baseRuleMsgs_load {lan : Text} (h : (Utf8.encode lan).length ≤ 15) :
    List.Forall₂ Loads (baseRuleMsgs lan) (baseRuleCommands lan) := by
  have hlan := iifAccept_compiles h
  exact .cons (ruleMsg_loads named_input ctAccept_compiles) <|
    .cons (ruleMsg_loads named_input (iifAccept_compiles (by decide))) <|
    .cons (ruleMsg_loads named_input hlan) <|
    .cons (ruleMsg_loads named_input (l4protoAccept_compiles 1)) <|
    .cons (ruleMsg_loads named_forward ctAccept_compiles) <|
    .cons (ruleMsg_loads named_forward hlan) .nil

theorem forwardMsgs_load (forwards : List Forward) :
    List.Forall₂ Loads (forwardMsgs forwards) (forwardCommands forwards) := by
  refine List.rel_append ?_ ?_
  · induction forwards with
    | nil => exact .nil
    | cons f forwards ih => exact .cons (ruleMsg_loads named_forward (forward_compiles f)) ih
  · induction forwards with
    | nil => exact .nil
    | cons f forwards ih => exact .cons (ruleMsg_loads named_prerouting (dnat_compiles f)) ih

theorem masqMsgs_load (masq : Bool) : List.Forall₂ Loads (masqMsgs masq) (masqCommands masq) := by
  cases masq with
  | false => exact .nil
  | true => exact .cons (ruleMsg_loads named_postrouting masq_compiles) .nil

theorem commandMsgs_load {lan : Text} (h : (Utf8.encode lan).length ≤ 15) (masq : Bool)
    (forwards : List Forward) :
    List.Forall₂ Loads (commandMsgs lan masq forwards) (commands lan masq forwards) :=
  List.rel_append (List.rel_append (List.rel_append frameMsgs_load (baseRuleMsgs_load h))
    (forwardMsgs_load forwards)) (masqMsgs_load masq)

/-! ## The whole batch -/

theorem Loads.size_of_mem {ms : List Msg} {cs : List Command} (h : List.Forall₂ Loads ms cs) :
    ∀ m ∈ ms, m.size < 2 ^ 32 := by
  induction h with
  | nil => simp
  | cons hhead _ ih => exact List.forall_mem_cons.mpr ⟨hhead.size, ih⟩

theorem load_messages {buf : NlBuf} {ms rest : List Msg} {first : Msg}
    (h : messages buf = some (ms.map Msg.encode)) (hms : ms = first :: rest)
    (hfirst : first.msgType = 16) (rs : Ruleset) :
    rs.load buf = applyBatch rs (rest.map Msg.encode) := by
  rw [Ruleset.load, h, hms, List.map_cons]
  simp only [extract_msgType, ofLeBytes_toLe16, hfirst]
  rfl

/-- The kernel applies the commands of the batch, whatever it held before. -/
theorem load_buildRuleset {lan : Text} (h : (Utf8.encode lan).length ≤ 15) (masq : Bool)
    (forwards : List Forward) (rs : Ruleset) :
    rs.load (buildRuleset lan masq forwards) =
      (commands lan masq forwards).foldlM Ruleset.apply rs := by
  have hloads := commandMsgs_load h masq forwards
  obtain ⟨first, last, hparts, hfirst, hlast⟩ := numbered_batchMsgs lan masq forwards
  have hend (rs : Ruleset) : applyBatch rs ([last].map Msg.encode) = some rs :=
    applyBatch_end hlast rs []
  rw [load_messages (messages_buildRuleset (Loads.size_of_mem hloads)) hparts hfirst,
    List.map_append, applyBatch_append (Loads.numbered hloads 2)]
  simp only [hend, Option.bind_fun_some]

/-! ## Chains -/

/-- The table of the firewall with the rules of its four chains. -/
def ruleset (input forward prerouting postrouting : List (List Expr)) : Ruleset where
  tables := [Utf8.encode table]
  chains :=
    [⟨Utf8.encode table, Utf8.encode "input".toList, 1, .drop, input⟩,
      ⟨Utf8.encode table, Utf8.encode "forward".toList, 2, .drop, forward⟩,
      ⟨Utf8.encode table, Utf8.encode "prerouting".toList, 0, .accept, prerouting⟩,
      ⟨Utf8.encode table, Utf8.encode "postrouting".toList, 4, .accept, postrouting⟩]

theorem apply_frameCommands :
    frameCommands.foldlM Ruleset.apply Ruleset.empty = some (ruleset [] [] [] []) := by
  decide +kernel

variable (input forward prerouting postrouting : List (List Expr)) (rule : List Expr)

theorem apply_input :
    (ruleset input forward prerouting postrouting).apply (addRule "input".toList rule) =
      some (ruleset (rule :: input) forward prerouting postrouting) :=
  rfl

theorem apply_forward :
    (ruleset input forward prerouting postrouting).apply (addRule "forward".toList rule) =
      some (ruleset input (rule :: forward) prerouting postrouting) :=
  rfl

theorem apply_prerouting :
    (ruleset input forward prerouting postrouting).apply (addRule "prerouting".toList rule) =
      some (ruleset input forward (rule :: prerouting) postrouting) :=
  rfl

theorem apply_postrouting :
    (ruleset input forward prerouting postrouting).apply (addRule "postrouting".toList rule) =
      some (ruleset input forward prerouting (rule :: postrouting)) :=
  rfl

/-- Rules that are added in turn end up in reverse order. -/
theorem foldlM_addRule {chain : Text} {place : List (List Expr) → Ruleset}
    (h : ∀ rules rule, (place rules).apply (addRule chain rule) = some (place (rule :: rules)))
    (added rules : List (List Expr)) :
    (added.map (addRule chain)).foldlM Ruleset.apply (place rules) =
      some (place (added.reverse ++ rules)) := by
  induction added generalizing rules with
  | nil => rfl
  | cons rule added ih =>
      rw [List.map_cons, List.foldlM_cons, h, Option.bind_eq_bind, Option.bind_some, ih,
        List.reverse_cons, List.append_assoc, List.singleton_append]

def inputRules (lan : Text) : List (List Expr) :=
  [l4protoAcceptRule 1, iifAcceptRule (Utf8.encode lan),
    iifAcceptRule (Utf8.encode "lo".toList), ctAcceptRule]

def forwardRules (lan : Text) (forwards : List Forward) : List (List Expr) :=
  (forwards.map forwardRule).reverse ++ [iifAcceptRule (Utf8.encode lan), ctAcceptRule]

def preroutingRules (forwards : List Forward) : List (List Expr) :=
  (forwards.map dnatRule).reverse

def postroutingRules (masq : Bool) : List (List Expr) :=
  if masq then [[.masq]] else []

theorem apply_baseRuleCommands (lan : Text) :
    (baseRuleCommands lan).foldlM Ruleset.apply (ruleset [] [] [] []) =
      some (ruleset (inputRules lan) [iifAcceptRule (Utf8.encode lan), ctAcceptRule] [] []) := by
  simp only [baseRuleCommands, List.foldlM_cons, List.foldlM_nil, apply_input, apply_forward,
    Option.bind_eq_bind, Option.bind_some]
  rfl

theorem apply_forwardCommands (forwards : List Forward) :
    (forwardCommands forwards).foldlM Ruleset.apply (ruleset input forward [] []) =
      some (ruleset input ((forwards.map forwardRule).reverse ++ forward)
        (preroutingRules forwards) []) := by
  have haccepts := foldlM_addRule (fun rules rule => apply_forward input rules [] [] rule)
    (forwards.map forwardRule) forward
  have hdnats := foldlM_addRule
    (fun rules rule => apply_prerouting input ((forwards.map forwardRule).reverse ++ forward) rules
      [] rule) (forwards.map dnatRule) []
  rw [List.map_map] at haccepts hdnats
  rw [List.append_nil] at hdnats
  rw [forwardCommands, List.foldlM_append]
  exact (congrArg (· >>= _) haccepts).trans hdnats

theorem apply_masqCommands (masq : Bool) :
    (masqCommands masq).foldlM Ruleset.apply (ruleset input forward prerouting []) =
      some (ruleset input forward prerouting (postroutingRules masq)) := by
  cases masq with
  | false => rfl
  | true =>
      simp only [masqCommands, if_true, List.foldlM_cons, List.foldlM_nil, apply_postrouting,
        Option.bind_eq_bind, Option.bind_some]
      rfl

/-- What an empty kernel holds after the batch. -/
theorem buildRuleset_loads {lan : Text} (h : (Utf8.encode lan).length ≤ 15) (masq : Bool)
    (forwards : List Forward) :
    Ruleset.empty.load (buildRuleset lan masq forwards) =
      some (ruleset (inputRules lan) (forwardRules lan forwards) (preroutingRules forwards)
        (postroutingRules masq)) := by
  rw [load_buildRuleset h, commands, List.foldlM_append, List.foldlM_append, List.foldlM_append,
    apply_frameCommands]
  simp only [Option.bind_eq_bind, Option.bind_some, apply_baseRuleCommands, apply_forwardCommands,
    apply_masqCommands, forwardRules]

end Lwrt.Fw
