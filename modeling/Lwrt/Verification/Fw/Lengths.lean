import Lwrt.Verification.Fw.Loading
import Lwrt.Verification.Nl.Lengths

/-! # Length fields of the ruleset

All texts of a batch are short but one: the name of the LAN interface. -/

namespace Lwrt.Fw

open Library Nl

theorem Loads.trueLengths {m : Msg} {c : Nftables.Command} (h : Loads m c) : m.TrueLengths :=
  h.fits.trueLengths h.size

theorem trueLengths_of_loads {ms : List Msg} {cs : List Nftables.Command}
    (h : List.Forall₂ Loads ms cs) : ∀ m ∈ ms, m.TrueLengths := by
  induction h with
  | nil => simp
  | cons hhead _ ih => exact List.forall_mem_cons.mpr ⟨hhead.trueLengths, ih⟩

theorem batchMsg_trueLengths (msgType : UInt16) : (batchMsg msgType).TrueLengths := by
  rw [Msg.trueLengths_iff]
  simp [batchMsg, Msg.size, Msg.body, encodeAll]

/-- The name stands in a comparison, with its terminating zero. -/
theorem length_iifAcceptTrees (ifname : Text) :
    (encodeAll (iifAcceptTrees ifname)).length =
      120 + align4 (5 + (Utf8.encode ifname).length) := by
  have hmeta : (Utf8.encode "meta".toList).length = 4 := by decide
  have hcmp : (Utf8.encode "cmp".toList).length = 3 := by decide
  have himmediate : (Utf8.encode "immediate".toList).length = 9 := by decide
  simp only [iifAcceptTrees, metaTree, cmpTree, verdictTree, exprTree, valueTree, encodeAll,
    Attr.payload, List.length_append, length_tlv, List.length_nil, List.length_singleton,
    length_toBe32, hmeta, hcmp, himmediate, align4]
  omega

theorem ruleMsg_iifAccept_trueLengths_iff {chain : Text} (hchain : Named chain) (ifname : Text) :
    (ruleMsg chain (iifAcceptTrees ifname)).TrueLengths ↔
      (Utf8.encode ifname).length ≤ 65403 := by
  have htable : (Utf8.encode table).length = 4 := by decide
  have hlen := length_iifAcceptTrees ifname
  have hname := hchain.length
  rw [Msg.trueLengths_iff]
  simp only [ruleMsg, createMsg, List.forall_mem_cons, List.not_mem_nil, false_implies,
    implies_true, and_true, Attr.payload, Msg.size, Msg.body, encodeAll, List.length_append,
    length_tlv, List.length_cons, List.length_nil, length_toBe16, htable, hlen, align4]
  omega

theorem forall_mem_numbered_iff {P : Msg → Prop}
    (hseq : ∀ m seq, P { m with seq := seq } ↔ P m) (ms : List Msg) (seq : UInt32) :
    (∀ m ∈ numbered seq ms, P m) ↔ ∀ m ∈ ms, P m := by
  induction ms generalizing seq with
  | nil => simp [numbered]
  | cons m ms ih => rw [numbered, List.forall_mem_cons, List.forall_mem_cons, hseq, ih]

theorem baseRuleMsgs_trueLengths_iff (lan : Text) :
    (∀ m ∈ baseRuleMsgs lan, m.TrueLengths) ↔ (Utf8.encode lan).length ≤ 65403 := by
  have hct {chain : Text} (h : Named chain) : (ruleMsg chain ctAcceptTrees).TrueLengths :=
    (ruleMsg_loads h ctAccept_compiles).trueLengths
  have hlo : (ruleMsg "input".toList (iifAcceptTrees "lo".toList)).TrueLengths :=
    (ruleMsg_loads named_input (iifAccept_compiles (by decide))).trueLengths
  have hicmp : (ruleMsg "input".toList (l4protoAcceptTrees ipprotoIcmp)).TrueLengths :=
    (ruleMsg_loads named_input (l4protoAccept_compiles _)).trueLengths
  simp only [baseRuleMsgs, List.forall_mem_cons, hct named_input, hct named_forward, hlo, hicmp,
    ruleMsg_iifAccept_trueLengths_iff named_input, ruleMsg_iifAccept_trueLengths_iff named_forward,
    List.not_mem_nil, false_implies, implies_true, true_and, and_true, and_self]

/-- The messages that are sent under a configuration. -/
def runMsgs (cfg : Config) : List Msg :=
  let lan := cfg.getOr "lan".toList "ifname".toList "br-lan".toList
  let masq := cfg.getOr "firewall".toList "masq".toList "1".toList == "1".toList
  numbered 1 (batchMsgs lan masq
    (parseForwards (cfg.getOr "firewall".toList "forward".toList [])))

theorem run_eq (cfg : Config) : run cfg = (runMsgs cfg).flatMap Msg.encode :=
  buildRuleset_eq_flatMap _ _ _

theorem runMsgs_trueLengths_iff (cfg : Config) :
    (∀ m ∈ runMsgs cfg, m.TrueLengths) ↔
      (Utf8.encode (cfg.getOr "lan".toList "ifname".toList "br-lan".toList)).length ≤ 65403 := by
  have hseq (m : Msg) (seq : UInt32) : { m with seq := seq }.TrueLengths ↔ m.TrueLengths := by
    rw [Msg.trueLengths_iff, Msg.trueLengths_iff]
    rfl
  rw [runMsgs, forall_mem_numbered_iff hseq, batchMsgs, List.forall_mem_cons,
    List.forall_mem_append, List.forall_mem_singleton, commandMsgs, List.forall_mem_append,
    List.forall_mem_append, List.forall_mem_append, baseRuleMsgs_trueLengths_iff]
  simp only [batchMsg_trueLengths, iff_true_intro (trueLengths_of_loads frameMsgs_load),
    iff_true_intro (trueLengths_of_loads (forwardMsgs_load _)),
    iff_true_intro (trueLengths_of_loads (masqMsgs_load _)), true_and, and_true]

end Lwrt.Fw
