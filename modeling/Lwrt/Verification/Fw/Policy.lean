import Lwrt.Verification.Fw.Rules

/-! # The filter policy

What the input and the forward chain should accept, what they do accept, and when the two
agree. -/

namespace Lwrt.Fw

open Library Nl Nftables

/-! ## The policy -/

/-- Replies and related traffic. -/
def Tracked (p : Packet) : Prop :=
  p.ctState = .established ∨ p.ctState = .related

/-- The destination port in the transport header. -/
def dport (p : Packet) : Option (List UInt8) :=
  p.transport.bind (copyBits · 2 2)

def AddressedTo (p : Packet) (f : Forward) : Prop :=
  p.family = .ipv4 ∧ p.l4proto = some f.proto ∧ extract p.network 16 4 = f.destIp.octets ∧
    dport p = some (toBe16 f.destPort)

def InputPolicy (lan : Text) (p : Packet) : Prop :=
  Tracked p ∨ p.iifname = Utf8.encode "lo".toList ∨ p.iifname = Utf8.encode lan ∨
    p.l4proto = some ipprotoIcmp

def ForwardPolicy (lan : Text) (forwards : List Forward) (p : Packet) : Prop :=
  Tracked p ∨ p.iifname = Utf8.encode lan ∨ ∃ f ∈ forwards, AddressedTo p f

/-- A chain accepts under a condition and drops everything else. -/
structure Decides (c : Chain) (p : Packet) (policy : Prop) : Prop where
  accepts : policy → c.verdict p = .accept
  drops : ¬ policy → c.verdict p = .drop

/-- The batch is loaded, and both filter chains follow the policy on a packet. -/
def Implements (lan : Text) (masq : Bool) (forwards : List Forward) (p : Packet) : Prop :=
  ∃ rs input forward, Ruleset.empty.load (buildRuleset lan masq forwards) = some rs ∧
    rs.chainAt nfInetLocalIn = some input ∧ rs.chainAt nfInetForward = some forward ∧
    Decides input p (InputPolicy lan p) ∧ Decides forward p (ForwardPolicy lan forwards p)

/-! ## What the chains decide -/

def inputChain (lan : Text) : Chain :=
  ⟨Utf8.encode table, Utf8.encode "input".toList, 1, .drop, inputRules lan⟩

def forwardChain (lan : Text) (forwards : List Forward) : Chain :=
  ⟨Utf8.encode table, Utf8.encode "forward".toList, 2, .drop, forwardRules lan forwards⟩

/-- Rules that accept under conditions make a chain that accepts under their disjunction. -/
theorem decides_of_judges {c : Chain} (hpolicy : c.policy = .drop) {p : Packet} {cs : List Prop}
    (h : List.Forall₂ (fun rule cond => Judges p rule cond .accept) c.rules cs) :
    Decides c p (AnyOf cs) where
  accepts := fun hcs => by rw [Chain.verdict, evalRules_eq_some h hcs clean_zero, Option.getD_some]
  drops := fun hcs => by
    rw [Chain.verdict, evalRules_eq_none h hcs clean_zero, Option.getD_none, hpolicy]

theorem Decides.congr {c : Chain} {p : Packet} {policy policy' : Prop} (h : Decides c p policy)
    (hiff : policy ↔ policy') : Decides c p policy' :=
  ⟨fun hp => h.accepts (hiff.mpr hp), fun hp => h.drops fun hp' => hp (hiff.mp hp')⟩

theorem Decides.accept_iff {c : Chain} {p : Packet} {policy : Prop} (h : Decides c p policy) :
    c.verdict p = .accept ↔ policy := by
  constructor
  · intro haccept
    by_contra hp
    exact absurd (haccept.symm.trans (h.drops hp)) (by decide)
  · exact h.accepts

/-- A chain follows one policy only. -/
theorem Decides.iff {c : Chain} {p : Packet} {policy policy' : Prop} (h : Decides c p policy) :
    Decides c p policy' ↔ (policy' ↔ policy) := by
  constructor
  · intro h'
    rw [← h.accept_iff, ← h'.accept_iff]
  · intro hiff
    exact h.congr hiff.symm

theorem inputChain_decides {lan : Text} (h : (Utf8.encode lan).length ≤ 15) (p : Packet) :
    Decides (inputChain lan) p
      (p.l4proto = some 1 ∨ Spells p (Utf8.encode lan) ∨ Spells p (Utf8.encode "lo".toList)) := by
  have hrules : List.Forall₂ (fun rule cond => Judges p rule cond .accept) (inputChain lan).rules
      [p.l4proto = some 1, Spells p (Utf8.encode lan), Spells p (Utf8.encode "lo".toList), False] :=
    .cons (l4protoAcceptRule_judges p 1) <| .cons (iifAcceptRule_judges p h) <|
    .cons (iifAcceptRule_judges p (by decide)) <| .cons (ctAcceptRule_judges p) .nil
  refine (decides_of_judges rfl hrules).congr ?_
  simp only [AnyOf, or_false]

theorem forwardChain_decides {lan : Text} (h : (Utf8.encode lan).length ≤ 15)
    (forwards : List Forward) (p : Packet) :
    Decides (forwardChain lan forwards) p
      (Spells p (Utf8.encode lan) ∨ ∃ f ∈ forwards, Admits p f) := by
  have hforwards : List.Forall₂ (fun rule cond => Judges p rule cond .accept)
      (forwards.map forwardRule).reverse (forwards.reverse.map (Admits p)) := by
    rw [← List.map_reverse, List.forall₂_map_left_iff, List.forall₂_map_right_iff,
      List.forall₂_same]
    exact fun f _ => forwardRule_judges p f
  have hrules : List.Forall₂ (fun rule cond => Judges p rule cond .accept)
      (forwardChain lan forwards).rules
      (forwards.reverse.map (Admits p) ++ [Spells p (Utf8.encode lan), False]) :=
    List.rel_append hforwards <|
      .cons (iifAcceptRule_judges p h) <| .cons (ctAcceptRule_judges p) .nil
  refine (decides_of_judges rfl hrules).congr ?_
  simp only [anyOf_append, anyOf_map, List.mem_reverse, AnyOf, or_false]
  exact or_comm

/-- The chains that the batch leaves at the two hooks. -/
theorem implements_iff_decides {lan : Text} (h : (Utf8.encode lan).length ≤ 15) (masq : Bool)
    (forwards : List Forward) (p : Packet) :
    Implements lan masq forwards p ↔
      Decides (inputChain lan) p (InputPolicy lan p) ∧
      Decides (forwardChain lan forwards) p (ForwardPolicy lan forwards p) := by
  constructor
  · rintro ⟨rs, input, forward, hload, hin, hfwd, hpolicy⟩
    rw [buildRuleset_loads h] at hload
    obtain rfl := Option.some.inj hload
    obtain rfl : inputChain lan = input := Option.some.inj hin
    obtain rfl : forwardChain lan forwards = forward := Option.some.inj hfwd
    exact hpolicy
  · intro hpolicy
    exact ⟨_, inputChain lan, forwardChain lan forwards, buildRuleset_loads h masq forwards, rfl,
      rfl, hpolicy⟩

/-! ## When they agree -/

/-- The batch does what the policy says exactly for ICMP and where the number of the socket's
group spells an interface name as it should, and, for forwarded packets, where a forward
admits the packet as it should. -/
theorem implements_policy_iff {lan : Text} (h : (Utf8.encode lan).length ≤ 15) (masq : Bool)
    (forwards : List Forward) (p : Packet) :
    Implements lan masq forwards p ↔
      (p.l4proto = some ipprotoIcmp ∨
        ((Tracked p ∨ p.iifname = Utf8.encode "lo".toList ∨ p.iifname = Utf8.encode lan) ↔
          (Spells p (Utf8.encode "lo".toList) ∨ Spells p (Utf8.encode lan)))) ∧
      ((Tracked p ∨ p.iifname = Utf8.encode lan ∨ ∃ f ∈ forwards, AddressedTo p f) ↔
        (Spells p (Utf8.encode lan) ∨ ∃ f ∈ forwards, Admits p f)) := by
  have hagree : (InputPolicy lan p ↔
      (p.l4proto = some 1 ∨ Spells p (Utf8.encode lan) ∨ Spells p (Utf8.encode "lo".toList))) ↔
      (p.l4proto = some ipprotoIcmp ∨
        ((Tracked p ∨ p.iifname = Utf8.encode "lo".toList ∨ p.iifname = Utf8.encode lan) ↔
          (Spells p (Utf8.encode "lo".toList) ∨ Spells p (Utf8.encode lan)))) := by
    simp only [InputPolicy, ipprotoIcmp]
    tauto
  rw [implements_iff_decides h, (inputChain_decides h p).iff,
    (forwardChain_decides h forwards p).iff, hagree, ForwardPolicy]

/-- A ping from the internet to the router. -/
def wanPing : Packet where
  family := .ipv4
  ctState := .new
  iifname := Utf8.encode "eth0.2".toList
  l4proto := some 1
  network := [0x45, 0, 0, 28, 0, 1, 0, 0, 64, 1, 0, 0, 198, 51, 100, 7, 203, 0, 113, 9]
  transport := some [8, 0, 0, 0, 0, 1, 0, 1]
  skgid := none
  iifname_length := by decide
  network_length := by decide

theorem implements_policy_ping :
    (Utf8.encode "br-lan".toList).length ≤ 15 ∧ Implements "br-lan".toList true [] wanPing := by
  have hlan : (Utf8.encode "br-lan".toList).length ≤ 15 := by decide
  refine ⟨hlan, (implements_policy_iff hlan true [] wanPing).mpr ⟨.inl rfl, iff_of_false ?_ ?_⟩⟩
  · rintro ((hstate | hstate) | hiif | ⟨f, hf, -⟩)
    · cases hstate
    · cases hstate
    · exact absurd hiif (by decide)
    · cases hf
  · rintro (⟨gid, hgid, -⟩ | ⟨f, hf, -⟩)
    · cases hgid
    · cases hf

/-- A segment of an established connection, from a web server to the router. -/
def wanReply : Packet where
  family := .ipv4
  ctState := .established
  iifname := Utf8.encode "eth0.2".toList
  l4proto := some 6
  network := [0x45, 0, 0, 40, 0, 1, 0, 0, 64, 6, 0, 0, 198, 51, 100, 7, 203, 0, 113, 9]
  transport := some [1, 187, 156, 64, 0, 0, 0, 1, 0, 0, 0, 1, 0x50, 0x10, 0, 0, 0, 0, 0, 0]
  skgid := none
  iifname_length := by decide
  network_length := by decide

theorem established_reply_dropped : ¬ Implements "br-lan".toList true [] wanReply := by
  rw [implements_iff_decides (by decide)]
  rintro ⟨hinput, -⟩
  have haccept := hinput.accepts (.inl (.inl rfl))
  have hdrop : (inputChain "br-lan".toList).verdict wanReply = .drop := by decide +kernel
  rw [hdrop] at haccept
  cases haccept

end Lwrt.Fw
