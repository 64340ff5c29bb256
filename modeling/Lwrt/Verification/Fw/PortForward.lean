import Mathlib.Data.List.Nodup
import Lwrt.Verification.Fw.Policy

/-! # Port forwarding across the two chains

A forwarded packet is rewritten in the prerouting chain and then judged by the forward chain. -/

namespace Lwrt.Fw

open Library Nl Nftables

/-! ## The purpose -/

/-- The packet after its destination was rewritten. -/
def redirect (p : Packet) (f : Forward) : Packet where
  family := p.family
  ctState := p.ctState
  iifname := p.iifname
  l4proto := p.l4proto
  network := copyAt p.network 16 f.destIp.octets
  transport := p.transport.map (copyAt · 2 (toBe16 f.destPort))
  skgid := p.skgid
  iifname_length := p.iifname_length
  network_length := by
    have hbound : 16 + f.destIp.octets.length ≤ p.network.length := p.network_length
    rw [length_copyAt 16 _ rfl hbound]
    exact p.network_length

/-- The packet asks for the port of a forward. -/
def Matches (p : Packet) (f : Forward) : Prop :=
  p.l4proto = some f.proto ∧ dport p = some (toBe16 f.dport)

/-- A packet from outside that matches a forward is rewritten to its destination and then
accepted; one from the LAN, or one that matches none, keeps its destination. -/
structure Consistent (lan : Text) (forwards : List Forward) (prerouting forward : Chain)
    (p : Packet) : Prop where
  rewritten : p.iifname ≠ Utf8.encode lan → ∀ f ∈ forwards, Matches p f →
    prerouting.verdict p = .dnat f.destIp.octets (toBe16 f.destPort) ∧
      forward.verdict (redirect p f) = .accept
  kept : (p.iifname = Utf8.encode lan ∨ ∀ f ∈ forwards, ¬ Matches p f) →
    ∀ addr port, prerouting.verdict p ≠ .dnat addr port

def PortForwards (lan : Text) (masq : Bool) (forwards : List Forward) (p : Packet) : Prop :=
  ∃ rs prerouting forward, Ruleset.empty.load (buildRuleset lan masq forwards) = some rs ∧
    rs.chainAt nfInetPreRouting = some prerouting ∧ rs.chainAt nfInetForward = some forward ∧
    Consistent lan forwards prerouting forward p

/-! ## The prerouting chain -/

def preroutingChain (forwards : List Forward) : Chain :=
  ⟨Utf8.encode table, Utf8.encode "prerouting".toList, 0, .accept, preroutingRules forwards⟩

/-- Protocol and port tell the forwards apart. -/
def Distinct (forwards : List Forward) : Prop :=
  (forwards.map fun f => (f.proto, f.dport)).Nodup

/-- At most one forward redirects a packet. -/
theorem Redirects.unique {forwards : List Forward} (h : Distinct forwards) {p : Packet}
    {f g : Forward} (hf : f ∈ forwards) (hg : g ∈ forwards) (hrf : Redirects p f)
    (hrg : Redirects p g) : f = g := by
  have hproto : f.proto = g.proto := Option.some.inj (hrf.2.1.symm.trans hrg.2.1)
  have hport : f.dport = g.dport := by
    apply toBe16_injective
    rw [hrf.2.2, hrg.2.2, hproto]
  exact List.inj_on_of_nodup_map h hf hg (by rw [hproto, hport])

theorem preroutingRules_judge {forwards : List Forward} {p : Packet} {v : Verdict}
    (h : ∀ f ∈ forwards, Redirects p f → .dnat f.destIp.octets (toBe16 f.destPort) = v) :
    List.Forall₂ (fun rule cond => Judges p rule cond v) (preroutingRules forwards)
      (forwards.reverse.map (Redirects p)) := by
  rw [preroutingRules, ← List.map_reverse, List.forall₂_map_left_iff, List.forall₂_map_right_iff,
    List.forall₂_same]
  intro f hf
  have hjudges := dnatRule_judges p f
  refine ⟨fun hr regs hregs => ?_, hjudges.miss⟩
  rw [hjudges.hit hr regs hregs, h f (List.mem_reverse.mp hf) hr]

theorem preroutingChain_dnat {forwards : List Forward} (h : Distinct forwards) {p : Packet}
    {g : Forward} (hg : g ∈ forwards) (hr : Redirects p g) :
    (preroutingChain forwards).verdict p = .dnat g.destIp.octets (toBe16 g.destPort) := by
  have hrules : List.Forall₂ (fun rule cond =>
      Judges p rule cond (.dnat g.destIp.octets (toBe16 g.destPort))) (preroutingRules forwards)
      (forwards.reverse.map (Redirects p)) :=
    preroutingRules_judge fun f hf hrf => by rw [hrf.unique h hf hg hr]
  have hany : AnyOf (forwards.reverse.map (Redirects p)) :=
    (anyOf_map _ _).mpr ⟨g, List.mem_reverse.mpr hg, hr⟩
  rw [Chain.verdict, preroutingChain, evalRules_eq_some hrules hany clean_zero, Option.getD_some]

theorem preroutingChain_accept {forwards : List Forward} {p : Packet}
    (h : ∀ f ∈ forwards, ¬ Redirects p f) : (preroutingChain forwards).verdict p = .accept := by
  have hrules : List.Forall₂ (fun rule cond => Judges p rule cond .accept)
      (preroutingRules forwards) (forwards.reverse.map (Redirects p)) :=
    preroutingRules_judge fun f hf hrf => absurd hrf (h f hf)
  have hnone : ¬ AnyOf (forwards.reverse.map (Redirects p)) := by
    rw [anyOf_map]
    rintro ⟨f, hf, hr⟩
    exact h f (List.mem_reverse.mp hf) hr
  rw [Chain.verdict, preroutingChain, evalRules_eq_none hrules hnone clean_zero, Option.getD_none]

/-- The verdict tells which forward redirects. -/
theorem preroutingChain_eq_dnat_iff {forwards : List Forward} (h : Distinct forwards) (p : Packet)
    (addr port : List UInt8) :
    (preroutingChain forwards).verdict p = .dnat addr port ↔
      ∃ g ∈ forwards, Redirects p g ∧ g.destIp.octets = addr ∧ toBe16 g.destPort = port := by
  by_cases hany : ∃ g ∈ forwards, Redirects p g
  · obtain ⟨g, hg, hr⟩ := hany
    rw [preroutingChain_dnat h hg hr]
    constructor
    · intro heq
      injection heq with haddr hport
      exact ⟨g, hg, hr, haddr, hport⟩
    · rintro ⟨g', hg', hr', rfl, rfl⟩
      rw [hr.unique h hg hg' hr']
  · have hnone : ∀ f ∈ forwards, ¬ Redirects p f := fun f hf hr => hany ⟨f, hf, hr⟩
    rw [preroutingChain_accept hnone]
    constructor
    · intro heq
      cases heq
    · rintro ⟨g, hg, hr, -⟩
      exact absurd hr (hnone g hg)

theorem portForwards_iff_consistent {lan : Text} (h : (Utf8.encode lan).length ≤ 15) (masq : Bool)
    (forwards : List Forward) (p : Packet) :
    PortForwards lan masq forwards p ↔
      Consistent lan forwards (preroutingChain forwards) (forwardChain lan forwards) p := by
  constructor
  · rintro ⟨rs, prerouting, forward, hload, hpre, hfwd, hconsistent⟩
    rw [buildRuleset_loads h] at hload
    obtain rfl := Option.some.inj hload
    obtain rfl : preroutingChain forwards = prerouting := Option.some.inj hpre
    obtain rfl : forwardChain lan forwards = forward := Option.some.inj hfwd
    exact hconsistent
  · intro hconsistent
    exact ⟨_, preroutingChain forwards, forwardChain lan forwards,
      buildRuleset_loads h masq forwards, rfl, rfl, hconsistent⟩

/-! ## When it works -/

/-- The rewritten packet carries the destination, which the forward chain reads. -/
theorem admits_redirect_iff {p : Packet} {f : Forward} (h : p.l4proto = some f.proto)
    (g : Forward) :
    Admits (redirect p f) g ↔
      g.proto = f.proto ∧ g.destIp = f.destIp ∧
        toBe16 g.destPort = [f.destIp.a, f.destIp.b] := by
  have hdaddr : extract (copyAt p.network 16 f.destIp.octets) 16 4 = f.destIp.octets :=
    extract_copyAt_self rfl p.network_length
  rw [Admits, redirect, h, hdaddr, Ipv4Addr.octets_inj, Option.some_inj]
  constructor
  · rintro ⟨hproto, haddr, hport⟩
    exact ⟨hproto.symm, haddr.symm, by rw [hport, haddr]⟩
  · rintro ⟨hproto, haddr, hport⟩
    exact ⟨hproto.symm, haddr.symm, by rw [hport, haddr]⟩

theorem rewritten_iff {lan : Text} (hlan : (Utf8.encode lan).length ≤ 15) {forwards : List Forward}
    (hdistinct : Distinct forwards) {p : Packet} {f : Forward} (h : p.l4proto = some f.proto) :
    ((preroutingChain forwards).verdict p = .dnat f.destIp.octets (toBe16 f.destPort) ∧
      (forwardChain lan forwards).verdict (redirect p f) = .accept) ↔
    (∃ g ∈ forwards, Redirects p g ∧ g.destIp = f.destIp ∧ g.destPort = f.destPort) ∧
      (Spells p (Utf8.encode lan) ∨ ∃ g ∈ forwards, g.proto = f.proto ∧ g.destIp = f.destIp ∧
        toBe16 g.destPort = [f.destIp.a, f.destIp.b]) := by
  have hforward := forwardChain_decides hlan forwards (redirect p f)
  simp only [admits_redirect_iff h] at hforward
  have hport (g : Forward) : toBe16 g.destPort = toBe16 f.destPort ↔ g.destPort = f.destPort :=
    ⟨toBe16_injective, fun heq => by rw [heq]⟩
  rw [preroutingChain_eq_dnat_iff hdistinct, hforward.accept_iff]
  simp only [Ipv4Addr.octets_inj, hport]
  rfl

theorem kept_iff {forwards : List Forward} (hdistinct : Distinct forwards) (p : Packet) :
    (∀ addr port, (preroutingChain forwards).verdict p ≠ .dnat addr port) ↔
      ∀ g ∈ forwards, ¬ Redirects p g := by
  constructor
  · intro hkept g hg hr
    exact hkept _ _ (preroutingChain_dnat hdistinct hg hr)
  · intro hnone addr port heq
    rw [preroutingChain_accept hnone] at heq
    cases heq

/-- A packet is redirected by its protocol alone, whatever port it asks for and wherever it
comes from. So forwarding works for a matching packet from outside exactly when the forward
that redirects its protocol has the destination of the one it matches, and the port of some
forward to that address is spelled by the address itself; it works for the other packets
exactly when no forward redirects their protocol. -/
theorem portForwards_iff {lan : Text} (hlan : (Utf8.encode lan).length ≤ 15) (masq : Bool)
    {forwards : List Forward} (hdistinct : Distinct forwards) (p : Packet) :
    PortForwards lan masq forwards p ↔
      (p.iifname ≠ Utf8.encode lan → ∀ f ∈ forwards, Matches p f →
        (∃ g ∈ forwards, Redirects p g ∧ g.destIp = f.destIp ∧ g.destPort = f.destPort) ∧
          (Spells p (Utf8.encode lan) ∨ ∃ g ∈ forwards, g.proto = f.proto ∧ g.destIp = f.destIp ∧
            toBe16 g.destPort = [f.destIp.a, f.destIp.b])) ∧
      ((p.iifname = Utf8.encode lan ∨ ∀ f ∈ forwards, ¬ Matches p f) →
        ∀ g ∈ forwards, ¬ Redirects p g) := by
  rw [portForwards_iff_consistent hlan]
  constructor
  · rintro ⟨hrewritten, hkept⟩
    refine ⟨fun hiif f hf hm => ?_, fun hother => (kept_iff hdistinct p).mp (hkept hother)⟩
    exact (rewritten_iff hlan hdistinct hm.1).mp (hrewritten hiif f hf hm)
  · rintro ⟨hrewritten, hkept⟩
    refine ⟨fun hiif f hf hm => ?_, fun hother => (kept_iff hdistinct p).mpr (hkept hother)⟩
    exact (rewritten_iff hlan hdistinct hm.1).mpr (hrewritten hiif f hf hm)

/-- A forward whose outer port spells its protocol, and whose inner port its address. -/
def spelledForward : Forward :=
  ⟨6, 1536, ⟨1, 187, 0, 9⟩, 443⟩

/-- A connection from the internet to port 1536 of the router. -/
def wanSyn1536 : Packet :=
  { wanReply with
    ctState := .new
    transport := some [156, 64, 6, 0, 0, 0, 0, 1, 0, 0, 0, 0, 0x50, 2, 0, 0, 0, 0, 0, 0] }

theorem portForwards_spelled :
    (Utf8.encode "br-lan".toList).length ≤ 15 ∧ Distinct [spelledForward] ∧
    PortForwards "br-lan".toList true [spelledForward] wanSyn1536 := by
  have hlan : (Utf8.encode "br-lan".toList).length ≤ 15 := by decide
  have hdistinct : Distinct [spelledForward] := by simp [Distinct]
  refine ⟨hlan, hdistinct, (portForwards_iff hlan true hdistinct wanSyn1536).mpr ⟨?_, ?_⟩⟩
  · intro _ f hf _
    obtain rfl := List.mem_singleton.mp hf
    exact ⟨⟨_, hf, ⟨rfl, rfl, by decide⟩, rfl, rfl⟩, .inr ⟨_, hf, rfl, rfl, by decide⟩⟩
  · rintro (hiif | hnone)
    · exact absurd hiif (by decide)
    · exact absurd ⟨rfl, by decide⟩ (hnone spelledForward (List.mem_singleton_self _))

/-- A web server behind the router. -/
def webForward : Forward :=
  ⟨6, 8080, ⟨192, 168, 1, 10⟩, 80⟩

/-- A connection from the internet to port 8080 of the router. -/
def wanSyn : Packet :=
  { wanReply with
    ctState := .new
    transport := some [156, 64, 31, 144, 0, 0, 0, 1, 0, 0, 0, 0, 0x50, 2, 0, 0, 0, 0, 0, 0] }

theorem forward_not_rewritten :
    Distinct [webForward] ∧ ¬ PortForwards "br-lan".toList true [webForward] wanSyn := by
  refine ⟨by simp [Distinct], ?_⟩
  rw [portForwards_iff_consistent (by decide)]
  rintro ⟨hrewritten, -⟩
  obtain ⟨hdnat, -⟩ := hrewritten (by decide) webForward (by simp) ⟨rfl, by decide⟩
  have hkept : (preroutingChain [webForward]).verdict wanSyn = .accept := by decide +kernel
  rw [hkept] at hdnat
  cases hdnat

end Lwrt.Fw
