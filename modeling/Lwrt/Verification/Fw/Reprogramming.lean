import Lwrt.Verification.Fw.Loading

/-! # Runs on a kernel that is programmed already

The batch creates, and deletes nothing, so what a run leaves depends on the runs before it. -/

namespace Lwrt.Fw

open Library Nl Nftables

/-! ## One rule -/

/-- The kernel holds the table of the firewall with its four chains, and nothing else. -/
def Framed (rs : Ruleset) : Prop :=
  ∃ input forward prerouting postrouting, rs = ruleset input forward prerouting postrouting

/-- The rules of all chains. -/
def total (rs : Ruleset) : ℕ :=
  (rs.chains.map fun c => c.rules.length).sum

def addTo (append : Bool) (exprs : List Expr) (rules : List (List Expr)) : List (List Expr) :=
  if append then rules ++ [exprs] else exprs :: rules

theorem length_addTo (append : Bool) (exprs : List Expr) (rules : List (List Expr)) :
    (addTo append exprs rules).length = rules.length + 1 := by
  cases append <;> simp [addTo]

theorem total_ruleset (input forward prerouting postrouting : List (List Expr)) :
    total (ruleset input forward prerouting postrouting) =
      input.length + (forward.length + (prerouting.length + postrouting.length)) := by
  simp [total, ruleset]

theorem grows_of_apply {c : Command} (h : ∀ i f p q, ∃ i' f' p' q',
    (ruleset i f p q).apply c = some (ruleset i' f' p' q') ∧
      i'.length + (f'.length + (p'.length + q'.length)) =
        i.length + (f.length + (p.length + q.length)) + 1) {rs : Ruleset} (hrs : Framed rs) :
    ∃ rs', rs.apply c = some rs' ∧ Framed rs' ∧ total rs' = total rs + 1 := by
  obtain ⟨i, f, p, q, rfl⟩ := hrs
  obtain ⟨i', f', p', q', happly, hlen⟩ := h i f p q
  exact ⟨_, happly, ⟨i', f', p', q', rfl⟩, by rw [total_ruleset, total_ruleset, hlen]⟩

/-- What is refused on every programmed kernel, or adds as many rules to each. -/
def RefusedOrAdds (n : ℕ) (effect : Ruleset → Option Ruleset) : Prop :=
  (∀ rs, Framed rs → effect rs = none) ∨
    ∀ rs, Framed rs → ∃ rs', effect rs = some rs' ∧ Framed rs' ∧ total rs' = total rs + n

theorem RefusedOrAdds.bind {m n : ℕ} {f g : Ruleset → Option Ruleset} (hf : RefusedOrAdds m f)
    (hg : RefusedOrAdds n g) : RefusedOrAdds (m + n) fun rs => (f rs).bind g := by
  simp only [RefusedOrAdds] at hf hg ⊢
  cases hf with
  | inl hrefused => exact Or.inl fun rs hrs => by rw [hrefused rs hrs, Option.bind_none]
  | inr hadds =>
      cases hg with
      | inl hrefused =>
          left
          intro rs hrs
          obtain ⟨rs₁, hf, hframed, -⟩ := hadds rs hrs
          rw [hf, Option.bind_some, hrefused rs₁ hframed]
      | inr hmore =>
          right
          intro rs hrs
          obtain ⟨rs₁, hf, hframed, hm⟩ := hadds rs hrs
          obtain ⟨rs₂, hg, hframed', hn⟩ := hmore rs₁ hframed
          exact ⟨rs₂, by rw [hf, Option.bind_some, hg], hframed', by rw [hn, hm, Nat.add_assoc]⟩

/-- A rule goes to one of the chains, whatever rules they hold. -/
theorem apply_newRule (t chain : List UInt8) (append : Bool) (exprs : List Expr) :
    RefusedOrAdds 1 (·.apply (.newRule t chain append exprs)) := by
  simp only [RefusedOrAdds]
  by_cases ht : t = Utf8.encode table
  case neg =>
    left
    intro rs hrs
    obtain ⟨i, f, p, q, rfl⟩ := hrs
    rw [Ruleset.apply, if_neg]
    simp [ruleset, Ne.symm ht]
  subst ht
  by_cases hi : chain = Utf8.encode "input".toList
  · subst hi
    exact Or.inr fun rs => grows_of_apply fun i f p q =>
      ⟨addTo append exprs i, f, p, q, rfl, by rw [length_addTo]; omega⟩
  by_cases hf : chain = Utf8.encode "forward".toList
  · subst hf
    exact Or.inr fun rs => grows_of_apply fun i f p q =>
      ⟨i, addTo append exprs f, p, q, rfl, by rw [length_addTo]; omega⟩
  by_cases hp : chain = Utf8.encode "prerouting".toList
  · subst hp
    exact Or.inr fun rs => grows_of_apply fun i f p q =>
      ⟨i, f, addTo append exprs p, q, rfl, by rw [length_addTo]; omega⟩
  by_cases hq : chain = Utf8.encode "postrouting".toList
  · subst hq
    exact Or.inr fun rs => grows_of_apply fun i f p q =>
      ⟨i, f, p, addTo append exprs q, rfl, by rw [length_addTo]; omega⟩
  left
  intro rs hrs
  obtain ⟨i, f, p, q, rfl⟩ := hrs
  rw [Ruleset.apply, if_neg]
  simp only [ruleset, List.any_cons, List.any_nil, Ne.symm hi, Ne.symm hf, Ne.symm hp, Ne.symm hq]
  simp

/-! ## All rules -/

/-- A message that asks for a rule is read as one, if it is read at all. -/
theorem commandOf_rule {m : Msg} (h : m.msgType = nftType nftMsgNewrule) {c : Command}
    (hc : commandOf m.encode = some c) :
    ∃ t chain append exprs, c = .newRule t chain append exprs := by
  have htype : m.msgType ≠ 0xa00 ∧ m.msgType ≠ 0xa03 ∧ m.msgType = 0xa06 := by
    rw [h]
    decide
  rw [commandOf, extract_msgType, ofLeBytes_toLe16, UInt16.ofNat_toNat, decodeCommand,
    if_neg htype.1, if_neg htype.2.1, if_pos htype.2.2] at hc
  simp only [Option.bind_eq_bind, Option.bind_eq_some_iff] at hc
  obtain ⟨exprs, -, t, -, chain, -, hc⟩ := hc
  exact ⟨t, chain, _, exprs, (Option.some.inj hc).symm⟩

theorem applyBatch_rules {ms : List Msg} (h : ∀ m ∈ ms, m.msgType = nftType nftMsgNewrule)
    {last : Msg} (hlast : last.msgType = 17) :
    RefusedOrAdds ms.length (applyBatch · (ms.map Msg.encode ++ [last.encode])) := by
  induction ms with
  | nil => exact Or.inr fun rs hrs => ⟨rs, applyBatch_end hlast rs [], hrs, rfl⟩
  | cons m ms ih =>
      obtain ⟨hm, hms⟩ := List.forall_mem_cons.mp h
      have hne : m.msgType ≠ 17 := by
        rw [hm]
        decide
      rw [List.length_cons, Nat.add_comm]
      simp only [List.cons_append, List.map_cons, applyBatch_of_ne hne]
      cases hc : commandOf m.encode with
      | none => exact Or.inl fun _ _ => rfl
      | some c =>
          obtain ⟨t, chain, append, exprs, rfl⟩ := commandOf_rule hm hc
          exact (apply_newRule t chain append exprs).bind (ih hms)

/-! ## The whole batch -/

/-- The rules of the batch, which follow the table and its chains. -/
def ruleMsgs (lan : Text) (masq : Bool) (forwards : List Forward) : List Msg :=
  baseRuleMsgs lan ++ forwardMsgs forwards ++ masqMsgs masq

theorem msgType_ruleMsgs (lan : Text) (masq : Bool) (forwards : List Forward) :
    ∀ m ∈ ruleMsgs lan masq forwards, m.msgType = nftType nftMsgNewrule := by
  have hrule (chain : Text) (exprs : List Attr) :
      (ruleMsg chain exprs).msgType = nftType nftMsgNewrule := rfl
  simp only [ruleMsgs, List.forall_mem_append]
  refine ⟨⟨?_, ?_⟩, ?_⟩
  · simp [baseRuleMsgs, hrule]
  · simp [forwardMsgs, hrule, or_imp, forall_and]
  · cases masq <;> simp [masqMsgs, hrule]

/-- The part of a ruleset that the first commands of a batch make sure of. -/
def framed (rs : Ruleset) : Ruleset :=
  if rs = Ruleset.empty then ruleset [] [] [] [] else rs

/-- A kernel that no run has touched, or that is programmed already. -/
def Ready (rs : Ruleset) : Prop :=
  rs = Ruleset.empty ∨ Framed rs

theorem Framed.ne_empty {rs : Ruleset} (h : Framed rs) : rs ≠ Ruleset.empty := by
  obtain ⟨i, f, p, q, rfl⟩ := h
  simp [ruleset, Ruleset.empty]

theorem Ready.framed_spec {rs : Ruleset} (h : Ready rs) :
    Framed (framed rs) ∧ total (framed rs) = total rs ∧
      frameCommands.foldlM Ruleset.apply rs = some (framed rs) := by
  cases h with
  | inl h =>
      rw [h, framed, if_pos rfl]
      exact ⟨⟨_, _, _, _, rfl⟩, rfl, apply_frameCommands⟩
  | inr h =>
      rw [framed, if_neg h.ne_empty]
      refine ⟨h, rfl, ?_⟩
      obtain ⟨i, f, p, q, rfl⟩ := h
      rfl

theorem load_run {cfg : Config} (h : (run cfg).length ≤ isizeMax) :
    ∃ n, 0 < n ∧ ∃ effect, RefusedOrAdds n effect ∧
      ∀ rs, Ready rs → rs.load (run cfg) = effect (framed rs) := by
  obtain ⟨lan, masq, forwards, hrun⟩ : ∃ lan masq forwards,
      run cfg = buildRuleset lan masq forwards := ⟨_, _, _, rfl⟩
  rw [hrun] at h ⊢
  have hsize : ∀ m ∈ commandMsgs lan masq forwards, m.size < 2 ^ 32 := by
    intro m hm
    have hsum := size_le_sum (show m ∈ batchMsgs lan masq forwards by simp [batchMsgs, hm])
    rw [buildRuleset_eq_flatMap, length_flatMap_encode, map_size_numbered, isizeMax] at h
    omega
  obtain ⟨first, last, hparts, hfirst, hlast⟩ := numbered_batchMsgs lan masq forwards
  obtain ⟨next, hnext⟩ := numbered_append 2 frameMsgs (ruleMsgs lan masq forwards)
  have hcommands : commandMsgs lan masq forwards = frameMsgs ++ ruleMsgs lan masq forwards := by
    simp only [commandMsgs, ruleMsgs, List.append_assoc]
  have hrules : ∀ m ∈ numbered next (ruleMsgs lan masq forwards),
      m.msgType = nftType nftMsgNewrule :=
    forall_mem_numbered (P := fun m => m.msgType = nftType nftMsgNewrule) (fun _ _ hm => hm)
      (msgType_ruleMsgs lan masq forwards) next
  refine ⟨_, ?_, _, applyBatch_rules hrules hlast, ?_⟩
  · rw [length_numbered]
    simp [ruleMsgs, baseRuleMsgs]
  · intro rs hrs
    rw [load_messages (messages_buildRuleset hsize) hparts hfirst, hcommands, hnext,
      List.append_assoc, List.map_append, applyBatch_append (Loads.numbered frameMsgs_load 2),
      hrs.framed_spec.2.2, Option.bind_some, List.map_append, List.map_singleton]

/-! ## Runs -/

/-- The kernel after a run. A buffer that does not fit in memory is never sent, and a batch that
the kernel refuses changes nothing. -/
def reprogram (rs : Ruleset) (cfg : Config) : Ruleset :=
  if (run cfg).length ≤ isizeMax then (rs.load (run cfg)).getD rs else rs

/-- Runs under a configuration have no effect, or each of them adds as many rules. -/
theorem reprogram_cases (cfg : Config) :
    (∀ rs, Ready rs → reprogram rs cfg = rs) ∨
      ∃ n, 0 < n ∧ ∀ rs, Ready rs →
        Framed (reprogram rs cfg) ∧ total (reprogram rs cfg) = total rs + n := by
  by_cases hfits : (run cfg).length ≤ isizeMax
  case neg => exact Or.inl fun rs _ => if_neg hfits
  obtain ⟨n, hn, effect, heffect, hload⟩ := load_run hfits
  cases heffect with
  | inl hrefused =>
      left
      intro rs hrs
      rw [reprogram, if_pos hfits, hload rs hrs, hrefused _ hrs.framed_spec.1, Option.getD_none]
  | inr hadds =>
      refine Or.inr ⟨n, hn, fun rs hrs => ?_⟩
      obtain ⟨hframed, htotal, -⟩ := hrs.framed_spec
      obtain ⟨rs', heq, hframed', htotal'⟩ := hadds _ hframed
      rw [reprogram, if_pos hfits, hload rs hrs, heq, Option.getD_some]
      exact ⟨hframed', by rw [htotal', htotal]⟩

/-- The kernel after runs under one configuration. -/
def reached (cfg : Config) (k : ℕ) : Ruleset :=
  (reprogram · cfg)^[k] Ruleset.empty

theorem reached_succ (cfg : Config) (k : ℕ) :
    reached cfg (k + 1) = reprogram (reached cfg k) cfg :=
  Function.iterate_succ_apply' _ _ _

/-- The kernel is as it was, or holds rules. -/
theorem reached_spec (cfg : Config) (k : ℕ) :
    (reached cfg k = Ruleset.empty ∧ (k = 0 ∨ reprogram Ruleset.empty cfg = Ruleset.empty)) ∨
      (Framed (reached cfg k) ∧ 0 < total (reached cfg k) ∧
        k ≠ 0 ∧ reprogram Ruleset.empty cfg ≠ Ruleset.empty) := by
  induction k with
  | zero => exact Or.inl ⟨rfl, Or.inl rfl⟩
  | succ k ih =>
      rw [reached_succ]
      have hready : Ready (reached cfg k) := ih.imp And.left And.left
      cases reprogram_cases cfg with
      | inl hsame =>
          have hempty := hsame Ruleset.empty (Or.inl rfl)
          have hnone : reached cfg k = Ruleset.empty :=
            (ih.resolve_right fun h => h.2.2.2 hempty).1
          rw [hnone]
          exact Or.inl ⟨hempty, Or.inr hempty⟩
      | inr hadds =>
          obtain ⟨n, hn, hadds⟩ := hadds
          obtain ⟨hframed, htotal⟩ := hadds _ hready
          exact Or.inr ⟨hframed, by omega, by omega, (hadds _ (Or.inl rfl)).1.ne_empty⟩

/-- A run leaves what it would leave on an empty kernel only if the kernel is empty. -/
theorem reprogram_reached_iff (A B : Config) (k : ℕ) :
    reprogram (reached A k) B = reprogram Ruleset.empty B ↔ reached A k = Ruleset.empty := by
  have hspec := reached_spec A k
  have hready : Ready (reached A k) := hspec.imp And.left And.left
  constructor
  · intro hsame
    refine (hspec.resolve_right fun hrules => ?_).1
    cases reprogram_cases B with
    | inl hnothing =>
        rw [hnothing _ hready, hnothing _ (Or.inl rfl)] at hsame
        exact hrules.1.ne_empty hsame
    | inr hadds =>
        obtain ⟨n, -, hadds⟩ := hadds
        have htotal := (hadds _ hready).2
        rw [hsame, (hadds _ (Or.inl rfl)).2] at htotal
        have hzero : total Ruleset.empty = 0 := rfl
        omega
  · intro hempty
    rw [hempty]

/-- Runs under one configuration and then one under another leave what the last one alone would
leave exactly if there was no run before it, or those before it had no effect. -/
theorem reprogram_idempotent_iff (A B : Config) (k : ℕ) :
    reprogram (reached A k) B = reprogram Ruleset.empty B ↔
      k = 0 ∨ reprogram Ruleset.empty A = Ruleset.empty := by
  rw [reprogram_reached_iff]
  cases reached_spec A k with
  | inl hempty => exact ⟨fun _ => hempty.2, fun _ => hempty.1⟩
  | inr hrules =>
      constructor
      · intro hempty
        exact absurd hempty hrules.1.ne_empty
      · intro hnone
        exact absurd hnone (not_or.mpr hrules.2.2)

/-- A run under a LAN name that an interface can have is one with an effect. -/
theorem reprogram_empty_ne {cfg : Config} {lan : Text} {masq : Bool} {forwards : List Forward}
    (hrun : run cfg = buildRuleset lan masq forwards) (hlan : (Utf8.encode lan).length ≤ 15)
    (hfits : (run cfg).length ≤ isizeMax) : reprogram Ruleset.empty cfg ≠ Ruleset.empty := by
  rw [reprogram, if_pos hfits, hrun, buildRuleset_loads hlan, Option.getD_some]
  exact Framed.ne_empty ⟨_, _, _, _, rfl⟩

/-- One port forward. -/
def oneForward : Config :=
  Config.parse "[firewall]\nforward = tcp:8080:192.168.1.10:80\n".toList

/-- The same configuration without it. -/
def noForward : Config :=
  Config.parse "[firewall]\n".toList

theorem run_oneForward :
    run oneForward = buildRuleset "br-lan".toList true [⟨6, 8080, ⟨192, 168, 1, 10⟩, 80⟩] := by
  have hlan : oneForward.getOr "lan".toList "ifname".toList "br-lan".toList =
      "br-lan".toList := by
    decide +kernel
  have hmasq : oneForward.getOr "firewall".toList "masq".toList "1".toList = "1".toList := by
    decide +kernel
  have hforwards : parseForwards (oneForward.getOr "firewall".toList "forward".toList []) =
      [⟨6, 8080, ⟨192, 168, 1, 10⟩, 80⟩] := by
    decide +kernel
  simp only [run, hlan, hmasq, hforwards, beq_self_eq_true]

theorem run_noForward : run noForward = buildRuleset "br-lan".toList true [] := by
  have hlan : noForward.getOr "lan".toList "ifname".toList "br-lan".toList = "br-lan".toList := by
    decide +kernel
  have hmasq : noForward.getOr "firewall".toList "masq".toList "1".toList = "1".toList := by
    decide +kernel
  have hforwards : parseForwards (noForward.getOr "firewall".toList "forward".toList []) = [] := by
    decide +kernel
  simp only [run, hlan, hmasq, hforwards, beq_self_eq_true]

/-- The rules of a forward that is gone stay, and so do those of every other run. -/
theorem forward_survives :
    reprogram (reached oneForward 1) noForward ≠ reprogram Ruleset.empty noForward ∧
      ∃ chain, (reprogram (reached oneForward 1) noForward).chainAt nfInetPreRouting = some chain ∧
        dnatRule ⟨6, 8080, ⟨192, 168, 1, 10⟩, 80⟩ ∈ chain.rules := by
  have hone : (run oneForward).length ≤ isizeMax := by
    rw [run_oneForward, buildRuleset_eq_flatMap, length_flatMap_encode]
    decide +kernel
  have hno : (run noForward).length ≤ isizeMax := by
    rw [run_noForward, buildRuleset_eq_flatMap, length_flatMap_encode]
    decide +kernel
  have hreached : reached oneForward 1 =
      ruleset (inputRules "br-lan".toList)
        (forwardRules "br-lan".toList [⟨6, 8080, ⟨192, 168, 1, 10⟩, 80⟩])
        (preroutingRules [⟨6, 8080, ⟨192, 168, 1, 10⟩, 80⟩]) (postroutingRules true) := by
    have hzero : reached oneForward 0 = Ruleset.empty := rfl
    rw [reached_succ, hzero, reprogram, if_pos hone, run_oneForward,
      buildRuleset_loads (by decide), Option.getD_some]
  constructor
  · rw [Ne, reprogram_reached_iff, reached_succ]
    exact reprogram_empty_ne run_oneForward (by decide) hone
  · rw [hreached, reprogram, if_pos hno, run_noForward, load_buildRuleset (by decide)]
    refine ⟨_, rfl, ?_⟩
    decide +kernel

end Lwrt.Fw
