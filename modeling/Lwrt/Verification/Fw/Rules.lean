import Lwrt.Verification.Fw.Loading

/-! # What each rule decides

No rule writes past the first word of the first register, so every rule starts with zeros
there. Under this invariant a rule is a condition on the packet. -/

namespace Lwrt.Nftables

open Library Nl

/-! ## Registers -/

/-- The first register holds a word and zeros after it. -/
structure Holds (regs : Regs) (word : List UInt8) : Prop where
  length : regs.length = 80
  word : extract regs 16 4 = word
  rest : extract regs 20 12 = List.replicate 12 0

def Clean (regs : Regs) : Prop :=
  ∃ word, Holds regs word

theorem Holds.clean {regs : Regs} {word : List UInt8} (h : Holds regs word) : Clean regs :=
  ⟨word, h⟩

theorem clean_zero : Clean Regs.zero :=
  ⟨List.replicate 4 0, by decide, by decide, by decide⟩

/-- Reading starts with the word. -/
theorem Holds.read {regs : Regs} {word : List UInt8} (h : Holds regs word) {n : ℕ} (hn : n ≤ 16) :
    regs.read 1 n = (word ++ List.replicate 12 0).take n := by
  have hwhole : extract regs 16 16 = word ++ List.replicate 12 0 := by
    rw [← h.word, ← h.rest, ← extract_add regs 16 4 12]
  have hpart : extract regs 16 n = (extract regs 16 16).take n := by
    rw [extract, extract, List.take_take, Nat.min_eq_left hn]
  rw [Regs.read, ← hwhole, ← hpart]
  rfl

theorem Holds.read_four {regs : Regs} {word : List UInt8} (h : Holds regs word) :
    regs.read 1 4 = word :=
  h.word

theorem pad_byte (x : UInt8) : NlBuf.pad [x] = [x, 0, 0, 0] := by
  simp [NlBuf.pad, align4]

theorem pad_half (x y : UInt8) : NlBuf.pad [x, y] = [x, y, 0, 0] := by
  simp [NlBuf.pad, align4]

theorem pad_word {word : List UInt8} (h : word.length = 4) : NlBuf.pad word = word :=
  pad_eq_self (by rw [h])

/-- A value of one word replaces the word. -/
theorem Clean.store_one {regs : Regs} {word bytes : List UInt8} (h : Clean regs)
    (hpad : NlBuf.pad bytes = word) (hlen : word.length = 4) : Holds (regs.store 1 bytes) word := by
  obtain ⟨old, hold⟩ := h
  subst hpad
  have hbound : 16 + (NlBuf.pad bytes).length ≤ List.length regs := by
    rw [hlen, hold.length]
    decide
  exact
    { length := length_copyAt _ _ hold.length (by rw [hlen]; decide)
      word := extract_copyAt_self hlen (by rw [hold.length]; decide)
      rest := (extract_copyAt_of_disjoint hbound (.inr (by rw [hlen]))).trans hold.rest }

/-- The second register lies behind the first. -/
theorem Holds.store_two {regs : Regs} {word bytes : List UInt8} (h : Holds regs word)
    (hbytes : (NlBuf.pad bytes).length = 4) : Holds (regs.store 2 bytes) word := by
  have hbound : 32 + (NlBuf.pad bytes).length ≤ List.length regs := by
    rw [hbytes, h.length]
    decide
  exact
    { length := length_copyAt _ _ h.length (by rw [hbytes]; decide)
      word := (extract_copyAt_of_disjoint hbound (.inl (by decide))).trans h.word
      rest := (extract_copyAt_of_disjoint hbound (.inl (by decide))).trans h.rest }

theorem read_two_store {regs : Regs} (h : regs.length = 80) (x y : UInt8) :
    (regs.store 2 [x, y]).read 2 2 = [x, y] := by
  have hword : extract (regs.store 2 [x, y]) 32 4 = [x, y, 0, 0] := by
    rw [Regs.store, pad_half]
    exact extract_copyAt_self rfl (by rw [h]; decide)
  have htake : extract (regs.store 2 [x, y]) 32 2 =
      (extract (regs.store 2 [x, y]) 32 4).take 2 := by
    rw [extract, extract, List.take_take]
    rfl
  rw [hword] at htake
  exact htake

/-! ## Expressions -/

section Steps

variable {p : Packet} {regs : Regs}

theorem evalRule_load {key dreg : UInt32} {bytes : List UInt8} (h : p.loadMeta key = some bytes)
    (rest : List Expr) :
    evalRule p regs (.load key dreg :: rest) = evalRule p (regs.store dreg bytes) rest := by
  simp only [evalRule, Expr.eval, h, storeOrStop]

theorem evalRule_load_none {key : UInt32} (h : p.loadMeta key = none) (dreg : UInt32)
    (rest : List Expr) : evalRule p regs (.load key dreg :: rest) = (none, regs) := by
  simp only [evalRule, Expr.eval, h, storeOrStop]

theorem evalRule_payload {base start len dreg : UInt32} {bytes : List UInt8}
    (h : p.loadPayload base start len = some bytes) (rest : List Expr) :
    evalRule p regs (.payload base start len dreg :: rest) =
      evalRule p (regs.store dreg bytes) rest := by
  simp only [evalRule, Expr.eval, h, storeOrStop]

theorem evalRule_immediate (dreg : UInt32) (data : List UInt8) (rest : List Expr) :
    evalRule p regs (.immediate dreg data :: rest) = evalRule p (regs.store dreg data) rest := by
  simp only [evalRule, Expr.eval]

theorem evalRule_cmp_hit {word data : List UInt8} (h : Holds regs word) (hlen : data.length ≤ 16)
    (heq : (word ++ List.replicate 12 0).take data.length = data) (rest : List Expr) :
    evalRule p regs (.cmp 1 .eq data :: rest) = evalRule p regs rest := by
  simp only [evalRule, Expr.eval, (h.read hlen).trans heq, if_true]

theorem evalRule_cmp_miss {word data : List UInt8} (h : Holds regs word) (hlen : data.length ≤ 16)
    (hne : (word ++ List.replicate 12 0).take data.length ≠ data) (rest : List Expr) :
    evalRule p regs (.cmp 1 .eq data :: rest) = (none, regs) := by
  rw [← h.read hlen] at hne
  simp only [evalRule, Expr.eval, if_neg hne]

theorem evalRule_accept (rest : List Expr) :
    evalRule p regs (.verdict .accept :: rest) = (some .accept, regs) := by
  simp only [evalRule, Expr.eval]

end Steps

/-! ## Rules -/

/-- A rule gives its verdict under a condition, and keeps the invariant where it gives none. -/
structure Judges (p : Packet) (rule : List Expr) (c : Prop) (v : Verdict) : Prop where
  hit : c → ∀ regs, Clean regs → (evalRule p regs rule).1 = some v
  miss : ¬ c → ∀ regs, Clean regs → ∃ regs', Clean regs' ∧ evalRule p regs rule = (none, regs')

/-- One of the conditions holds. -/
def AnyOf : List Prop → Prop
  | [] => False
  | c :: cs => c ∨ AnyOf cs

theorem anyOf_append (cs ds : List Prop) : AnyOf (cs ++ ds) ↔ AnyOf cs ∨ AnyOf ds := by
  induction cs with
  | nil => simp [AnyOf]
  | cons c cs ih => rw [List.cons_append, AnyOf, AnyOf, ih, or_assoc]

theorem anyOf_map {α : Type} (f : α → Prop) (xs : List α) :
    AnyOf (xs.map f) ↔ ∃ x ∈ xs, f x := by
  induction xs with
  | nil => simp [AnyOf]
  | cons x xs ih => rw [List.map_cons, AnyOf, ih, List.exists_mem_cons_iff]

theorem evalRules_of_hit {p : Packet} {rule : List Expr} {regs : Regs} {v : Verdict}
    (h : (evalRule p regs rule).1 = some v) (rules : List (List Expr)) :
    evalRules p regs (rule :: rules) = some v := by
  rw [evalRules]
  split
  case h_1 v' regs' heq =>
    rw [heq] at h
    exact h
  case h_2 regs' heq =>
    rw [heq] at h
    cases h

/-- Rules with one verdict give it when one of their conditions holds. -/
theorem evalRules_eq_some {p : Packet} {rules : List (List Expr)} {cs : List Prop} {v : Verdict}
    (h : List.Forall₂ (fun rule c => Judges p rule c v) rules cs) (hcs : AnyOf cs)
    {regs : Regs} (hregs : Clean regs) : evalRules p regs rules = some v := by
  induction h generalizing regs with
  | nil => exact hcs.elim
  | @cons rule c rules cs hrule _ ih =>
      by_cases hc : c
      · exact evalRules_of_hit (hrule.hit hc regs hregs) rules
      · obtain ⟨regs', hregs', heq⟩ := hrule.miss hc regs hregs
        rw [evalRules, heq]
        exact ih (hcs.resolve_left hc) hregs'

theorem evalRules_eq_none {p : Packet} {rules : List (List Expr)} {cs : List Prop} {v : Verdict}
    (h : List.Forall₂ (fun rule c => Judges p rule c v) rules cs) (hcs : ¬ AnyOf cs)
    {regs : Regs} (hregs : Clean regs) : evalRules p regs rules = none := by
  induction h generalizing regs with
  | nil => rfl
  | @cons rule c rules cs hrule _ ih =>
      obtain ⟨hc, hcs⟩ := not_or.mp hcs
      obtain ⟨regs', hregs', heq⟩ := hrule.miss hc regs hregs
      rw [evalRules, heq]
      exact ih hcs hregs'

theorem Judges.congr {p : Packet} {rule : List Expr} {c c' : Prop} {v : Verdict}
    (h : Judges p rule c v) (hc : c ↔ c') : Judges p rule c' v where
  hit := fun hc' => h.hit (hc.mpr hc')
  miss := fun hc' => h.miss (mt hc.mp hc')

theorem judges_accept (p : Packet) : Judges p [.verdict .accept] True .accept where
  hit := fun _ _ _ => by rw [evalRule_accept]
  miss := fun hnot => absurd trivial hnot

/-- The first part of a rule, entered with some registers: under a condition the rule goes on with
`word` in the first register, and otherwise it ends without a verdict. -/
structure Checks (p : Packet) (part : List Expr) (entry : Regs → Prop) (c : Prop)
    (word : List UInt8) : Prop where
  hit : c → ∀ regs, entry regs → ∃ regs', Holds regs' word ∧
    ∀ rest, evalRule p regs (part ++ rest) = evalRule p regs' rest
  miss : ¬ c → ∀ regs, entry regs → ∃ regs', Clean regs' ∧
    ∀ rest, evalRule p regs (part ++ rest) = (none, regs')

/-- Two comparisons one after the other. -/
theorem Checks.and {p : Packet} {part part' : List Expr} {entry : Regs → Prop} {c c' : Prop}
    {word word' : List UInt8} (h : Checks p part entry c word)
    (h' : Checks p part' (Holds · word) c' word') :
    Checks p (part ++ part') entry (c ∧ c') word' where
  hit := by
    intro hboth regs hregs
    obtain ⟨regs₁, hregs₁, heq₁⟩ := h.hit hboth.1 regs hregs
    obtain ⟨regs₂, hregs₂, heq₂⟩ := h'.hit hboth.2 regs₁ hregs₁
    refine ⟨regs₂, hregs₂, fun rest => ?_⟩
    rw [List.append_assoc, heq₁, heq₂]
  miss := by
    intro hnot regs hregs
    by_cases hc : c
    · obtain ⟨regs₁, hregs₁, heq₁⟩ := h.hit hc regs hregs
      obtain ⟨regs₂, hregs₂, heq₂⟩ := h'.miss (fun hc' => hnot ⟨hc, hc'⟩) regs₁ hregs₁
      refine ⟨regs₂, hregs₂, fun rest => ?_⟩
      rw [List.append_assoc, heq₁, heq₂]
    · obtain ⟨regs₁, hregs₁, heq₁⟩ := h.miss hc regs hregs
      refine ⟨regs₁, hregs₁, fun rest => ?_⟩
      rw [List.append_assoc, heq₁]

/-- A whole rule, of comparisons and what follows them. -/
theorem Checks.judges {p : Packet} {part rule : List Expr} {c c' : Prop} {word : List UInt8}
    {v : Verdict} (h : Checks p part Clean c word) (h' : Judges p rule c' v) :
    Judges p (part ++ rule) (c ∧ c') v where
  hit := by
    intro hboth regs hregs
    obtain ⟨regs₁, hregs₁, heq₁⟩ := h.hit hboth.1 regs hregs
    rw [heq₁]
    exact h'.hit hboth.2 regs₁ hregs₁.clean
  miss := by
    intro hnot regs hregs
    by_cases hc : c
    · obtain ⟨regs₁, hregs₁, heq₁⟩ := h.hit hc regs hregs
      rw [heq₁]
      exact h'.miss (fun hc' => hnot ⟨hc, hc'⟩) regs₁ hregs₁.clean
    · obtain ⟨regs₁, hregs₁, heq₁⟩ := h.miss hc regs hregs
      exact ⟨regs₁, hregs₁, heq₁ rule⟩

/-- A load and a comparison of what the first register holds after it. -/
theorem checks_of_load {p : Packet} {load : Expr} {entry : Regs → Prop} {word data : List UInt8}
    (hload : ∀ regs, entry regs → ∃ regs', Holds regs' word ∧
      ∀ rest, evalRule p regs (load :: rest) = evalRule p regs' rest)
    (hlen : data.length ≤ 16) :
    Checks p [load, .cmp 1 .eq data] entry
      ((word ++ List.replicate 12 0).take data.length = data) word where
  hit := by
    intro heq regs hregs
    obtain ⟨regs', hregs', hrest⟩ := hload regs hregs
    refine ⟨regs', hregs', fun rest => ?_⟩
    rw [List.cons_append, hrest, List.cons_append, List.nil_append, evalRule_cmp_hit hregs' hlen heq]
  miss := by
    intro hne regs hregs
    obtain ⟨regs', hregs', hrest⟩ := hload regs hregs
    refine ⟨regs', hregs'.clean, fun rest => ?_⟩
    rw [List.cons_append, hrest, List.cons_append, List.nil_append,
      evalRule_cmp_miss hregs' hlen hne]

/-- Load of the transport protocol and comparison with `proto`, at the head of a rule. -/
theorem checks_l4proto (p : Packet) (proto : UInt8) :
    Checks p [.load 16 1, .cmp 1 .eq [proto]] Clean (p.l4proto = some proto) [proto, 0, 0, 0] := by
  cases hproto : p.l4proto with
  | none =>
      have hload : p.loadMeta 16 = none := by simp [Packet.loadMeta, hproto]
      constructor
      · intro h
        cases h
      · exact fun _ regs hregs => ⟨regs, hregs, fun rest => evalRule_load_none hload 1 _⟩
  | some other =>
      have hload : p.loadMeta 16 = some [other] := by simp [Packet.loadMeta, hproto]
      have hholds : ∀ regs, Clean regs → ∃ regs', Holds regs' [other, 0, 0, 0] ∧
          ∀ rest, evalRule p regs (.load 16 1 :: rest) = evalRule p regs' rest :=
        fun regs hregs => ⟨regs.store 1 [other], hregs.store_one (pad_byte other) rfl,
          evalRule_load hload⟩
      have hlen : [proto].length ≤ 16 := Nat.le_of_ble_eq_true rfl
      have hchecks : Checks p [.load 16 1, .cmp 1 .eq [proto]] Clean ([other] = [proto])
          [other, 0, 0, 0] :=
        checks_of_load hholds hlen
      constructor
      · intro h
        obtain rfl := Option.some.inj h
        exact hchecks.hit rfl
      · intro h
        exact hchecks.miss fun heq => h (congrArg some (List.head_eq_of_cons_eq heq))

end Lwrt.Nftables

namespace Lwrt.Fw

open Library Nl Nftables

/-- The state is one of the low bits, and the mask has its bits in the last byte. -/
theorem ctAcceptRule_judges (p : Packet) : Judges p ctAcceptRule False .accept where
  hit := False.elim
  miss := by
    intro _ regs hregs
    have hstate : Holds (regs.store 1 (toLe32 p.ctState.bit)) (toLe32 p.ctState.bit) :=
      hregs.store_one (pad_word rfl) rfl
    have hmasked : List.zipWith (· ^^^ ·)
        (List.zipWith (· &&& ·) (toLe32 p.ctState.bit) [0, 0, 0, 6]) [0, 0, 0, 0] =
        [0, 0, 0, 0] := by
      cases p.ctState <;> decide
    have hzero : Holds ((regs.store 1 (toLe32 p.ctState.bit)).store 1 [0, 0, 0, 0]) [0, 0, 0, 0] :=
      hstate.clean.store_one (pad_word rfl) rfl
    have hload : Regs.read (regs.store 1 (toLe32 p.ctState.bit)) 1 (4 : UInt32).toNat =
        toLe32 p.ctState.bit :=
      hstate.read_four
    have hread : Regs.read ((regs.store 1 (toLe32 p.ctState.bit)).store 1 [0, 0, 0, 0]) 1
        ([0, 0, 0, 0] : List UInt8).length = [0, 0, 0, 0] :=
      hzero.read_four
    refine ⟨_, hzero.clean, ?_⟩
    simp only [ctAcceptRule, evalRule, Expr.eval, if_true, storeOrStop, hload, hmasked, hread]

/-- The bytes of the group number spell the name. -/
def Spells (p : Packet) (name : List UInt8) : Prop :=
  ∃ gid, p.skgid = some gid ∧
    (toLe32 gid ++ List.replicate 12 0).take (name.length + 1) = name ++ [0]

theorem iifAcceptRule_judges (p : Packet) {name : List UInt8} (hname : name.length ≤ 15) :
    Judges p (iifAcceptRule name) (Spells p name) .accept := by
  cases hgid : p.skgid with
  | none =>
      have hload : p.loadMeta 11 = none := by simp [Packet.loadMeta, hgid]
      constructor
      · intro hspells
        obtain ⟨gid, hsome, -⟩ := hspells
        rw [hgid] at hsome
        cases hsome
      · exact fun _ regs hregs => ⟨regs, hregs, evalRule_load_none hload 1 _⟩
  | some gid =>
      have hload : p.loadMeta 11 = some (toLe32 gid) := by simp [Packet.loadMeta, hgid]
      have hlen : (name ++ [0]).length = name.length + 1 := by simp
      have hchecks : Checks p [.load 11 1, .cmp 1 .eq (name ++ [0])] Clean
          ((toLe32 gid ++ List.replicate 12 0).take (name ++ [0]).length = name ++ [0])
          (toLe32 gid) :=
        checks_of_load (fun regs hregs => ⟨regs.store 1 (toLe32 gid),
          hregs.store_one (pad_word rfl) rfl, evalRule_load hload⟩) (by omega)
      refine (hchecks.judges (judges_accept p)).congr ?_
      rw [hlen, and_true]
      constructor
      · exact fun hspell => ⟨gid, hgid, hspell⟩
      · intro hspells
        obtain ⟨gid', hsome, hspell⟩ := hspells
        obtain rfl := Option.some.inj (hgid.symm.trans hsome)
        exact hspell

theorem l4protoAcceptRule_judges (p : Packet) (proto : UInt8) :
    Judges p (l4protoAcceptRule proto) (p.l4proto = some proto) .accept :=
  ((checks_l4proto p proto).judges (judges_accept p)).congr (and_iff_left trivial)

theorem loadPayload_daddr (p : Packet) :
    p.loadPayload 1 16 4 = some (extract p.network 16 4) := by
  simp only [Packet.loadPayload, if_true, copyBits]
  exact if_pos p.network_length

theorem loadPayload_length (p : Packet) :
    p.loadPayload 1 2 2 = some (extract p.network 2 2) := by
  simp only [Packet.loadPayload, if_true, copyBits]
  exact if_pos (le_trans (by decide) p.network_length)

/-- The total length of the packet goes to the second register. -/
theorem holds_store_length (p : Packet) {regs : Regs} {word : List UInt8} (h : Holds regs word) :
    Holds (regs.store 2 (extract p.network 2 2)) word := by
  have hlen := p.network_length
  refine h.store_two ?_
  rw [length_pad, length_extract (by omega)]
  rfl

theorem holds_store_daddr (p : Packet) {regs : Regs} (h : Clean regs) :
    Holds (regs.store 1 (extract p.network 16 4)) (extract p.network 16 4) := by
  have hlen : (extract p.network 16 4).length = 4 := length_extract p.network_length
  exact h.store_one (pad_word hlen) hlen

/-- The first register still holds the address when the port is compared. -/
def Admits (p : Packet) (fwd : Forward) : Prop :=
  p.l4proto = some fwd.proto ∧ extract p.network 16 4 = fwd.destIp.octets ∧
    toBe16 fwd.destPort = [fwd.destIp.a, fwd.destIp.b]

/-- The load of a port goes to the second register, so the comparison is with what the first one
held before. -/
theorem checks_length (p : Packet) (word data : List UInt8) (hlen : data.length ≤ 16) :
    Checks p [.payload 1 2 2 2, .cmp 1 .eq data] (Holds · word)
      ((word ++ List.replicate 12 0).take data.length = data) word :=
  checks_of_load (fun regs hregs => ⟨regs.store 2 (extract p.network 2 2),
    holds_store_length p hregs, evalRule_payload (loadPayload_length p)⟩) hlen

theorem forwardRule_judges (p : Packet) (fwd : Forward) :
    Judges p (forwardRule fwd) (Admits p fwd) .accept := by
  have hdaddr : Checks p [.payload 1 16 4 1, .cmp 1 .eq fwd.destIp.octets]
      (Holds · [fwd.proto, 0, 0, 0])
      ((extract p.network 16 4 ++ List.replicate 12 0).take fwd.destIp.octets.length =
        fwd.destIp.octets) (extract p.network 16 4) :=
    checks_of_load (fun regs hregs => ⟨regs.store 1 (extract p.network 16 4),
      holds_store_daddr p hregs.clean, evalRule_payload (loadPayload_daddr p)⟩)
      (by simp [Ipv4Addr.octets])
  have hport := checks_length p (extract p.network 16 4) (toBe16 fwd.destPort) (by simp)
  have htake : (extract p.network 16 4 ++ List.replicate 12 0).take fwd.destIp.octets.length =
      extract p.network 16 4 :=
    List.take_left' (length_extract p.network_length)
  refine ((((checks_l4proto p fwd.proto).and hdaddr).and hport).judges (judges_accept p)).congr ?_
  rw [htake, and_true, and_assoc, Admits]
  refine and_congr_right fun _ => and_congr_right fun haddr => ?_
  rw [haddr]
  exact eq_comm

/-- The first register still holds the protocol when the port is compared. -/
def Redirects (p : Packet) (fwd : Forward) : Prop :=
  p.family = .ipv4 ∧ p.l4proto = some fwd.proto ∧ toBe16 fwd.dport = [fwd.proto, 0]

/-- Past the comparisons only the family is left to decide. -/
theorem judges_dnat (p : Packet) (addr : Ipv4Addr) (port : UInt16) :
    Judges p [.immediate 1 addr.octets, .immediate 2 (toBe16 port), .dnat 2 1 2]
      (p.family = .ipv4) (.dnat addr.octets (toBe16 port)) := by
  have hholds (regs : Regs) (hregs : Clean regs) : Holds (regs.store 1 addr.octets) addr.octets :=
    hregs.store_one (pad_word rfl) rfl
  have hboth (regs : Regs) (hregs : Clean regs) :
      Holds ((regs.store 1 addr.octets).store 2 (toBe16 port)) addr.octets :=
    (hholds regs hregs).store_two (by rw [length_pad, length_toBe16]; rfl)
  constructor
  · intro hfamily regs hregs
    have hread : ((regs.store 1 addr.octets).store 2 (toBe16 port)).read 2 2 = toBe16 port :=
      read_two_store (hholds regs hregs).length _ _
    rw [evalRule_immediate, evalRule_immediate]
    simp only [evalRule, Expr.eval, hfamily, Family.number, if_true, hread,
      (hboth regs hregs).read_four]
  · intro hmiss regs hregs
    have hfamily : ¬ (2 : UInt32) = p.family.number := by
      cases hp : p.family with
      | ipv4 => exact absurd hp hmiss
      | ipv6 => decide
    refine ⟨_, (hboth regs hregs).clean, ?_⟩
    rw [evalRule_immediate, evalRule_immediate]
    simp only [evalRule, Expr.eval, if_neg hfamily]

theorem dnatRule_judges (p : Packet) (fwd : Forward) :
    Judges p (dnatRule fwd) (Redirects p fwd)
      (.dnat fwd.destIp.octets (toBe16 fwd.destPort)) := by
  have hport := checks_length p [fwd.proto, 0, 0, 0] (toBe16 fwd.dport) (by simp)
  have htake : ([fwd.proto, 0, 0, 0] ++ List.replicate 12 0).take (toBe16 fwd.dport).length =
      [fwd.proto, 0] :=
    rfl
  refine (((checks_l4proto p fwd.proto).and hport).judges
    (judges_dnat p fwd.destIp fwd.destPort)).congr ?_
  rw [htake, Redirects, and_comm, and_congr_right_iff]
  exact fun _ => and_congr_right fun _ => eq_comm

end Lwrt.Fw
