import Lwrt.Verification.Fw.Batch

/-! # The acknowledgements of a batch

The kernel acknowledges every message of the batch that asks for it. How `program` drains these
acknowledgements is compared with one receive for each. -/

namespace Lwrt.Fw

open Library Nl

/-! ## Acknowledgements -/

/-- A datagram that acknowledges a message, with an error code. -/
structure Ack where
  datagram : List UInt8
  error : Int32
  length_le : 20 ≤ datagram.length
  type_eq : extract datagram 4 2 = toLe16 nlmsgError
  error_eq : extract datagram 16 4 = toLe32 error.toUInt32

/-- A field of a received datagram. -/
theorem extract_received {d : List UInt8} (hd : 20 ≤ d.length) {i n : ℕ} (h : i + n ≤ 20) :
    extract (copyAt (List.replicate 4096 0) 0 (d.take 4096)) i n = extract d i n := by
  have hlen : i + n ≤ (d.take 4096).length := by
    rw [List.length_take]
    omega
  rw [copyAt, List.take_zero, List.nil_append, extract_append_left hlen]
  conv_rhs => rw [← List.take_append_drop 4096 d, extract_append_left hlen]

theorem recvAck_datagram (a : Ack) :
    recvAck (.ok a.datagram) = if a.error = 0 then .ok () else .error (-a.error) := by
  have hlen : ¬ (a.datagram.take 4096).length < 16 := by
    have := a.length_le
    rw [List.length_take]
    omega
  have herr : (UInt32.ofNat (ofLeBytes (toLe32 a.error.toUInt32))).toInt32 = a.error := by
    rw [ofLeBytes_toLe32, UInt32.ofNat_toNat]
    rfl
  simp only [recvAck, if_neg hlen, extract_received a.length_le (show 4 + 2 ≤ 20 by decide),
    extract_received a.length_le (show 16 + 4 ≤ 20 by decide), a.type_eq, a.error_eq,
    ofLeBytes_toLe16, herr, if_true]
  by_cases hzero : a.error = 0
  · rw [if_pos hzero, if_neg (not_not.mpr hzero)]
  · rw [if_neg hzero, if_pos hzero]

/-! ## The loop -/

/-- What the loop meets. -/
def queue (acks : List Ack) : List (Except Int32 (List UInt8)) :=
  acks.map fun a => .ok a.datagram

theorem drain_cons (turns : ℕ) (a : Ack) (acks : List Ack) :
    drain (turns + 1) (queue (a :: acks)) =
      if a.error = 0 then
        ⟨(drain turns (queue acks)).receives + 1, (drain turns (queue acks)).result⟩
      else ⟨1, some (if -a.error = eagain then .ok () else .error (-a.error))⟩ := by
  rw [queue, List.map_cons, drain, recvAck_datagram]
  by_cases ha : a.error = 0
  · rw [if_pos ha, if_pos ha]
    rfl
  · rw [if_neg ha, if_neg ha]

/-- As long as nothing is wrong, the loop goes on. -/
theorem drain_of_accepted {pre : List Ack} (hpre : ∀ a ∈ pre, a.error = 0) (turns : ℕ)
    (rest : List Ack) :
    drain (pre.length + turns) (queue (pre ++ rest)) =
      ⟨pre.length + (drain turns (queue rest)).receives, (drain turns (queue rest)).result⟩ := by
  induction pre with
  | nil => simp
  | cons a pre ih =>
      obtain ⟨ha, hpre⟩ := List.forall_mem_cons.mp hpre
      rw [List.length_cons, Nat.add_right_comm, List.cons_append, drain_cons, if_pos ha, ih hpre,
        Nat.add_right_comm]

/-- It ends after its last turn, whatever else is there. -/
theorem drain_of_le {pre : List Ack} (hpre : ∀ a ∈ pre, a.error = 0) {turns : ℕ}
    (h : turns ≤ pre.length) (rest : List Ack) :
    drain turns (queue (pre ++ rest)) = ⟨turns, some (.ok ())⟩ := by
  have htake : ∀ a ∈ pre.take turns, a.error = 0 := fun a ha => hpre a (List.mem_of_mem_take ha)
  have hdrain := drain_of_accepted htake 0 (pre.drop turns ++ rest)
  rwa [← List.append_assoc, List.take_append_drop, List.length_take, Nat.min_eq_left h,
    drain] at hdrain

/-- With turns left, it waits for another one. -/
theorem drain_of_lt {acks : List Ack} (hacks : ∀ a ∈ acks, a.error = 0) {turns : ℕ}
    (h : acks.length < turns) : drain turns (queue acks) = ⟨acks.length + 1, none⟩ := by
  obtain ⟨more, rfl⟩ := Nat.exists_eq_add_of_lt h
  have hdrain := drain_of_accepted hacks (more + 1) []
  rwa [List.append_nil, ← Nat.add_assoc] at hdrain

/-- An error ends the loop, and is reported unless it is EAGAIN. -/
theorem drain_of_rejected {pre : List Ack} (hpre : ∀ a ∈ pre, a.error = 0) {a : Ack}
    (ha : a.error ≠ 0) (post : List Ack) {turns : ℕ} (h : pre.length < turns) :
    drain turns (queue (pre ++ a :: post)) =
      ⟨pre.length + 1, some (if -a.error = eagain then .ok () else .error (-a.error))⟩ := by
  obtain ⟨more, rfl⟩ := Nat.exists_eq_add_of_lt h
  have hdrain := drain_of_accepted hpre (more + 1) (a :: post)
  rw [drain_cons, if_neg ha] at hdrain
  exact hdrain

/-! ## The purpose -/

/-- The first error, if there is one. -/
def firstError (acks : List Ack) : Except Int32 Unit :=
  match acks.find? (·.error ≠ 0) with
  | none => .ok ()
  | some a => .error (-a.error)

/-- One receive for each acknowledgement, and the first error returned. -/
structure Drained (p : Programmed) (acks : List Ack) : Prop where
  receives : p.receives = acks.length
  result : p.result = some (firstError acks)

/-- Only the last acknowledgement carries an error, and not EAGAIN. -/
def LastRejected (acks : List Ack) : Prop :=
  ∃ pre a, acks = pre ++ [a] ∧ (∀ b ∈ pre, b.error = 0) ∧ a.error ≠ 0 ∧ -a.error ≠ eagain

theorem accepted_or_rejected (acks : List Ack) :
    ((∀ a ∈ acks, a.error = 0) ∧ firstError acks = .ok ()) ∨
      ∃ pre a post, acks = pre ++ a :: post ∧ (∀ b ∈ pre, b.error = 0) ∧ a.error ≠ 0 ∧
        firstError acks = .error (-a.error) := by
  unfold firstError
  cases hfind : acks.find? (·.error ≠ 0) with
  | none =>
      refine Or.inl ⟨?_, rfl⟩
      intro a ha
      simpa using List.find?_eq_none.mp hfind a ha
  | some a =>
      obtain ⟨ha, pre, post, heq, hpre⟩ := List.find?_eq_some_iff_append.mp hfind
      refine Or.inr ⟨pre, a, post, heq, ?_, by simpa using ha, rfl⟩
      intro b hb
      simpa using hpre b hb

theorem drained_accepted_iff {acks : List Ack} (hacks : ∀ a ∈ acks, a.error = 0)
    (hfirst : firstError acks = .ok ()) (turns : ℕ) :
    Drained (drain turns (queue acks)) acks ↔ acks.length = turns := by
  rcases Nat.lt_or_ge acks.length turns with hlt | hge
  · rw [drain_of_lt hacks hlt]
    refine iff_of_false (fun h => ?_) (Nat.ne_of_lt hlt)
    cases h.result
  · have hdrain := drain_of_le hacks hge []
    rw [List.append_nil] at hdrain
    rw [hdrain]
    exact ⟨fun h => h.receives.symm, fun h => ⟨h.symm, congrArg some hfirst.symm⟩⟩

theorem lastRejected_iff {pre post : List Ack} {a : Ack} (hpre : ∀ b ∈ pre, b.error = 0)
    (ha : a.error ≠ 0) : LastRejected (pre ++ a :: post) ↔ post = [] ∧ -a.error ≠ eagain := by
  constructor
  · intro h
    obtain ⟨pre', b, heq, hpre', -, hb⟩ := h
    rcases List.eq_nil_or_concat post with rfl | ⟨post, c, rfl⟩
    · obtain ⟨-, hlast⟩ := List.append_inj' heq rfl
      rw [(List.cons.inj hlast).1]
      exact ⟨rfl, hb⟩
    · rw [List.concat_eq_append, ← List.cons_append, ← List.append_assoc] at heq
      obtain ⟨hinit, -⟩ := List.append_inj' heq rfl
      exact absurd (hpre' a (hinit ▸ by simp)) ha
  · intro h
    obtain ⟨rfl, heagain⟩ := h
    exact ⟨pre, a, rfl, hpre, ha, heagain⟩

theorem drained_rejected_iff {pre post : List Ack} {a : Ack} (hpre : ∀ b ∈ pre, b.error = 0)
    (ha : a.error ≠ 0) (hfirst : firstError (pre ++ a :: post) = .error (-a.error)) (turns : ℕ) :
    Drained (drain turns (queue (pre ++ a :: post))) (pre ++ a :: post) ↔
      (pre ++ a :: post).length ≤ turns ∧ LastRejected (pre ++ a :: post) := by
  have hlength : (pre ++ a :: post).length = pre.length + 1 + post.length := by
    rw [List.length_append, List.length_cons]
    omega
  rw [lastRejected_iff hpre ha, hlength]
  rcases Nat.lt_or_ge pre.length turns with hlt | hge
  · rw [drain_of_rejected hpre ha post hlt]
    constructor
    · intro h
      have hreceives : pre.length + 1 = (pre ++ a :: post).length := h.receives
      rw [hlength] at hreceives
      have hpost : post = [] := List.eq_nil_of_length_eq_zero (by omega)
      have hresult := h.result
      rw [hfirst] at hresult
      refine ⟨by omega, hpost, fun heagain => ?_⟩
      rw [if_pos heagain] at hresult
      cases hresult
    · intro h
      obtain ⟨-, rfl, heagain⟩ := h
      refine ⟨hlength.symm, ?_⟩
      rw [hfirst, if_neg heagain]
  · rw [drain_of_le hpre hge]
    refine iff_of_false (fun h => ?_) fun h => by omega
    have hresult := h.result
    rw [hfirst] at hresult
    cases hresult

/-! ## Batches -/

/-- How many messages ask for an acknowledgement. -/
def askedFor (ms : List Msg) : ℕ :=
  ms.countP fun m => m.flags &&& nlmFAck ≠ 0

theorem commandMsgs_ask (lan : Text) (masq : Bool) (forwards : List Forward) :
    ∀ m ∈ commandMsgs lan masq forwards, m.flags &&& nlmFAck ≠ 0 := by
  have hcreate (msg : UInt16) (attrs : List Attr) :
      (createMsg msg attrs).flags &&& nlmFAck ≠ 0 := by
    show createFlags &&& nlmFAck ≠ 0
    decide
  have hrule (chain : Text) (exprs : List Attr) :
      (ruleMsg chain exprs).flags &&& nlmFAck ≠ 0 := hcreate _ _
  simp only [commandMsgs, List.forall_mem_append]
  refine ⟨⟨⟨?_, ?_⟩, ?_⟩, ?_⟩
  · simp [frameMsgs, tableMsg, chainMsg, hcreate]
  · simp [baseRuleMsgs, hrule]
  · simp [forwardMsgs, hrule, or_imp, forall_and]
  · cases masq <;> simp [masqMsgs, hrule]

theorem length_commandMsgs (lan : Text) (masq : Bool) (forwards : List Forward) :
    (commandMsgs lan masq forwards).length = 11 + 2 * forwards.length + masq.toNat := by
  have hmasq : (masqMsgs masq).length = masq.toNat := by cases masq <;> rfl
  simp only [commandMsgs, List.length_append, hmasq, forwardMsgs, List.length_map]
  rw [show frameMsgs.length = 5 from rfl, show (baseRuleMsgs lan).length = 6 from rfl]
  omega

/-- All messages of a batch do, but for the first and the last one. -/
theorem askedFor_batchMsgs (lan : Text) (masq : Bool) (forwards : List Forward) :
    askedFor (batchMsgs lan masq forwards) = 11 + 2 * forwards.length + masq.toNat := by
  have hbatch (msgType : UInt16) : ¬ (batchMsg msgType).flags &&& nlmFAck ≠ 0 := by
    show ¬ nlmFRequest &&& nlmFAck ≠ 0
    decide
  have hcommands : (commandMsgs lan masq forwards).countP (fun m => m.flags &&& nlmFAck ≠ 0) =
      (commandMsgs lan masq forwards).length := by
    rw [List.countP_eq_length]
    intro m hm
    simpa using commandMsgs_ask lan masq forwards m hm
  rw [askedFor, batchMsgs, List.countP_cons_of_neg (by simpa using hbatch _), List.countP_append,
    hcommands, List.countP_cons_of_neg (by simpa using hbatch _), List.countP_nil,
    length_commandMsgs, Nat.add_zero]

/-- The kernel takes the batch and acknowledges it so. -/
def Kernel.acknowledging (acks : List Ack) : Kernel where
  opened := .ok ()
  sent := fun _ => .ok ()
  answers := fun _ => queue acks

/-- The acknowledgements of a batch are drained exactly if there are 32 of them without an error,
or up to 32 of which only the last one carries an error, and not EAGAIN. After fewer without an
error the loop waits for another one, after an earlier error it leaves the rest, and more are never
received. -/
theorem program_drained_iff (lan : Text) (masq : Bool) (forwards : List Forward) {acks : List Ack}
    (h : acks.length = askedFor (batchMsgs lan masq forwards)) :
    Drained (program (.acknowledging acks) (buildRuleset lan masq forwards)) acks ↔
      (masq = true ∧ forwards.length = 10 ∧ ∀ a ∈ acks, a.error = 0) ∨
        (11 + 2 * forwards.length + masq.toNat ≤ 32 ∧ LastRejected acks) := by
  rw [askedFor_batchMsgs] at h
  rw [show program (.acknowledging acks) (buildRuleset lan masq forwards) =
    drain 32 (queue acks) from rfl]
  rcases accepted_or_rejected acks with ⟨hacks, hfirst⟩ | ⟨pre, a, post, rfl, hpre, ha, hfirst⟩
  · have hnot : ¬ LastRejected acks := by
      intro hlast
      obtain ⟨pre, a, rfl, -, ha, -⟩ := hlast
      exact ha (hacks a (by simp))
    have hcount : 11 + 2 * forwards.length + masq.toNat = 32 ↔
        masq = true ∧ forwards.length = 10 := by
      cases masq with
      | false =>
          simp only [Bool.toNat_false, Bool.false_eq_true, false_and, iff_false]
          omega
      | true =>
          simp only [Bool.toNat_true, true_and]
          omega
    rw [drained_accepted_iff hacks hfirst, h, hcount]
    tauto
  · have hnot : ¬ ∀ b ∈ pre ++ a :: post, b.error = 0 := fun hall => ha (hall a (by simp))
    rw [drained_rejected_iff hpre ha hfirst, h]
    tauto

/-- An acknowledgement of the kernel. -/
def Ack.of (error : Int32) : Ack where
  datagram := toLe32 36 ++ toLe16 nlmsgError ++ toLe16 0 ++ toLe32 1 ++ toLe32 0 ++
    toLe32 error.toUInt32 ++ List.replicate 16 0
  error := error
  length_le := by simp [length_toLe32, length_toLe16]
  type_eq := rfl
  error_eq := rfl

theorem error_of_mem_replicate {n : ℕ} {error : Int32} :
    ∀ a ∈ List.replicate n (Ack.of error), a.error = error := by
  intro a ha
  rw [List.eq_of_mem_replicate ha, Ack.of]

/-- Ten port forwards, all accepted. -/
theorem program_drains_ten :
    Drained (program (.acknowledging (List.replicate 32 (.of 0)))
      (buildRuleset "br-lan".toList true
        (List.replicate 10 ⟨ipprotoTcp, 8080, ⟨192, 168, 1, 10⟩, 80⟩)))
      (List.replicate 32 (.of 0)) := by
  refine (program_drained_iff _ _ _ ?_).mpr (Or.inl ⟨rfl, ?_, error_of_mem_replicate⟩)
  · rw [askedFor_batchMsgs, List.length_replicate, List.length_replicate]
    rfl
  · rw [List.length_replicate]

/-- Without port forwards the loop waits for a thirteenth acknowledgement. -/
theorem program_waits :
    askedFor (batchMsgs "br-lan".toList true []) = 12 ∧
      program (.acknowledging (List.replicate 12 (.of 0)))
        (buildRuleset "br-lan".toList true []) = ⟨13, none⟩ ∧
      ¬ Drained (program (.acknowledging (List.replicate 12 (.of 0)))
        (buildRuleset "br-lan".toList true [])) (List.replicate 12 (.of 0)) := by
  have hwaits : program (.acknowledging (List.replicate 12 (.of 0)))
      (buildRuleset "br-lan".toList true []) = ⟨13, none⟩ :=
    drain_of_lt error_of_mem_replicate (by rw [List.length_replicate]; decide)
  refine ⟨askedFor_batchMsgs _ _ _, hwaits, fun h => ?_⟩
  have hresult := h.result
  rw [hwaits] at hresult
  cases hresult

end Lwrt.Fw
