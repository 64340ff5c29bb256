import Mathlib.Data.List.Nodup
import Lwrt.Verification.Ubus.History

/-! # Every call is answered at most once

The invariant relates the calls in flight and the call counter to the whole history of frames. -/

namespace Lwrt.Ubus

open Library Text Json

/-- The frames written for replies to one call. -/
def answersTo (log : List Record) (reqid : ℕ) : List Delivery :=
  (log.filter fun r => r.replyId = some reqid).flatMap Machine.Entry.emitted

/-- The status frames a connection has received. -/
def statusTo (log : List Record) (conn : ℕ) : List Delivery :=
  (log.flatMap Machine.Entry.emitted).filter fun d => d.conn = conn && isStatus d.frame

/-- The frames a connection has sent. -/
def framesOf (log : List Record) (conn : ℕ) : List Record :=
  log.filter fun r => r.sender = some conn

/-- The status frames a request led to: those written at once, and for a call handed to a
provider those written for replies to it. -/
def responses (log : List Record) (r : Record) : List Delivery :=
  r.emitted.filter (fun d => isStatus d.frame) ++
    match r.route with
    | some rt => answersTo log rt.reqid
    | none => []

/-- The call with this number was handed to a provider. -/
def Routed (log : List Record) (reqid : ℕ) : Prop :=
  ∃ r ∈ log, ∃ rt, r.route = some rt ∧ rt.reqid = reqid

/-- A reply to this call came after it. -/
def Replied (log : List Record) (reqid : ℕ) : Prop :=
  ∃ earlier r later, log = earlier ++ r :: later ∧ r.replyId = some reqid ∧ Routed earlier reqid

/-! ## One more event -/

theorem answersTo_append (log : List Record) (r : Record) (reqid : ℕ) :
    answersTo (log ++ [r]) reqid =
      answersTo log reqid ++ if r.replyId = some reqid then r.emitted else [] := by
  simp only [answersTo, List.filter_append, List.flatMap_append]
  split
  · rename_i h
    simp [h]
  · rename_i h
    simp [h]

theorem answersTo_append_of_ne {log : List Record} {r : Record} {reqid : ℕ}
    (h : r.replyId ≠ some reqid) : answersTo (log ++ [r]) reqid = answersTo log reqid := by
  rw [answersTo_append, if_neg h, List.append_nil]

theorem statusTo_append (log : List Record) (r : Record) (conn : ℕ) :
    statusTo (log ++ [r]) conn =
      statusTo log conn ++ r.emitted.filter fun d => d.conn = conn && isStatus d.frame := by
  simp [statusTo]

theorem framesOf_append (log : List Record) (r : Record) (conn : ℕ) :
    framesOf (log ++ [r]) conn = framesOf log conn ++ if r.sender = some conn then [r] else [] := by
  simp only [framesOf, List.filter_append]
  split
  · rename_i h
    simp [h]
  · rename_i h
    simp [h]

theorem Routed.append {log : List Record} {reqid : ℕ} (h : Routed log reqid) (r : Record) :
    Routed (log ++ [r]) reqid := by
  obtain ⟨x, hx, hroute⟩ := h
  exact ⟨x, by simp [hx], hroute⟩

theorem replied_append_iff {log : List Record} {r : Record} {reqid : ℕ} :
    Replied (log ++ [r]) reqid ↔
      Replied log reqid ∨ (r.replyId = some reqid ∧ Routed log reqid) := by
  constructor
  · rintro ⟨earlier, x, later, hsplit, hreply, hrouted⟩
    rcases List.eq_nil_or_concat later with rfl | ⟨later', y, rfl⟩
    · obtain ⟨rfl, hx⟩ := List.append_inj' hsplit rfl
      rw [(List.cons.inj hx).1]
      exact Or.inr ⟨hreply, hrouted⟩
    · rw [List.concat_eq_append, ← List.cons_append, ← List.append_assoc] at hsplit
      exact Or.inl ⟨earlier, x, later', (List.append_inj' hsplit rfl).1, hreply, hrouted⟩
  · rintro (⟨earlier, x, later, rfl, hreply, hrouted⟩ | ⟨hreply, hrouted⟩)
    · exact ⟨earlier, x, later ++ [r], by simp, hreply, hrouted⟩
    · exact ⟨log, r, [], rfl, hreply, hrouted⟩

/-! ## The invariant -/

/-- The tables of the broker against what has happened so far. -/
structure Consistent (b : Bus) (log : List Record) : Prop where
  /-- Call numbers are taken from the counter. -/
  numbered : ∀ r ∈ log, ∀ rt, r.route = some rt →
    0 < rt.reqid ∧ rt.reqid ≤ b.nextReq ∧ r.sender = some rt.caller
  distinct : ((log.filterMap Record.route).map Route.reqid).Nodup
  keys : (b.pending.map Prod.fst).Nodup
  /-- A call in flight was handed to a provider for the connection that waits. -/
  waiting : ∀ reqid caller, (reqid, caller) ∈ b.pending →
    ∃ r ∈ log, ∃ rt, r.route = some rt ∧ rt.reqid = reqid ∧ rt.caller = caller
  unanswered : ∀ reqid caller, (reqid, caller) ∈ b.pending →
    ¬Replied log reqid ∧ answersTo log reqid = []
  once : ∀ reqid, (answersTo log reqid).length ≤ 1
  toCaller : ∀ reqid, ∀ d ∈ answersTo log reqid,
    ∃ r ∈ log, ∃ rt, r.route = some rt ∧ rt.reqid = reqid ∧ rt.caller = d.conn
  counted : ∀ conn, (statusTo log conn).length + b.pending.countP (fun entry => entry.2 = conn) ≤
    (framesOf log conn).length

theorem Replied.routed {log : List Record} {reqid : ℕ} (h : Replied log reqid) :
    Routed log reqid := by
  obtain ⟨earlier, x, later, rfl, -, y, hy, hroute⟩ := h
  exact ⟨y, by simp [hy], hroute⟩

section Fresh

variable {b : Bus} {log : List Record} {reqid : ℕ}

theorem Consistent.not_routed (h : Consistent b log) (hnew : b.nextReq < reqid) :
    ¬Routed log reqid := by
  rintro ⟨x, hx, rt, hrt, heq⟩
  have := (h.numbered x hx rt hrt).2.1
  omega

theorem Consistent.answersTo_eq_nil (h : Consistent b log) (hnot : ¬Routed log reqid) :
    answersTo log reqid = [] := by
  rw [List.eq_nil_iff_forall_not_mem]
  intro d hd
  obtain ⟨x, hx, rt, hrt, heq, -⟩ := h.toCaller reqid d hd
  exact hnot ⟨x, hx, rt, hrt, heq⟩

end Fresh

theorem consistent_default : Consistent Bus.default [] where
  numbered := by simp
  distinct := by simp
  keys := by simp [Bus.default]
  waiting := by simp [Bus.default]
  unanswered := by simp [Bus.default]
  once := by simp [answersTo]
  toCaller := by simp [answersTo]
  counted := by simp [Bus.default, statusTo]

section Step

variable {b after : Bus} {log : List Record} {r : Record}

/-- A record in front of the last one stays in the log. -/
theorem exists_mem_append {P : Record → Prop} (h : ∃ x ∈ log, P x) :
    ∃ x ∈ log ++ [r], P x := by
  obtain ⟨x, hx, hP⟩ := h
  exact ⟨x, by simp [hx], hP⟩

/-- The numbers of the calls so far, after an event that hands on no call. -/
theorem Consistent.numbered_append (h : Consistent b log) (hroute : r.route = none)
    (hreq : after.nextReq = b.nextReq) :
    (∀ x ∈ log ++ [r], ∀ rt, x.route = some rt →
      0 < rt.reqid ∧ rt.reqid ≤ after.nextReq ∧ x.sender = some rt.caller) ∧
    (((log ++ [r]).filterMap Record.route).map Route.reqid).Nodup := by
  constructor
  · intro x hx rt hrt
    rcases List.mem_append.mp hx with hx | hx
    · rw [hreq]
      exact h.numbered x hx rt hrt
    · rw [List.mem_singleton.mp hx, hroute] at hrt
      simp at hrt
  · simpa [hroute] using h.distinct

/-- The answers so far, after an event that brings none. -/
theorem Consistent.answers_append (h : Consistent b log)
    (hsame : ∀ reqid, answersTo (log ++ [r]) reqid = answersTo log reqid) :
    (∀ reqid, (answersTo (log ++ [r]) reqid).length ≤ 1) ∧
      ∀ reqid, ∀ d ∈ answersTo (log ++ [r]) reqid, ∃ x ∈ log ++ [r], ∃ rt, x.route = some rt ∧
        rt.reqid = reqid ∧ rt.caller = d.conn := by
  constructor
  · intro reqid
    rw [hsame]
    exact h.once reqid
  · intro reqid d hd
    rw [hsame] at hd
    exact exists_mem_append (h.toCaller reqid d hd)

/-- The count for a connection, after an event that answers its sender or a caller that waits. -/
theorem Consistent.counted_append (h : Consistent b log) {pending : List (ℕ × ℕ)} {conn : ℕ}
    (hstep : (r.emitted.filter fun d => d.conn = conn && isStatus d.frame).length +
      pending.countP (fun entry => entry.2 = conn) ≤
        b.pending.countP (fun entry => entry.2 = conn) + if r.sender = some conn then 1 else 0) :
    (statusTo (log ++ [r]) conn).length + pending.countP (fun entry => entry.2 = conn) ≤
      (framesOf (log ++ [r]) conn).length := by
  have hold := h.counted conn
  rw [statusTo_append, framesOf_append, List.length_append, List.length_append]
  split at hstep
  · rename_i hsender
    rw [if_pos hsender, List.length_singleton]
    omega
  · rename_i hsender
    rw [if_neg hsender, List.length_nil]
    omega

/-- An event that is no part of a call in flight. -/
theorem Consistent.quiet (h : Consistent b log) (hroute : r.route = none)
    (hreply : r.replyId = none) (hpending : after.pending = b.pending)
    (hreq : after.nextReq = b.nextReq)
    (hcount : ∀ conn, (r.emitted.filter fun d => d.conn = conn && isStatus d.frame).length ≤
      if r.sender = some conn then 1 else 0) : Consistent after (log ++ [r]) := by
  have hanswers : ∀ reqid, answersTo (log ++ [r]) reqid = answersTo log reqid :=
    fun reqid => answersTo_append_of_ne (by simp [hreply])
  obtain ⟨hnumbered, hdistinct⟩ := h.numbered_append hroute hreq
  obtain ⟨honce, hcaller⟩ := h.answers_append hanswers
  refine ⟨hnumbered, hdistinct, ?_, ?_, ?_, honce, hcaller, ?_⟩
  · rw [hpending]
    exact h.keys
  · intro reqid caller hmem
    rw [hpending] at hmem
    exact exists_mem_append (h.waiting reqid caller hmem)
  · intro reqid caller hmem
    rw [hpending] at hmem
    rw [hanswers, replied_append_iff, hreply]
    simpa using h.unanswered reqid caller hmem
  · intro conn
    have hnew := hcount conn
    rw [hpending]
    exact h.counted_append (by omega)

/-- The numbers of the calls so far, after an event that hands on a call under the next one. -/
theorem Consistent.numbered_routed (h : Consistent b log) {rt : Route}
    (hid : r.sender = some rt.caller) (hroute : r.route = some rt)
    (hreqid : rt.reqid = b.nextReq + 1) :
    (∀ x ∈ log ++ [r], ∀ rt', x.route = some rt' →
      0 < rt'.reqid ∧ rt'.reqid ≤ rt.reqid ∧ x.sender = some rt'.caller) ∧
    (((log ++ [r]).filterMap Record.route).map Route.reqid).Nodup := by
  constructor
  · intro x hx rt' hrt'
    rcases List.mem_append.mp hx with hx | hx
    · obtain ⟨hpos, hle, hsender⟩ := h.numbered x hx rt' hrt'
      exact ⟨hpos, by omega, hsender⟩
    · rw [List.mem_singleton.mp hx] at hrt' ⊢
      rw [hroute, Option.some.injEq] at hrt'
      subst hrt'
      exact ⟨by omega, Nat.le_refl _, hid⟩
  · rw [List.filterMap_append, List.map_append]
    refine List.nodup_append.mpr ⟨h.distinct, by simp [hroute], ?_⟩
    intro n hn m hm heq
    have hm : m = rt.reqid := by simpa [hroute] using hm
    obtain ⟨rt', hmem, hrt'⟩ := List.mem_map.mp hn
    obtain ⟨x, hx, hxroute⟩ := List.mem_filterMap.mp hmem
    have hle := (h.numbered x hx rt' hxroute).2.1
    omega

/-- A call that is handed to a provider. -/
theorem Consistent.routed (h : Consistent b log) {rt : Route} (hid : r.sender = some rt.caller)
    (hroute : r.route = some rt) (hreply : r.replyId = none) (hreqid : rt.reqid = b.nextReq + 1)
    (hs : ∀ d ∈ r.emitted, isStatus d.frame = false) :
    Consistent { b with nextReq := rt.reqid, pending := (rt.reqid, rt.caller) :: b.pending }
      (log ++ [r]) := by
  have hanswers : ∀ reqid, answersTo (log ++ [r]) reqid = answersTo log reqid :=
    fun reqid => answersTo_append_of_ne (by simp [hreply])
  -- the number is new, so nothing in the log is about it
  have hfresh : ¬Routed log rt.reqid := h.not_routed (by omega)
  obtain ⟨hnumbered, hdistinct⟩ := h.numbered_routed hid hroute hreqid
  obtain ⟨honce, hcaller⟩ := h.answers_append hanswers
  refine ⟨hnumbered, hdistinct, ?_, ?_, ?_, honce, hcaller, ?_⟩
  · refine List.nodup_cons.mpr ⟨?_, h.keys⟩
    intro hmem
    obtain ⟨⟨n, c⟩, hpair, rfl⟩ := List.mem_map.mp hmem
    obtain ⟨x, hx, rt', hrt', heq, -⟩ := h.waiting _ _ hpair
    exact hfresh ⟨x, hx, rt', hrt', heq⟩
  · intro reqid caller hmem
    rcases List.mem_cons.mp hmem with heq | hmem
    · obtain ⟨rfl, rfl⟩ := Prod.mk.inj heq
      exact ⟨r, by simp, rt, hroute, rfl, rfl⟩
    · exact exists_mem_append (h.waiting reqid caller hmem)
  · intro reqid caller hmem
    rw [hanswers, replied_append_iff, hreply]
    rcases List.mem_cons.mp hmem with heq | hmem
    · obtain ⟨rfl, rfl⟩ := Prod.mk.inj heq
      simpa using ⟨fun hreplied => hfresh hreplied.routed, h.answersTo_eq_nil hfresh⟩
    · simpa using h.unanswered reqid caller hmem
  · intro conn
    have hnone : r.emitted.filter (fun d => d.conn = conn && isStatus d.frame) = [] := by
      rw [List.filter_eq_nil_iff]
      intro d hd
      simp [hs d hd]
    apply h.counted_append
    rw [hnone, hid, List.countP_cons, List.length_nil]
    by_cases hc : rt.caller = conn
    · simp [hc]
    · simp [hc]

/-- The entry of a call that is answered goes, and no other. -/
theorem countP_answered {pending : List (ℕ × ℕ)} {reqid caller : ℕ}
    (h : pending.lookup reqid = some caller) (conn : ℕ) :
    (pending.filter fun entry => entry.1 ≠ reqid).countP (fun entry => entry.2 = conn) +
      (if caller = conn then 1 else 0) ≤ pending.countP fun entry => entry.2 = conn := by
  obtain ⟨l₁, l₂, rfl, -⟩ := List.lookup_eq_some_iff.mp h
  have h₁ := (List.filter_sublist (l := l₁) (p := fun entry => entry.1 ≠ reqid)).countP_le
    (p := fun entry => entry.2 = conn)
  have h₂ := (List.filter_sublist (l := l₂) (p := fun entry => entry.1 ≠ reqid)).countP_le
    (p := fun entry => entry.2 = conn)
  rw [List.filter_append, List.filter_cons_of_neg (by simp), List.countP_append,
    List.countP_append, List.countP_cons]
  by_cases hc : caller = conn
  · simp only [hc, if_true, decide_true]
    omega
  · simp only [hc, if_false, decide_false, Bool.false_eq_true]
    omega

/-- A reply to a call in flight. -/
theorem Consistent.answered (h : Consistent b log) {reqid caller : ℕ} {data : Value}
    (hroute : r.route = none) (hreply : r.replyId = some reqid)
    (hpending : b.pending.lookup reqid = some caller) (hs : r.emitted = b.sendTo caller (ok data)) :
    Consistent { b with pending := b.pending.filter fun entry => entry.1 ≠ reqid }
      (log ++ [r]) := by
  have hmem : (reqid, caller) ∈ b.pending := by
    obtain ⟨l₁, l₂, heq, -⟩ := List.lookup_eq_some_iff.mp hpending
    simp [heq]
  have hlen : r.emitted.length ≤ 1 := by
    rw [hs, Bus.sendTo]
    split <;> simp
  obtain ⟨hnumbered, hdistinct⟩ : _ ∧ _ := h.numbered_append hroute (Eq.refl b.nextReq)
  refine ⟨hnumbered, hdistinct, ?_, ?_, ?_, ?_, ?_, ?_⟩
  · exact (List.filter_sublist.map _).nodup h.keys
  · intro n c hn
    exact exists_mem_append (h.waiting n c (List.mem_of_mem_filter hn))
  · intro n c hn
    obtain ⟨hn, hne⟩ := List.mem_filter.mp hn
    have hne : reqid ≠ n := by simpa using Ne.symm (of_decide_eq_true hne)
    rw [answersTo_append_of_ne (by simpa [hreply] using hne), replied_append_iff, hreply]
    simpa [hne] using h.unanswered n c hn
  · intro n
    rw [answersTo_append, hreply]
    by_cases hn : reqid = n
    · subst hn
      rw [if_pos rfl, (h.unanswered reqid caller hmem).2, List.nil_append]
      exact hlen
    · rw [if_neg (by simpa using hn), List.append_nil]
      exact h.once n
  · intro n d hd
    rw [answersTo_append, hreply] at hd
    rcases List.mem_append.mp hd with hd | hd
    · exact exists_mem_append (h.toCaller n d hd)
    · split at hd
      · rename_i hn
        rw [hs] at hd
        rw [(mem_sendTo hd).1, ← Option.some.inj hn]
        exact exists_mem_append (h.waiting reqid caller hmem)
      · simp at hd
  · intro conn
    have hcount := countP_answered hpending conn
    have hnew : (r.emitted.filter fun d => d.conn = conn && isStatus d.frame).length ≤
        if caller = conn then 1 else 0 := by
      split
      · exact (List.length_filter_le _ _).trans hlen
      · rename_i hc
        rw [Nat.le_zero, List.length_eq_zero_iff, List.filter_eq_nil_iff]
        intro d hd
        rw [hs] at hd
        simp [(mem_sendTo hd).1, hc]
    apply h.counted_append
    simp only
    omega

/-- A reply to a call that is not in flight. -/
theorem Consistent.unanswered_reply (h : Consistent b log) {reqid : ℕ} (hroute : r.route = none)
    (hreply : r.replyId = some reqid) (hpending : b.pending.lookup reqid = none)
    (hs : r.emitted = []) : Consistent b (log ++ [r]) := by
  have hanswers : ∀ n, answersTo (log ++ [r]) n = answersTo log n := by
    intro n
    rw [answersTo_append, hs]
    simp
  obtain ⟨hnumbered, hdistinct⟩ := h.numbered_append hroute (Eq.refl b.nextReq)
  obtain ⟨honce, hcaller⟩ := h.answers_append hanswers
  refine ⟨hnumbered, hdistinct, h.keys, ?_, ?_, honce, hcaller, ?_⟩
  · intro n c hn
    exact exists_mem_append (h.waiting n c hn)
  · intro n c hn
    have hne : reqid ≠ n := by
      rintro rfl
      have := List.lookup_eq_none_iff.mp hpending _ hn
      simp at this
    rw [hanswers, replied_append_iff, hreply]
    simpa [hne] using h.unanswered n c hn
  · intro conn
    apply h.counted_append
    simp [hs]

end Step

/-- Every event keeps the invariant. -/
theorem consistent_step {b : Bus} {log : List Record} (e : Event) (h : Consistent b log) :
    Consistent (b.step e).1 (log ++ [record b e]) := by
  have hsilent : ∀ {r : Record}, r.emitted = [] → ∀ conn,
      (r.emitted.filter fun d => d.conn = conn && isStatus d.frame).length ≤
        if r.sender = some conn then 1 else 0 := by
    intro r hs conn
    simp [hs]
  cases step_effect b e with
  | connect _ hf hs ha =>
      exact h.quiet (route_eq_none hf) (replyId_eq_none hf) (by rw [ha]; rfl) (by rw [ha]; rfl)
        (hsilent hs)
  | disconnect id _ hf hs ha =>
      exact h.quiet (route_eq_none hf) (replyId_eq_none hf) (by rw [ha]; rfl) (by rw [ha]; rfl)
        (hsilent hs)
  | ignored _ hf hs ha =>
      exact h.quiet (route_eq_none hf) (replyId_eq_none hf) (by rw [ha]; rfl) (by rw [ha]; rfl)
        (hsilent hs)
  | served id hid _ hroute hreply hs _ hpending _ hreq _ _ =>
      refine h.quiet hroute hreply hpending hreq ?_
      intro conn
      obtain ⟨events, v, hsent, -, hevents⟩ := hs
      have hnone : events.filter (fun d => d.conn = conn && isStatus d.frame) = [] := by
        rw [List.filter_eq_nil_iff]
        intro d hd
        simp [hevents d hd]
      rw [hsent, List.filter_append, hnone, List.nil_append, hid]
      by_cases hc : id = conn
      · rw [if_pos (by rw [hc])]
        exact List.length_filter_le _ _
      · simp [hc]
  | routed rt hid _ hroute hreply hreqid _ hs ha =>
      rw [ha]
      refine h.routed hid hroute hreply hreqid ?_
      intro d hd
      obtain ⟨v, hsent, hv⟩ := hs
      rw [hsent] at hd
      rw [(mem_sendTo hd).1]
      exact hv
  | answered id reqid data caller _ hroute hrequest hpending hs ha =>
      rw [ha]
      exact h.answered hroute (by rw [Record.replyId, hrequest]) hpending hs
  | unanswered id reqid _ hroute hreply hpending hs ha =>
      rw [ha]
      exact h.unanswered_reply hroute hreply hpending hs

/-- The state after a run is consistent with its history, and so was the state in which each
event arrived. -/
theorem history_consistent (es : List Event) :
    Consistent (history es).1 (history es).2 ∧
      Each (fun earlier x => Consistent x.before earlier ∧ Effect x (x.before.step x.event).1)
        (history es).2 := by
  have hrun := Machine.history_invariant Bus.step (motive := Consistent)
    (fun b log e h => consistent_step e h) consistent_default es
  refine ⟨hrun.1, ?_⟩
  intro earlier x later hsplit
  obtain ⟨hbefore, hsent⟩ := hrun.2 earlier x later hsplit
  refine ⟨hbefore, ?_⟩
  have hx : x = record x.before x.event := by
    rw [record, ← hsent]
  rw [hx]
  exact step_effect x.before x.event

/-! ## What the frames of a run are -/

section Run

variable {es : List Event} {r : Record}

theorem mem_history_effect (h : r ∈ (history es).2) : ∃ after, Effect r after := by
  obtain ⟨earlier, later, hsplit⟩ := List.append_of_mem h
  exact ⟨_, ((history_consistent es).2 earlier r later hsplit).2⟩

/-- A call has one number, and a number one call. -/
theorem route_inj {x : Record} {rt rt' : Route} (hr : r ∈ (history es).2)
    (hx : x ∈ (history es).2) (hrt : r.route = some rt) (hrt' : x.route = some rt')
    (h : rt.reqid = rt'.reqid) : rt = rt' :=
  List.inj_on_of_nodup_map (history_consistent es).1.distinct
    (List.mem_filterMap.mpr ⟨r, hr, hrt⟩) (List.mem_filterMap.mpr ⟨x, hx, hrt'⟩) h

/-- A frame that is no reply leads to at most one status frame, for its sender. -/
theorem responses_spec (hr : r ∈ (history es).2) {conn : ℕ} (hsender : r.sender = some conn)
    (hreply : r.replyId = none) :
    (responses (history es).2 r).length ≤ 1 ∧
      ∀ d ∈ responses (history es).2 r, d.conn = conn := by
  obtain ⟨after, heffect⟩ := mem_history_effect hr
  cases heffect with
  | connect _ hf _ _ => simp [sender_eq_none hf] at hsender
  | disconnect _ _ hf _ _ => simp [sender_eq_none hf] at hsender
  | ignored _ hf _ _ => simp [sender_eq_none hf] at hsender
  | answered _ _ _ _ _ _ hrequest _ _ _ => simp [Record.replyId, hrequest] at hreply
  | unanswered _ _ _ _ hreply' _ _ _ => simp [hreply'] at hreply
  | served id hid _ hroute _ hs _ _ _ _ _ _ =>
      obtain ⟨events, v, hsent, hv, hevents⟩ := hs
      have hnone : events.filter (fun d => isStatus d.frame) = [] := by
        rw [List.filter_eq_nil_iff]
        intro d hd
        simp [hevents d hd]
      have heq : responses (history es).2 r = [⟨id, v⟩] := by
        simp [responses, hroute, hsent, hnone, hv]
      rw [hid, Option.some.injEq] at hsender
      rw [heq]
      simp [hsender]
  | routed rt hid _ hroute _ _ _ hs _ =>
      obtain ⟨v, hsent, hv⟩ := hs
      have hnone : r.emitted.filter (fun d => isStatus d.frame) = [] := by
        rw [List.filter_eq_nil_iff]
        intro d hd
        rw [hsent] at hd
        simp [(mem_sendTo hd).1, hv]
      have heq : responses (history es).2 r = answersTo (history es).2 rt.reqid := by
        simp [responses, hroute, hnone]
      rw [heq]
      refine ⟨(history_consistent es).1.once rt.reqid, ?_⟩
      intro d hd
      obtain ⟨x, hx, rt', hrt', hreqid, hcaller⟩ := (history_consistent es).1.toCaller _ d hd
      rw [hid, Option.some.injEq] at hsender
      rw [← hcaller, route_inj hx hr hrt' hroute hreqid, hsender]

/-- A reply to a call that was never handed on, or was replied to before, writes nothing. -/
theorem reply_silent {earlier later : List Record} (hsplit : (history es).2 = earlier ++ r :: later)
    {reqid : ℕ} (hreply : r.replyId = some reqid)
    (h : ¬Routed earlier reqid ∨ Replied earlier reqid) : r.emitted = [] := by
  obtain ⟨hbefore, heffect⟩ := (history_consistent es).2 earlier r later hsplit
  cases heffect with
  | connect _ _ hs _ => exact hs
  | disconnect _ _ _ hs _ => exact hs
  | ignored _ _ hs _ => exact hs
  | served _ _ _ _ hreply' _ _ _ _ _ _ _ => simp [hreply'] at hreply
  | routed _ _ _ _ hreply' _ _ _ _ => simp [hreply'] at hreply
  | unanswered _ _ _ _ _ _ hs _ => exact hs
  | answered id reqid' data caller _ _ hrequest hpending _ _ =>
      have hid : reqid' = reqid := by simpa [Record.replyId, hrequest] using hreply
      have hmem : (reqid, caller) ∈ r.before.pending := by
        obtain ⟨l₁, l₂, hl, -⟩ := List.lookup_eq_some_iff.mp hpending
        simp [hl, hid]
      obtain ⟨x, hx, rt, hrt, hreqid, -⟩ := hbefore.waiting reqid caller hmem
      rcases h with h | h
      · exact absurd ⟨x, hx, rt, hrt, hreqid⟩ h
      · exact absurd h (hbefore.unanswered reqid caller hmem).1

/-- Where a status frame comes from: the request of the connection itself, or a reply to a
call of it. -/
theorem mem_statusTo {conn : ℕ} {d : Delivery} (hd : d ∈ statusTo (history es).2 conn) :
    ∃ r ∈ framesOf (history es).2 conn, d ∈ responses (history es).2 r := by
  obtain ⟨hmem, hstatus⟩ := List.mem_filter.mp hd
  obtain ⟨r, hr, hd⟩ : ∃ r : Record, r ∈ (history es).2 ∧ d ∈ r.emitted := by
    simpa using hmem
  simp only [Bool.and_eq_true, decide_eq_true_eq] at hstatus
  obtain ⟨after, heffect⟩ := mem_history_effect hr
  cases heffect with
  | connect _ _ hs _ => simp [hs] at hd
  | disconnect _ _ _ hs _ => simp [hs] at hd
  | ignored _ _ hs _ => simp [hs] at hd
  | unanswered _ _ _ _ _ _ hs _ => simp [hs] at hd
  | routed rt _ _ _ _ _ _ hs _ =>
      obtain ⟨v, hsent, hv⟩ := hs
      rw [hsent] at hd
      rw [(mem_sendTo hd).1, hv] at hstatus
      simp at hstatus
  | served id hid _ _ _ hs _ _ _ _ _ _ =>
      obtain ⟨events, v, hsent, -, hevents⟩ := hs
      have hd' := hd
      rw [hsent] at hd'
      rcases List.mem_append.mp hd' with hevent | hlast
      · rw [hevents d hevent] at hstatus
        simp at hstatus
      · have hconn : id = conn := by
          rw [List.mem_singleton.mp hlast] at hstatus
          exact hstatus.1
        refine ⟨r, List.mem_filter.mpr ⟨hr, by simp [hid, hconn]⟩, ?_⟩
        exact List.mem_append_left _ (List.mem_filter.mpr ⟨hd, hstatus.2⟩)
  | answered id reqid data caller _ _ hrequest _ _ _ =>
      have hreply : r.replyId = some reqid := by rw [Record.replyId, hrequest]
      have hanswer : d ∈ answersTo (history es).2 reqid :=
        List.mem_flatMap.mpr ⟨r, List.mem_filter.mpr ⟨hr, by simp [hreply]⟩, hd⟩
      obtain ⟨x, hx, rt, hrt, hreqid, hcaller⟩ :=
        (history_consistent es).1.toCaller reqid d hanswer
      have hsender := ((history_consistent es).1.numbered x hx rt hrt).2.2
      refine ⟨x, List.mem_filter.mpr ⟨hx, by simp [hsender, hcaller, hstatus.1]⟩, ?_⟩
      rw [← hreqid] at hanswer
      rw [responses, hrt]
      exact List.mem_append_right _ hanswer

end Run

/-- In every run: a call is answered at most once and only to its sender, calls have distinct
numbers, a reply to an unknown, answered or missing number writes nothing, no connection gets
more status frames than it sent frames, and one that sent a single frame gets no status frame
but the response to it. -/
theorem calls_answered_once (es : List Event) :
    (∀ r ∈ (history es).2, ∀ conn path method args, r.sender = some conn →
      r.request = some (.call path method args) →
        (responses (history es).2 r).length ≤ 1 ∧
          ∀ d ∈ responses (history es).2 r, d.conn = conn) ∧
    (((history es).2.filterMap Record.route).map Route.reqid).Nodup ∧
    (∀ earlier r later, (history es).2 = earlier ++ r :: later → ∀ reqid data,
      r.request = some (.reply reqid data) → ¬Routed earlier reqid ∨ Replied earlier reqid →
        r.emitted = []) ∧
    (∀ r ∈ (history es).2, ∀ conn text sys req, r.frame = some (conn, text, sys) →
      Value.parse text = .ok req → textField req "op" = "reply".toList →
        (req.get "id".toList).bind Value.asU64 = none → r.emitted = []) ∧
    (∀ conn, (statusTo (history es).2 conn).length ≤ (framesOf (history es).2 conn).length) ∧
    ∀ conn r, framesOf (history es).2 conn = [r] →
      ∀ d ∈ statusTo (history es).2 conn, d ∈ responses (history es).2 r := by
  refine ⟨?_, (history_consistent es).1.distinct, ?_, ?_, ?_, ?_⟩
  · intro r hr conn path method args hsender hrequest
    exact responses_spec hr hsender (by rw [Record.replyId, hrequest])
  · intro earlier r later hsplit reqid data hrequest h
    exact reply_silent hsplit (by rw [Record.replyId, hrequest]) h
  · intro r hr conn text sys req hframe hparse hop hid
    have hreq : Request.ofValue req = .reply 0 ((req.get "data".toList).getD .null) := by
      rw [Request.ofValue, hop, if_neg (by decide), if_neg (by decide), if_pos rfl, hid,
        Option.getD_none]
    have hrequest : r.request = some (.reply 0 ((req.get "data".toList).getD .null)) := by
      simp only [Record.request, hframe, Option.bind_some, hparse, Except.toOption,
        Option.map_some, hreq]
    have hreply : r.replyId = some 0 := by
      rw [Record.replyId, hrequest]
    obtain ⟨earlier, later, hsplit⟩ := List.append_of_mem hr
    refine reply_silent hsplit hreply (Or.inl ?_)
    rintro ⟨x, hx, rt, hrt, hzero⟩
    have hpos := ((history_consistent es).2 earlier r later hsplit).1.numbered x hx rt hrt
    omega
  · intro conn
    exact (Nat.le_add_right _ _).trans ((history_consistent es).1.counted conn)
  · intro conn r hframes d hd
    obtain ⟨x, hx, hresponse⟩ := mem_statusTo hd
    rw [hframes, List.mem_singleton] at hx
    exact hx ▸ hresponse

end Lwrt.Ubus
