import Lwrt.Verification.Ubus.Answers

/-! # Calls in flight and the connections behind them -/

namespace Lwrt.Ubus

open Library Text Json

/-- The invoke frame of this call went to connection `p`. -/
def HandedTo (log : List Record) (reqid p : ℕ) : Prop :=
  ∃ r ∈ log, ∃ rt, r.route = some rt ∧ rt.reqid = reqid ∧ rt.owner = p

theorem HandedTo.append {log : List Record} {reqid p : ℕ} (h : HandedTo log reqid p) (r : Record) :
    HandedTo (log ++ [r]) reqid p :=
  exists_mem_append h

theorem handedTo_unique {es : List Event} {reqid p q : ℕ} (hp : HandedTo (history es).2 reqid p)
    (hq : HandedTo (history es).2 reqid q) : p = q := by
  obtain ⟨r, hr, rt, hrt, hreqid, rfl⟩ := hp
  obtain ⟨x, hx, rt', hrt', hreqid', rfl⟩ := hq
  rw [route_inj hr hx hrt hrt' (hreqid.trans hreqid'.symm)]

theorem history_concat (es : List Event) (e : Event) :
    history (es ++ [e]) =
      (((history es).1.step e).1, (history es).2 ++ [record (history es).1 e]) :=
  Machine.history_append_singleton Bus.step Bus.default es e

/-! ## Connection numbers in the tables -/

/-- Every connection the tables name is open. -/
structure NoDangling (b : Bus) (log : List Record) : Prop where
  owners : ∀ o ∈ b.objects, o.owner ∈ b.conns
  listeners : ∀ l ∈ b.listeners, l ∈ b.conns
  callers : ∀ reqid caller, (reqid, caller) ∈ b.pending → caller ∈ b.conns
  providers : ∀ reqid caller, (reqid, caller) ∈ b.pending → ∃ p ∈ b.conns, HandedTo log reqid p

/-- A call in flight waits on a connection: as its caller or as its provider. -/
def WaitsOn (b : Bus) (log : List Record) (conn : ℕ) : Prop :=
  ∃ reqid caller, (reqid, caller) ∈ b.pending ∧ (caller = conn ∨ HandedTo log reqid conn)

theorem noDangling_default : NoDangling Bus.default [] where
  owners := by simp [Bus.default]
  listeners := by simp [Bus.default]
  callers := by simp [Bus.default]
  providers := by simp [Bus.default]

section Step

variable {b after : Bus} {log : List Record}

theorem NoDangling.append (h : NoDangling b log) (r : Record) : NoDangling b (log ++ [r]) where
  owners := h.owners
  listeners := h.listeners
  callers := h.callers
  providers reqid caller hmem := by
    obtain ⟨p, hp, hto⟩ := h.providers reqid caller hmem
    exact ⟨p, hp, hto.append r⟩

theorem NoDangling.connect (h : NoDangling b log) (conn : ℕ) :
    NoDangling { b with nextConn := conn, conns := conn :: b.conns } log where
  owners o ho := List.mem_cons_of_mem _ (h.owners o ho)
  listeners l hl := List.mem_cons_of_mem _ (h.listeners l hl)
  callers n c hn := List.mem_cons_of_mem _ (h.callers n c hn)
  providers n c hn := by
    obtain ⟨p, hp, hto⟩ := h.providers n c hn
    exact ⟨p, List.mem_cons_of_mem _ hp, hto⟩

theorem NoDangling.disconnect (h : NoDangling b log) {conn : ℕ} (hwait : ¬WaitsOn b log conn) :
    NoDangling { b with
      conns := b.conns.filter (· ≠ conn)
      listeners := b.listeners.filter (· ≠ conn)
      objects := b.objects.filter fun o => o.owner ≠ conn } log := by
  refine ⟨?_, ?_, ?_, ?_⟩
  · intro o ho
    obtain ⟨ho, hne⟩ := List.mem_filter.mp ho
    exact List.mem_filter.mpr ⟨h.owners o ho, hne⟩
  · intro l hl
    obtain ⟨hl, hne⟩ := List.mem_filter.mp hl
    exact List.mem_filter.mpr ⟨h.listeners l hl, hne⟩
  · intro n c hn
    refine List.mem_filter.mpr ⟨h.callers n c hn, ?_⟩
    exact decide_eq_true fun heq => hwait ⟨n, c, hn, Or.inl heq⟩
  · intro n c hn
    obtain ⟨p, hp, hto⟩ := h.providers n c hn
    refine ⟨p, List.mem_filter.mpr ⟨hp, ?_⟩, hto⟩
    exact decide_eq_true fun heq => hwait ⟨n, c, hn, Or.inr (heq ▸ hto)⟩

/-- New objects and listeners belong to a connection that is open. -/
theorem NoDangling.served (h : NoDangling b log) {id : ℕ} (hopen : id ∈ b.conns)
    (hconns : after.conns = b.conns) (hpending : after.pending = b.pending)
    (hobjects : ∀ o ∈ after.objects, o ∈ b.objects ∨ o.owner = id)
    (hlisteners : ∀ l ∈ after.listeners, l ∈ b.listeners ∨ l = id) : NoDangling after log := by
  refine ⟨?_, ?_, ?_, ?_⟩
  · intro o ho
    rw [hconns]
    rcases hobjects o ho with hold | hnew
    · exact h.owners o hold
    · exact hnew ▸ hopen
  · intro l hl
    rw [hconns]
    rcases hlisteners l hl with hold | hnew
    · exact h.listeners l hold
    · exact hnew ▸ hopen
  · rw [hpending, hconns]
    exact h.callers
  · rw [hpending, hconns]
    exact h.providers

theorem NoDangling.routed (h : NoDangling b log) {rt : Route} (hcaller : rt.caller ∈ b.conns)
    (howner : rt.owner ∈ b.conns) (hto : HandedTo log rt.reqid rt.owner) :
    NoDangling { b with nextReq := rt.reqid, pending := (rt.reqid, rt.caller) :: b.pending }
      log := by
  refine ⟨h.owners, h.listeners, ?_, ?_⟩
  · intro n c hn
    rcases List.mem_cons.mp hn with heq | hn
    · rw [(Prod.mk.inj heq).2]
      exact hcaller
    · exact h.callers n c hn
  · intro n c hn
    rcases List.mem_cons.mp hn with heq | hn
    · rw [(Prod.mk.inj heq).1]
      exact ⟨rt.owner, howner, hto⟩
    · exact h.providers n c hn

theorem NoDangling.answered (h : NoDangling b log) (reqid : ℕ) :
    NoDangling { b with pending := b.pending.filter fun entry => entry.1 ≠ reqid } log where
  owners := h.owners
  listeners := h.listeners
  callers n c hn := h.callers n c (List.mem_of_mem_filter hn)
  providers n c hn := h.providers n c (List.mem_of_mem_filter hn)

end Step

/-- Every event keeps the tables free of closed connections, unless it closes one that a call
in flight waits on. -/
theorem noDangling_step {b : Bus} {log : List Record} (h : NoDangling b log) (e : Event)
    (hquiet : ∀ conn, e = .disconnect conn → ¬WaitsOn b log conn) :
    NoDangling (b.step e).1 (log ++ [record b e]) := by
  have hkept : NoDangling b (log ++ [record b e]) := h.append _
  cases step_effect b e with
  | connect _ _ _ ha =>
      rw [ha]
      exact hkept.connect _
  | disconnect conn he _ _ ha =>
      rw [ha]
      exact (h.disconnect (hquiet conn he)).append _
  | ignored _ _ _ ha =>
      rw [ha]
      exact hkept
  | served id _ hopen _ _ _ hconns hpending _ _ hobjects hlisteners =>
      exact hkept.served hopen hconns hpending hobjects hlisteners
  | routed rt _ hopen hroute _ _ howner _ ha =>
      rw [ha]
      obtain ⟨o, ho, howner⟩ := howner
      refine hkept.routed hopen (howner ▸ h.owners o ho) ?_
      exact ⟨record b e, by simp, rt, hroute, rfl, rfl⟩
  | answered _ reqid _ _ _ _ _ _ _ ha =>
      rw [ha]
      exact hkept.answered reqid
  | unanswered _ _ _ _ _ _ _ ha =>
      rw [ha]
      exact hkept

/-- In a run the tables name open connections only, in every state, exactly if no connection is
closed while a call in flight waits on it. -/
theorem noDangling_iff (es : List Event) :
    (∀ es₁ es₂, es = es₁ ++ es₂ → NoDangling (history es₁).1 (history es₁).2) ↔
      ∀ es₁ conn es₂, es = es₁ ++ .disconnect conn :: es₂ →
        ¬WaitsOn (history es₁).1 (history es₁).2 conn := by
  constructor
  · rintro h es₁ conn es₂ rfl ⟨reqid, caller, hmem, hwait⟩
    have hafter := h (es₁ ++ [.disconnect conn]) es₂ (by simp)
    have hclosed : conn ∉ ((history es₁).1.step (.disconnect conn)).1.conns := by
      simp [Bus.step]
    rcases hwait with rfl | hto
    · rw [history_concat] at hafter
      exact hclosed (hafter.callers reqid caller hmem)
    · obtain ⟨p, hp, hto'⟩ := hafter.providers reqid caller (by rw [history_concat]; exact hmem)
      have hto : HandedTo (history (es₁ ++ [.disconnect conn])).2 reqid conn := by
        rw [history_concat]
        exact hto.append _
      rw [handedTo_unique hto' hto, history_concat] at hp
      exact hclosed hp
  · intro h es₁
    induction es₁ using List.reverseRecOn with
    | nil =>
        intro es₂ _
        exact noDangling_default
    | append_singleton es₁ e ih =>
        intro es₂ heq
        rw [history_concat]
        refine noDangling_step (ih (e :: es₂) (by simp [heq])) e ?_
        rintro conn rfl
        exact h es₁ conn es₂ (by simp [heq])

/-- A system none of whose files can be read. -/
def bareSystem : System :=
  ⟨[], none, none, none, 0⟩

/-- Connection 1 registers an object, connection 2 calls it, and one of them goes away. -/
def abandonedCall (gone : ℕ) : List Event :=
  [.connect, .connect,
    .line 1 "\x7b\"op\":\"add\",\"path\":\"p\",\"methods\":[\"m\"]\x7d".toList bareSystem,
    .line 2 "\x7b\"op\":\"call\",\"path\":\"p\",\"method\":\"m\"\x7d".toList bareSystem,
    .disconnect gone]

theorem abandonedCall_dangling :
    ¬NoDangling (history (abandonedCall 2)).1 (history (abandonedCall 2)).2 ∧
      ¬NoDangling (history (abandonedCall 1)).1 (history (abandonedCall 1)).2 := by
  constructor
  · have hpending : (history (abandonedCall 2)).1.pending = [(1, 2)] := by decide +kernel
    have hconns : (history (abandonedCall 2)).1.conns = [1] := by decide +kernel
    intro h
    have hopen := h.callers 1 2 (by simp [hpending])
    simp [hconns] at hopen
  · have hpending : (history (abandonedCall 1)).1.pending = [(1, 2)] := by decide +kernel
    have hconns : (history (abandonedCall 1)).1.conns = [2] := by decide +kernel
    have hroutes : (history (abandonedCall 1)).2.filterMap Record.route = [⟨1, 2, 1⟩] := by
      decide +kernel
    intro h
    obtain ⟨p, hp, r, hr, rt, hrt, -, rfl⟩ := h.providers 1 2 (by simp [hpending])
    have hmem := List.mem_filterMap.mpr ⟨r, hr, hrt⟩
    rw [hroutes, List.mem_singleton] at hmem
    simp [hconns, hmem] at hp

/-! ## Who answers a call -/

/-- What a caller receives for a call that was handed on is the data of a reply frame of the
connection the invoke frame went to. -/
def AnsweredByProvider (log : List Record) : Prop :=
  ∀ call ∈ log, ∀ rt, call.route = some rt → ∀ r ∈ log, r.replyId = some rt.reqid →
    ∀ d ∈ r.emitted, ∃ data, r.sender = some rt.owner ∧
      r.request = some (.reply rt.reqid data) ∧ d = ⟨rt.caller, ok data⟩

/-- If the event is a reply to a call in flight whose caller is still open, it comes from the
connection the invoke frame went to. -/
def FromProvider (b : Bus) (log : List Record) (e : Event) : Prop :=
  ∀ conn reqid data caller, (record b e).sender = some conn →
    (record b e).request = some (.reply reqid data) → (reqid, caller) ∈ b.pending →
      caller ∈ b.conns → HandedTo log reqid conn

/-- A call in flight has one caller. -/
theorem Consistent.lookup_pending {b : Bus} {log : List Record} (h : Consistent b log)
    {reqid caller : ℕ} (hmem : (reqid, caller) ∈ b.pending) :
    b.pending.lookup reqid = some caller := by
  have hkeys := h.keys
  generalize b.pending = pending at *
  induction pending with
  | nil => simp at hmem
  | cons entry pending ih =>
      obtain ⟨n, c⟩ := entry
      rw [List.map_cons, List.nodup_cons] at hkeys
      rcases List.mem_cons.mp hmem with heq | hrest
      · obtain ⟨rfl, rfl⟩ := Prod.mk.inj heq
        simp
      · have hne : reqid ≠ n := by
          rintro rfl
          exact hkeys.1 (List.mem_map.mpr ⟨_, hrest, rfl⟩)
        rw [List.lookup_cons, beq_false_of_ne hne]
        exact ih hrest hkeys.2

/-- A reply to a call in flight reaches a caller that is still open. -/
theorem Consistent.reply_emitted {b : Bus} {log : List Record} (h : Consistent b log) {e : Event}
    {reqid caller : ℕ} {data : Value} (hrequest : (record b e).request = some (.reply reqid data))
    (hmem : (reqid, caller) ∈ b.pending) (hopen : caller ∈ b.conns) :
    (record b e).emitted = [⟨caller, ok data⟩] := by
  have hlookup := h.lookup_pending hmem
  have hreply : (record b e).replyId = some reqid := by
    rw [Record.replyId, hrequest]
  cases step_effect b e with
  | connect _ hf _ _ => simp [replyId_eq_none hf] at hreply
  | disconnect _ _ hf _ _ => simp [replyId_eq_none hf] at hreply
  | ignored _ hf _ _ => simp [replyId_eq_none hf] at hreply
  | served _ _ _ _ hreply' _ _ _ _ _ _ _ => simp [hreply'] at hreply
  | routed _ _ _ _ hreply' _ _ _ _ => simp [hreply'] at hreply
  | unanswered _ reqid' _ _ hreply' hpending _ _ =>
      rw [hreply', Option.some.injEq] at hreply
      rw [hreply, record_before, hlookup] at hpending
      simp at hpending
  | answered _ reqid' data' caller' _ _ hrequest' hpending hs _ =>
      rw [hrequest, Option.some.injEq, Request.reply.injEq] at hrequest'
      obtain ⟨rfl, rfl⟩ := hrequest'
      rw [record_before, hlookup, Option.some.injEq] at hpending
      rw [hs, record_before, ← hpending, sendTo_open hopen]

theorem history_split (es₁ : List Event) (e : Event) (es₂ : List Event) :
    ∃ later, (history (es₁ ++ e :: es₂)).2 =
      (history es₁).2 ++ record (history es₁).1 e :: later :=
  ⟨_, congrArg Prod.snd (Machine.history_append Bus.step Bus.default es₁ (e :: es₂))⟩

/-- In a run every answer comes from the provider of the call exactly if every reply to a call
in flight, with its caller still open, does. -/
theorem answeredByProvider_iff (es : List Event) :
    AnsweredByProvider (history es).2 ↔
      ∀ es₁ e es₂, es = es₁ ++ e :: es₂ → FromProvider (history es₁).1 (history es₁).2 e := by
  constructor
  · rintro h es₁ e es₂ rfl conn reqid data caller hsender hrequest hmem hopen
    obtain ⟨later, hlog⟩ := history_split es₁ e es₂
    have hconsistent := (history_consistent es₁).1
    obtain ⟨call, hcall, rt, hrt, rfl, -⟩ := hconsistent.waiting reqid caller hmem
    have hreply : (record (history es₁).1 e).replyId = some rt.reqid := by
      rw [Record.replyId, hrequest]
    have hsent := hconsistent.reply_emitted hrequest hmem hopen
    obtain ⟨-, howner, -, -⟩ := h call (by simp [hlog, hcall]) rt hrt _ (by simp [hlog]) hreply
      ⟨caller, ok data⟩ (by simp [hsent])
    rw [hsender, Option.some.injEq] at howner
    exact ⟨call, hcall, rt, hrt, rfl, howner.symm⟩
  · intro h call hcall rt hrt r hr hreply d hd
    obtain ⟨earlier, later, hsplit⟩ := List.append_of_mem hr
    obtain ⟨es₁, es₂, rfl, hbefore⟩ := Machine.exists_of_history_eq_append Bus.step hsplit
    obtain ⟨hconsistent, heffect⟩ := (history_consistent _).2 earlier r later hsplit
    cases heffect with
    | connect _ _ hs _ => simp [hs] at hd
    | disconnect _ _ _ hs _ => simp [hs] at hd
    | ignored _ _ hs _ => simp [hs] at hd
    | served _ _ _ _ hreply' _ _ _ _ _ _ _ => simp [hreply'] at hreply
    | routed _ _ _ _ hreply' _ _ _ _ => simp [hreply'] at hreply
    | unanswered _ _ _ _ _ _ hs _ => simp [hs] at hd
    | answered conn reqid data caller hsender _ hrequest hpending hs _ =>
        have hid : reqid = rt.reqid := by simpa [Record.replyId, hrequest] using hreply
        subst hid
        rw [hs] at hd
        obtain ⟨rfl, hopen⟩ := mem_sendTo hd
        have hmem : (rt.reqid, caller) ∈ r.before.pending := by
          obtain ⟨l₁, l₂, hl, -⟩ := List.lookup_eq_some_iff.mp hpending
          simp [hl]
        have hfrom := h es₁ r.event es₂ rfl
        rw [show history es₁ = (r.before, earlier) from hbefore] at hfrom
        obtain ⟨x, hx, rt', hrt', hreqid, howner⟩ :=
          hfrom conn rt.reqid data caller hsender hrequest hmem hopen
        obtain ⟨y, hy, rt'', hrt'', hreqid', hcaller⟩ := hconsistent.waiting rt.reqid caller hmem
        have hx' : x ∈ (history (es₁ ++ r.event :: es₂)).2 := by simp [hsplit, hx]
        have hy' : y ∈ (history (es₁ ++ r.event :: es₂)).2 := by simp [hsplit, hy]
        rw [route_inj hx' hcall hrt' hrt hreqid] at howner
        rw [route_inj hy' hcall hrt'' hrt hreqid'] at hcaller
        exact ⟨data, howner ▸ hsender, hrequest, by rw [hcaller]⟩

/-- Connection 1 registers an object, connection 2 calls it, connection 3 replies. -/
def forgedReply : List Event :=
  [.connect, .connect, .connect,
    .line 1 "\x7b\"op\":\"add\",\"path\":\"p\",\"methods\":[\"m\"]\x7d".toList bareSystem,
    .line 2 "\x7b\"op\":\"call\",\"path\":\"p\",\"method\":\"m\"\x7d".toList bareSystem,
    .line 3 "\x7b\"op\":\"reply\",\"id\":1\x7d".toList bareSystem]

theorem forgedReply_not_answeredByProvider : ¬AnsweredByProvider (history forgedReply).2 := by
  have hcall : ((history forgedReply).2.any fun r => r.route = some ⟨1, 2, 1⟩) = true := by
    decide +kernel
  have hforged : ((history forgedReply).2.any fun r =>
      r.replyId = some 1 ∧ r.sender = some 3 ∧ r.emitted.length = 1) = true := by
    decide +kernel
  intro h
  obtain ⟨call, hmem, hroute⟩ := List.any_eq_true.mp hcall
  obtain ⟨r, hr, hreply⟩ := List.any_eq_true.mp hforged
  simp only [decide_eq_true_eq] at hroute hreply
  obtain ⟨hreply, hsender, hlen⟩ := hreply
  obtain ⟨d, hd⟩ := List.length_eq_one_iff.mp hlen
  obtain ⟨-, howner, -⟩ := h call hmem _ hroute r hr hreply d (by simp [hd])
  rw [hsender] at howner
  simp at howner

end Lwrt.Ubus
