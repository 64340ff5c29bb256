import Mathlib.Data.List.Nodup
import Lwrt.Applet.Ubus.Cli
import Lwrt.Library.Broadcast
import Lwrt.Verification.Json.Serialized
import Lwrt.Verification.Ubus.Providers

/-! # Events reach the listeners

The broker refines publish and subscribe: whatever the connections do in whatever order, a
connection gets the events that were sent while it listened, each once and in order. -/

namespace Lwrt.Ubus

open Library Text Json Broadcast

/-- A frame that carries an event. -/
def isEvent (v : Value) : Bool :=
  (v.get "event".toList).isSome

/-- The events written to a connection. -/
def eventsTo (log : List Record) (conn : ℕ) : List Value :=
  ((log.flatMap Machine.Entry.emitted).filter fun d => d.conn = conn && isEvent d.frame).map
    Delivery.frame

/-- What an event of the run means to those who listen. -/
def Record.announcement (r : Record) : Option (Broadcast ℕ Value) :=
  match r.event with
  | .disconnect id => some (.leave id)
  | _ =>
      match r.sender, r.request with
      | some id, some .listen => some (.join id)
      | some _, some (.send name data) => some (.publish (event name data))
      | _, _ => none

def announcements (log : List Record) : List (Broadcast ℕ Value) :=
  log.filterMap Record.announcement

theorem announcements_concat (log : List Record) (r : Record) :
    announcements (log ++ [r]) = announcements log ++ r.announcement.toList := by
  rw [announcements, List.filterMap_append, announcements]
  cases h : r.announcement <;> simp [h]

theorem eventsTo_concat (log : List Record) (r : Record) (conn : ℕ) :
    eventsTo (log ++ [r]) conn = eventsTo log conn ++ eventsTo [r] conn := by
  simp [eventsTo]

@[simp]
theorem isEvent_ok (data : Value) : isEvent (ok data) = false := by
  simp [ok, isEvent, obj, Value.get]

@[simp]
theorem isEvent_status (code : ℤ) : isEvent (status code) = false := by
  simp [status, isEvent, obj, Value.get]

@[simp]
theorem isEvent_err (code : ℤ) (msg : Text) : isEvent (err code msg) = false := by
  simp [err, isEvent, obj, Value.get]

@[simp]
theorem isEvent_listObjects (b : Bus) : isEvent b.listObjects = false := by
  simp [Bus.listObjects, isEvent, obj, Value.get]

@[simp]
theorem isEvent_invoke (reqid : ℕ) (method : Text) (args : Value) :
    isEvent (invoke reqid method args) = false := by
  simp [invoke, isEvent, obj, Value.get]

@[simp]
theorem isEvent_event (name : Text) (data : Value) : isEvent (event name data) = true := by
  simp [event, isEvent, obj, Value.get]

/-! ## One event -/

/-- What an event does to the listeners, and which events it writes. -/
inductive EventEffect (r : Record) (after : Bus) : Prop
  | joined (id : ℕ) (hann : r.announcement = some (.join id)) (hopen : id ∈ r.before.conns)
      (hconns : after.conns = r.before.conns)
      (hlisteners : after.listeners =
        if r.before.listeners.contains id then r.before.listeners else id :: r.before.listeners)
      (hs : ∀ d ∈ r.emitted, isEvent d.frame = false)
  | left (id : ℕ) (hann : r.announcement = some (.leave id))
      (hconns : after.conns = r.before.conns.filter (· ≠ id))
      (hlisteners : after.listeners = r.before.listeners.filter (· ≠ id)) (hs : r.emitted = [])
  | published (v : Value) (hann : r.announcement = some (.publish v)) (hv : isEvent v = true)
      (hconns : after.conns = r.before.conns) (hlisteners : after.listeners = r.before.listeners)
      (hs : ∃ acks, r.emitted = r.before.listeners.flatMap (fun t => r.before.sendTo t v) ++ acks ∧
        ∀ d ∈ acks, isEvent d.frame = false)
  | quiet (hann : r.announcement = none) (hconns : r.before.conns ⊆ after.conns)
      (hlisteners : after.listeners = r.before.listeners)
      (hs : ∀ d ∈ r.emitted, isEvent d.frame = false)

theorem isEvent_of_mem_sendTo {b : Bus} {conn : ℕ} {v : Value} (hv : isEvent v = false) :
    ∀ d ∈ b.sendTo conn v, isEvent d.frame = false := by
  intro d hd
  rw [(mem_sendTo hd).1]
  exact hv

section Requests

variable {r : Record} {sys : System} {id : ℕ} {req : Request}

theorem Received.announcement (h : Received r sys id req) :
    r.announcement = match req with
      | .listen => some (.join id)
      | .send name data => some (.publish (event name data))
      | _ => none := by
  obtain ⟨text, hframe⟩ := h.framed
  rw [Record.announcement, h.sender, h.request]
  cases he : r.event with
  | disconnect id => simp [Record.frame, he] at hframe
  | _ => cases req <;> rfl

/-- A request that neither listens nor sends an event. -/
theorem Received.quiet (h : Received r sys id req) {after : Bus} (hann : r.announcement = none)
    (hconns : after.conns = r.before.conns) (hlisteners : after.listeners = r.before.listeners)
    (hs : ∀ d ∈ (r.before.handleRequest sys id req).2, isEvent d.frame = false) :
    EventEffect r after :=
  .quiet hann (fun _ hc => hconns ▸ hc) hlisteners (by rwa [h.emitted])

/-- One case for each request. -/
theorem Received.eventEffect (h : Received r sys id req) :
    EventEffect r (r.before.handleRequest sys id req).1 := by
  have hann := h.announcement
  have hsent := h.emitted
  cases req with
  | list =>
      exact h.quiet hann rfl rfl (isEvent_of_mem_sendTo (isEvent_listObjects _))
  | call path method args =>
      cases hbuiltin : builtinCall sys path method with
      | some data =>
          refine h.quiet hann ?_ ?_ ?_
          · simp only [Bus.handleRequest, hbuiltin]
          · simp only [Bus.handleRequest, hbuiltin]
          · simp only [Bus.handleRequest, hbuiltin]
            exact isEvent_of_mem_sendTo (isEvent_ok data)
      | none =>
          cases howner : r.before.provider path method with
          | some owner =>
              refine h.quiet hann ?_ ?_ ?_
              · simp only [Bus.handleRequest, hbuiltin, howner]
              · simp only [Bus.handleRequest, hbuiltin, howner]
              · simp only [Bus.handleRequest, hbuiltin, howner]
                exact isEvent_of_mem_sendTo (isEvent_invoke _ _ _)
          | none =>
              refine h.quiet hann ?_ ?_ ?_
              · simp only [Bus.handleRequest, hbuiltin, howner]
              · simp only [Bus.handleRequest, hbuiltin, howner]
              · simp only [Bus.handleRequest, hbuiltin, howner]
                exact isEvent_of_mem_sendTo (isEvent_err _ _)
  | reply reqid data =>
      cases hpending : r.before.pending.lookup reqid with
      | some caller =>
          refine h.quiet hann ?_ ?_ ?_
          · simp only [Bus.handleRequest, hpending]
          · simp only [Bus.handleRequest, hpending]
          · simp only [Bus.handleRequest, hpending]
            exact isEvent_of_mem_sendTo (isEvent_ok data)
      | none =>
          refine h.quiet hann ?_ ?_ ?_ <;> simp [Bus.handleRequest, hpending]
  | add path methods =>
      by_cases hpath : path = []
      · refine h.quiet hann ?_ ?_ ?_
        · simp only [Bus.handleRequest, hpath, if_true]
        · simp only [Bus.handleRequest, hpath, if_true]
        · simp only [Bus.handleRequest, hpath, if_true]
          exact isEvent_of_mem_sendTo (isEvent_err _ _)
      · refine h.quiet hann ?_ ?_ ?_
        · simp only [Bus.handleRequest, hpath, if_false]
        · simp only [Bus.handleRequest, hpath, if_false]
        · simp only [Bus.handleRequest, hpath, if_false]
          exact isEvent_of_mem_sendTo (isEvent_status 0)
  | send name data =>
      exact .published (event name data) hann (isEvent_event name data) rfl rfl
        ⟨_, hsent, isEvent_of_mem_sendTo (isEvent_status 0)⟩
  | listen =>
      refine .joined id hann h.opened rfl rfl ?_
      rw [hsent]
      exact isEvent_of_mem_sendTo (isEvent_status 0)
  | unknown => exact h.quiet hann rfl rfl (isEvent_of_mem_sendTo (isEvent_err _ _))

end Requests

theorem announcement_of_no_frame {r : Record} (hframe : r.frame = none)
    (hevent : ∀ id, r.event ≠ .disconnect id) : r.announcement = none := by
  rw [Record.announcement, sender_eq_none hframe]
  cases he : r.event with
  | disconnect id => exact absurd he (hevent id)
  | _ => rfl

theorem eventEffect (b : Bus) (e : Event) : EventEffect (record b e) (b.step e).1 := by
  cases e with
  | connect =>
      refine .quiet (announcement_of_no_frame rfl (by simp [record]))
        (List.subset_cons_self _ _) rfl ?_
      simp [record, Bus.step]
  | disconnect id => exact .left id rfl rfl rfl rfl
  | line id text sys =>
      by_cases h : id ∈ b.conns ∧ trim text ≠ []
      · obtain ⟨hopen, htext⟩ := h
        cases hparse : Value.parse text with
        | ok v =>
            rw [step_line sys hopen htext hparse]
            exact (received_line hopen htext hparse).eventEffect
        | error e =>
            have hstep : b.step (.line id text sys) =
                (b, b.sendTo id (Ubus.err (-1) ("bad json: ".toList ++ e))) := by
              rw [Bus.step, if_pos (by simp [hopen, htext]), Bus.handleLine, hparse]
            rw [hstep]
            refine .quiet ?_ (fun _ hc => hc) rfl ?_
            · rw [Record.announcement, request_bad sys hopen htext hparse]
              cases (record b (Event.line id text sys)).sender <;> rfl
            · rw [record, hstep]
              exact isEvent_of_mem_sendTo (isEvent_err _ _)
      · have hnot : ¬(b.conns.contains id = true ∧ trim text ≠ []) := by simpa using h
        have hstep : b.step (.line id text sys) = (b, []) := by
          rw [Bus.step, if_neg hnot]
        rw [hstep]
        refine .quiet (announcement_of_no_frame (if_neg hnot) (by simp [record]))
          (fun _ hc => hc) rfl ?_
        simp [record, hstep]

/-! ## The run -/

/-- The listeners are the members of the run so far, and each has been sent what it should be. -/
structure Announced (b : Bus) (log : List Record) : Prop where
  nodup : b.listeners.Nodup
  opened : ∀ l ∈ b.listeners, l ∈ b.conns
  members : ∀ k, k ∈ b.listeners ↔ isMember k (announcements log) = true
  delivered : ∀ k, eventsTo log k = inbox k (announcements log)

theorem announced_default : Announced Bus.default [] where
  nodup := List.nodup_nil
  opened := by simp [Bus.default]
  members := by simp [Bus.default, announcements]
  delivered := by simp [eventsTo, announcements, inbox, inboxFrom]

theorem eventsTo_of_quiet {r : Record} (h : ∀ d ∈ r.emitted, isEvent d.frame = false) (conn : ℕ) :
    eventsTo [r] conn = [] := by
  rw [eventsTo, List.map_eq_nil_iff, List.filter_eq_nil_iff]
  intro d hd
  rw [h d (by simpa using hd)]
  simp

theorem flatMap_sendTo {b : Bus} {targets : List ℕ} (h : ∀ t ∈ targets, t ∈ b.conns) (v : Value) :
    targets.flatMap (fun t => b.sendTo t v) = targets.map fun t => ⟨t, v⟩ := by
  induction targets with
  | nil => rfl
  | cons t targets ih =>
      rw [List.flatMap_cons, List.map_cons, sendTo_open (h t (by simp)),
        ih fun u hu => h u (by simp [hu]), List.singleton_append]

theorem filter_targets {v : Value} (hv : isEvent v = true) {targets : List ℕ}
    (hnodup : targets.Nodup) (conn : ℕ) :
    ((targets.map fun t => (⟨t, v⟩ : Delivery)).filter fun d =>
      d.conn = conn && isEvent d.frame).map Delivery.frame =
        if conn ∈ targets then [v] else [] := by
  induction targets with
  | nil => rfl
  | cons t targets ih =>
      rw [List.nodup_cons] at hnodup
      rw [List.map_cons, List.filter_cons]
      by_cases ht : t = conn
      · rw [ht] at hnodup ⊢
        simp only [hv, decide_true, Bool.and_true, if_true, List.map_cons, ih hnodup.2, hnodup.1,
          if_false, List.mem_cons_self]
      · have hconn : conn ∈ t :: targets ↔ conn ∈ targets := by simp [Ne.symm ht]
        simp only [ht, decide_false, Bool.false_and, Bool.false_eq_true, if_false, ih hnodup.2,
          hconn]

/-- The frame of an event is written once to each listener. -/
theorem eventsTo_of_published {r : Record} {v : Value} {acks : List Delivery}
    (hv : isEvent v = true) (hnodup : r.before.listeners.Nodup)
    (hopened : ∀ l ∈ r.before.listeners, l ∈ r.before.conns)
    (hs : r.emitted = r.before.listeners.flatMap (fun t => r.before.sendTo t v) ++ acks)
    (hacks : ∀ d ∈ acks, isEvent d.frame = false) (conn : ℕ) :
    eventsTo [r] conn = if conn ∈ r.before.listeners then [v] else [] := by
  have hquiet : acks.filter (fun d => d.conn = conn && isEvent d.frame) = [] := by
    rw [List.filter_eq_nil_iff]
    intro d hd
    simp [hacks d hd]
  rw [eventsTo, List.flatMap_singleton, hs, flatMap_sendTo hopened, List.filter_append, hquiet,
    List.append_nil, filter_targets hv hnodup]

theorem Announced.step {b : Bus} {log : List Record} (h : Announced b log) (e : Event) :
    Announced (b.step e).1 (log ++ [record b e]) := by
  have heffect := eventEffect b e
  generalize (b.step e).1 = after at heffect ⊢
  cases heffect with
  | joined id hann hopen hconns hlisteners hs =>
      rw [record_before] at hopen hconns hlisteners
      have hlog : announcements (log ++ [record b e]) = announcements log ++ [.join id] := by
        rw [announcements_concat, hann, Option.toList_some]
      have hmem : ∀ k, k ∈ after.listeners ↔ k = id ∨ k ∈ b.listeners := by
        intro k
        rw [hlisteners]
        split
        · rename_i hin
          have hin' : id ∈ b.listeners := by simpa using hin
          exact ⟨Or.inr, fun hk => hk.elim (fun he => he ▸ hin') fun hb => hb⟩
        · exact List.mem_cons
      constructor
      · rw [hlisteners]
        split
        · exact h.nodup
        · rename_i hout
          exact List.nodup_cons.mpr ⟨by simpa using hout, h.nodup⟩
      · intro l hl
        rw [hconns]
        rcases (hmem l).mp hl with rfl | hold
        · exact hopen
        · exact h.opened l hold
      · intro k
        rw [hmem, hlog, isMember_concat, h.members, follows, Bool.or_eq_true, decide_eq_true_eq]
        exact ⟨fun hk => hk.elim (fun he => Or.inr he.symm) Or.inl,
          fun hk => hk.elim Or.inr fun he => Or.inl he.symm⟩
      · intro k
        rw [eventsTo_concat, eventsTo_of_quiet hs, hlog, inbox_join, h.delivered, List.append_nil]
  | left id hann hconns hlisteners hs =>
      rw [record_before] at hconns hlisteners
      have hlog : announcements (log ++ [record b e]) = announcements log ++ [.leave id] := by
        rw [announcements_concat, hann, Option.toList_some]
      constructor
      · rw [hlisteners]
        exact h.nodup.filter _
      · intro l hl
        rw [hlisteners] at hl
        obtain ⟨hl, hne⟩ := List.mem_filter.mp hl
        rw [hconns]
        exact List.mem_filter.mpr ⟨h.opened l hl, hne⟩
      · intro k
        rw [hlisteners, List.mem_filter, hlog, isMember_concat, h.members, follows,
          Bool.and_eq_true, decide_eq_true_eq, decide_eq_true_eq]
        exact and_congr_right fun _ => ne_comm
      · intro k
        rw [eventsTo_concat, eventsTo_of_quiet (by simp [hs]), hlog, inbox_leave, h.delivered,
          List.append_nil]
  | published v hann hv hconns hlisteners hs =>
      obtain ⟨acks, hs, hacks⟩ := hs
      rw [record_before] at hconns hlisteners
      have hlog : announcements (log ++ [record b e]) = announcements log ++ [.publish v] := by
        rw [announcements_concat, hann, Option.toList_some]
      refine ⟨hlisteners ▸ h.nodup, ?_, ?_, ?_⟩
      · rw [hlisteners, hconns]
        exact h.opened
      · intro k
        rw [hlisteners, hlog, isMember_concat]
        exact h.members k
      · intro k
        rw [eventsTo_concat, eventsTo_of_published hv h.nodup h.opened hs hacks, record_before,
          hlog, inbox_publish, h.delivered]
        simp only [h.members k]
  | quiet hann hconns hlisteners hs =>
      rw [record_before] at hconns hlisteners
      have hlog : announcements (log ++ [record b e]) = announcements log := by
        rw [announcements_concat, hann, Option.toList_none, List.append_nil]
      refine ⟨hlisteners ▸ h.nodup, ?_, ?_, ?_⟩
      · intro l hl
        rw [hlisteners] at hl
        exact hconns (h.opened l hl)
      · intro k
        rw [hlisteners, hlog]
        exact h.members k
      · intro k
        rw [eventsTo_concat, eventsTo_of_quiet hs, hlog, h.delivered, List.append_nil]

theorem history_announced (es : List Event) : Announced (history es).1 (history es).2 := by
  induction es using List.reverseRecOn with
  | nil => exact announced_default
  | append_singleton es e ih =>
      rw [history_concat]
      exact ih.step e

/-- In every run each connection gets exactly the events that are sent while it listens, once and
in the order in which the broker takes them from all senders, and no others. -/
theorem events_delivered (es : List Event) (conn : ℕ) :
    eventsTo (history es).2 conn = inbox conn (announcements (history es).2) ∧
      (eventsTo (history es).2 conn).Sublist (published (announcements (history es).2)) := by
  have hdelivered := (history_announced es).delivered conn
  exact ⟨hdelivered, hdelivered ▸ inbox_sublist conn _⟩

end Lwrt.Ubus
