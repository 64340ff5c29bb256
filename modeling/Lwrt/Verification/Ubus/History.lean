import Lwrt.Applet.Ubus

/-! # Runs of the broker

What one event can do to the tables and which frames it writes, said once for every kind of
event. -/

namespace Lwrt.Ubus

open Library Text Json

/-- An event of a run, in the state it arrived in, with the frames it wrote. -/
abbrev Record := Machine.Entry Bus Event Delivery

/-- A run of the broker, from the start. -/
def history (es : List Event) : Bus × List Record :=
  Machine.history Bus.step Bus.default es

/-- A call handed to a provider. -/
structure Route where
  reqid : ℕ
  caller : ℕ
  owner : ℕ
  deriving DecidableEq

namespace Record

/-- The frame a connection sent, if the event is one. -/
def frame (r : Record) : Option (ℕ × Text × System) :=
  match r.event with
  | .line id text sys =>
      if r.before.conns.contains id ∧ trim text ≠ [] then some (id, text, sys) else none
  | _ => none

def sender (r : Record) : Option ℕ :=
  r.frame.map Prod.fst

/-- The request in the frame, if it is one. -/
def request (r : Record) : Option Request :=
  r.frame.bind fun f => (Value.parse f.2.1).toOption.map Request.ofValue

/-- The call the frame is a reply to. -/
def replyId (r : Record) : Option ℕ :=
  match r.request with
  | some (.reply reqid _) => some reqid
  | _ => none

/-- How the frame was routed, if it is a call of a registered object. -/
def route (r : Record) : Option Route :=
  match r.frame, r.request with
  | some (id, _, sys), some (.call path method _) =>
      match builtinCall sys path method with
      | some _ => none
      | none => (r.before.provider path method).map fun owner => ⟨r.before.nextReq + 1, id, owner⟩
  | _, _ => none

end Record

/-- A frame that tells a connection how its request went. -/
def isStatus (v : Value) : Bool :=
  (v.get "status".toList).isSome

@[simp]
theorem isStatus_ok (data : Value) : isStatus (ok data) = true := by
  simp [ok, isStatus, obj, Value.get]

@[simp]
theorem isStatus_status (code : ℤ) : isStatus (status code) = true := by
  simp [status, isStatus, obj, Value.get]

@[simp]
theorem isStatus_err (code : ℤ) (msg : Text) : isStatus (err code msg) = true := by
  simp [err, isStatus, obj, Value.get]

@[simp]
theorem isStatus_listObjects (b : Bus) : isStatus b.listObjects = true := by
  simp [Bus.listObjects, isStatus, obj, Value.get]

@[simp]
theorem isStatus_invoke (reqid : ℕ) (method : Text) (args : Value) :
    isStatus (invoke reqid method args) = false := by
  simp [invoke, isStatus, obj, Value.get]

@[simp]
theorem isStatus_event (name : Text) (data : Value) : isStatus (event name data) = false := by
  simp [event, isStatus, obj, Value.get]

theorem sendTo_open {b : Bus} {conn : ℕ} (h : conn ∈ b.conns) (v : Value) :
    b.sendTo conn v = [⟨conn, v⟩] := by
  rw [Bus.sendTo, if_pos (by simpa using h)]

theorem mem_sendTo {b : Bus} {conn : ℕ} {v : Value} {d : Delivery} (h : d ∈ b.sendTo conn v) :
    d = ⟨conn, v⟩ ∧ conn ∈ b.conns := by
  rw [Bus.sendTo] at h
  split at h
  · rename_i hopen
    exact ⟨by simpa using h, by simpa using hopen⟩
  · simp at h

/-- What an event does. -/
inductive Effect (r : Record) (after : Bus) : Prop
  | connect (he : r.event = .connect) (hf : r.frame = none) (hs : r.emitted = [])
      (ha : after = { r.before with
        nextConn := r.before.nextConn + 1, conns := (r.before.nextConn + 1) :: r.before.conns })
  | disconnect (id : ℕ) (he : r.event = .disconnect id) (hf : r.frame = none)
      (hs : r.emitted = [])
      (ha : after = { r.before with
        conns := r.before.conns.filter (· ≠ id)
        listeners := r.before.listeners.filter (· ≠ id)
        objects := r.before.objects.filter fun o => o.owner ≠ id })
  | ignored (he : ∃ id text sys, r.event = .line id text sys) (hf : r.frame = none)
      (hs : r.emitted = []) (ha : after = r.before)
  /-- Answered at once, after the events of a `send`. -/
  | served (id : ℕ) (hid : r.sender = some id) (hopen : id ∈ r.before.conns)
      (hroute : r.route = none) (hreply : r.replyId = none)
      (hs : ∃ events v, r.emitted = events ++ [⟨id, v⟩] ∧ isStatus v = true ∧
        ∀ d ∈ events, isStatus d.frame = false)
      (hconns : after.conns = r.before.conns) (hpending : after.pending = r.before.pending)
      (hconn : after.nextConn = r.before.nextConn) (hreq : after.nextReq = r.before.nextReq)
      (hobjects : ∀ o ∈ after.objects, o ∈ r.before.objects ∨ o.owner = id)
      (hlisteners : ∀ l ∈ after.listeners, l ∈ r.before.listeners ∨ l = id)
  | routed (rt : Route) (hid : r.sender = some rt.caller) (hopen : rt.caller ∈ r.before.conns)
      (hroute : r.route = some rt) (hreply : r.replyId = none)
      (hreqid : rt.reqid = r.before.nextReq + 1)
      (howner : ∃ o ∈ r.before.objects, o.owner = rt.owner)
      (hs : ∃ v, r.emitted = r.before.sendTo rt.owner v ∧ isStatus v = false)
      (ha : after = { r.before with
        nextReq := rt.reqid, pending := (rt.reqid, rt.caller) :: r.before.pending })
  | answered (id reqid : ℕ) (data : Value) (caller : ℕ) (hid : r.sender = some id)
      (hroute : r.route = none) (hrequest : r.request = some (.reply reqid data))
      (hpending : r.before.pending.lookup reqid = some caller)
      (hs : r.emitted = r.before.sendTo caller (ok data))
      (ha : after = { r.before with
        pending := r.before.pending.filter fun entry => entry.1 ≠ reqid })
  | unanswered (id reqid : ℕ) (hid : r.sender = some id) (hroute : r.route = none)
      (hreply : r.replyId = some reqid) (hpending : r.before.pending.lookup reqid = none)
      (hs : r.emitted = []) (ha : after = r.before)

section NoFrame

variable {r : Record} (h : r.frame = none)
include h

theorem sender_eq_none : r.sender = none := by
  rw [Record.sender, h]
  rfl

theorem request_eq_none : r.request = none := by
  rw [Record.request, h]
  rfl

theorem replyId_eq_none : r.replyId = none := by
  rw [Record.replyId, request_eq_none h]

theorem route_eq_none : r.route = none := by
  rw [Record.route, h]

end NoFrame

/-- The record of an event in a state. -/
def record (b : Bus) (e : Event) : Record :=
  ⟨b, e, (b.step e).2⟩

@[simp]
theorem record_before (b : Bus) (e : Event) : (record b e).before = b := rfl

section Frames

variable {b : Bus} {id : ℕ} {text : Text} (sys : System)

theorem frame_line (hopen : id ∈ b.conns) (htext : trim text ≠ []) :
    (record b (.line id text sys)).frame = some (id, text, sys) := by
  simp [record, Record.frame, hopen, htext]

theorem request_line (hopen : id ∈ b.conns) (htext : trim text ≠ []) {v : Value}
    (hparse : Value.parse text = .ok v) :
    (record b (.line id text sys)).request = some (.ofValue v) := by
  rw [Record.request, frame_line sys hopen htext]
  simp [hparse, Except.toOption]

theorem request_bad (hopen : id ∈ b.conns) (htext : trim text ≠ []) {e : Text}
    (hparse : Value.parse text = .error e) : (record b (.line id text sys)).request = none := by
  rw [Record.request, frame_line sys hopen htext]
  simp [hparse, Except.toOption]

theorem step_line (hopen : id ∈ b.conns) (htext : trim text ≠ []) {v : Value}
    (hparse : Value.parse text = .ok v) :
    b.step (.line id text sys) = b.handleRequest sys id (.ofValue v) := by
  rw [Bus.step, if_pos (by simp [hopen, htext]), Bus.handleLine, hparse]

end Frames

/-- A request that is answered at once. -/
theorem Effect.of_served {r : Record} {id : ℕ} {v : Value} {b' : Bus} (hid : r.sender = some id)
    (hopen : id ∈ r.before.conns) (hroute : r.route = none) (hreply : r.replyId = none)
    (hs : r.emitted = r.before.sendTo id v) (hv : isStatus v = true)
    (hb : b' = r.before) : Effect r b' := by
  subst hb
  rw [sendTo_open hopen] at hs
  exact .served id hid hopen hroute hreply ⟨[], v, hs, hv, by simp⟩ rfl rfl rfl rfl
    (fun _ h => Or.inl h) (fun _ h => Or.inl h)

/-- A record of a request from an open connection. -/
structure Received (r : Record) (sys : System) (id : ℕ) (req : Request) : Prop where
  opened : id ∈ r.before.conns
  framed : ∃ text, r.frame = some (id, text, sys)
  request : r.request = some req
  emitted : r.emitted = (r.before.handleRequest sys id req).2

namespace Received

variable {r : Record} {sys : System} {id : ℕ} {req : Request}

theorem sender (h : Received r sys id req) : r.sender = some id := by
  obtain ⟨text, hframe⟩ := h.framed
  rw [Record.sender, hframe]
  rfl

theorem replyId_eq_none (h : Received r sys id req)
    (hreq : ∀ reqid data, req ≠ .reply reqid data) : r.replyId = none := by
  rw [Record.replyId, h.request]
  split
  · rename_i reqid data he
    exact absurd (Option.some.inj he) (hreq reqid data)
  · rfl

theorem route_eq_none (h : Received r sys id req)
    (hreq : ∀ path method args, req ≠ .call path method args) : r.route = none := by
  rw [Record.route, h.request]
  split
  · rename_i path method args _ he
    exact absurd (Option.some.inj he) (hreq path method args)
  · rfl

theorem route_call {path method : Text} {args : Value}
    (h : Received r sys id (.call path method args))
    (hbuiltin : builtinCall sys path method = none) :
    r.route = (r.before.provider path method).map fun owner =>
      ⟨r.before.nextReq + 1, id, owner⟩ := by
  obtain ⟨text, hframe⟩ := h.framed
  simp only [Record.route, hframe, h.request, hbuiltin]

theorem route_builtin {path method : Text} {args data : Value}
    (h : Received r sys id (.call path method args))
    (hbuiltin : builtinCall sys path method = some data) : r.route = none := by
  obtain ⟨text, hframe⟩ := h.framed
  simp only [Record.route, hframe, h.request, hbuiltin]

/-- A request that is answered at once. -/
theorem served (h : Received r sys id req) {v : Value} (hroute : r.route = none)
    (hreply : r.replyId = none) (hv : isStatus v = true)
    (hreq : r.before.handleRequest sys id req = (r.before, r.before.sendTo id v)) :
    Effect r (r.before.handleRequest sys id req).1 := by
  rw [hreq]
  refine .of_served h.sender h.opened hroute hreply ?_ hv rfl
  rw [h.emitted, hreq]

theorem call_effect {path method : Text} {args : Value}
    (h : Received r sys id (.call path method args)) :
    Effect r (r.before.handleRequest sys id (.call path method args)).1 := by
  have hreply : r.replyId = none := h.replyId_eq_none (by simp)
  cases hbuiltin : builtinCall sys path method with
  | some data =>
      refine h.served (h.route_builtin hbuiltin) hreply (isStatus_ok data) ?_
      simp only [Bus.handleRequest, hbuiltin]
  | none =>
      have hroute := h.route_call hbuiltin
      cases howner : r.before.provider path method with
      | none =>
          rw [howner] at hroute
          refine h.served hroute hreply (isStatus_err (-2) "object/method not found".toList) ?_
          simp only [Bus.handleRequest, hbuiltin, howner]
      | some owner =>
          rw [howner] at hroute
          have hsent := h.emitted
          simp only [Bus.handleRequest, hbuiltin, howner] at hsent ⊢
          refine .routed ⟨r.before.nextReq + 1, id, owner⟩ h.sender h.opened hroute hreply rfl ?_
            ⟨_, hsent, by simp⟩ rfl
          obtain ⟨o, hfind, rfl⟩ := Option.map_eq_some_iff.mp howner
          exact ⟨o, List.mem_of_find?_eq_some hfind, rfl⟩

theorem reply_effect {reqid : ℕ} {data : Value} (h : Received r sys id (.reply reqid data)) :
    Effect r (r.before.handleRequest sys id (.reply reqid data)).1 := by
  have hroute : r.route = none := h.route_eq_none (by simp)
  have hsent := h.emitted
  cases hpending : r.before.pending.lookup reqid with
  | some caller =>
      simp only [Bus.handleRequest, hpending] at hsent ⊢
      exact .answered id reqid data caller h.sender hroute h.request hpending hsent rfl
  | none =>
      have hreply : r.replyId = some reqid := by
        rw [Record.replyId, h.request]
      simp only [Bus.handleRequest, hpending] at hsent ⊢
      exact .unanswered id reqid h.sender hroute hreply hpending hsent rfl

theorem add_effect {path : Text} {methods : List Text} (h : Received r sys id (.add path methods)) :
    Effect r (r.before.handleRequest sys id (.add path methods)).1 := by
  have hroute : r.route = none := h.route_eq_none (by simp)
  have hreply : r.replyId = none := h.replyId_eq_none (by simp)
  by_cases hpath : path = []
  · refine h.served hroute hreply (isStatus_err (-1) "add: empty path".toList) ?_
    simp only [Bus.handleRequest, hpath, if_true]
  · have hsent := h.emitted
    simp only [Bus.handleRequest, hpath, if_false] at hsent ⊢
    rw [sendTo_open h.opened] at hsent
    refine .served id h.sender h.opened hroute hreply ⟨[], _, hsent, by simp, by simp⟩
      rfl rfl rfl rfl ?_ fun _ h => Or.inl h
    intro o ho
    rcases List.mem_append.mp ho with ho | ho
    · exact Or.inl (List.mem_of_mem_filter ho)
    · rw [List.mem_singleton.mp ho]
      exact Or.inr rfl

theorem send_effect {name : Text} {data : Value} (h : Received r sys id (.send name data)) :
    Effect r (r.before.handleRequest sys id (.send name data)).1 := by
  have hsent := h.emitted
  simp only [Bus.handleRequest] at hsent ⊢
  rw [sendTo_open h.opened] at hsent
  refine .served id h.sender h.opened (h.route_eq_none (by simp)) (h.replyId_eq_none (by simp))
    ⟨_, _, hsent, by simp, ?_⟩ rfl rfl rfl rfl (fun _ h => Or.inl h) (fun _ h => Or.inl h)
  intro d hd
  obtain ⟨t, -, hd⟩ := List.mem_flatMap.mp hd
  rw [(mem_sendTo hd).1]
  exact isStatus_event name data

theorem listen_effect (h : Received r sys id .listen) :
    Effect r (r.before.handleRequest sys id .listen).1 := by
  have hsent := h.emitted
  simp only [Bus.handleRequest] at hsent ⊢
  rw [sendTo_open h.opened] at hsent
  refine .served id h.sender h.opened (h.route_eq_none (by simp)) (h.replyId_eq_none (by simp))
    ⟨[], _, hsent, by simp, by simp⟩ rfl rfl rfl rfl (fun _ h => Or.inl h) ?_
  intro l hl
  simp only at hl
  split at hl
  · exact Or.inl hl
  · exact (List.mem_cons.mp hl).symm

/-- One case for each request. -/
theorem effect (h : Received r sys id req) : Effect r (r.before.handleRequest sys id req).1 := by
  cases req with
  | list =>
      exact h.served (h.route_eq_none (by simp)) (h.replyId_eq_none (by simp))
        (isStatus_listObjects r.before) rfl
  | call path method args => exact h.call_effect
  | reply reqid data => exact h.reply_effect
  | add path methods => exact h.add_effect
  | send name data => exact h.send_effect
  | listen => exact h.listen_effect
  | unknown =>
      exact h.served (h.route_eq_none (by simp)) (h.replyId_eq_none (by simp))
        (isStatus_err (-1) "unknown op".toList) rfl

end Received

theorem received_line {b : Bus} {id : ℕ} {text : Text} {sys : System} {v : Value}
    (hopen : id ∈ b.conns) (htext : trim text ≠ []) (hparse : Value.parse text = .ok v) :
    Received (record b (.line id text sys)) sys id (.ofValue v) where
  opened := hopen
  framed := ⟨text, frame_line sys hopen htext⟩
  request := request_line sys hopen htext hparse
  emitted := by rw [record, step_line sys hopen htext hparse]

/-- Everything an event can do. -/
theorem step_effect (b : Bus) (e : Event) : Effect (record b e) (b.step e).1 := by
  cases e with
  | connect => exact .connect rfl rfl rfl rfl
  | disconnect id => exact .disconnect id rfl rfl rfl rfl
  | line id text sys =>
      by_cases h : id ∈ b.conns ∧ trim text ≠ []
      · obtain ⟨hopen, htext⟩ := h
        cases hparse : Value.parse text with
        | ok v =>
            rw [step_line sys hopen htext hparse]
            exact (received_line hopen htext hparse).effect
        | error err =>
            have hframe := frame_line sys hopen htext
            have hrequest := request_bad sys hopen htext hparse
            have hstep : b.step (.line id text sys) =
                (b, b.sendTo id (Ubus.err (-1) ("bad json: ".toList ++ err))) := by
              rw [Bus.step, if_pos (by simp [hopen, htext]), Bus.handleLine, hparse]
            have hid : (record b (.line id text sys)).sender = some id := by
              rw [Record.sender, hframe]
              rfl
            exact .of_served hid hopen (by simp [Record.route, hrequest])
              (by simp [Record.replyId, hrequest]) (by rw [record, hstep]) (by simp)
              (by rw [hstep]; rfl)
      · have hnot : ¬(b.conns.contains id = true ∧ trim text ≠ []) := by simpa using h
        have hstep : b.step (.line id text sys) = (b, []) := by
          rw [Bus.step, if_neg hnot]
        refine .ignored ⟨id, text, sys, rfl⟩ ?_ (by rw [record, hstep]) (by rw [hstep]; rfl)
        exact if_neg hnot

end Lwrt.Ubus
