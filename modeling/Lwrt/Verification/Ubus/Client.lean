import Lwrt.Verification.Ubus.Events
import Lwrt.Verification.Ubus.Listing

/-! # What the clients print

From the broker's tables over the bytes of the socket to the text on the terminal. -/

namespace Lwrt.Ubus

open Library Text Json Broadcast

/-! ## Frames on the wire -/

theorem get_finite (v : Value) (key : Text) : v.finite.get key = (v.get key).map Value.finite := by
  cases v with
  | object pairs =>
      rw [Value.finite, finitePairs_eq_map, Value.get, Value.get, List.find?_map]
      simp [Function.comp_def, Option.map_map]
  | num n =>
      rw [Value.finite]
      split <;> rfl
  | _ => rfl

theorem asStr_finite (v : Value) : v.finite.asStr = v.asStr := by
  cases v with
  | num n =>
      rw [Value.finite]
      split <;> rfl
  | _ => rfl

/-- Whatever is written to a stream is read back, frame by frame. -/
theorem receive_frames (vs : List Value) :
    receive (vs.flatMap frameBytes) = vs.map fun v => .ok v.finite := by
  have hlines : readLines (vs.flatMap frameBytes) = vs.map Value.write := by
    have hread := readLines_encode (vs.map Value.write) fun l hl => by
      obtain ⟨v, -, rfl⟩ := List.mem_map.mp hl
      exact ⟨(printable_write_value v).not_mem (by decide),
        (printable_write_value v).not_mem (by decide)⟩
    rwa [List.flatMap_map] at hread
  have hkeep : (vs.map Value.write).filter (fun line => trim line ≠ []) = vs.map Value.write := by
    rw [List.filter_eq_self]
    intro l hl
    obtain ⟨v, -, rfl⟩ := List.mem_map.mp hl
    rw [trim_write_value]
    exact decide_eq_true (write_value_ne_nil v)
  rw [receive, hlines, hkeep, List.map_map]
  exact List.map_congr_left fun v _ => Value.parse_write_value v

/-- A client that reads one line gets the first frame. -/
theorem readResponse_frames (v : Value) (vs : List Value) :
    readResponse ((v :: vs).flatMap frameBytes) = .ok v.finite := by
  have hline := readLine_encode ((printable_write_value v).not_mem (c := '\n') (by decide))
    (vs.flatMap frameBytes)
  have htrim : trim (v.write ++ ['\n']) = v.write := by
    rw [trim_append_whitespace _ (by decide), trim_write_value]
  rw [List.flatMap_cons, readResponse, frameBytes, hline]
  simp only [htrim, Value.parse_write_value]

/-- The frames written to a connection. -/
def framesTo (log : List Record) (conn : ℕ) : List Value :=
  ((log.flatMap Machine.Entry.emitted).filter fun d => d.conn = conn).map Delivery.frame

/-- What comes in on a connection. -/
def streamTo (log : List Record) (conn : ℕ) : List UInt8 :=
  (framesTo log conn).flatMap frameBytes

theorem framesTo_append (log log' : List Record) (conn : ℕ) :
    framesTo (log ++ log') conn = framesTo log conn ++ framesTo log' conn := by
  simp [framesTo]

theorem eventsTo_eq_filter (log : List Record) (conn : ℕ) :
    eventsTo log conn = (framesTo log conn).filter isEvent := by
  rw [eventsTo, framesTo, List.filter_map, List.filter_filter]
  congr 2
  funext d
  exact Bool.and_comm _ _

/-! ## Listening -/

/-- The line that `ubus listen` prints for an event. -/
def printedLine (v : Value) : Text :=
  v.write ++ ['\n']

theorem cliListen_frames (vs : List Value) :
    cliListen (vs.flatMap frameBytes) = (vs.filter isEvent).flatMap printedLine := by
  rw [cliListen, receive_frames, List.flatMap_map]
  induction vs with
  | nil => rfl
  | cons v vs ih =>
      rw [List.flatMap_cons, ih, List.filter_cons]
      have hevent : (v.finite.get "event".toList).isSome = isEvent v := by
        rw [get_finite, Option.isSome_map]
        rfl
      simp only [hevent, write_finite]
      split
      · rw [List.flatMap_cons]
        rfl
      · rfl

theorem parse_listenLine : Value.parse listenLine = .ok (obj [("op", s "listen")]) := by
  have hparse := Value.parse_write_value (obj [("op", s "listen")])
  exact hparse

/-- The records of a run before an event, of the event, and after it. -/
theorem history_middle (es₁ : List Event) (e : Event) (es₂ : List Event) :
    ∃ later, (history (es₁ ++ e :: es₂)).2 =
        (history es₁).2 ++ record (history es₁).1 e :: later ∧
      ∀ r ∈ later, r.event ∈ es₂ := by
  obtain ⟨later, hlog⟩ := history_split es₁ e es₂
  refine ⟨later, hlog, ?_⟩
  have hevents := Machine.map_event_history Bus.step Bus.default (es₁ ++ e :: es₂)
  have hbefore := Machine.map_event_history Bus.step Bus.default es₁
  change (history (es₁ ++ e :: es₂)).2.map Machine.Entry.event = _ at hevents
  change (history es₁).2.map Machine.Entry.event = _ at hbefore
  rw [hlog, List.map_append, hbefore, List.map_cons] at hevents
  intro r hr
  rw [← (List.cons.inj (List.append_cancel_left hevents)).2]
  exact List.mem_map_of_mem hr

theorem request_of_join {r : Record} {id : ℕ} (h : r.announcement = some (.join id)) :
    r.sender = some id ∧ r.request = some .listen := by
  unfold Record.announcement at h
  split at h
  · simp at h
  · split at h
    · rename_i id' hsender hrequest
      rw [hsender, ← Broadcast.join.inj (Option.some.inj h)]
      exact ⟨rfl, hrequest⟩
    · simp at h
    · simp at h

theorem event_of_leave {r : Record} {id : ℕ} (h : r.announcement = some (.leave id)) :
    r.event = .disconnect id := by
  unfold Record.announcement at h
  split at h
  · rename_i he
    rw [he, Broadcast.leave.inj (Option.some.inj h)]
  · split at h <;> simp at h

/-- `ubus listen` prints every event that is sent after it has subscribed, by any connection and
whatever else goes on, one line each and in order, and nothing else. -/
theorem listen_prints (es₁ es₂ : List Event) {conn : ℕ} (sys : System)
    (hopen : conn ∈ (history es₁).1.conns) (hnew : framesOf (history es₁).2 conn = [])
    (hstays : Event.disconnect conn ∉ es₂) :
    ∃ later, (history (es₁ ++ .line conn listenLine sys :: es₂)).2 =
        (history es₁).2 ++ record (history es₁).1 (.line conn listenLine sys) :: later ∧
      cliListen (streamTo (history (es₁ ++ .line conn listenLine sys :: es₂)).2 conn) =
        (published (announcements later)).flatMap printedLine := by
  obtain ⟨later, hlog, hlater⟩ := history_middle es₁ (.line conn listenLine sys) es₂
  refine ⟨later, hlog, ?_⟩
  have hdelivered :=
    (history_announced (es₁ ++ .line conn listenLine sys :: es₂)).delivered conn
  have hjoins : (record (history es₁).1 (.line conn listenLine sys)).announcement =
      some (.join conn) :=
    (received_line hopen (by decide) parse_listenLine).announcement
  rw [streamTo, cliListen_frames, ← eventsTo_eq_filter, hdelivered, hlog, announcements,
    List.filterMap_append, List.filterMap_cons_some hjoins, inbox_of_stays]
  · rfl
  · intro hjoin
    obtain ⟨r, hr, hann⟩ := List.mem_filterMap.mp hjoin
    have hmem : r ∈ framesOf (history es₁).2 conn :=
      List.mem_filter.mpr ⟨hr, by simp [(request_of_join hann).1]⟩
    simp [hnew] at hmem
  · intro hleave
    obtain ⟨r, hr, hann⟩ := List.mem_filterMap.mp hleave
    exact hstays (event_of_leave hann ▸ hlater r hr)

/-- An object is registered, and another connection is opened. -/
def secondClient : List Event :=
  registering ++ [.connect]

theorem mem_conns_secondClient : 2 ∈ (history secondClient).1.conns := by
  decide +kernel

/-- The provider sends an event. -/
def sendingEvent : List Event :=
  [.line 1 (sendRequest "up".toList .null).write sampleSystem]

/-- It is printed. -/
theorem listen_prints_sendingEvent :
    ∃ later, (history (secondClient ++ .line 2 listenLine sampleSystem :: sendingEvent)).2 =
        (history secondClient).2 ++
          record (history secondClient).1 (.line 2 listenLine sampleSystem) :: later ∧
      cliListen (streamTo
        (history (secondClient ++ .line 2 listenLine sampleSystem :: sendingEvent)).2 2) =
          (published (announcements later)).flatMap printedLine := by
  apply listen_prints secondClient sendingEvent sampleSystem mem_conns_secondClient
  · exact List.length_eq_zero_iff.mp (by decide +kernel)
  · simp [sendingEvent]

/-! ## A connection that only asks -/

/-- A connection that has registered nothing and does not listen. -/
def Passive (log : List Record) (conn : ℕ) : Prop :=
  ∀ r ∈ log, r.sender = some conn →
    (∀ path methods, r.request ≠ some (.add path methods)) ∧ r.request ≠ some .listen

theorem isStatus_of_mem_sendTo {b : Bus} {conn : ℕ} {v : Value} (hv : isStatus v = true) :
    ∀ d ∈ b.sendTo conn v, isStatus d.frame = true := by
  intro d hd
  rw [(mem_sendTo hd).1]
  exact hv

/-- Where a frame goes: it is a status, or it goes to a listener or to a provider. -/
theorem Received.emitted_to {r : Record} {sys : System} {id : ℕ} {req : Request}
    (h : Received r sys id req) :
    ∀ d ∈ r.emitted, isStatus d.frame = true ∨ d.conn ∈ r.before.listeners ∨
      ∃ o ∈ r.before.objects, o.owner = d.conn := by
  rw [h.emitted]
  cases req with
  | list => exact fun d hd => Or.inl (isStatus_of_mem_sendTo (isStatus_listObjects _) d hd)
  | call path method args =>
      cases hbuiltin : builtinCall sys path method with
      | some data =>
          simp only [Bus.handleRequest, hbuiltin]
          exact fun d hd => Or.inl (isStatus_of_mem_sendTo (isStatus_ok data) d hd)
      | none =>
          cases howner : r.before.provider path method with
          | some owner =>
              simp only [Bus.handleRequest, hbuiltin, howner]
              intro d hd
              obtain ⟨o, hfind, rfl⟩ := Option.map_eq_some_iff.mp howner
              exact Or.inr (Or.inr ⟨o, List.mem_of_find?_eq_some hfind, by rw [(mem_sendTo hd).1]⟩)
          | none =>
              simp only [Bus.handleRequest, hbuiltin, howner]
              exact fun d hd => Or.inl (isStatus_of_mem_sendTo (isStatus_err _ _) d hd)
  | reply reqid data =>
      cases hpending : r.before.pending.lookup reqid with
      | some caller =>
          simp only [Bus.handleRequest, hpending]
          exact fun d hd => Or.inl (isStatus_of_mem_sendTo (isStatus_ok data) d hd)
      | none => simp [Bus.handleRequest, hpending]
  | add path methods =>
      by_cases hpath : path = []
      · simp only [Bus.handleRequest, hpath, if_true]
        exact fun d hd => Or.inl (isStatus_of_mem_sendTo (isStatus_err _ _) d hd)
      · simp only [Bus.handleRequest, hpath, if_false]
        exact fun d hd => Or.inl (isStatus_of_mem_sendTo (isStatus_status 0) d hd)
  | send name data =>
      intro d hd
      rcases List.mem_append.mp hd with hd | hd
      · obtain ⟨t, ht, hd⟩ := List.mem_flatMap.mp hd
        exact Or.inr (Or.inl (by rwa [(mem_sendTo hd).1]))
      · exact Or.inl (isStatus_of_mem_sendTo (isStatus_status 0) d hd)
  | listen => exact fun d hd => Or.inl (isStatus_of_mem_sendTo (isStatus_status 0) d hd)
  | unknown => exact fun d hd => Or.inl (isStatus_of_mem_sendTo (isStatus_err _ _) d hd)

theorem emitted_to (b : Bus) (e : Event) :
    ∀ d ∈ (record b e).emitted, isStatus d.frame = true ∨ d.conn ∈ b.listeners ∨
      ∃ o ∈ b.objects, o.owner = d.conn := by
  cases e with
  | connect => simp [record, Bus.step]
  | disconnect id => simp [record, Bus.step]
  | line id text sys =>
      by_cases h : id ∈ b.conns ∧ trim text ≠ []
      · obtain ⟨hopen, htext⟩ := h
        cases hparse : Value.parse text with
        | ok v => exact (received_line hopen htext hparse).emitted_to
        | error e =>
            have hstep : b.step (.line id text sys) =
                (b, b.sendTo id (Ubus.err (-1) ("bad json: ".toList ++ e))) := by
              rw [Bus.step, if_pos (by simp [hopen, htext]), Bus.handleLine, hparse]
            rw [record, hstep]
            exact fun d hd => Or.inl (isStatus_of_mem_sendTo (isStatus_err _ _) d hd)
      · have hnot : ¬(b.conns.contains id = true ∧ trim text ≠ []) := by simpa using h
        have hstep : b.step (.line id text sys) = (b, []) := by
          rw [Bus.step, if_neg hnot]
        simp [record, hstep]

theorem request_of_registration {r : Record} {path : Text} {id : ℕ} {methods : List Text}
    (h : r.registration = some (path, id, methods)) :
    r.sender = some id ∧ r.request = some (.add path methods) := by
  unfold Record.registration at h
  split at h
  · rename_i id' path' methods' hsender hrequest
    split at h
    · simp at h
    · obtain ⟨rfl, rfl, rfl⟩ : path' = path ∧ id' = id ∧ methods' = methods := by simpa using h
      exact ⟨hsender, hrequest⟩
  · simp at h

/-- Nothing but answers goes to a connection that only asks. -/
structure OnlyAsks (b : Bus) (log : List Record) (conn : ℕ) : Prop where
  listeners : conn ∉ b.listeners
  owners : ∀ o ∈ b.objects, o.owner ≠ conn
  answers : ∀ v ∈ framesTo log conn, isStatus v = true

theorem Passive.of_append {log : List Record} {r : Record} {conn : ℕ}
    (h : Passive (log ++ [r]) conn) : Passive log conn :=
  fun x hx => h x (by simp [hx])

theorem history_onlyAsks {conn : ℕ} (es : List Event) (h : Passive (history es).2 conn) :
    OnlyAsks (history es).1 (history es).2 conn := by
  induction es using List.reverseRecOn with
  | nil =>
      constructor
      · simp [history, Bus.default]
      · simp [history, Bus.default]
      · simp [history, framesTo]
  | append_singleton es e ih =>
      rw [history_concat] at h ⊢
      have hold := ih h.of_append
      have hpassive := h (record (history es).1 e) (by simp)
      constructor
      · cases eventEffect (history es).1 e with
        | joined id hann _ _ hlisteners _ =>
            obtain ⟨hsender, hrequest⟩ := request_of_join hann
            have hne : conn ≠ id := by
              rintro rfl
              exact (hpassive hsender).2 hrequest
            rw [hlisteners, record_before]
            split
            · exact hold.listeners
            · exact List.not_mem_cons_of_ne_of_not_mem hne hold.listeners
        | left id _ _ hlisteners _ =>
            rw [hlisteners, record_before]
            exact fun hmem => hold.listeners (List.mem_of_mem_filter hmem)
        | published _ _ _ _ hlisteners _ =>
            rw [hlisteners]
            exact hold.listeners
        | quiet _ _ hlisteners _ =>
            rw [hlisteners]
            exact hold.listeners
      · cases tableEffect (history es).1 e with
        | registered path methods id hreg _ _ _ hobjects =>
            obtain ⟨hsender, hrequest⟩ := request_of_registration hreg
            have hne : id ≠ conn := by
              rintro rfl
              exact (hpassive hsender).1 path methods hrequest
            intro o ho
            rw [hobjects, record_before, List.mem_append, List.mem_singleton] at ho
            rcases ho with ho | rfl
            · exact hold.owners o (List.mem_of_mem_filter ho)
            · exact hne
        | closed id _ _ hobjects =>
            intro o ho
            rw [hobjects] at ho
            exact hold.owners o (List.mem_of_mem_filter ho)
        | same _ _ hobjects =>
            rw [hobjects]
            exact hold.owners
      · intro v hv
        rw [framesTo_append, List.mem_append] at hv
        rcases hv with hv | hv
        · exact hold.answers v hv
        · obtain ⟨d, hd, rfl⟩ := List.mem_map.mp hv
          obtain ⟨hd, hconn⟩ := List.mem_filter.mp hd
          obtain rfl : d.conn = conn := by simpa using hconn
          rcases emitted_to (history es).1 e d (by simpa using hd) with hstatus | hl | ⟨o, ho, hown⟩
          · exact hstatus
          · exact absurd hl hold.listeners
          · exact absurd hown (hold.owners o ho)

/-- A connection that has sent one frame, and that a question, gets at most one frame. -/
theorem framesTo_of_single {es : List Event} {conn : ℕ} {r : Record}
    (honly : framesOf (history es).2 conn = [r]) (hadd : ∀ path methods,
      r.request ≠ some (.add path methods)) (hlisten : r.request ≠ some .listen) :
    framesTo (history es).2 conn = (statusTo (history es).2 conn).map Delivery.frame ∧
      (framesTo (history es).2 conn).length ≤ 1 := by
  have hpassive : Passive (history es).2 conn := by
    intro x hx hsender
    have hmem : x ∈ framesOf (history es).2 conn := List.mem_filter.mpr ⟨hx, by simp [hsender]⟩
    rw [honly, List.mem_singleton] at hmem
    rw [hmem]
    exact ⟨hadd, hlisten⟩
  have heq : framesTo (history es).2 conn = (statusTo (history es).2 conn).map Delivery.frame := by
    rw [framesTo, statusTo]
    congr 1
    apply List.filter_congr
    intro d hd
    by_cases hconn : d.conn = conn
    · have hmem : d.frame ∈ framesTo (history es).2 conn :=
        List.mem_map_of_mem (List.mem_filter.mpr ⟨hd, by simpa using hconn⟩)
      rw [(history_onlyAsks es hpassive).answers d.frame hmem, Bool.and_true]
    · simp [hconn]
  refine ⟨heq, ?_⟩
  have hcounted := (history_consistent es).1.counted conn
  rw [honly, List.length_singleton] at hcounted
  rw [heq, List.length_map]
  omega

/-- One frame, if there is any. -/
theorem framesTo_eq_singleton {es : List Event} {conn : ℕ} {v : Value}
    (hle : (framesTo (history es).2 conn).length ≤ 1) (hmem : v ∈ framesTo (history es).2 conn) :
    framesTo (history es).2 conn = [v] := by
  generalize framesTo (history es).2 conn = frames at hle hmem
  cases frames with
  | nil => cases hmem
  | cons w frames =>
      obtain rfl : frames = [] := List.length_eq_zero_iff.mp (by simpa using hle)
      rw [List.mem_singleton.mp hmem]

/-- The one frame of a connection that has asked one thing. -/
theorem framesTo_of_answer {es : List Event} {conn : ℕ} {r x : Record} {v : Value}
    (honly : framesOf (history es).2 conn = [r])
    (hadd : ∀ path methods, r.request ≠ some (.add path methods))
    (hlisten : r.request ≠ some .listen) (hx : x ∈ (history es).2)
    (hemitted : x.emitted = [⟨conn, v⟩]) : framesTo (history es).2 conn = [v] := by
  apply framesTo_eq_singleton (framesTo_of_single honly hadd hlisten).2
  refine List.mem_map.mpr ⟨⟨conn, v⟩, List.mem_filter.mpr ⟨?_, by simp⟩, rfl⟩
  exact List.mem_flatMap.mpr ⟨x, hx, by simp [hemitted]⟩

/-! ## Calling -/

/-- The data of the record, if it is a reply to this call. -/
def replyData (reqid : ℕ) (r : Record) : Option Value :=
  match r.request with
  | some (.reply n data) => if n = reqid then some data else none
  | _ => none

/-- What a call is answered with, given what happens after it; `none` as long as nobody replies. -/
def response (b : Bus) (sys : System) (path method : Text) (later : List Record) : Option Value :=
  match builtinCall sys path method with
  | some data => some (ok data)
  | none =>
      match b.provider path method with
      | none => some (err (-2) "object/method not found".toList)
      | some _ => (later.findSome? (replyData (b.nextReq + 1))).map ok

theorem replyId_of_replyData {reqid : ℕ} {r : Record} {data : Value}
    (h : replyData reqid r = some data) :
    r.request = some (.reply reqid data) ∧ r.replyId = some reqid := by
  unfold replyData at h
  split at h
  · rename_i n data' hrequest
    split at h
    · rename_i hn
      rw [hn, Option.some.inj h] at hrequest
      exact ⟨hrequest, by rw [Record.replyId, hrequest]⟩
    · cases h
  · cases h

theorem replyData_of_replyId {reqid : ℕ} {r : Record} (h : r.replyId = some reqid) :
    ∃ data, replyData reqid r = some data := by
  unfold Record.replyId at h
  split at h
  · rename_i n data hrequest
    obtain rfl := Option.some.inj h
    exact ⟨data, by rw [replyData, hrequest]; exact if_pos rfl⟩
  · cases h

/-- A call stays in flight until someone replies to it. -/
theorem inFlight_step {b : Bus} {reqid conn : ℕ} {e : Event} (hpending : (reqid, conn) ∈ b.pending)
    (hopen : conn ∈ b.conns) (hstays : e ≠ .disconnect conn)
    (hquiet : (record b e).replyId ≠ some reqid) :
    (reqid, conn) ∈ (b.step e).1.pending ∧ conn ∈ (b.step e).1.conns := by
  have heffect := step_effect b e
  generalize (b.step e).1 = after at heffect ⊢
  cases heffect with
  | connect _ _ _ ha => exact ha ▸ ⟨hpending, List.mem_cons_of_mem _ hopen⟩
  | disconnect id he _ _ ha =>
      have hne : conn ≠ id := by
        rintro rfl
        exact hstays he
      exact ha ▸ ⟨hpending, List.mem_filter.mpr ⟨hopen, by simpa using hne⟩⟩
  | ignored _ _ _ ha => exact ha ▸ ⟨hpending, hopen⟩
  | served _ _ _ _ _ _ hconns hpending' _ _ _ _ =>
      rw [hconns, hpending']
      exact ⟨hpending, hopen⟩
  | routed _ _ _ _ _ _ _ _ ha => exact ha ▸ ⟨List.mem_cons_of_mem _ hpending, hopen⟩
  | answered _ reqid' _ _ _ _ hrequest _ _ ha =>
      have hne : reqid ≠ reqid' := by
        rintro rfl
        exact hquiet (by rw [Record.replyId, hrequest])
      exact ha ▸ ⟨List.mem_filter.mpr ⟨hpending, by simpa using hne⟩, hopen⟩
  | unanswered _ _ _ _ _ _ _ ha => exact ha ▸ ⟨hpending, hopen⟩

theorem inFlight_run {reqid conn : ℕ} (es : List Event) (fs : List Event)
    (hpending : (reqid, conn) ∈ (history es).1.pending) (hopen : conn ∈ (history es).1.conns)
    (hstays : Event.disconnect conn ∉ fs) {log : List Record}
    (hlog : (history (es ++ fs)).2 = (history es).2 ++ log)
    (hquiet : ∀ r ∈ log, r.replyId ≠ some reqid) :
    (reqid, conn) ∈ (history (es ++ fs)).1.pending ∧ conn ∈ (history (es ++ fs)).1.conns := by
  induction fs using List.reverseRecOn generalizing log with
  | nil => simpa using ⟨hpending, hopen⟩
  | append_singleton fs f ih =>
      rw [← List.append_assoc, history_concat] at hlog ⊢
      obtain ⟨log', hsplit⟩ : ∃ log', (history (es ++ fs)).2 = (history es).2 ++ log' :=
        ⟨_, congrArg Prod.snd (Machine.history_append Bus.step Bus.default es fs)⟩
      have hlast : log = log' ++ [record (history (es ++ fs)).1 f] := by
        rw [hsplit, List.append_assoc] at hlog
        exact (List.append_cancel_left hlog).symm
      rw [hlast] at hquiet
      simp only [List.mem_append, List.mem_singleton, not_or] at hstays
      obtain ⟨hpending', hopen'⟩ := ih hstays.1 hsplit fun r hr => hquiet r (by simp [hr])
      exact inFlight_step hpending' hopen' (fun he => hstays.2 he.symm)
        (hquiet _ (by simp))

/-- A record of a run is that of its event in its state, and the events before it led there. -/
theorem record_of_split {es : List Event} {earlier later : List Record} {r : Record}
    (h : (history es).2 = earlier ++ r :: later) :
    ∃ es₂, es = earlier.map Machine.Entry.event ++ r.event :: es₂ ∧
      history (earlier.map Machine.Entry.event) = (r.before, earlier) ∧
      r = record r.before r.event := by
  obtain ⟨es₁, es₂, hes, hbefore⟩ := Machine.exists_of_history_eq_append Bus.step h
  have hevents := Machine.map_event_history Bus.step Bus.default es₁
  rw [hbefore] at hevents
  rw [hevents]
  refine ⟨es₂, hes, hbefore, ?_⟩
  have htrue := (Machine.history_invariant Bus.step (s := Bus.default)
    (motive := fun _ (_ : List Record) => True) (fun _ _ _ _ => trivial) trivial es).2
  rw [record, ← (htrue earlier r later h).2]

/-- The first reply to a call in flight is written to the caller. -/
theorem exists_answer {es₁ es₂ : List Event} {e : Event} {conn : ℕ} {later : List Record}
    {rt : Route} (hroute : (record (history es₁).1 e).route = some rt) (hcaller : rt.caller = conn)
    (hopen : conn ∈ (history es₁).1.conns)
    (hlog : (history (es₁ ++ e :: es₂)).2 = (history es₁).2 ++ record (history es₁).1 e :: later)
    (hstays : Event.disconnect conn ∉ es₂) {data : Value}
    (hfirst : later.findSome? (replyData rt.reqid) = some data) :
    ∃ x ∈ (history (es₁ ++ e :: es₂)).2, x.emitted = [⟨conn, ok data⟩] := by
  obtain ⟨mid, x, rest, rfl, hx, hmid⟩ := List.findSome?_eq_some_iff.mp hfirst
  obtain ⟨hrequest, -⟩ := replyId_of_replyData hx
  have hsplit : (history (es₁ ++ e :: es₂)).2 =
      ((history es₁).2 ++ record (history es₁).1 e :: mid) ++ x :: rest := by
    rw [hlog, List.append_assoc, List.cons_append]
  obtain ⟨gs, hes, hbefore, hxrecord⟩ := record_of_split hsplit
  have hevents : (history es₁).2.map Machine.Entry.event = es₁ :=
    Machine.map_event_history Bus.step Bus.default es₁
  have hevent : (record (history es₁).1 e).event = e := rfl
  rw [List.map_append, hevents, List.map_cons, hevent, List.append_cons] at hes hbefore
  -- the call is in flight from its own event on
  have hflight : (rt.reqid, conn) ∈ (history (es₁ ++ [e])).1.pending ∧
      conn ∈ (history (es₁ ++ [e])).1.conns := by
    rw [history_concat]
    have heffect := step_effect (history es₁).1 e
    generalize ((history es₁).1.step e).1 = after at heffect ⊢
    cases heffect with
    | routed rt' _ _ hroute' _ _ _ _ ha =>
        obtain rfl : rt' = rt := Option.some.inj (hroute'.symm.trans hroute)
        rw [ha, record_before]
        exact ⟨by simp [hcaller], hopen⟩
    | connect _ hf => simp [route_eq_none hf] at hroute
    | disconnect _ _ hf => simp [route_eq_none hf] at hroute
    | ignored _ hf => simp [route_eq_none hf] at hroute
    | served _ _ _ hroute' => simp [hroute'] at hroute
    | answered _ _ _ _ _ hroute' => simp [hroute'] at hroute
    | unanswered _ _ _ hroute' => simp [hroute'] at hroute
  have hstays' : Event.disconnect conn ∉ mid.map Machine.Entry.event := by
    intro hmem
    have htail : es₂ = mid.map Machine.Entry.event ++ x.event :: gs := by
      simpa using hes
    exact hstays (by rw [htail]; exact List.mem_append_left _ hmem)
  have hquiet : ∀ r ∈ mid, r.replyId ≠ some rt.reqid := by
    intro r hr hreply
    obtain ⟨data', hdata⟩ := replyData_of_replyId hreply
    rw [hmid r hr] at hdata
    cases hdata
  have hlog : (history (es₁ ++ [e] ++ mid.map Machine.Entry.event)).2 =
      (history (es₁ ++ [e])).2 ++ mid := by
    rw [hbefore, history_concat]
    simp
  obtain ⟨hpending, hconn⟩ := inFlight_run (es₁ ++ [e]) (mid.map Machine.Entry.event) hflight.1
    hflight.2 hstays' hlog hquiet
  rw [hbefore] at hpending hconn
  refine ⟨x, by simp [hsplit], ?_⟩
  have hconsistent := (history_consistent (es₁ ++ [e] ++ mid.map Machine.Entry.event)).1
  rw [hbefore] at hconsistent
  rw [hxrecord]
  exact hconsistent.reply_emitted (hxrecord ▸ hrequest) hpending hconn

/-- A call that nobody replies to is not answered. -/
theorem answersTo_eq_nil_of_unanswered {es₁ es₂ : List Event} {e : Event} {later : List Record}
    {rt : Route} (hroute : (record (history es₁).1 e).route = some rt)
    (hreqid : rt.reqid = (history es₁).1.nextReq + 1)
    (hlog : (history (es₁ ++ e :: es₂)).2 = (history es₁).2 ++ record (history es₁).1 e :: later)
    (hnone : later.findSome? (replyData rt.reqid) = none) :
    answersTo (history (es₁ ++ e :: es₂)).2 rt.reqid = [] := by
  rw [List.findSome?_eq_none_iff] at hnone
  rw [answersTo, List.flatMap_eq_nil_iff]
  intro x hx
  obtain ⟨hx, hreply⟩ := List.mem_filter.mp hx
  have hreply : Record.replyId x = some rt.reqid := by simpa using hreply
  rw [hlog, List.mem_append, List.mem_cons] at hx
  rcases hx with hx | rfl | hx
  · -- before the call there was no call of this number
    obtain ⟨a, b, hab⟩ := List.append_of_mem hx
    have hsplit : (history (es₁ ++ e :: es₂)).2 =
        a ++ x :: (b ++ record (history es₁).1 e :: later) := by
      rw [hlog, hab, List.append_assoc, List.cons_append]
    refine reply_silent hsplit hreply (Or.inl ?_)
    rintro ⟨y, hy, hrouted⟩
    have hnew : (history es₁).1.nextReq < rt.reqid := by omega
    exact (history_consistent es₁).1.not_routed hnew ⟨y, by simp [hab, hy], hrouted⟩
  · cases step_effect (history es₁).1 e with
    | routed _ _ _ _ hreply' => simp [hreply'] at hreply
    | connect _ hf => simp [route_eq_none hf] at hroute
    | disconnect _ _ hf => simp [route_eq_none hf] at hroute
    | ignored _ hf => simp [route_eq_none hf] at hroute
    | served _ _ _ hroute' => simp [hroute'] at hroute
    | answered _ _ _ _ _ hroute' => simp [hroute'] at hroute
    | unanswered _ _ _ hroute' => simp [hroute'] at hroute
  · obtain ⟨data, hdata⟩ := replyData_of_replyId hreply
    rw [hnone x hx] at hdata
    cases hdata

/-- The one frame of a connection that has made one call. -/
theorem framesTo_of_call {es₁ es₂ : List Event} {e : Event} {conn : ℕ} {sys : System}
    {path method : Text} {args : Value} {later : List Record}
    (hcall : Received (record (history es₁).1 e) sys conn (.call path method args))
    (hlog : (history (es₁ ++ e :: es₂)).2 = (history es₁).2 ++ record (history es₁).1 e :: later)
    (honly : framesOf (history (es₁ ++ e :: es₂)).2 conn = [record (history es₁).1 e])
    (hstays : Event.disconnect conn ∉ es₂) :
    framesTo (history (es₁ ++ e :: es₂)).2 conn =
      (response (history es₁).1 sys path method later).toList := by
  have hadd : ∀ path methods, (record (history es₁).1 e).request ≠ some (.add path methods) := by
    simp [hcall.request]
  have hlisten : (record (history es₁).1 e).request ≠ some .listen := by
    simp [hcall.request]
  have hrecord : record (history es₁).1 e ∈ (history (es₁ ++ e :: es₂)).2 := by
    rw [hlog]
    simp
  have hemitted := hcall.emitted
  have hopen := hcall.opened
  rw [record_before] at hemitted hopen
  unfold response
  cases hbuiltin : builtinCall sys path method with
  | some data =>
      simp only [Bus.handleRequest, hbuiltin, sendTo_open hopen] at hemitted
      exact framesTo_of_answer honly hadd hlisten hrecord hemitted
  | none =>
      cases howner : (history es₁).1.provider path method with
      | none =>
          simp only [Bus.handleRequest, hbuiltin, howner, sendTo_open hopen] at hemitted
          exact framesTo_of_answer honly hadd hlisten hrecord hemitted
      | some owner =>
          simp only
          have hroute := hcall.route_call hbuiltin
          rw [record_before, howner, Option.map_some] at hroute
          cases hfirst : later.findSome? (replyData ((history es₁).1.nextReq + 1)) with
          | some data =>
              obtain ⟨x, hx, hanswer⟩ := exists_answer hroute rfl hopen hlog hstays hfirst
              exact framesTo_of_answer honly hadd hlisten hx hanswer
          | none =>
              have hnil := answersTo_eq_nil_of_unanswered hroute rfl hlog hfirst
              rw [(framesTo_of_single honly hadd hlisten).1, Option.map_none, Option.toList_none, List.map_eq_nil_iff,
                List.eq_nil_iff_forall_not_mem]
              intro d hd
              obtain ⟨x, hx, hresponse⟩ := mem_statusTo hd
              rw [honly, List.mem_singleton] at hx
              subst hx
              simp only [Bus.handleRequest, hbuiltin, howner] at hemitted
              have hsilent : (record (history es₁).1 e).emitted.filter
                  (fun d => isStatus d.frame) = [] := by
                rw [hemitted, List.filter_eq_nil_iff]
                intro d hd
                simp [(mem_sendTo hd).1]
              rw [responses, hsilent, hroute] at hresponse
              simp only [List.nil_append] at hresponse
              rw [hnil] at hresponse
              cases hresponse

/-! ## Requests as they arrive -/

theorem textField_finite (v : Value) (key : String) : textField v.finite key = textField v key := by
  have hstr : (fun w : Value => w.finite.asStr) = Value.asStr := funext asStr_finite
  rw [textField, textField, get_finite, Option.bind_map]
  exact congrArg (fun f => ((v.get key.toList).bind f).getD []) hstr

theorem ofValue_callRequest (path method : Text) (args : Value) :
    Request.ofValue (callRequest path method args).finite = .call path method args.finite := by
  have hop : textField (callRequest path method args) "op" = "call".toList := rfl
  have hpath : textField (callRequest path method args) "path" = path := by
    simp [textField, callRequest, obj, Value.get, Value.asStr]
  have hmethod : textField (callRequest path method args) "method" = method := by
    simp [textField, callRequest, obj, Value.get, Value.asStr]
  have hargs : (callRequest path method args).get "args".toList = some args := by
    simp [callRequest, obj, Value.get]
  simp only [Request.ofValue, textField_finite, hop, hpath, hmethod, get_finite, hargs,
    Option.map_some, Option.getD_some]
  rw [if_neg (by decide), if_pos trivial]

theorem ofValue_listRequest : Request.ofValue listRequest.finite = .list := rfl

/-- A serialized request on an open connection. -/
theorem received_write {es : List Event} {conn : ℕ} (hopen : conn ∈ (history es).1.conns)
    (v : Value) (sys : System) :
    Received (record (history es).1 (.line conn v.write sys)) sys conn (.ofValue v.finite) := by
  refine received_line hopen ?_ (Value.parse_write_value v)
  rw [trim_write_value]
  exact write_value_ne_nil v

/-- What `ubus call` prints of a response. -/
def printedAnswer (v : Value) : Printed :=
  match v.get "data".toList with
  | some data => ⟨0, data.write ++ ['\n'], []⟩
  | none => failed (((v.get "error".toList).bind Value.asStr).getD "call failed".toList)

theorem printedAnswer_finite (v : Value) : printedAnswer v.finite = printedAnswer v := by
  have hstr : (fun w : Value => w.finite.asStr) = Value.asStr := funext asStr_finite
  rw [printedAnswer, printedAnswer, get_finite, get_finite, Option.bind_map]
  cases v.get "data".toList with
  | some data => rw [Option.map_some]; simp only [write_finite]
  | none => exact congrArg (fun f => failed (((v.get "error".toList).bind f).getD _)) hstr

/-- `ubus call` prints what the built-in returns, or the data of the first reply to its call, or
that there is no such method; and it waits as long as nobody replies. -/
theorem call_prints (es₁ es₂ : List Event) {conn : ℕ} (sys : System) (path method : Text)
    {argsJson : Option Text} {args : Value}
    (hargs : jsonArgument (.object []) "args" argsJson = .ok args)
    (hopen : conn ∈ (history es₁).1.conns)
    (honly : framesOf
      (history (es₁ ++ .line conn (callRequest path method args).write sys :: es₂)).2 conn =
        [record (history es₁).1 (.line conn (callRequest path method args).write sys)])
    (hstays : Event.disconnect conn ∉ es₂) :
    ∃ later,
      (history (es₁ ++ .line conn (callRequest path method args).write sys :: es₂)).2 =
        (history es₁).2 ++
          record (history es₁).1 (.line conn (callRequest path method args).write sys) :: later ∧
      (response (history es₁).1 sys path method later = none → streamTo
        (history (es₁ ++ .line conn (callRequest path method args).write sys :: es₂)).2 conn = []) ∧
      ∀ v, response (history es₁).1 sys path method later = some v →
        cliCall (fun _ => readResponse (streamTo
          (history (es₁ ++ .line conn (callRequest path method args).write sys :: es₂)).2 conn))
          path method argsJson = printedAnswer v := by
  obtain ⟨later, hlog, -⟩ :=
    history_middle es₁ (.line conn (callRequest path method args).write sys) es₂
  refine ⟨later, hlog, ?_⟩
  have hcall := received_write hopen (callRequest path method args) sys
  rw [ofValue_callRequest] at hcall
  have hframes := framesTo_of_call hcall hlog honly hstays
  constructor
  · intro hnone
    rw [streamTo, hframes, hnone]
    rfl
  · intro v hv
    rw [cliCall, hargs]
    have hstream : readResponse (streamTo
        (history (es₁ ++ .line conn (callRequest path method args).write sys :: es₂)).2 conn) =
          .ok v.finite := by
      rw [streamTo, hframes, hv]
      exact readResponse_frames v []
    simp only [hstream]
    exact printedAnswer_finite v

/-- A connection that sends one line. -/
theorem framesOf_eq_singleton {es₁ es₂ : List Event} {e : Event} {conn : ℕ}
    (hsender : (record (history es₁).1 e).sender = some conn)
    (hcount : (framesOf (history (es₁ ++ e :: es₂)).2 conn).length = 1) :
    framesOf (history (es₁ ++ e :: es₂)).2 conn = [record (history es₁).1 e] := by
  obtain ⟨r, hr⟩ := List.length_eq_one_iff.mp hcount
  obtain ⟨later, hlog, -⟩ := history_middle es₁ e es₂
  have hmem : record (history es₁).1 e ∈ framesOf (history (es₁ ++ e :: es₂)).2 conn :=
    List.mem_filter.mpr ⟨by rw [hlog]; simp, by simpa using hsender⟩
  rw [hr, List.mem_singleton] at hmem
  rw [hr, hmem]

def sampleCall : Event :=
  .line 2 (callRequest "p".toList "m".toList (.object [])).write sampleSystem

/-- The provider replies. -/
def replying : List Event :=
  [.line 1 "\x7b\"op\":\"reply\",\"id\":1,\"data\":true\x7d".toList sampleSystem]

/-- The reply is printed. -/
theorem call_prints_replying :
    ∃ later,
      (history (secondClient ++ sampleCall :: replying)).2 =
        (history secondClient).2 ++ record (history secondClient).1 sampleCall :: later ∧
      (response (history secondClient).1 sampleSystem "p".toList "m".toList later = none →
        streamTo (history (secondClient ++ sampleCall :: replying)).2 2 = []) ∧
      ∀ v, response (history secondClient).1 sampleSystem "p".toList "m".toList later = some v →
        cliCall (fun _ => readResponse (streamTo
          (history (secondClient ++ sampleCall :: replying)).2 2))
          "p".toList "m".toList none = printedAnswer v := by
  apply call_prints secondClient replying sampleSystem "p".toList "m".toList rfl
    mem_conns_secondClient
  · apply framesOf_eq_singleton (received_write mem_conns_secondClient _ _).sender
    decide +kernel
  · simp [replying]

end Lwrt.Ubus
