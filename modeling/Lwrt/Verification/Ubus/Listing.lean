import Mathlib.Data.List.Nodup
import Lwrt.Library.WriteLog
import Lwrt.Verification.Json.Lines
import Lwrt.Verification.Ubus.History

/-! # Listing and calling

The table of objects holds the latest registration of each path, so what a listing shows is
what can be called. -/

namespace Lwrt.Ubus

open Library Text Json WriteLog

/-! ## Registrations -/

/-- The registration a frame makes: the path, with the connection and the methods. -/
def Record.registration (r : Record) : Option (Text × ℕ × List Text) :=
  match r.sender, r.request with
  | some id, some (.add path methods) => if path = [] then none else some (path, id, methods)
  | _, _ => none

/-- The registrations of a run. -/
def registrations (log : List Record) : WriteLog Text (ℕ × List Text) :=
  log.filterMap Record.registration

theorem registrations_append (log : List Record) (r : Record) :
    registrations (log ++ [r]) = registrations log ++ r.registration.toList := by
  rw [registrations, List.filterMap_append, registrations]
  cases h : r.registration <;> simp [h]

/-- What an event does to the objects and the connections. -/
inductive TableEffect (r : Record) (after : Bus) : Prop
  | registered (path : Text) (methods : List Text) (id : ℕ)
      (hreg : r.registration = some (path, id, methods)) (hpath : path ≠ [])
      (hopen : id ∈ r.before.conns) (hconns : after.conns = r.before.conns)
      (hobjects : after.objects =
        r.before.objects.filter (fun o => o.path ≠ path) ++ [⟨path, methods, id⟩])
  | closed (id : ℕ) (hreg : r.registration = none)
      (hconns : after.conns = r.before.conns.filter (· ≠ id))
      (hobjects : after.objects = r.before.objects.filter fun o => o.owner ≠ id)
  | same (hreg : r.registration = none) (hconns : r.before.conns ⊆ after.conns)
      (hobjects : after.objects = r.before.objects)

theorem Received.registration_eq_none {r : Record} {sys : System} {id : ℕ} {req : Request}
    (h : Received r sys id req) (hreq : ∀ path methods, req ≠ .add path methods) :
    r.registration = none := by
  rw [Record.registration, h.sender, h.request]
  split
  · rename_i path methods _ he
    exact absurd (Option.some.inj he) (hreq path methods)
  · rfl

/-- One case for each request. -/
theorem Received.tableEffect {r : Record} {sys : System} {id : ℕ} {req : Request}
    (h : Received r sys id req) : TableEffect r (r.before.handleRequest sys id req).1 := by
  cases req with
  | add path methods =>
      have hreg : r.registration = if path = [] then none else some (path, id, methods) := by
        rw [Record.registration, h.sender, h.request]
      rw [Bus.handleRequest]
      by_cases hpath : path = []
      · rw [if_pos hpath] at hreg ⊢
        exact .same hreg (fun _ hc => hc) rfl
      · rw [if_neg hpath] at hreg ⊢
        exact .registered path methods id hreg hpath h.opened rfl rfl
  | call path method args =>
      have hreg := h.registration_eq_none (by simp)
      rw [Bus.handleRequest]
      split
      · exact .same hreg (fun _ hc => hc) rfl
      · split
        · exact .same hreg (fun _ hc => hc) rfl
        · exact .same hreg (fun _ hc => hc) rfl
  | reply reqid data =>
      have hreg := h.registration_eq_none (by simp)
      rw [Bus.handleRequest]
      split
      · exact .same hreg (fun _ hc => hc) rfl
      · exact .same hreg (fun _ hc => hc) rfl
  | list => exact .same (h.registration_eq_none (by simp)) (fun _ hc => hc) rfl
  | send name data => exact .same (h.registration_eq_none (by simp)) (fun _ hc => hc) rfl
  | listen => exact .same (h.registration_eq_none (by simp)) (fun _ hc => hc) rfl
  | unknown => exact .same (h.registration_eq_none (by simp)) (fun _ hc => hc) rfl

theorem registration_of_no_frame {r : Record} (h : r.frame = none) : r.registration = none := by
  rw [Record.registration, request_eq_none h]
  split
  · rename_i he
    exact absurd he (by simp)
  · rfl

theorem tableEffect (b : Bus) (e : Event) : TableEffect (record b e) (b.step e).1 := by
  cases e with
  | connect => exact .same rfl (List.subset_cons_self _ _) rfl
  | disconnect id => exact .closed id rfl rfl rfl
  | line id text sys =>
      by_cases h : id ∈ b.conns ∧ trim text ≠ []
      · obtain ⟨hopen, htext⟩ := h
        cases hparse : Value.parse text with
        | ok v =>
            rw [step_line sys hopen htext hparse]
            exact (received_line hopen htext hparse).tableEffect
        | error err =>
            have hreg : (record b (.line id text sys)).registration = none := by
              rw [Record.registration, request_bad sys hopen htext hparse]
              split
              · rename_i he
                exact absurd he (by simp)
              · rfl
            rw [Bus.step, if_pos (by simp [hopen, htext]), Bus.handleLine, hparse]
            exact .same hreg (fun _ hc => hc) rfl
      · have hnot : ¬(b.conns.contains id = true ∧ trim text ≠ []) := by simpa using h
        rw [Bus.step, if_neg hnot]
        exact .same (registration_of_no_frame (if_neg hnot)) (fun _ hc => hc) rfl

/-! ## The table of objects -/

/-- Each object is the latest registration of its path, by a connection that is open. -/
structure Registered (b : Bus) (log : List Record) : Prop where
  distinct : (b.objects.map Object.path).Nodup
  named : ∀ o ∈ b.objects, o.path ≠ []
  latest : ∀ o ∈ b.objects, final (registrations log) o.path = some (o.owner, o.methods)
  opened : ∀ o ∈ b.objects, o.owner ∈ b.conns

theorem registrations_of_none {r : Record} (h : r.registration = none) (log : List Record) :
    registrations (log ++ [r]) = registrations log := by
  rw [registrations_append, h]
  exact List.append_nil _

/-- Objects only go, and no path is registered. -/
theorem Registered.restrict {b after : Bus} {log log' : List Record} (h : Registered b log)
    (hsub : after.objects.Sublist b.objects) (hlog : registrations log' = registrations log)
    (hopened : ∀ o ∈ after.objects, o.owner ∈ after.conns) : Registered after log' where
  distinct := h.distinct.sublist (hsub.map Object.path)
  named := fun o ho => h.named o (hsub.subset ho)
  latest := fun o ho => (congrArg (final · o.path) hlog).trans (h.latest o (hsub.subset ho))
  opened := hopened

/-- An object takes the place of the one with its path. -/
theorem Registered.register {b after : Bus} {log log' : List Record} (h : Registered b log)
    (new : Object) (hpath : new.path ≠ []) (hopen : new.owner ∈ b.conns)
    (hconns : after.conns = b.conns)
    (hobjects : after.objects = b.objects.filter (fun o => o.path ≠ new.path) ++ [new])
    (hlog : registrations log' = registrations log ++ [(new.path, new.owner, new.methods)]) :
    Registered after log' := by
  have hcases : ∀ o ∈ after.objects, (o ∈ b.objects ∧ o.path ≠ new.path) ∨ o = new := by
    intro o ho
    rw [hobjects, List.mem_append, List.mem_singleton] at ho
    exact ho.imp_left fun hold => by simpa using List.mem_filter.mp hold
  constructor
  · rw [hobjects, List.map_append]
    refine List.nodup_append.mpr
      ⟨h.distinct.sublist (List.filter_sublist.map Object.path), by simp, ?_⟩
    intro p hp q hq
    obtain ⟨o, ho, rfl⟩ := List.mem_map.mp hp
    rw [List.mem_singleton.mp hq]
    simpa using (List.mem_filter.mp ho).2
  · intro o ho
    cases hcases o ho with
    | inl hold => exact h.named o hold.1
    | inr hnew => exact hnew ▸ hpath
  · intro o ho
    rw [hlog, final_concat]
    cases hcases o ho with
    | inl hold =>
        rw [if_neg (Ne.symm hold.2)]
        exact h.latest o hold.1
    | inr hnew => rw [hnew, if_pos rfl]
  · intro o ho
    rw [hconns]
    cases hcases o ho with
    | inl hold => exact h.opened o hold.1
    | inr hnew => exact hnew ▸ hopen

theorem Registered.step {b : Bus} {log : List Record} (h : Registered b log) (e : Event) :
    Registered (b.step e).1 (log ++ [record b e]) := by
  have heffect := tableEffect b e
  generalize (b.step e).1 = after at heffect ⊢
  cases heffect with
  | registered path methods id hreg hpath hopen hconns hobjects =>
      refine h.register ⟨path, methods, id⟩ hpath hopen hconns hobjects ?_
      rw [registrations_append, hreg]
      rfl
  | closed id hreg hconns hobjects =>
      refine h.restrict (hobjects ▸ List.filter_sublist) (registrations_of_none hreg log) ?_
      intro o ho
      rw [hobjects] at ho
      obtain ⟨ho, howner⟩ := List.mem_filter.mp ho
      rw [hconns]
      exact List.mem_filter.mpr ⟨h.opened o ho, howner⟩
  | same hreg hconns hobjects =>
      refine h.restrict (hobjects ▸ List.Sublist.refl _) (registrations_of_none hreg log) ?_
      intro o ho
      rw [hobjects] at ho
      exact hconns (h.opened o ho)

theorem history_registered (es : List Event) : Registered (history es).1 (history es).2 := by
  have hstart : Registered Bus.default [] :=
    ⟨List.nodup_nil, by simp [Bus.default], by simp [Bus.default], by simp [Bus.default]⟩
  exact (Machine.history_invariant Bus.step (motive := Registered)
    (fun _ _ e h => h.step e) hstart es).1

/-! ## The two frames -/

/-- A frame that lists a method of a path. -/
def ShowsMethod (frame : Value) (path method : Text) : Prop :=
  ∃ objects, (frame.get "objects".toList).bind Value.asArray = some objects ∧
    ∃ o ∈ objects, (o.get "path".toList).bind Value.asStr = some path ∧
      ∃ methods, (o.get "methods".toList).bind Value.asArray = some methods ∧
        .str method ∈ methods

theorem listing_get (path : Text) (methods : List Text) :
    ((listing path methods).get "path".toList).bind Value.asStr = some path ∧
      ((listing path methods).get "methods".toList).bind Value.asArray =
        some (methods.map .str) := by
  simp [listing, obj, Value.get, Value.asStr, Value.asArray]

theorem showsMethod_listObjects_iff (b : Bus) (path method : Text) :
    ShowsMethod b.listObjects path method ↔
      (∃ o ∈ builtins, o.1 = path ∧ method ∈ o.2) ∨
        ∃ o ∈ b.objects, o.path = path ∧ method ∈ o.methods := by
  have hobjects : (b.listObjects.get "objects".toList).bind Value.asArray =
      some (builtins.map (fun o => listing o.1 o.2) ++
        b.objects.map fun o => listing o.path o.methods) := by
    simp [Bus.listObjects, obj, Value.get, Value.asArray]
  have hlisting : ∀ p ms, ((listing p ms).get "path".toList).bind Value.asStr = some path →
      (∃ methods, ((listing p ms).get "methods".toList).bind Value.asArray = some methods ∧
        .str method ∈ methods) → p = path ∧ method ∈ ms := by
    rintro p ms hp ⟨methods, hms, hmem⟩
    rw [(listing_get p ms).1] at hp
    rw [(listing_get p ms).2] at hms
    rw [← Option.some.inj hms] at hmem
    exact ⟨Option.some.inj hp, by simpa using hmem⟩
  constructor
  · rintro ⟨objects, hget, o, ho, hpath, hmethods⟩
    rw [hobjects] at hget
    rw [← Option.some.inj hget] at ho
    rcases List.mem_append.mp ho with ho | ho
    · obtain ⟨x, hx, rfl⟩ := List.mem_map.mp ho
      exact Or.inl ⟨x, hx, hlisting _ _ hpath hmethods⟩
    · obtain ⟨x, hx, rfl⟩ := List.mem_map.mp ho
      exact Or.inr ⟨x, hx, hlisting _ _ hpath hmethods⟩
  · rintro (⟨o, ho, rfl, hmem⟩ | ⟨o, ho, rfl, hmem⟩)
    · exact ⟨_, hobjects, _, List.mem_append_left _ (List.mem_map_of_mem ho), (listing_get _ _).1,
        _, (listing_get _ _).2, List.mem_map_of_mem hmem⟩
    · exact ⟨_, hobjects, _, List.mem_append_right _ (List.mem_map_of_mem ho),
        (listing_get o.path o.methods).1, _, (listing_get o.path o.methods).2,
        List.mem_map_of_mem hmem⟩

theorem exists_builtin_iff (sys : System) (path method : Text) :
    (∃ o ∈ builtins, o.1 = path ∧ method ∈ o.2) ↔ (builtinCall sys path method).isSome := by
  rw [builtins, builtinCall]
  simp only [exists_eq_left, List.mem_cons, List.not_mem_nil, or_false]
  split_ifs with hboard hinfo
  · exact iff_of_true ⟨hboard.1.symm, Or.inl hboard.2⟩ rfl
  · exact iff_of_true ⟨hinfo.1.symm, Or.inr hinfo.2⟩ rfl
  · refine iff_of_false ?_ Bool.false_ne_true
    rintro ⟨hpath, hmethod | hmethod⟩
    · exact hboard ⟨hpath.symm, hmethod⟩
    · exact hinfo ⟨hpath.symm, hmethod⟩

theorem exists_object_iff (b : Bus) (path method : Text) :
    (∃ o ∈ b.objects, o.path = path ∧ method ∈ o.methods) ↔ (b.provider path method).isSome := by
  rw [Bus.provider, Option.isSome_map, List.find?_isSome]
  simp

/-- The answer to a call that found nothing. -/
def NotFound (r : Record) : Prop :=
  ∃ id, r.emitted = [⟨id, err (-2) "object/method not found".toList⟩]

/-- A call is answered by a built-in, or handed to the connection that made the latest
registration of the path, which is open. -/
def Served (log : List Record) (r : Record) (path method : Text) (args : Value) : Prop :=
  (∃ id sys data, r.sender = some id ∧ builtinCall sys path method = some data ∧
      r.emitted = [⟨id, ok data⟩]) ∨
    ∃ owner methods reqid, final (registrations log) path = some (owner, methods) ∧
      method ∈ methods ∧ owner ∈ r.before.conns ∧
      r.emitted = [⟨owner, invoke reqid method args⟩]

/-- A request comes from an open connection. -/
theorem exists_received {b : Bus} {e : Event} {req : Request}
    (h : (record b e).request = some req) : ∃ sys id, Received (record b e) sys id req := by
  obtain ⟨⟨id, text, sys⟩, hframe, hparse⟩ := Option.bind_eq_some_iff.mp h
  cases e with
  | connect => simp [record, Record.frame] at hframe
  | disconnect conn => simp [record, Record.frame] at hframe
  | line conn line sys' =>
      have hopen : b.conns.contains conn ∧ trim line ≠ [] := by
        by_contra hnot
        have hnone : (record b (.line conn line sys')).frame = none := if_neg hnot
        rw [hnone] at hframe
        exact absurd hframe (by simp)
      have hconn : conn ∈ b.conns := by simpa using hopen.1
      rw [frame_line sys' hconn hopen.2] at hframe
      obtain ⟨rfl, rfl, rfl⟩ : conn = id ∧ line = text ∧ sys' = sys := by simpa using hframe
      cases hvalue : Value.parse line with
      | error err => simp [hvalue, Except.toOption] at hparse
      | ok v =>
          obtain rfl : Request.ofValue v = req := by simpa [hvalue, Except.toOption] using hparse
          exact ⟨sys', conn, received_line hconn hopen.2 hvalue⟩

theorem invoke_ne_notFound (owner id reqid : ℕ) (method : Text) (args : Value) :
    ([⟨owner, invoke reqid method args⟩] : List Delivery) ≠
      [⟨id, err (-2) "object/method not found".toList⟩] := by
  intro h
  have hstatus := congrArg (fun ds => ds.map fun d : Delivery => isStatus d.frame) h
  simp at hstatus

theorem ok_ne_notFound (caller id : ℕ) (data : Value) :
    ([⟨caller, ok data⟩] : List Delivery) ≠
      [⟨id, err (-2) "object/method not found".toList⟩] := by
  intro h
  have hframe := congrArg (fun ds => ds.map fun d : Delivery => d.frame.get "error".toList) h
  simp [ok, err, obj, Value.get] at hframe

section Call

variable {b : Bus} {log : List Record} {e : Event} {path method : Text} {args : Value}

/-- A call is served if there is a built-in or an object for it, and not found otherwise. -/
theorem Registered.call_cases (h : Registered b log)
    (hcall : (record b e).request = some (.call path method args)) :
    ((∃ o ∈ builtins, o.1 = path ∧ method ∈ o.2) ∨
        (∃ o ∈ b.objects, o.path = path ∧ method ∈ o.methods)) ∧
        Served log (record b e) path method args ∧ ¬NotFound (record b e) ∨
      ¬((∃ o ∈ builtins, o.1 = path ∧ method ∈ o.2) ∨
          (∃ o ∈ b.objects, o.path = path ∧ method ∈ o.methods)) ∧
        ¬Served log (record b e) path method args ∧ NotFound (record b e) := by
  obtain ⟨sys, id, hreceived⟩ := exists_received hcall
  have hemitted := hreceived.emitted
  have hopen := hreceived.opened
  rw [record_before] at hemitted hopen
  cases hbuiltin : builtinCall sys path method with
  | some data =>
      simp only [Bus.handleRequest, hbuiltin, sendTo_open hopen] at hemitted
      refine Or.inl ⟨Or.inl ((exists_builtin_iff sys path method).mpr (by simp [hbuiltin])),
        Or.inl ⟨id, sys, data, hreceived.sender, hbuiltin, hemitted⟩, ?_⟩
      rintro ⟨id', hnot⟩
      exact ok_ne_notFound id id' data (hemitted.symm.trans hnot)
  | none =>
      have hnobuiltin : ¬∃ o ∈ builtins, o.1 = path ∧ method ∈ o.2 := by
        rw [exists_builtin_iff sys, hbuiltin]
        simp
      cases hprovider : b.provider path method with
      | some owner =>
          obtain ⟨o, hfind, rfl⟩ := Option.map_eq_some_iff.mp hprovider
          have ho := List.mem_of_find?_eq_some hfind
          obtain ⟨hpath, hmethod⟩ : o.path = path ∧ method ∈ o.methods := by
            simpa using List.find?_some hfind
          simp only [Bus.handleRequest, hbuiltin, hprovider, sendTo_open (h.opened o ho)]
            at hemitted
          have hlatest := h.latest o ho
          rw [hpath] at hlatest
          refine Or.inl ⟨Or.inr ⟨o, ho, hpath, hmethod⟩,
            Or.inr ⟨o.owner, o.methods, _, hlatest, hmethod, h.opened o ho, hemitted⟩, ?_⟩
          rintro ⟨id', hnot⟩
          exact invoke_ne_notFound _ id' _ method args (hemitted.symm.trans hnot)
      | none =>
          have hnoobject : ¬∃ o ∈ b.objects, o.path = path ∧ method ∈ o.methods := by
            rw [exists_object_iff, hprovider]
            simp
          simp only [Bus.handleRequest, hbuiltin, hprovider, sendTo_open hopen] at hemitted
          refine Or.inr ⟨not_or.mpr ⟨hnobuiltin, hnoobject⟩, ?_, id, hemitted⟩
          rintro (⟨id', sys', data, -, -, hsent⟩ | ⟨owner, methods, reqid, -, -, -, hsent⟩)
          · exact ok_ne_notFound id' id data (hsent.symm.trans hemitted)
          · exact invoke_ne_notFound owner id reqid method args (hsent.symm.trans hemitted)

end Call

/-- The answer to a list frame shows a method of a path. -/
def Lists (r : Record) (path method : Text) : Prop :=
  ∃ d ∈ r.emitted, ShowsMethod d.frame path method

theorem lists_iff {b : Bus} {e : Event} (h : (record b e).request = some .list)
    (path method : Text) :
    Lists (record b e) path method ↔
      (∃ o ∈ builtins, o.1 = path ∧ method ∈ o.2) ∨
        ∃ o ∈ b.objects, o.path = path ∧ method ∈ o.methods := by
  obtain ⟨sys, id, hreceived⟩ := exists_received h
  have hemitted := hreceived.emitted
  simp only [Bus.handleRequest, sendTo_open hreceived.opened] at hemitted
  rw [Lists, hemitted, ← showsMethod_listObjects_iff]
  simp

/-- In every state of a run the paths of the objects are distinct and not empty, and a listing
shows a method exactly if a call of it is not refused, that is, if it is served. -/
theorem listed_iff_served (es : List Event) {listing calling : Event} {path method : Text}
    {args : Value} (hlist : (record (history es).1 listing).request = some .list)
    (hcall : (record (history es).1 calling).request = some (.call path method args)) :
    ((history es).1.objects.map Object.path).Nodup ∧
      (∀ o ∈ (history es).1.objects, o.path ≠ []) ∧
      (Lists (record (history es).1 listing) path method ↔
        ¬NotFound (record (history es).1 calling)) ∧
      (Lists (record (history es).1 listing) path method ↔
        Served (history es).2 (record (history es).1 calling) path method args) := by
  have hregistered := history_registered es
  rw [lists_iff hlist]
  refine ⟨hregistered.distinct, hregistered.named, ?_⟩
  rcases hregistered.call_cases hcall with ⟨hlisted, hserved, hfound⟩ | ⟨hlisted, hserved, hfound⟩
  · exact ⟨iff_of_true hlisted hfound, iff_of_true hlisted hserved⟩
  · exact ⟨iff_of_false hlisted fun hnot => hnot hfound, iff_of_false hlisted hserved⟩

def sampleSystem : System :=
  ⟨[], none, none, none, 0⟩

/-- A connection registers an object. -/
def registering : List Event :=
  [.connect, .line 1 "\x7b\"op\":\"add\",\"path\":\"p\",\"methods\":[\"m\"]\x7d".toList
    sampleSystem]

/-- A frame whose fields are all texts. -/
def textFrame (fields : List (String × String)) : Value :=
  obj (fields.map fun field => (field.1, s field.2))

theorem integral_textFrame (fields : List (String × String)) : (textFrame fields).Integral := by
  refine .object ?_
  intro pair hpair
  simp only [List.map_map, List.mem_map, Function.comp_apply] at hpair
  obtain ⟨field, -, rfl⟩ := hpair
  exact .str field.2.toList

theorem request_registering (fields : List (String × String)) :
    (record (history registering).1 (.line 1 (textFrame fields).write sampleSystem)).request =
      some (.ofValue (textFrame fields)) := by
  have hopen : 1 ∈ (history registering).1.conns := by decide +kernel
  have hframe := integral_textFrame fields
  refine request_line sampleSystem hopen ?_ (Value.parse_write hframe)
  rw [trim_write hframe]
  exact write_ne_nil hframe

def listFrame : Value :=
  textFrame [("op", "list")]

def callFrame : Value :=
  textFrame [("op", "call"), ("path", "p"), ("method", "m")]

/-- The object is listed and called. -/
theorem listed_iff_served_registering :
    ((history registering).1.objects.map Object.path).Nodup ∧
      (∀ o ∈ (history registering).1.objects, o.path ≠ []) ∧
      (Lists (record (history registering).1 (.line 1 listFrame.write sampleSystem))
          "p".toList "m".toList ↔
        ¬NotFound (record (history registering).1 (.line 1 callFrame.write sampleSystem))) ∧
      (Lists (record (history registering).1 (.line 1 listFrame.write sampleSystem))
          "p".toList "m".toList ↔
        Served (history registering).2
          (record (history registering).1 (.line 1 callFrame.write sampleSystem)) "p".toList
          "m".toList (.object [])) := by
  apply listed_iff_served registering
  · exact request_registering [("op", "list")]
  · exact request_registering [("op", "call"), ("path", "p"), ("method", "m")]

end Lwrt.Ubus
