import Lwrt.Verification.Ubus.Client

/-! # The live registrations

The table of objects is the latest registration of each path whose connection is still open, no
more and no less, and `ubus list` prints it. -/

namespace Lwrt.Ubus

open Library Text Json WriteLog

/-! ## No live registration is lost -/

/-- Numbers of connections are not used twice, so a registration of a connection that is open was
made on it. -/
structure Kept (b : Bus) (log : List Record) : Prop where
  known : ∀ c ∈ b.conns, c ≤ b.nextConn
  owners : ∀ w ∈ registrations log, w.2.1 ≤ b.nextConn
  objects : ∀ {path owner methods}, final (registrations log) path = some (owner, methods) →
    owner ∈ b.conns → ⟨path, methods, owner⟩ ∈ b.objects

theorem kept_default : Kept Bus.default [] where
  known := by simp [Bus.default]
  owners := by simp [registrations]
  objects := by simp [registrations]

/-- A connection is open after an event if it was before, or if it is a new one. -/
theorem conns_step (b : Bus) (e : Event) :
    b.nextConn ≤ (b.step e).1.nextConn ∧
      ∀ c ∈ (b.step e).1.conns,
        c ∈ b.conns ∨ c = b.nextConn + 1 ∧ (b.step e).1.nextConn = b.nextConn + 1 := by
  have heffect := step_effect b e
  generalize (b.step e).1 = after at heffect ⊢
  cases heffect with
  | connect _ _ _ ha =>
      subst ha
      refine ⟨Nat.le_succ _, ?_⟩
      intro c hc
      rcases List.mem_cons.mp hc with hnew | hold
      · exact Or.inr ⟨hnew, rfl⟩
      · exact Or.inl hold
  | disconnect id _ _ _ ha =>
      subst ha
      exact ⟨le_rfl, fun c hc => Or.inl (List.mem_of_mem_filter hc)⟩
  | served _ _ _ _ _ _ hconns _ hconn _ _ _ =>
      rw [hconns, hconn]
      exact ⟨le_rfl, fun c hc => Or.inl hc⟩
  | ignored _ _ _ ha => exact ha ▸ ⟨le_rfl, fun c hc => Or.inl hc⟩
  | routed _ _ _ _ _ _ _ _ ha => exact ha ▸ ⟨le_rfl, fun c hc => Or.inl hc⟩
  | answered _ _ _ _ _ _ _ _ _ ha => exact ha ▸ ⟨le_rfl, fun c hc => Or.inl hc⟩
  | unanswered _ _ _ _ _ _ _ ha => exact ha ▸ ⟨le_rfl, fun c hc => Or.inl hc⟩

theorem Kept.known_step {b : Bus} {log : List Record} (h : Kept b log) (e : Event) :
    ∀ c ∈ (b.step e).1.conns, c ≤ (b.step e).1.nextConn := by
  intro c hc
  obtain ⟨hle, hconns⟩ := conns_step b e
  rcases hconns c hc with hold | ⟨rfl, hnext⟩
  · exact (h.known c hold).trans hle
  · exact hnext.ge

/-- A registration that is open after an event was open before it. -/
theorem Kept.opened {b : Bus} {log : List Record} (h : Kept b log) (e : Event) :
    ∀ path owner methods, final (registrations log) path = some (owner, methods) →
      owner ∈ (b.step e).1.conns → owner ∈ b.conns := by
  intro path owner methods hfinal hopen
  rcases (conns_step b e).2 owner hopen with hold | ⟨hnew, -⟩
  · exact hold
  · have hle := h.owners _ (mem_of_final hfinal)
    simp only at hle
    omega

theorem Kept.step {b : Bus} {log : List Record} (h : Kept b log) (e : Event) :
    Kept (b.step e).1 (log ++ [record b e]) := by
  have hknown := h.known_step e
  have hle := (conns_step b e).1
  have hopened := h.opened e
  have heffect := tableEffect b e
  generalize (b.step e).1 = after at hknown hle hopened heffect ⊢
  cases heffect with
  | registered path methods id hreg hpath hopen hconns hobjects =>
      rw [record_before] at hopen hconns hobjects
      refine ⟨hknown, ?_, ?_⟩
      · intro w hw
        rw [registrations_append, hreg, List.mem_append, Option.toList_some,
          List.mem_singleton] at hw
        rcases hw with hw | rfl
        · exact (h.owners w hw).trans hle
        · exact (h.known id hopen).trans hle
      · intro path' owner methods' hfinal howner
        rw [registrations_append, hreg, Option.toList_some, final_concat] at hfinal
        rw [hobjects, List.mem_append]
        split at hfinal
        · rename_i heq
          obtain ⟨rfl, rfl⟩ : id = owner ∧ methods = methods' := by simpa using hfinal
          exact Or.inr (by simp [heq])
        · rename_i hne
          rw [hconns] at howner
          exact Or.inl (List.mem_filter.mpr
            ⟨h.objects hfinal howner, by simpa using fun heq => hne (Eq.symm heq)⟩)
  | closed id hreg hconns hobjects =>
      rw [record_before] at hconns hobjects
      refine ⟨hknown, ?_, ?_⟩
      · rw [registrations_of_none hreg]
        exact fun w hw => (h.owners w hw).trans hle
      · intro path owner methods hfinal howner
        rw [registrations_of_none hreg] at hfinal
        rw [hconns] at howner
        obtain ⟨hopen, hne⟩ := List.mem_filter.mp howner
        rw [hobjects]
        exact List.mem_filter.mpr ⟨h.objects hfinal hopen, hne⟩
  | same hreg hconns hobjects =>
      rw [record_before] at hobjects
      refine ⟨hknown, ?_, ?_⟩
      · rw [registrations_of_none hreg]
        exact fun w hw => (h.owners w hw).trans hle
      · intro path owner methods hfinal howner
        rw [registrations_of_none hreg] at hfinal
        rw [hobjects]
        exact h.objects hfinal (hopened _ _ _ hfinal howner)

theorem history_kept (es : List Event) : Kept (history es).1 (history es).2 :=
  (Machine.history_invariant Bus.step (motive := Kept) (fun _ _ e h => h.step e)
    kept_default es).1

/-- The objects are the live registrations. -/
theorem mem_objects_iff (es : List Event) (o : Object) :
    o ∈ (history es).1.objects ↔
      final (registrations (history es).2) o.path = some (o.owner, o.methods) ∧
        o.owner ∈ (history es).1.conns := by
  constructor
  · intro ho
    exact ⟨(history_registered es).latest o ho, (history_registered es).opened o ho⟩
  · rintro ⟨hfinal, hopen⟩
    exact (history_kept es).objects hfinal hopen

/-! ## What a listing prints -/

/-- The line of one object. -/
def objectLine (filter : Option Text) (o : Text × List Text) : Text :=
  if filter.any (· ≠ o.1) then []
  else o.1 ++ "\t[".toList ++ ", ".toList.intercalate o.2 ++ "]\n".toList

theorem asArray_finite (v : Value) : v.finite.asArray = v.asArray.map (List.map Value.finite) := by
  cases v with
  | array items =>
      rw [Value.finite, finiteItems_eq_map]
      rfl
  | num n =>
      rw [Value.finite]
      split <;> rfl
  | _ => rfl

theorem get_asArray_finite (v : Value) (key : Text) :
    (v.finite.get key).bind Value.asArray =
      ((v.get key).bind Value.asArray).map (List.map Value.finite) := by
  rw [get_finite, Option.bind_map, Option.map_bind]
  congr 1
  funext w
  exact asArray_finite w

theorem listedLine_finite (filter : Option Text) (v : Value) :
    listedLine filter v.finite = listedLine filter v := by
  have hmethods : ∀ items : List Value, (items.map Value.finite).filterMap Value.asStr =
      items.filterMap Value.asStr := by
    intro items
    rw [List.filterMap_map]
    exact congrArg (List.filterMap · items) (funext asStr_finite)
  rw [listedLine, listedLine, textField_finite, get_asArray_finite]
  cases (v.get "methods".toList).bind Value.asArray with
  | none => rfl
  | some items => simp only [Option.map_some, Option.getD_some, hmethods]

theorem listedLine_listing (filter : Option Text) (path : Text) (methods : List Text) :
    listedLine filter (listing path methods) = objectLine filter (path, methods) := by
  have hpath : textField (listing path methods) "path" = path := by
    rw [textField, (listing_get path methods).1, Option.getD_some]
  have hmethods : (methods.map Value.str).filterMap Value.asStr = methods := by
    rw [List.filterMap_map]
    exact List.filterMap_some
  simp only [listedLine, hpath, (listing_get path methods).2, Option.getD_some, hmethods,
    objectLine]

/-- What a state lists beside the built-ins. -/
def listed (b : Bus) : List (Text × List Text) :=
  b.objects.map fun o => (o.path, o.methods)

theorem cliList_listObjects (b : Bus) (filter : Option Text) :
    cliList (fun _ => .ok b.listObjects.finite) filter =
      ⟨0, (builtins ++ listed b).flatMap (objectLine filter), []⟩ := by
  have hobjects : (b.listObjects.get "objects".toList).bind Value.asArray =
      some ((builtins ++ listed b).map fun o => listing o.1 o.2) := by
    simp [Bus.listObjects, listed, obj, Value.get, Value.asArray]
  have hget := get_asArray_finite b.listObjects "objects".toList
  rw [hobjects, Option.map_some] at hget
  simp only [cliList, hget, List.flatMap_map, listedLine_finite, listedLine_listing]

/-- `ubus list` prints the built-in object and, for each path at most once, the methods of its
latest registration, if the connection that made it is still open. -/
theorem list_prints (es₁ es₂ : List Event) {conn : ℕ} (sys : System) (filter : Option Text)
    (hopen : conn ∈ (history es₁).1.conns)
    (honly : framesOf (history (es₁ ++ .line conn listRequest.write sys :: es₂)).2 conn =
      [record (history es₁).1 (.line conn listRequest.write sys)]) :
    ∃ objects : List (Text × List Text),
      (objects.map Prod.fst).Nodup ∧
      (∀ path methods, (path, methods) ∈ objects ↔
        ∃ owner ∈ (history es₁).1.conns,
          final (registrations (history es₁).2) path = some (owner, methods)) ∧
      cliList (fun _ => readResponse (streamTo
        (history (es₁ ++ .line conn listRequest.write sys :: es₂)).2 conn)) filter =
          ⟨0, (builtins ++ objects).flatMap (objectLine filter), []⟩ := by
  refine ⟨listed (history es₁).1, ?_, ?_, ?_⟩
  · rw [listed, List.map_map]
    exact (history_registered es₁).distinct
  · intro path methods
    rw [listed, List.mem_map]
    constructor
    · rintro ⟨o, ho, heq⟩
      obtain ⟨rfl, rfl⟩ : o.path = path ∧ o.methods = methods := by simpa using heq
      obtain ⟨hfinal, howner⟩ := (mem_objects_iff es₁ o).mp ho
      exact ⟨o.owner, howner, hfinal⟩
    · rintro ⟨owner, howner, hfinal⟩
      exact ⟨⟨path, methods, owner⟩, (mem_objects_iff es₁ _).mpr ⟨hfinal, howner⟩, rfl⟩
  · have hlist := received_write hopen listRequest sys
    rw [ofValue_listRequest] at hlist
    have hemitted := hlist.emitted
    simp only [Bus.handleRequest, sendTo_open hlist.opened] at hemitted
    obtain ⟨later, hlog, -⟩ := history_middle es₁ (.line conn listRequest.write sys) es₂
    have hframes := framesTo_of_answer honly (by simp [hlist.request]) (by simp [hlist.request])
      (by rw [hlog]; simp) hemitted
    have hstream : readResponse (streamTo
        (history (es₁ ++ .line conn listRequest.write sys :: es₂)).2 conn) =
          .ok (history es₁).1.listObjects.finite := by
      rw [streamTo, hframes]
      exact readResponse_frames _ []
    simp only [hstream]
    exact cliList_listObjects (history es₁).1 filter

/-- One object is registered when the listing is asked for. -/
theorem list_prints_secondClient :
    ∃ objects : List (Text × List Text),
      (objects.map Prod.fst).Nodup ∧
      (∀ path methods, (path, methods) ∈ objects ↔
        ∃ owner ∈ (history secondClient).1.conns,
          final (registrations (history secondClient).2) path = some (owner, methods)) ∧
      cliList (fun _ => readResponse (streamTo
        (history (secondClient ++ [.line 2 listRequest.write sampleSystem])).2 2)) none =
          ⟨0, (builtins ++ objects).flatMap (objectLine none), []⟩ := by
  apply list_prints secondClient [] sampleSystem none mem_conns_secondClient
  apply framesOf_eq_singleton (received_write mem_conns_secondClient _ _).sender
  decide +kernel

end Lwrt.Ubus
