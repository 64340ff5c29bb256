import Lwrt.Applet.Httpd.Saves
import Lwrt.Applet.Httpd.Threads
import Lwrt.Verification.Httpd.Resaving
import Lwrt.Verification.Httpd.Storage

/-! # Two saves at the same time

A save that was overlapped by another is lost; this matters exactly if it changed something. -/

namespace Lwrt.Httpd

open Library Text WriteLog Config

/-! ## Places in a merged file -/

/-- Two places where an assignment of `key` has the same effect. -/
structure Landing.Agrees (key : Text) (x y : Landing) : Prop where
  sect : x.sect = y.sect
  rest : ∀ s, final x.rest (s, key) = final y.rest (s, key)

theorem Landing.Agrees.outcome_eq {key : Text} {x y : Landing} (h : x.Agrees key y) (s v : Text)
    (other : Option Text) : x.outcome key s v other = y.outcome key s v other := by
  rw [outcome, outcome, h.sect, h.rest]

theorem emitted_cons_of_newline {c : Text} (h : '\n' ∉ c) (cs : List Text) :
    emitted (c :: cs) = stripCr c :: emitted cs := by
  rw [emitted_cons, lines_append_newline c [] h]
  rfl

section Places

variable {us : List Update} {sect key : Text}

/-- A line that the form wrote, for the scan. -/
theorem landing_assignment {indent : Text} {w : Update}
    (hindent : ∀ c ∈ indent, isWhitespace c = true) (hkey : IsWord w.key) (sect key p a : Text)
    (ls : List Text) :
    landing sect key p a (stripCr (indent ++ assignment w.key w.value) :: ls) =
      if a = sect ∧ w.key = key then ⟨p, writes p ls⟩ else landing sect key p a ls := by
  have hname := (splitKv_assignment hindent hkey w.value).1
  have hreading : reading (stripCr (indent ++ assignment w.key w.value)) =
      .assign w.key (trim (before '#' w.value)) := by
    rw [reading_stripCr]
    exact reading_assign hindent hkey w.value
  have hassigns : assigns key (stripCr (indent ++ assignment w.key w.value)) =
      decide (w.key = key) := by
    rw [assigns, hreading]
  rw [landing, headerName_stripCr, hname, hassigns, hreading]
  simp only [decide_eq_true_eq, Reading.next]

/-- What the parser and the scan need to know of pending updates. -/
structure Pended (us : List Update) (sect key : Text) : Prop where
  tame : Tame us
  line : ∀ u ∈ us, '\n' ∉ u.value
  home : ∀ u ∈ us, u.key = key → u.sect = sect

theorem Pended.subset {ws : List Update} (h : Pended us sect key) (hs : ws.Sublist us) :
    Pended ws sect key where
  tame := h.tame.sublist hs
  line := fun u hu => h.line u (hs.subset hu)
  home := fun u hu => h.home u (hs.subset hu)

theorem landing_flushed (h : Pended us sect key) (p a : Text) (ls : List Text) :
    (a = sect ∧ (∃ w ∈ us, w.key = key) ∧
        (landing sect key p a (emitted (flushed a us) ++ ls)).Agrees key ⟨p, writes p ls⟩) ∨
      ((a = sect → ∀ w ∈ us, w.key ≠ key) ∧
        landing sect key p a (emitted (flushed a us) ++ ls) = landing sect key p a ls) := by
  induction us with
  | nil => exact Or.inr ⟨fun _ _ hw => absurd hw List.not_mem_nil, rfl⟩
  | cons u us ih =>
      have hsub := List.sublist_cons_self u us
      have hskip (hne : a = sect → u.key ≠ key) :
          (a = sect ∧ (∃ w ∈ u :: us, w.key = key) ∧
              (landing sect key p a (emitted (flushed a us) ++ ls)).Agrees key ⟨p, writes p ls⟩) ∨
            ((a = sect → ∀ w ∈ u :: us, w.key ≠ key) ∧
              landing sect key p a (emitted (flushed a us) ++ ls) = landing sect key p a ls) := by
        rcases ih (h.subset hsub) with ⟨ha, ⟨w, hw, heq⟩, hagrees⟩ | ⟨hnone, heq⟩
        · exact Or.inl ⟨ha, ⟨w, by simp [hw], heq⟩, hagrees⟩
        · exact Or.inr ⟨fun ha => List.forall_mem_cons.mpr ⟨hne ha, hnone ha⟩, heq⟩
      by_cases hu : u.sect = a
      · have hword := (h.tame.words u (by simp)).2
        have hflush : flushed a (u :: us) = assignment u.key u.value :: flushed a us := by
          simp [flushed, hu]
        have hblank : ∀ c ∈ ([] : Text), isWhitespace c = true := by simp
        have hline := landing_assignment hblank hword sect key p a
          (emitted (flushed a us) ++ ls)
        rw [List.nil_append] at hline
        rw [hflush, emitted_cons_of_newline (newline_not_mem_assignment hword (h.line u (by simp))),
          List.cons_append, hline]
        by_cases hkey : a = sect ∧ u.key = key
        · rw [if_pos hkey]
          refine Or.inl ⟨hkey.1, ⟨u, by simp, hkey.2⟩, rfl, ?_⟩
          intro s
          have hother : ∀ w ∈ us, w.key = key → w.sect ≠ a := fun w hw heq =>
            absurd (hkey.2.trans heq.symm) (List.rel_of_pairwise_cons h.tame.keys hw)
          rw [writes_flushed p a (h.tame.sublist hsub), final_append,
            final_flushLog_of_ne hother, Option.or_none]
        · rw [if_neg hkey]
          exact hskip fun ha heq => hkey ⟨ha, heq⟩
      · have hflush : flushed a (u :: us) = flushed a us := by
          simp [flushed, hu]
        rw [hflush]
        exact hskip fun ha heq => hu ((h.home u (by simp) heq).trans ha.symm)

/-- No pending update has the key of a section that is being left. -/
theorem Pended.key_ne (h : Pended us sect key) {a : Text} (ha : a = sect) :
    ∀ w ∈ pending a us, w.key ≠ key := by
  intro w hw heq
  exact sect_ne_of_mem_pending w hw ((h.home w (List.mem_filter.mp hw).1 heq).trans ha.symm)

theorem landing_newSections {ss : List Text} (hss : ∀ s ∈ ss, IsWord s) (h : Pended us sect key)
    (p : Text) {a : Text} (hleft : a = sect → ∀ w ∈ us, w.key ≠ key) :
    (landing sect key p a (emitted (newSections ss us))).Agrees key
      ⟨if a = sect then p else sect, []⟩ := by
  induction ss generalizing p a us with
  | nil => exact ⟨rfl, fun _ => rfl⟩
  | cons s ss ih =>
      have hs := hss s (by simp)
      have hrest : ∀ t ∈ ss, IsWord t := fun t ht => hss t (by simp [ht])
      have hsub := pending_sublist s us
      have hheader : stripCr ('[' :: s ++ [']']) = '[' :: s ++ [']'] :=
        stripCr_eq_self_iff.mpr (by rw [List.getLast?_concat]; decide)
      have hnl : '\n' ∉ '[' :: s ++ [']'] := by
        simpa using hs.isToken.newline_not_mem
      have hblank : ∀ ls, landing sect key p a ([] :: ls) = landing sect key p a ls := by
        intro ls
        rw [landing, show headerName [] = none from rfl, show assigns key [] = false from rfl]
        simp [show reading [] = .skip from rfl, Reading.next]
      have hempty : stripCr [] = [] := rfl
      rw [newSections, emitted_cons_of_newline List.not_mem_nil, emitted_cons_of_newline hnl,
        hheader, hempty, hblank, landing, headerName_header hs]
      simp only []
      by_cases ha : a = sect
      · rw [if_pos ha, if_pos ha]
        refine ⟨rfl, ?_⟩
        intro t
        have hnone := final_newSections_of_ne p t (s :: ss) h.tame hss (hleft ha)
        rw [newSections, emitted_cons_of_newline List.not_mem_nil, emitted_cons_of_newline hnl,
          hheader, hempty, writes, show reading [] = .skip from rfl] at hnone
        exact hnone
      · rw [if_neg ha, if_neg ha, reading_bracket hs, Reading.next, emitted_append]
        rcases landing_flushed h s s (emitted (newSections ss (pending s us))) with
          ⟨heq, -, hagrees⟩ | ⟨hnone, heq⟩
        · refine ⟨hagrees.sect.trans heq, ?_⟩
          intro t
          rw [hagrees.rest t]
          exact final_newSections_of_ne s t ss (h.tame.sublist hsub) hrest (h.key_ne heq)
        · rw [heq]
          have hlater := ih hrest (h.subset hsub) s fun heq => h.key_ne heq
          refine ⟨hlater.sect.trans ?_, hlater.rest⟩
          simp

/-- An update of the key lands in the merged lines as it does in the old ones. -/
def LandsAlike (sect key : Text) (ls : List Text) : Prop :=
  ∀ us, Pended us sect key → ∀ p a,
    (landing sect key p a (emitted (mergeLines a us ls))).Agrees key (landing sect key p a ls)

theorem landsAlike_nil : LandsAlike sect key [] := by
  intro us h p a
  have hsub := pending_sublist a us
  have hwords : ∀ t ∈ pendingSections (pending a us), IsWord t := by
    intro t ht
    obtain ⟨u, hu, rfl⟩ := mem_pendingSections.mp ht
    exact (h.tame.words u (hsub.subset hu)).1
  rw [mergeLines, emitted_append, landing]
  rcases landing_flushed h p a
      (emitted (newSections (pendingSections (pending a us)) (pending a us))) with
    ⟨ha, -, hagrees⟩ | ⟨-, heq⟩
  · refine ⟨hagrees.sect.trans (by rw [if_pos ha]), ?_⟩
    intro s
    rw [hagrees.rest s]
    exact final_newSections_of_ne p s _ (h.tame.sublist hsub) hwords (h.key_ne ha)
  · rw [heq]
    exact landing_newSections hwords (h.subset hsub) p h.key_ne

section Cons

variable {raw : Text} {ls : List Text}

/-- In its own section the update lands before the next header. -/
theorem landing_merge_header (ih : LandsAlike sect key ls) (hls : ∀ l ∈ raw :: ls, '\n' ∉ l)
    {name : Text} (hname : headerName raw = some name) (h : Pended us sect key) (p a : Text) :
    (landing sect key p a (emitted (mergeLines a us (raw :: ls)))).Agrees key
      (landing sect key p a (raw :: ls)) := by
  obtain ⟨hraw, hrest⟩ := List.forall_mem_cons.mp hls
  have hsub := pending_sublist a us
  have hend : a = sect → ∀ s,
      final (writes p (stripCr raw :: emitted (mergeLines name (pending a us) ls)))
        (s, key) = final (writes p (raw :: ls)) (s, key) := by
    intro ha s
    rw [writes, writes, reading_stripCr, final_append, final_append,
      final_mergeLines_of_ne s _ name (h.tame.sublist hsub) (h.key_ne ha) ls hrest]
  rw [mergeLines, landing, hname]
  simp only []
  rw [emitted_append, emitted_cons_of_newline hraw]
  rcases landing_flushed h p a
      (stripCr raw :: emitted (mergeLines name (pending a us) ls)) with
    ⟨ha, -, hagrees⟩ | ⟨-, heq⟩
  · rw [if_pos ha]
    exact ⟨hagrees.sect, fun s => (hagrees.rest s).trans (hend ha s)⟩
  · rw [heq, landing, headerName_stripCr, hname]
    simp only []
    by_cases ha : a = sect
    · rw [if_pos ha, if_pos ha]
      exact ⟨rfl, hend ha⟩
    · rw [if_neg ha, if_neg ha, reading_stripCr]
      exact ih _ (h.subset hsub) _ name

theorem landing_merge_replaced (ih : LandsAlike sect key ls) (hls : ∀ l ∈ raw :: ls, '\n' ∉ l)
    (hname : headerName raw = none) {a : Text} {w : Update}
    (hrep : replacement a us raw = some w) (h : Pended us sect key) (p : Text) :
    (landing sect key p a (emitted (mergeLines a us (raw :: ls)))).Agrees key
      (landing sect key p a (raw :: ls)) := by
  obtain ⟨hraw, hrest⟩ := List.forall_mem_cons.mp hls
  obtain ⟨hw, hwa, v, hv⟩ := replacement_eq_some hrep
  have hindent : ∀ c ∈ raw.takeWhile isWhitespace, isWhitespace c = true :=
    fun _ hc => List.mem_takeWhile_imp hc
  have hword := (h.tame.words w hw).2
  have hnl : '\n' ∉ raw.takeWhile isWhitespace ++ assignment w.key w.value := by
    rw [List.mem_append, not_or]
    exact ⟨fun hmem => hraw ((List.takeWhile_prefix isWhitespace).subset hmem),
      newline_not_mem_assignment hword (h.line w hw)⟩
  have hassigns : assigns key raw = decide (w.key = key) := by
    rw [assigns, hv]
  rw [mergeLines, landing, hname, hrep]
  simp only []
  rw [emitted_cons_of_newline hnl, landing_assignment hindent hword, hassigns, hv]
  simp only [decide_eq_true_eq, Reading.next]
  by_cases hkey : a = sect ∧ w.key = key
  · rw [if_pos hkey, if_pos hkey]
    refine ⟨rfl, ?_⟩
    intro s
    have hne := not_mem_eraseP_key h.tame hw
    rw [hkey.2, hwa] at hne
    exact final_mergeLines_of_ne s p a (h.tame.sublist List.eraseP_sublist)
      (hkey.2.symm ▸ hne) ls hrest
  · rw [if_neg hkey, if_neg hkey]
    exact ih _ (h.subset List.eraseP_sublist) p a

theorem landing_merge_kept (ih : LandsAlike sect key ls) (hls : ∀ l ∈ raw :: ls, '\n' ∉ l)
    (hname : headerName raw = none) {a : Text} (hrep : replacement a us raw = none)
    (h : Pended us sect key) (p : Text) :
    (landing sect key p a (emitted (mergeLines a us (raw :: ls)))).Agrees key
      (landing sect key p a (raw :: ls)) := by
  obtain ⟨hraw, hrest⟩ := List.forall_mem_cons.mp hls
  have hassigns : assigns key (stripCr raw) = assigns key raw := by
    rw [assigns, reading_stripCr, assigns]
  rw [mergeLines, landing, hname, hrep]
  simp only []
  rw [emitted_cons_of_newline hraw, landing, headerName_stripCr, hname, hassigns,
    reading_stripCr]
  simp only []
  by_cases hkey : a = sect ∧ assigns key raw
  · rw [if_pos hkey, if_pos hkey]
    refine ⟨rfl, ?_⟩
    intro s
    have hne : ∀ w ∈ us, w.key ≠ key := by
      intro w hw heq
      have hwa := (h.home w hw heq).trans hkey.1.symm
      exact replacement_eq_none hrep hw (h.tame.words w hw).2 hwa (heq ▸ hkey.2)
    exact final_mergeLines_of_ne s p a h.tame hne ls hrest
  · rw [if_neg hkey, if_neg hkey]
    exact ih _ h _ a

end Cons

theorem landing_mergeLines {ls : List Text} (hls : ∀ l ∈ ls, '\n' ∉ l) :
    LandsAlike sect key ls := by
  induction ls with
  | nil => exact landsAlike_nil
  | cons raw ls ih =>
      have ih := ih (List.forall_mem_cons.mp hls).2
      intro us h p a
      cases hname : headerName raw with
      | some name => exact landing_merge_header ih hls hname h p a
      | none =>
          cases hrep : replacement a us raw with
          | some w => exact landing_merge_replaced ih hls hname hrep h p
          | none => exact landing_merge_kept ih hls hname hrep h p

end Places

/-! ## Two updates of one file -/

/-- Updates of the settings form, each on one line. -/
structure FormLike (updates : List Update) : Prop where
  tame : Tame (retained updates)
  line : ∀ u ∈ retained updates, '\n' ∉ u.value
  managed : ∀ u ∈ retained updates, (u.sect, u.key) ∈ managed

theorem formLike_formUpdates {form : Form} (h : ∀ u ∈ formUpdates form, '\n' ∉ u.value) :
    FormLike (formUpdates form) := by
  have hline : ∀ u ∈ retained (formUpdates form), '\n' ∉ u.value :=
    fun u hu => h u (List.mem_filter.mp hu).1
  exact ⟨tame_formUpdates fun u hu => inert_of_newline (hline u hu), hline, mem_managed_of_retained⟩

/-- Two texts are the same configuration. -/
def SameConfig (x y : Text) : Prop :=
  ∀ s key, (parse x).get s key = (parse y).get s key

/-- What the first update list does beside the settings of the second is without effect. -/
def Harmless (old : Text) (us vs : List Update) : Prop :=
  ∀ u ∈ retained us, (∀ v ∈ retained vs, v.key ≠ u.key) → InPlace old u

instance (old : Text) (us vs : List Update) : Decidable (Harmless old us vs) :=
  inferInstanceAs (Decidable (∀ _ ∈ _, _))

section Twice

variable {old : Text} {us vs : List Update} {u v : Update}

theorem FormLike.sect_eq (hus : FormLike us) (hvs : FormLike vs) (hu : u ∈ retained us)
    (hv : v ∈ retained vs) (hkey : u.key = v.key) : u.sect = v.sect :=
  (Prod.mk.inj (managed_key_injective _ (hus.managed u hu) _ (hvs.managed v hv) hkey)).1

theorem place_applySettings (hus : FormLike us) (hvs : FormLike vs) (hv : v ∈ retained vs) :
    (place (applySettings old us) v).Agrees v.key (place old v) := by
  rw [place, applySettings_eq, lines_unlines_flatMap]
  exact landing_mergeLines (fun _ hl => newline_not_mem_of_mem_lines hl) _
    ⟨hus.tame, hus.line, fun u hu heq => hus.sect_eq hvs hu hv heq⟩ [] []

/-- A submitted setting reads the same whether another save came before or not. -/
theorem get_twice_of_mem (hus : FormLike us) (hvs : FormLike vs) (hv : v ∈ retained vs) (s : Text) :
    (parse (applySettings (applySettings old us) vs)).get s v.key =
      (parse (applySettings old vs)).get s v.key := by
  rw [get_applySettings_of_mem hvs.tame hv, get_applySettings_of_mem hvs.tame hv,
    (place_applySettings hus hvs hv).outcome_eq]
  rw [Landing.outcome, Landing.outcome]
  split
  · rfl
  · rename_i hsect
    by_cases hkey : ∃ u ∈ retained us, u.key = v.key
    · obtain ⟨u, hu, heq⟩ := hkey
      have hplace : place old u = place old v := by
        rw [place, place, hus.sect_eq hvs hu hv heq, heq]
      rw [← heq, get_applySettings_of_mem hus.tame hu, Landing.outcome, hplace, if_neg hsect]
    · push Not at hkey
      exact get_applySettings_of_ne hus.tame hkey s

/-- A save after another one has the effect of the first as well; it is as if it were alone
exactly if that effect is none. -/
theorem sameConfig_after_iff (hus : FormLike us) (hvs : FormLike vs) :
    SameConfig (applySettings old vs) (applySettings (applySettings old us) vs) ↔
      Harmless old us vs := by
  constructor
  · intro h u hu hother
    refine (outcome_eq_old_iff old u _).mp ?_ rfl
    have heq := h (place old u).sect u.key
    rw [get_applySettings_of_ne hvs.tame hother, get_applySettings_of_ne hvs.tame hother,
      get_applySettings_of_mem hus.tame hu] at heq
    exact heq.symm
  · intro h s key
    by_cases hvkey : ∃ v ∈ retained vs, v.key = key
    · obtain ⟨v, hv, rfl⟩ := hvkey
      exact (get_twice_of_mem hus hvs hv s).symm
    · push Not at hvkey
      rw [get_applySettings_of_ne hvs.tame hvkey, get_applySettings_of_ne hvs.tame hvkey]
      by_cases hukey : ∃ u ∈ retained us, u.key = key
      · obtain ⟨u, hu, rfl⟩ := hukey
        rw [get_applySettings_of_mem hus.tame hu]
        exact ((outcome_eq_old_iff old u s).mpr fun _ => h u hu hvkey).symm
      · push Not at hukey
        rw [get_applySettings_of_ne hus.tame hukey]

/-- In the other order the same has to hold. -/
theorem harmless_of_before (hus : FormLike us) (hvs : FormLike vs)
    (h : SameConfig (applySettings old vs) (applySettings (applySettings old vs) us)) :
    Harmless old us vs := by
  intro u hu hother
  refine (outcome_eq_old_iff old u _).mp ?_ rfl
  have heq := h (place old u).sect u.key
  rw [get_applySettings_of_mem hus.tame hu, (place_applySettings hvs hus hu).outcome_eq,
    get_applySettings_of_ne hvs.tame hother] at heq
  exact heq.symm

end Twice

/-! ## Schedules -/

/-- The thread that reads the file for a save merges the same contents. -/
theorem received_merge (file : Option (List UInt8)) (files : Files) (body : List UInt8) :
    received file files (.merge body) = .saving (mergedContents file body) :=
  rfl

/-- The file after a save that no other one disturbs. -/
def saved (file : Option (List UInt8)) (body : List UInt8) : Option (List UInt8) :=
  some (mergedContents file body)

/-- Two files hold the same configuration. -/
def SameSettings (x y : Option (List UInt8)) : Prop :=
  ∀ s key, (configOf x).get s key = (configOf y).get s key

/-- The result of two saves is that of one after the other, in some order. -/
def Serializable (file : Option (List UInt8)) (a b : List UInt8) (result : Option (List UInt8)) :
    Prop :=
  SameSettings result (saved (saved file a) b) ∨ SameSettings result (saved (saved file b) a)

def SaveStep.isRead : SaveStep → Bool
  | .read _ _ => true
  | .write _ => false

/-- Both saves read the file before one of them writes it. -/
def Overlapping (steps : List SaveStep) : Prop :=
  ∀ step ∈ steps.take 2, step.isRead

instance (steps : List SaveStep) : Decidable (Overlapping steps) :=
  inferInstanceAs (Decidable (∀ _ ∈ _, _))

/-- The text that a save merges into. -/
def oldText (file : Option (List UInt8)) : Text :=
  (readToString file).getD Config.default

theorem configOf_eq (file : Option (List UInt8)) : configOf file = parse (oldText file) :=
  load_eq _

theorem sameSettings_iff (x y : Option (List UInt8)) :
    SameSettings x y ↔ SameConfig (oldText x) (oldText y) := by
  simp only [SameSettings, SameConfig, configOf_eq]

theorem oldText_saved (file : Option (List UInt8)) (body : List UInt8) :
    oldText (saved file body) = applySettings (oldText file) (formUpdates (parseForm body)) := by
  rw [oldText, saved, readToString, Option.bind_some, mergedContents, Utf8.fromUtf8_encode]
  rfl

section Schedules

variable {i j : ℕ} {a b : List UInt8} {steps : List SaveStep}

/-- What becomes of the file: the saves do not overlap and both count, or one of them is lost. -/
inductive Saved (i j : ℕ) (a b : List UInt8) (steps : List SaveStep)
    (file : Option (List UInt8)) : Option (List UInt8) → Prop
  | first (hsteps : ¬Overlapping steps) : Saved i j a b steps file (saved (saved file a) b)
  | second (hsteps : ¬Overlapping steps) : Saved i j a b steps file (saved (saved file b) a)
  | lostFirst (hsteps : Overlapping steps) (hwrite : steps[2]? = some (.write i)) :
      Saved i j a b steps file (saved file b)
  | lostSecond (hsteps : Overlapping steps) (hwrite : steps[2]? = some (.write j)) :
      Saved i j a b steps file (saved file a)

theorem saved_of_interleaving (hij : i ≠ j)
    (h : Interleaving [.read i a, .write i] [.read j b, .write j] steps)
    (file : Option (List UInt8)) : Saved i j a b steps file (savedFile file steps) := by
  have hji := hij.symm
  rcases h.pairs with rfl | rfl | rfl | rfl | rfl | rfl
  · have hfile : savedFile file [.read i a, .write i, .read j b, .write j] =
        saved (saved file a) b := by simp [savedFile, saveStep, saved]
    rw [hfile]
    exact .first (by simp [Overlapping, SaveStep.isRead])
  · have hfile : savedFile file [.read i a, .read j b, .write i, .write j] = saved file b := by
      simp [savedFile, saveStep, saved, hij]
    rw [hfile]
    exact .lostFirst (by simp [Overlapping, SaveStep.isRead]) rfl
  · have hfile : savedFile file [.read i a, .read j b, .write j, .write i] = saved file a := by
      simp [savedFile, saveStep, saved, hij]
    rw [hfile]
    exact .lostSecond (by simp [Overlapping, SaveStep.isRead]) rfl
  · have hfile : savedFile file [.read j b, .read i a, .write i, .write j] = saved file b := by
      simp [savedFile, saveStep, saved, hji]
    rw [hfile]
    exact .lostFirst (by simp [Overlapping, SaveStep.isRead]) rfl
  · have hfile : savedFile file [.read j b, .read i a, .write j, .write i] = saved file a := by
      simp [savedFile, saveStep, saved, hji]
    rw [hfile]
    exact .lostSecond (by simp [Overlapping, SaveStep.isRead]) rfl
  · have hfile : savedFile file [.read j b, .write j, .read i a, .write i] =
        saved (saved file b) a := by simp [savedFile, saveStep, saved]
    rw [hfile]
    exact .second (by simp [Overlapping, SaveStep.isRead])

theorem SameSettings.refl (x : Option (List UInt8)) : SameSettings x x :=
  fun _ _ => rfl

/-- A lost save leaves a serial result exactly if it would have been without effect. -/
theorem serializable_lost_iff {file : Option (List UInt8)}
    (ha : ∀ u ∈ formUpdates (parseForm a), '\n' ∉ u.value)
    (hb : ∀ u ∈ formUpdates (parseForm b), '\n' ∉ u.value) :
    Serializable file a b (saved file b) ↔
      Harmless (oldText file) (formUpdates (parseForm a)) (formUpdates (parseForm b)) := by
  have hus := formLike_formUpdates ha
  have hvs := formLike_formUpdates hb
  simp only [Serializable, sameSettings_iff, oldText_saved]
  constructor
  · rintro (h | h)
    · exact (sameConfig_after_iff hus hvs).mp h
    · exact harmless_of_before hus hvs h
  · intro h
    exact Or.inl ((sameConfig_after_iff hus hvs).mpr h)

theorem serializable_comm {file result : Option (List UInt8)} :
    Serializable file a b result ↔ Serializable file b a result :=
  or_comm

/-- In a serial result a save with a blank Wi-Fi key keeps the key of the other save. -/
theorem Serializable.wifi_key {file result : Option (List UInt8)}
    (h : Serializable file a b result) (ha : ∀ u ∈ formUpdates (parseForm a), '\n' ∉ u.value)
    (hb : ∀ u ∈ formUpdates (parseForm b), '\n' ∉ u.value)
    (hblank : ∀ v ∈ field (parseForm b) "wifi_key".toList, trim v = []) :
    (configOf result).get "wifi".toList "key".toList =
      (configOf (saved file a)).get "wifi".toList "key".toList := by
  have hus := formLike_formUpdates ha
  have hvs := formLike_formUpdates hb
  have hkeep : ∀ old, (parse (applySettings old (formUpdates (parseForm b)))).get "wifi".toList
      "key".toList = (parse old).get "wifi".toList "key".toList :=
    fun old => get_applySettings_of_ne hvs.tame (retained_key_ne hblank) _
  simp only [Serializable, sameSettings_iff, oldText_saved] at h
  rw [configOf_eq, configOf_eq, oldText_saved]
  rcases h with h | h
  · rw [h, hkeep]
  · rw [h]
    by_cases hkey : ∃ u ∈ retained (formUpdates (parseForm a)), u.key = "key".toList
    · obtain ⟨u, hu, heq⟩ := hkey
      rw [← heq]
      exact get_twice_of_mem hvs hus hu _
    · push Not at hkey
      rw [get_applySettings_of_ne hus.tame hkey, get_applySettings_of_ne hus.tame hkey, hkeep]

/-- The condition for two saves: if they overlap, the one that writes first changes nothing but
settings of the other. -/
def Undisturbed (i j : ℕ) (a b : List UInt8) (steps : List SaveStep)
    (file : Option (List UInt8)) : Prop :=
  Overlapping steps →
    (steps[2]? = some (.write i) →
      Harmless (oldText file) (formUpdates (parseForm a)) (formUpdates (parseForm b))) ∧
    (steps[2]? = some (.write j) →
      Harmless (oldText file) (formUpdates (parseForm b)) (formUpdates (parseForm a)))

end Schedules

/-- Both saves read, then the first one writes. -/
def overlappingSteps (a b : List UInt8) : List SaveStep :=
  [.read 0 a, .read 1 b, .write 0, .write 1]

theorem interleaving_overlappingSteps (a b : List UInt8) :
    Interleaving [.read 0 a, .write 0] [.read 1 b, .write 1] (overlappingSteps a b) :=
  .left (.right (.left (.right .nil)))

def hostnameBody : List UInt8 :=
  Utf8.encode "hostname=a&wifi_key=".toList

def wifiKeyBody : List UInt8 :=
  Utf8.encode "wifi_key=new-secret".toList

end Lwrt.Httpd
