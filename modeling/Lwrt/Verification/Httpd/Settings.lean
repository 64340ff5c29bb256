import Lwrt.Verification.Httpd.Merge

/-! # Saved settings read back

Where an update lands in the old file decides what the parser makes of it. -/

namespace Lwrt.Httpd

open Library Text WriteLog Config

/-! ## Landing places -/

def assigns (key raw : Text) : Bool :=
  match reading raw with
  | .assign k _ => k = key
  | _ => false

theorem assigns_iff {key raw : Text} : assigns key raw ↔ ∃ v, reading raw = .assign key v := by
  rw [assigns]
  cases reading raw <;> simp

/-- The place of an update: the section the parser is in there, and the writes after it. -/
structure Landing where
  sect : Text
  rest : Log

/-- Scan the old lines for the place of the update of `key` in `sect`. The parser is in the
section `p` and the updating scanner in the section `a`; they differ after a header with a
comment. -/
def landing (sect key : Text) : Text → Text → List Text → Landing
  | p, a, [] => ⟨if a = sect then p else sect, []⟩
  | p, a, raw :: ls =>
      match headerName raw with
      | some name =>
          if a = sect then ⟨p, writes p (raw :: ls)⟩
          else landing sect key ((reading raw).next p) name ls
      | none =>
          if a = sect ∧ assigns key raw then ⟨p, writes p ls⟩
          else landing sect key ((reading raw).next p) a ls

/-- The value of `key` in the section `s` after `v` is written at a place, given the value
from the other lines. -/
def Landing.outcome (place : Landing) (key s v : Text) (other : Option Text) : Option Text :=
  if place.sect = s then some ((final place.rest (s, key)).getD v) else other

theorem Landing.outcome_or (place : Landing) (key s v : Text) (other earlier : Option Text) :
    (place.outcome key s v other).or earlier = place.outcome key s v (other.or earlier) := by
  rw [outcome, outcome]
  split <;> rfl

/-- The writes after a place are the last ones of the file. -/
theorem landing_rest_suffix (sect key p a : Text) (ls : List Text) :
    (landing sect key p a ls).rest <:+ writes p ls := by
  induction ls generalizing p a with
  | nil => simp [landing, writes]
  | cons raw ls ih =>
      have hstep : ∀ b,
          (landing sect key ((reading raw).next p) b ls).rest <:+ writes p (raw :: ls) :=
        fun b => (ih _ b).trans (List.suffix_append _ _)
      rw [landing]
      cases headerName raw with
      | some name =>
          by_cases ha : a = sect
          · simp [ha]
          · simpa [ha] using hstep name
      | none =>
          by_cases ha : a = sect ∧ assigns key raw
          · obtain ⟨v, hv⟩ := assigns_iff.mp ha.2
            simp [ha, writes, hv, Reading.next]
          · simpa [ha] using hstep a

/-! ## One line of the loop -/

theorem replacement_eq_some {sect raw : Text} {us : List Update} {u : Update}
    (h : replacement sect us raw = some u) :
    u ∈ us ∧ u.sect = sect ∧ ∃ v, reading raw = .assign u.key v := by
  obtain ⟨⟨k, v⟩, hkv, hfind⟩ := Option.bind_eq_some_iff.mp h
  have hu := List.find?_some hfind
  simp only [decide_eq_true_eq] at hu
  refine ⟨List.mem_of_find?_eq_some hfind, hu.1, v, ?_⟩
  rw [hu.2]
  exact reading_of_splitKv hkv

theorem replacement_eq_none {sect raw : Text} {us : List Update}
    (h : replacement sect us raw = none) {u : Update} (hu : u ∈ us) (hkey : IsWord u.key)
    (hsect : u.sect = sect) : ¬assigns u.key raw := by
  intro hassigns
  obtain ⟨v, hv⟩ := assigns_iff.mp hassigns
  simp only [replacement, (splitKv_of_reading hv hkey).2, Option.bind_some,
    List.find?_eq_none] at h
  exact h u hu (by simp [hsect])

theorem final_log_of_ne {raw k key : Text} {v : Text} (h : reading raw = .assign k v)
    (hne : k ≠ key) (p s : Text) : final ((reading raw).log p) (s, key) = none := by
  rw [h]
  simp [Reading.log, final_cons, hne]

theorem not_mem_pending {us : List Update} (h : Tame us) {u : Update} (hu : u ∈ us) :
    ∀ w ∈ pending u.sect us, w.key ≠ u.key := by
  intro w hw heq
  obtain ⟨hmem, hne⟩ := List.mem_filter.mp hw
  rw [h.eq_of_key hmem hu heq] at hne
  simp at hne

theorem mem_eraseP_key {us : List Update} {u w : Update} (hu : u ∈ us) (hne : u.key ≠ w.key) :
    u ∈ us.eraseP fun x => x.sect = w.sect ∧ x.key = w.key :=
  (List.mem_eraseP_of_neg (by simp [hne])).mpr hu

theorem not_mem_eraseP_key {us : List Update} (h : Tame us) {u : Update} (hu : u ∈ us) :
    ∀ w ∈ us.eraseP fun x => x.sect = u.sect ∧ x.key = u.key, w.key ≠ u.key := by
  induction us with
  | nil => simp at hu
  | cons x us ih =>
      have htail := h.sublist (List.sublist_cons_self x us)
      by_cases hx : x = u
      · rw [List.eraseP_cons_of_pos (by simp [hx])]
        intro w hw
        rw [← hx]
        exact Ne.symm (List.rel_of_pairwise_cons h.keys hw)
      · have hmem : u ∈ us := (List.mem_cons.mp hu).resolve_left (Ne.symm hx)
        have hxkey : x.key ≠ u.key := List.rel_of_pairwise_cons h.keys hmem
        rw [List.eraseP_cons_of_neg (by simp [hxkey])]
        intro w hw
        rcases List.mem_cons.mp hw with rfl | hw
        · exact hxkey
        · exact ih htail hmem w hw

/-! ## The whole loop -/

theorem writes_replaced (p : Text) {raw : Text} (hnl : '\n' ∉ raw) {us : List Update} (h : Tame us)
    {u : Update} (hu : u ∈ us) (rest : List Text) :
    writes p (lines ((raw.takeWhile isWhitespace ++ assignment u.key u.value) ++ ['\n']) ++ rest) =
      ((p, u.key), effective u.value) :: writes p rest :=
  writes_assignment p (fun _ hc => List.mem_takeWhile_imp hc)
    (fun hmem => hnl ((List.takeWhile_prefix isWhitespace).subset hmem)) (h.words u hu).2
    (h.inert u hu) rest

/-- A key without an update reads as before. -/
theorem final_mergeLines_of_ne {key : Text} (s p a : Text) {us : List Update} (h : Tame us)
    (hkey : ∀ u ∈ us, u.key ≠ key) (ls : List Text) (hnl : ∀ l ∈ ls, '\n' ∉ l) :
    final (writes p (emitted (mergeLines a us ls))) (s, key) = final (writes p ls) (s, key) := by
  induction ls generalizing p a us with
  | nil =>
      have hsub := pending_sublist a us
      rw [mergeLines, emitted_append, writes_flushed p a h, final_append,
        final_flushLog_of_ne (fun u hu heq => absurd heq (hkey u hu)), Option.or_none]
      apply final_newSections_of_ne p s _ (h.sublist hsub)
      · intro t ht
        obtain ⟨u, hu, rfl⟩ := mem_pendingSections.mp ht
        exact (h.words u (hsub.subset hu)).1
      · exact fun u hu => hkey u (hsub.subset hu)
  | cons raw ls ih =>
      have hraw := hnl raw (by simp)
      have hrest : ∀ l ∈ ls, '\n' ∉ l := fun l hl => hnl l (by simp [hl])
      rw [mergeLines, writes, final_append]
      cases headerName raw with
      | some name =>
          have hsub := pending_sublist a us
          simp only []
          rw [emitted_append, writes_flushed p a h, emitted_cons, writes_raw p hraw, final_append,
            final_append, final_flushLog_of_ne (fun u hu heq => absurd heq (hkey u hu)),
            Option.or_none,
            ih _ name (h.sublist hsub) (fun u hu => hkey u (hsub.subset hu)) hrest]
      | none =>
          cases hrep : replacement a us raw with
          | some w =>
              obtain ⟨hw, -, v, hv⟩ := replacement_eq_some hrep
              simp only []
              rw [emitted_cons, writes_replaced p hraw h hw, final_cons_of_ne (by simp [hkey w hw]),
                ih _ a (h.sublist List.eraseP_sublist)
                  (fun u hu => hkey u (List.mem_of_mem_eraseP hu)) hrest,
                final_log_of_ne hv (hkey w hw), Option.or_none, hv]
              rfl
          | none =>
              simp only []
              rw [emitted_cons, writes_raw p hraw, final_append, ih _ a h hkey hrest]

/-- An update for another section is pending, and none of its key is flushed here. -/
theorem Tame.pending_of_ne {us : List Update} (h : Tame us) {u : Update} (hu : u ∈ us) {a : Text}
    (ha : a ≠ u.sect) : u ∈ pending a us ∧ ∀ w ∈ us, w.key = u.key → w.sect ≠ a := by
  refine ⟨List.mem_filter.mpr ⟨hu, by simpa using Ne.symm ha⟩, ?_⟩
  intro w hw heq
  rw [h.eq_of_key hw hu heq]
  exact Ne.symm ha

/-- In the merged lines the key of an update reads as its landing place says. -/
def ReadsAsLanded (u : Update) (ls : List Text) : Prop :=
  ∀ us, Tame us → u ∈ us → ∀ s p a,
    final (writes p (emitted (mergeLines a us ls))) (s, u.key) =
      (landing u.sect u.key p a ls).outcome u.key s (effective u.value)
        (final (writes p ls) (s, u.key))

theorem readsAsLanded_nil (u : Update) : ReadsAsLanded u [] := by
  intro us h hu s p a
  have hsub := pending_sublist a us
  have hwords : ∀ t ∈ pendingSections (pending a us), IsWord t := by
    intro t ht
    obtain ⟨u, hu, rfl⟩ := mem_pendingSections.mp ht
    exact (h.words u (hsub.subset hu)).1
  rw [mergeLines, emitted_append, writes_flushed p a h, final_append, landing]
  by_cases ha : a = u.sect
  · subst ha
    rw [final_flushLog_of_mem h hu,
      final_newSections_of_ne p s _ (h.sublist hsub) hwords (not_mem_pending h hu)]
    simp [Landing.outcome, writes]
  · obtain ⟨hmem, hflush⟩ := h.pending_of_ne hu ha
    rw [final_flushLog_of_ne hflush, Option.or_none,
      final_newSections_of_mem p s _ (h.sublist hsub) hwords hmem
        (mem_pendingSections.mpr ⟨u, hmem, rfl⟩)]
    simp [Landing.outcome, writes, ha]

section Cons

variable {u : Update} {us : List Update} {raw : Text} {ls : List Text}

theorem final_merge_header (ih : ReadsAsLanded u ls) (hnl : ∀ l ∈ raw :: ls, '\n' ∉ l)
    {name : Text} (hname : headerName raw = some name) (h : Tame us) (hu : u ∈ us)
    (s p a : Text) :
    final (writes p (emitted (mergeLines a us (raw :: ls)))) (s, u.key) =
      (landing u.sect u.key p a (raw :: ls)).outcome u.key s (effective u.value)
        (final (writes p (raw :: ls)) (s, u.key)) := by
  obtain ⟨hraw, hrest⟩ := List.forall_mem_cons.mp hnl
  have hsub := pending_sublist a us
  rw [mergeLines, landing, hname]
  simp only []
  rw [emitted_append, writes_flushed p a h, emitted_cons, writes_raw p hraw, final_append,
    final_append]
  by_cases ha : a = u.sect
  · -- the section ends here: the update is flushed before the header
    subst ha
    rw [final_mergeLines_of_ne s _ name (h.sublist hsub) (not_mem_pending h hu) ls hrest,
      final_flushLog_of_mem h hu, if_pos rfl, ← final_append, ← writes, Landing.outcome]
    split
    · rw [Option.or_some]
    · rw [Option.or_none]
  · obtain ⟨hmem, hflush⟩ := h.pending_of_ne hu ha
    rw [ih _ (h.sublist hsub) hmem, final_flushLog_of_ne hflush, Option.or_none, if_neg ha,
      Landing.outcome_or, writes, final_append]

theorem final_merge_replaced (ih : ReadsAsLanded u ls) (hnl : ∀ l ∈ raw :: ls, '\n' ∉ l)
    (hname : headerName raw = none) {a : Text} {w : Update}
    (hrep : replacement a us raw = some w) (h : Tame us) (hu : u ∈ us) (s p : Text) :
    final (writes p (emitted (mergeLines a us (raw :: ls)))) (s, u.key) =
      (landing u.sect u.key p a (raw :: ls)).outcome u.key s (effective u.value)
        (final (writes p (raw :: ls)) (s, u.key)) := by
  obtain ⟨hraw, hrest⟩ := List.forall_mem_cons.mp hnl
  obtain ⟨hw, hwa, v, hv⟩ := replacement_eq_some hrep
  rw [mergeLines, landing, hname, hrep]
  simp only []
  rw [emitted_cons, writes_replaced p hraw h hw]
  by_cases hwu : w.key = u.key
  · -- this line assigns the key: it is replaced
    obtain rfl := h.eq_of_key hw hu hwu
    subst hwa
    rw [if_pos ⟨rfl, assigns_iff.mpr ⟨v, hv⟩⟩, final_cons,
      final_mergeLines_of_ne s p _ (h.sublist List.eraseP_sublist) (not_mem_eraseP_key h hw) ls
        hrest,
      Landing.outcome, writes, hv]
    by_cases hp : p = s
    · simp [hp]
    · simp [hp, Reading.log, Reading.next, final_cons]
  · have hkeep : ¬(a = u.sect ∧ assigns u.key raw) := by
      rintro ⟨-, hassigns⟩
      obtain ⟨v', hv'⟩ := assigns_iff.mp hassigns
      rw [hv] at hv'
      exact hwu (Reading.assign.inj hv').1
    subst hwa
    rw [final_cons_of_ne (by simp [hwu]),
      ih _ (h.sublist List.eraseP_sublist) (mem_eraseP_key hu (Ne.symm hwu)), if_neg hkeep,
      writes, final_append, final_log_of_ne hv hwu, Option.or_none, hv]
    rfl

theorem final_merge_kept (ih : ReadsAsLanded u ls) (hraw : '\n' ∉ raw)
    (hname : headerName raw = none) {a : Text} (hrep : replacement a us raw = none) (h : Tame us)
    (hu : u ∈ us) (s p : Text) :
    final (writes p (emitted (mergeLines a us (raw :: ls)))) (s, u.key) =
      (landing u.sect u.key p a (raw :: ls)).outcome u.key s (effective u.value)
        (final (writes p (raw :: ls)) (s, u.key)) := by
  have hkeep : ¬(a = u.sect ∧ assigns u.key raw) := fun hc =>
    replacement_eq_none hrep hu (h.words u hu).2 hc.1.symm hc.2
  rw [mergeLines, landing, hname, hrep]
  simp only []
  rw [emitted_cons, writes_raw p hraw, final_append, ih _ h hu, if_neg hkeep, Landing.outcome_or,
    writes, final_append]

end Cons

/-- A key with an update reads as its landing place says. -/
theorem final_mergeLines_of_mem (s p a : Text) {us : List Update} (h : Tame us) {u : Update}
    (hu : u ∈ us) (ls : List Text) (hnl : ∀ l ∈ ls, '\n' ∉ l) :
    final (writes p (emitted (mergeLines a us ls))) (s, u.key) =
      (landing u.sect u.key p a ls).outcome u.key s (effective u.value)
        (final (writes p ls) (s, u.key)) := by
  suffices hlanded : ReadsAsLanded u ls from hlanded us h hu s p a
  clear h hu
  induction ls with
  | nil => exact readsAsLanded_nil u
  | cons raw ls ih =>
      obtain ⟨hraw, hrest⟩ := List.forall_mem_cons.mp hnl
      have ih := ih hrest
      intro us h hu s p a
      cases hname : headerName raw with
      | some name => exact final_merge_header ih hnl hname h hu s p a
      | none =>
          cases hrep : replacement a us raw with
          | some w => exact final_merge_replaced ih hnl hname hrep h hu s p
          | none => exact final_merge_kept ih hraw hname hrep h hu s p

/-! ## The configuration after an update -/

/-- The place of an update in an old file. -/
def place (old : Text) (u : Update) : Landing :=
  landing u.sect u.key [] [] (lines old)

theorem get_applySettings (old s key : Text) (updates : List Update) :
    (parse (applySettings old updates)).get s key =
      final (writes [] (emitted (mergeLines [] (retained updates) (lines old)))) (s, key) := by
  rw [get_parse, applySettings_eq, lines_unlines_flatMap]
  rfl

theorem get_applySettings_of_ne {old key : Text} {updates : List Update}
    (h : Tame (retained updates)) (hkey : ∀ u ∈ retained updates, u.key ≠ key) (s : Text) :
    (parse (applySettings old updates)).get s key = (parse old).get s key := by
  rw [get_applySettings, get_parse]
  exact final_mergeLines_of_ne s [] [] h hkey _ fun _ hl => newline_not_mem_of_mem_lines hl

theorem get_applySettings_of_mem {old : Text} {updates : List Update} {u : Update}
    (h : Tame (retained updates)) (hu : u ∈ retained updates) (s : Text) :
    (parse (applySettings old updates)).get s u.key =
      (place old u).outcome u.key s (effective u.value) ((parse old).get s u.key) := by
  rw [get_applySettings, get_parse]
  exact final_mergeLines_of_mem s [] [] h hu _ fun _ hl => newline_not_mem_of_mem_lines hl

/-- The update leaves the other sections as they read before: the parser is in the right
section at its place, or the value there is overridden later, or it is the old one. -/
def Contained (old : Text) (u : Update) : Prop :=
  (place old u).sect = u.sect ∨
    (final (place old u).rest ((place old u).sect, u.key)).isSome ∨
    (parse old).get (place old u).sect u.key = some (effective u.value)

instance (old : Text) (u : Update) : Decidable (Contained old u) :=
  inferInstanceAs (Decidable (_ ∨ _))

/-- The update is what the parser reads: it is in the right section at its place and no
later line assigns another value, or the value was there already. -/
def Seen (old : Text) (u : Update) : Prop :=
  ((place old u).sect = u.sect ∧
      ∀ v ∈ final (place old u).rest (u.sect, u.key), v = effective u.value) ∨
    ((place old u).sect ≠ u.sect ∧ (parse old).get u.sect u.key = some (effective u.value))

instance (old : Text) (u : Update) : Decidable (Seen old u) :=
  inferInstanceAs (Decidable (_ ∨ _))

theorem outcome_eq_some_iff (old : Text) (u : Update) :
    (place old u).outcome u.key u.sect (effective u.value) ((parse old).get u.sect u.key) =
        some (effective u.value) ↔
      Seen old u := by
  rw [Landing.outcome, Seen]
  by_cases hsect : (place old u).sect = u.sect
  · cases final (place old u).rest (u.sect, u.key) <;> simp [hsect]
  · simp [hsect]

theorem final_rest_eq {old : Text} {u : Update} {s v : Text}
    (h : final (place old u).rest (s, u.key) = some v) : (parse old).get s u.key = some v := by
  obtain ⟨head, hhead⟩ := landing_rest_suffix u.sect u.key [] [] (lines old)
  rw [get_parse, ← hhead, final_append]
  simp only [place] at h
  rw [h]
  rfl

/-- The update changes nothing where it lands: the value is overridden later, or it is the old
one. -/
def InPlace (old : Text) (u : Update) : Prop :=
  (final (place old u).rest ((place old u).sect, u.key)).isSome ∨
    (parse old).get (place old u).sect u.key = some (effective u.value)

instance (old : Text) (u : Update) : Decidable (InPlace old u) :=
  inferInstanceAs (Decidable (_ ∨ _))

theorem outcome_eq_old_iff (old : Text) (u : Update) (s : Text) :
    (place old u).outcome u.key s (effective u.value) ((parse old).get s u.key) =
        (parse old).get s u.key ↔
      ((place old u).sect = s → InPlace old u) := by
  rw [Landing.outcome]
  split
  · rename_i hsect
    subst hsect
    cases hrest : final (place old u).rest ((place old u).sect, u.key) with
    | some v => simp [InPlace, hrest, final_rest_eq hrest]
    | none => simp [InPlace, hrest, eq_comm]
  · rename_i hsect
    exact iff_of_true rfl fun heq => absurd heq hsect

/-- The other sections read as before exactly if the one at the place does. -/
theorem outcome_kept_iff (old : Text) (u : Update) :
    (∀ s, s ≠ u.sect →
      (place old u).outcome u.key s (effective u.value) ((parse old).get s u.key) =
        (parse old).get s u.key) ↔
      Contained old u := by
  constructor
  · intro h
    by_cases hsect : (place old u).sect = u.sect
    · exact Or.inl hsect
    · exact Or.inr ((outcome_eq_old_iff old u _).mp (h _ hsect) rfl)
  · intro h s hs
    refine (outcome_eq_old_iff old u s).mpr ?_
    intro heq
    exact h.resolve_left fun hsect => hs (heq.symm.trans hsect)

/-! ## The managed settings -/

/-- Section and key of each setting of the form. -/
def managed : List (Text × Text) :=
  formFields.map (fun f => (f.1, f.2.1)) ++ [("dhcp".toList, "enabled".toList)]

theorem managed_words : ∀ a ∈ managed, IsWord a.1 ∧ IsWord a.2 := by
  decide +kernel

theorem managed_nodup : managed.Nodup := by
  decide +kernel

/-- A managed key belongs to one section. -/
theorem managed_key_injective : ∀ a ∈ managed, ∀ b ∈ managed, a.2 = b.2 → a = b := by
  decide +kernel

theorem tame_of_managed {us : List Update} (hm : ∀ u ∈ us, (u.sect, u.key) ∈ managed)
    (hd : (us.map fun u => (u.sect, u.key)).Nodup) (hi : ∀ u ∈ us, Inert u.value) : Tame us where
  keys := by
    rw [List.nodup_iff_pairwise_ne, List.pairwise_map] at hd
    refine hd.imp_of_mem ?_
    intro u w hu hw hne hkey
    exact hne (managed_key_injective _ (hm u hu) _ (hm w hw) hkey)
  words := fun u hu => managed_words _ (hm u hu)
  inert := hi

/-- A value on one line, without a comment sign, not blank and without outer whitespace. -/
structure PlainValue (v : Text) : Prop where
  ne_nil : v ≠ []
  newline : '\n' ∉ v
  hash : '#' ∉ v
  trimmed : trim v = v

instance (v : Text) : Decidable (PlainValue v) :=
  decidable_of_iff (v ≠ [] ∧ '\n' ∉ v ∧ '#' ∉ v ∧ trim v = v)
    ⟨fun ⟨hne, hnl, hhash, htrim⟩ => ⟨hne, hnl, hhash, htrim⟩,
      fun h => ⟨h.ne_nil, h.newline, h.hash, h.trimmed⟩⟩

theorem valueLines_of_newline {v : Text} (h : '\n' ∉ v) : valueLines v = [stripCr v] := by
  rw [valueLines, lines_append_newline v [] h]
  rfl

theorem inert_of_newline {v : Text} (h : '\n' ∉ v) : Inert v := by
  simp [Inert, valueLines_of_newline h]

theorem PlainValue.effective {v : Text} (h : PlainValue v) : effective v = v := by
  rw [Httpd.effective, valueLines_of_newline h.newline, List.headD_cons, content_stripCr, content,
    before_eq_self h.hash, h.trimmed]

theorem retained_eq_self {us : List Update} (h : ∀ u ∈ us, trim u.value ≠ []) :
    retained us = us := by
  apply List.filter_eq_self.mpr
  intro u hu
  simp [h u hu]

/-! ## Updates take effect -/

/-- Every update is read back, and everything else reads as before. -/
structure Applied (old : Text) (updates : List Update) : Prop where
  updated : ∀ u ∈ updates, (parse (applySettings old updates)).get u.sect u.key = some u.value
  kept : ∀ s key, (∀ u ∈ updates, (u.sect, u.key) ≠ (s, key)) →
    (parse (applySettings old updates)).get s key = (parse old).get s key

theorem mem_formUpdates {form : Form} {u : Update} (h : u ∈ formUpdates form) :
    (∃ f ∈ formFields, u.sect = f.1 ∧ u.key = f.2.1 ∧ field form f.2.2 = some u.value) ∨
      (u.sect, u.key) = ("dhcp".toList, "enabled".toList) := by
  rcases List.mem_append.mp h with h | h
  · obtain ⟨f, hf, hu⟩ := List.mem_filterMap.mp h
    obtain ⟨v, hv, rfl⟩ := Option.map_eq_some_iff.mp hu
    exact Or.inl ⟨f, hf, rfl, rfl, hv⟩
  · rw [List.mem_singleton.mp h]
    exact Or.inr rfl

/-- The form yields some of the managed settings, in their order. -/
theorem formUpdates_sublist (form : Form) :
    ((formUpdates form).map fun u => (u.sect, u.key)).Sublist managed := by
  rw [formUpdates, List.map_append, managed]
  refine List.Sublist.append ?_ (List.Sublist.refl _)
  induction formFields with
  | nil => simp
  | cons f fs ih =>
      cases hv : field form f.2.2 with
      | none =>
          simp only [List.filterMap_cons, hv, Option.map_none, List.map_cons]
          exact ih.cons _
      | some v =>
          simp only [List.filterMap_cons, hv, Option.map_some, List.map_cons]
          exact ih.cons_cons _

theorem mem_managed_of_retained {form : Form} :
    ∀ u ∈ retained (formUpdates form), (u.sect, u.key) ∈ managed := by
  intro u hu
  exact (formUpdates_sublist form).subset (List.mem_map_of_mem (List.mem_filter.mp hu).1)

theorem tame_formUpdates {form : Form} (h : ∀ u ∈ retained (formUpdates form), Inert u.value) :
    Tame (retained (formUpdates form)) := by
  have hsub : (retained (formUpdates form)).Sublist (formUpdates form) := List.filter_sublist
  have hpairs := (hsub.map fun u => (u.sect, u.key)).trans (formUpdates_sublist form)
  exact tame_of_managed mem_managed_of_retained (hpairs.nodup managed_nodup) h

theorem formUpdates_key {form : Form} {u : Update} (h : u ∈ formUpdates form)
    (hkey : u.key = "key".toList) : field form "wifi_key".toList = some u.value := by
  have hname : ∀ f ∈ formFields, f.2.1 = "key".toList → f.2.2 = "wifi_key".toList := by
    decide +kernel
  rcases mem_formUpdates h with ⟨f, hf, -, hfkey, hv⟩ | h
  · rw [← hname f hf (hfkey ▸ hkey)]
    exact hv
  · rw [(Prod.mk.inj h).2] at hkey
    exact absurd hkey (by decide +kernel)

/-- Saving changes the managed settings only, and a blank Wi-Fi key keeps the stored one. -/
structure Framed (stored : Option Text) (body : List UInt8) : Prop where
  kept : ∀ s key, (s, key) ∉ managed →
    (parse (mergedSettings stored body)).get s key = (load stored).get s key
  blank : (∀ v ∈ field (parseForm body) "wifi_key".toList, trim v = []) →
    (parse (mergedSettings stored body)).get "wifi".toList "key".toList =
      (load stored).get "wifi".toList "key".toList

theorem load_eq (stored : Option Text) : load stored = parse (stored.getD Config.default) := by
  cases stored with
  | none => rw [load, withDefaults, Option.getD_none]
  | some text => rw [load, Option.getD_some]

/-- The unmanaged settings are kept exactly if every update is contained where it lands. -/
theorem unmanaged_kept_iff (old : Text) {updates : List Update}
    (hm : ∀ u ∈ retained updates, (u.sect, u.key) ∈ managed) (htame : Tame (retained updates)) :
    (∀ s key, (s, key) ∉ managed →
      (parse (applySettings old updates)).get s key = (parse old).get s key) ↔
      ∀ u ∈ retained updates, Contained old u := by
  constructor
  · intro h u hu
    rw [← outcome_kept_iff]
    intro s hs
    rw [← get_applySettings_of_mem htame hu]
    apply h
    intro hmem
    exact hs (Prod.mk.inj (managed_key_injective _ hmem _ (hm u hu) rfl)).1
  · intro h s key hnot
    by_cases hkey : ∃ u ∈ retained updates, u.key = key
    · obtain ⟨u, hu, rfl⟩ := hkey
      have hs : s ≠ u.sect := by
        rintro rfl
        exact hnot (hm u hu)
      rw [get_applySettings_of_mem htame hu]
      exact (outcome_kept_iff _ u).mpr (h u hu) s hs
    · push Not at hkey
      exact get_applySettings_of_ne htame hkey s

/-- A blank key is a secret that is dropped. -/
theorem retained_key_ne {form : Form} (h : ∀ v ∈ field form "wifi_key".toList, trim v = []) :
    ∀ u ∈ retained (formUpdates form), u.key ≠ "key".toList := by
  intro u hu hkey
  obtain ⟨hmem, hret⟩ := List.mem_filter.mp hu
  have hv := h u.value (formUpdates_key hmem hkey)
  rw [hkey, hv] at hret
  exact absurd hret (by decide +kernel)

/-- A form whose values do not spill over their line is framed exactly if every update is
contained where it lands. -/
theorem framed_iff (stored : Option Text) (body : List UInt8)
    (hi : ∀ u ∈ retained (formUpdates (parseForm body)), Inert u.value) :
    Framed stored body ↔
      ∀ u ∈ retained (formUpdates (parseForm body)), Contained (stored.getD Config.default) u := by
  have htame := tame_formUpdates hi
  rw [← unmanaged_kept_iff _ mem_managed_of_retained htame]
  constructor
  · intro h s key hnot
    have hkept := h.kept s key hnot
    rwa [load_eq, mergedSettings] at hkept
  · intro h
    refine ⟨?_, ?_⟩
    · intro s key hnot
      rw [load_eq, mergedSettings]
      exact h s key hnot
    · intro hblank
      rw [load_eq, mergedSettings]
      exact get_applySettings_of_ne htame (retained_key_ne hblank) _

/-- A new hostname with the Wi-Fi key left blank. -/
theorem framed_hostname :
    Framed (some "[system]\nhostname = old\n[wifi]\nkey = secret # keep\n".toList)
      (Utf8.encode "hostname=new+name%0A&wifi_key=".toList) := by
  apply (framed_iff _ _ _).mpr
  · decide +kernel
  · decide +kernel

/-- A hostname with two encoded line ends sets the admin password. -/
theorem hostname_sets_password :
    ¬Framed (some "[admin]\npassword = secret\n".toList)
      (Utf8.encode "hostname=x%0A[admin]%0Apassword%3Downed".toList) := by
  intro h
  have hkept := h.kept "admin".toList "password".toList (by decide +kernel)
  exact absurd hkept (by decide +kernel)

end Lwrt.Httpd
