import Lwrt.Verification.Httpd.Layout
import Lwrt.Verification.Httpd.Settings

/-! # Saving the same form twice

The second pass finds each update where the first one put it. -/

namespace Lwrt.Httpd

open Library Text Config

/-- The line that the second pass makes of a line of the first. -/
def Item.again (item : Item) : Item :=
  match item with
  | .kept raw => .kept (stripCr raw)
  | .replaced _ u => .replaced (stripCr item.text) u
  | .inserted u => .replaced (stripCr item.text) u
  | .blank => .kept []
  | .header sect => .kept ('[' :: sect ++ [']'])

/-! ## Lines read again -/

theorem headerName_stripCr (raw : Text) : headerName (stripCr raw) = headerName raw := by
  have htrim : trim (stripCr raw) = trim raw := by
    rw [stripCr]
    split
    · rename_i hlast
      obtain ⟨x, rfl⟩ := List.getLast?_eq_some_iff.mp hlast
      rw [List.dropLast_concat, trim_append_whitespace x (by decide)]
    · rfl
  rw [headerName, htrim, headerName]

theorem splitKv_stripCr (raw : Text) : splitKv (stripCr raw) = splitKv raw := by
  rw [splitKv, content_stripCr, splitKv]

theorem replacement_stripCr (sect : Text) (us : List Update) (raw : Text) :
    replacement sect us (stripCr raw) = replacement sect us raw := by
  rw [replacement, splitKv_stripCr, replacement]

/-- A line that the form wrote. -/
theorem splitKv_assignment {indent key : Text} (hindent : ∀ c ∈ indent, isWhitespace c = true)
    (hkey : IsWord key) (value : Text) :
    headerName (indent ++ assignment key value) = none ∧
      splitKv (indent ++ assignment key value) = some (key, trim (before '#' value)) :=
  splitKv_of_reading (reading_assign hindent hkey value) hkey

theorem takeWhile_stripCr_assignment {indent key : Text}
    (hindent : ∀ c ∈ indent, isWhitespace c = true) (hkey : IsWord key) (value : Text) :
    (stripCr (indent ++ assignment key value)).takeWhile isWhitespace = indent := by
  obtain ⟨c, t, rfl⟩ := List.exists_cons_of_ne_nil hkey.1
  have hc : isWhitespace c = false := hkey.isToken.2 c (by simp)
  have hcr : c ≠ '\r' := by
    rintro rfl
    exact absurd hc (by decide)
  rw [assignment, List.cons_append, stripCr_append_cons indent hcr,
    List.takeWhile_append_of_pos hindent, List.takeWhile_cons_of_neg (by simp [hc]),
    List.append_nil]

/-- The line of an update is replaced by itself. -/
theorem mergeItems_assignment {sect indent : Text} {us : List Update} {u : Update}
    (hindent : ∀ c ∈ indent, isWhitespace c = true) (hkey : IsWord u.key)
    (hfind : us.find? (fun w => w.sect = sect ∧ w.key = u.key) = some u) (ls : List Text) :
    mergeItems sect us (stripCr (indent ++ assignment u.key u.value) :: ls) =
      .replaced (stripCr (indent ++ assignment u.key u.value)) u ::
        mergeItems sect (us.eraseP fun w => w.sect = sect ∧ w.key = u.key) ls := by
  obtain ⟨hname, hsplit⟩ := splitKv_assignment hindent hkey u.value
  have hrep : replacement sect us (stripCr (indent ++ assignment u.key u.value)) = some u := by
    rw [replacement_stripCr, replacement, hsplit, Option.bind_some, hfind]
  rw [mergeItems, headerName_stripCr, hname, hrep]

/-! ## The second pass -/

/-- What the second pass reads. -/
def Item.line (item : Item) : Text :=
  stripCr item.text

variable {us : List Update}

/-- An update behind those for other sections is the one that is found for its key, and it goes. -/
theorem find_behind {front : List Update} {u : Update} (hfront : ∀ w ∈ front, w.sect ≠ u.sect)
    (us : List Update) :
    (front ++ u :: us).find? (fun w => w.sect = u.sect ∧ w.key = u.key) = some u ∧
      (front ++ u :: us).eraseP (fun w => w.sect = u.sect ∧ w.key = u.key) = front ++ us := by
  have hskip : ∀ w ∈ front, ¬(w.sect = u.sect ∧ w.key = u.key) := fun w hw h => hfront w hw h.1
  have hnone : front.find? (fun w => w.sect = u.sect ∧ w.key = u.key) = none :=
    List.find?_eq_none.mpr (by simpa using hskip)
  constructor
  · rw [List.find?_append, hnone, Option.none_or, List.find?_cons_of_pos (by simp)]
  · rw [List.eraseP_append_right _ (by simpa using hskip), List.eraseP_cons_of_pos (by simp)]

/-- Inserted lines use up their updates. The updates in front are for other sections. -/
theorem mergeItems_flushItems {sect : Text} (front : List Update)
    (hfront : ∀ u ∈ front, u.sect ≠ sect) (hkeys : ∀ u ∈ us, IsWord u.key) (ls : List Text) :
    mergeItems sect (front ++ us) ((flushItems sect us).map Item.line ++ ls) =
      (flushItems sect us).map Item.again ++ mergeItems sect (front ++ pending sect us) ls := by
  induction us generalizing front with
  | nil => rfl
  | cons u us ih =>
      have hrest : ∀ w ∈ us, IsWord w.key := fun w hw => hkeys w (by simp [hw])
      by_cases hu : u.sect = sect
      · obtain ⟨hfind, herase⟩ := find_behind (by rwa [hu]) us
        rw [hu] at hfind herase
        have hflush : flushItems sect (u :: us) = .inserted u :: flushItems sect us := by
          simp [flushItems, hu]
        have hpending : pending sect (u :: us) = pending sect us := by
          simp [pending, hu]
        have hblank : ∀ c ∈ ([] : Text), isWhitespace c = true := by simp
        have hline := mergeItems_assignment hblank (hkeys u (by simp)) hfind
          ((flushItems sect us).map Item.line ++ ls)
        rw [hflush, hpending, List.map_cons, List.cons_append, List.map_cons, List.cons_append,
          ← ih front hfront hrest, ← herase]
        exact hline
      · have hflush : flushItems sect (u :: us) = flushItems sect us := by
          simp [flushItems, hu]
        have hpending : pending sect (u :: us) = u :: pending sect us := by
          simp [pending, hu]
        have hother : ∀ w ∈ front ++ [u], w.sect ≠ sect := by
          intro w hw
          rcases List.mem_append.mp hw with hw | hw
          · exact hfront w hw
          · rw [List.mem_singleton.mp hw]
            exact hu
        have hfold := ih (front ++ [u]) hother hrest
        rw [List.append_assoc, List.append_assoc] at hfold
        rw [hflush, hpending]
        exact hfold

theorem mergeItems_flush (sect : Text) (hkeys : ∀ u ∈ us, IsWord u.key) (ls : List Text) :
    mergeItems sect us ((flushItems sect us).map Item.line ++ ls) =
      (flushItems sect us).map Item.again ++ mergeItems sect (pending sect us) ls := by
  have hfront : ∀ u ∈ ([] : List Update), u.sect ≠ sect := by simp
  exact mergeItems_flushItems [] hfront hkeys ls

theorem flushItems_of_ne {sect : Text} (h : ∀ u ∈ us, u.sect ≠ sect) : flushItems sect us = [] := by
  rw [flushItems, List.filter_eq_nil_iff.mpr (by simpa using h), List.map_nil]

theorem pending_of_ne {sect : Text} (h : ∀ u ∈ us, u.sect ≠ sect) : pending sect us = us :=
  List.filter_eq_self.mpr (by simpa using h)

theorem sect_ne_of_mem_pending {sect : Text} : ∀ u ∈ pending sect us, u.sect ≠ sect := by
  intro u hu
  simpa using (List.mem_filter.mp hu).2

theorem headerName_header {sect : Text} (h : IsWord sect) :
    headerName ('[' :: sect ++ [']']) = some sect := by
  have htoken : IsToken ('[' :: sect ++ [']']) :=
    (IsToken.cons (by decide) h.isToken).append (by decide)
  rw [headerName, trim_token htoken]
  simp [bracketed, stripPrefix, stripSuffix, trim_token h.isToken]

/-- The header of a section for which nothing is pending in the block it closes. -/
theorem mergeItems_header {sect : Text} (h : ∀ u ∈ us, u.sect ≠ sect) {raw name : Text}
    (hname : headerName raw = some name) (ls : List Text) :
    mergeItems sect us (raw :: ls) = .kept raw :: mergeItems name us ls := by
  rw [mergeItems, hname]
  simp only []
  rw [flushItems_of_ne h, pending_of_ne h, List.nil_append]

/-- New sections are found again. -/
theorem mergeItems_sectionItems {sect : Text} {ss : List Text} (hss : ∀ s ∈ ss, IsWord s)
    (hkeys : ∀ u ∈ us, IsWord u.key) (hused : ∀ u ∈ us, u.sect ∈ ss)
    (hne : ∀ u ∈ us, u.sect ≠ sect) :
    mergeItems sect us ((sectionItems ss us).map Item.line) =
      (sectionItems ss us).map Item.again := by
  induction ss generalizing sect us with
  | nil =>
      rw [List.eq_nil_iff_forall_not_mem.mpr fun u hu => absurd (hused u hu) List.not_mem_nil]
      rfl
  | cons s ss ih =>
      have hs := hss s (by simp)
      have hblank : mergeItems sect us ([] :: ('[' :: s ++ [']']) ::
          ((flushItems s us).map Item.line ++
            (sectionItems ss (pending s us)).map Item.line)) =
          .kept [] :: mergeItems sect us (('[' :: s ++ [']']) ::
            ((flushItems s us).map Item.line ++
              (sectionItems ss (pending s us)).map Item.line)) := rfl
      have hheader : Item.line (.header s) = '[' :: s ++ [']'] :=
        stripCr_eq_self_iff.mpr (by rw [Item.text, List.getLast?_concat]; decide)
      have hrest : mergeItems s (pending s us) ((sectionItems ss (pending s us)).map Item.line) =
          (sectionItems ss (pending s us)).map Item.again := by
        refine ih (fun t ht => hss t (by simp [ht])) ?_ ?_ sect_ne_of_mem_pending
        · exact fun u hu => hkeys u (List.mem_filter.mp hu).1
        · intro u hu
          exact (List.mem_cons.mp (hused u (List.mem_filter.mp hu).1)).resolve_left
            (sect_ne_of_mem_pending u hu)
      rw [sectionItems, List.map_cons, List.map_cons, List.map_append, hheader]
      refine hblank.trans ?_
      rw [mergeItems_header hne (headerName_header hs), mergeItems_flush s hkeys, hrest]
      simp [Item.again]

/-- The second pass keeps every line, but for a carriage return at the end of a kept one. -/
theorem mergeItems_again (sect : Text) (hwords : ∀ u ∈ us, IsWord u.sect ∧ IsWord u.key)
    (ls : List Text) :
    mergeItems sect us ((mergeItems sect us ls).map Item.line) =
      (mergeItems sect us ls).map Item.again := by
  induction ls generalizing sect us with
  | nil =>
      have hkeys : ∀ u ∈ us, IsWord u.key := fun u hu => (hwords u hu).2
      rw [mergeItems, List.map_append, mergeItems_flush sect hkeys, List.map_append]
      refine congrArg _ (mergeItems_sectionItems ?_ ?_ ?_ sect_ne_of_mem_pending)
      · intro s hs
        obtain ⟨u, hu, rfl⟩ := mem_pendingSections.mp hs
        exact (hwords u (List.mem_filter.mp hu).1).1
      · exact fun u hu => hkeys u (List.mem_filter.mp hu).1
      · exact fun u hu => mem_pendingSections.mpr ⟨u, hu, rfl⟩
  | cons raw ls ih =>
      have hkeys : ∀ u ∈ us, IsWord u.key := fun u hu => (hwords u hu).2
      rw [mergeItems]
      cases hname : headerName raw with
      | some name =>
          have hline : headerName (Item.line (.kept raw)) = some name := by
            rw [Item.line, Item.text, headerName_stripCr, hname]
          have hpending : ∀ u ∈ pending sect us, IsWord u.sect ∧ IsWord u.key :=
            fun u hu => hwords u (List.mem_filter.mp hu).1
          simp only [List.map_append, List.map_cons]
          rw [mergeItems_flush sect hkeys, mergeItems_header sect_ne_of_mem_pending hline,
            ih name hpending]
          rfl
      | none =>
          cases hrep : replacement sect us raw with
          | some u =>
              obtain ⟨⟨k, v⟩, -, hfind⟩ := Option.bind_eq_some_iff.mp hrep
              have hu := List.find?_some hfind
              simp only [decide_eq_true_eq] at hu
              have hmem := List.mem_of_find?_eq_some hfind
              rw [← hu.2] at hfind
              have hindent : ∀ c ∈ raw.takeWhile isWhitespace, isWhitespace c = true :=
                fun _ hc => List.mem_takeWhile_imp hc
              simp only [List.map_cons]
              rw [← ih sect fun w hw => hwords w (List.mem_of_mem_eraseP hw)]
              exact mergeItems_assignment hindent (hkeys u hmem) hfind _
          | none =>
              have hline : replacement sect us (stripCr raw) = none := by
                rw [replacement_stripCr, hrep]
              simp only [List.map_cons]
              rw [Item.line, Item.text, mergeItems, headerName_stripCr, hname, hline]
              simp only []
              rw [ih sect hwords]
              rfl

/-! ## The file after a second save -/

/-- The old lines that a save copies. -/
def keptLines (old : Text) (updates : List Update) : List Text :=
  (mergeItems [] (retained updates) (lines old)).filterMap fun item =>
    match item with
    | .kept raw => some raw
    | _ => none

theorem mem_keptLines {old raw : Text} {updates : List Update} :
    raw ∈ keptLines old updates ↔ .kept raw ∈ mergeItems [] (retained updates) (lines old) := by
  rw [keptLines, List.mem_filterMap]
  constructor
  · rintro ⟨item, hitem, heq⟩
    cases item <;> simp_all
  · intro h
    exact ⟨_, h, rfl⟩

theorem mem_of_old {sect raw : Text} {ls : List Text} {item : Item}
    (h : item ∈ mergeItems sect us ls) (hold : item.old = some raw) : raw ∈ ls := by
  rw [← filterMap_old_mergeItems sect us ls]
  exact List.mem_filterMap.mpr ⟨item, h, hold⟩

theorem mem_of_update {sect : Text} {ls : List Text} {item : Item} {u : Update}
    (h : item ∈ mergeItems sect us ls) (hupdate : item.update = some u) : u ∈ us :=
  (filterMap_update_mergeItems sect us ls).mem_iff.mp (List.mem_filterMap.mpr ⟨item, h, hupdate⟩)

/-- A new header is there for an update. -/
theorem exists_of_header {sect : Text} {ls : List Text}
    (h : .header sect ∈ mergeItems [] us ls) : ∃ u ∈ us, u.sect = sect := by
  have hpending : Pending [] [] us := ⟨[], rfl, fun _ _ => List.not_mem_nil⟩
  have hlaid := laid_mergeItems hpending ls
  obtain ⟨earlier, later, hsplit⟩ := List.append_of_mem h
  rw [hsplit] at hlaid
  cases hlaid.placed with
  | header hblank hnew hend hnext hsect =>
      rename_i u
      have hmem : .inserted u ∈ mergeItems [] us ls := by
        rw [hsplit]
        exact List.mem_append_right _ (List.mem_cons_of_mem _ (List.mem_of_mem_head? hnext))
      exact ⟨u, mem_of_update hmem rfl, hsect⟩

section Texts

variable {old : Text} {item : Item}

theorem newline_not_mem_assignment {u : Update} (hkey : IsWord u.key) (hvalue : '\n' ∉ u.value) :
    '\n' ∉ assignment u.key u.value := by
  simp [assignment, hkey.isToken.newline_not_mem, hvalue]

theorem newline_not_mem_text (hwords : ∀ u ∈ us, IsWord u.sect ∧ IsWord u.key)
    (hvalues : ∀ u ∈ us, '\n' ∉ u.value) (h : item ∈ mergeItems [] us (lines old)) :
    '\n' ∉ item.text := by
  cases item with
  | kept raw => exact newline_not_mem_of_mem_lines (mem_of_old h rfl)
  | replaced raw u =>
      have hu := mem_of_update h rfl
      have hraw := newline_not_mem_of_mem_lines (mem_of_old h rfl)
      rw [Item.text, List.mem_append, not_or]
      exact ⟨fun hmem => hraw ((List.takeWhile_prefix isWhitespace).subset hmem),
        newline_not_mem_assignment (hwords u hu).2 (hvalues u hu)⟩
  | inserted u =>
      have hu := mem_of_update h rfl
      exact newline_not_mem_assignment (hwords u hu).2 (hvalues u hu)
  | blank => exact List.not_mem_nil
  | header sect =>
      obtain ⟨u, hu, rfl⟩ := exists_of_header h
      have hnl := (hwords u hu).1.isToken.newline_not_mem
      simp [Item.text, hnl]

/-- A kept line loses a last carriage return, the other lines stay. -/
theorem text_again (hwords : ∀ u ∈ us, IsWord u.sect ∧ IsWord u.key)
    (h : item ∈ mergeItems [] us (lines old)) :
    item.again.text = item.text ∨ ∃ raw, item = .kept raw ∧ item.again.text = stripCr raw := by
  cases item with
  | kept raw => exact Or.inr ⟨raw, rfl, rfl⟩
  | replaced raw u =>
      refine Or.inl ?_
      have hindent : ∀ c ∈ raw.takeWhile isWhitespace, isWhitespace c = true :=
        fun _ hc => List.mem_takeWhile_imp hc
      rw [Item.again, Item.text, Item.text,
        takeWhile_stripCr_assignment hindent (hwords u (mem_of_update h rfl)).2]
  | inserted u =>
      refine Or.inl ?_
      have hindent : ∀ c ∈ ([] : Text), isWhitespace c = true := by simp
      have htake := takeWhile_stripCr_assignment hindent (hwords u (mem_of_update h rfl)).2 u.value
      rw [List.nil_append] at htake
      rw [Item.again, Item.text, Item.text, htake, List.nil_append]
  | blank => exact Or.inl rfl
  | header sect => exact Or.inl rfl

end Texts

theorem applySettings_items (old : Text) (updates : List Update) :
    applySettings old updates =
      unlines ((mergeItems [] (retained updates) (lines old)).map Item.text) := by
  rw [applySettings_eq, map_text_mergeItems]

theorem applySettings_twice {old : Text} {updates : List Update}
    (hwords : ∀ u ∈ retained updates, IsWord u.sect ∧ IsWord u.key)
    (hvalues : ∀ u ∈ retained updates, '\n' ∉ u.value) :
    applySettings (applySettings old updates) updates =
      unlines ((mergeItems [] (retained updates) (lines old)).map fun item => item.again.text) := by
  have hnl : ∀ l ∈ (mergeItems [] (retained updates) (lines old)).map Item.text, '\n' ∉ l := by
    intro l hl
    obtain ⟨item, hitem, rfl⟩ := List.mem_map.mp hl
    exact newline_not_mem_text hwords hvalues hitem
  have hlines : lines (applySettings old updates) =
      (mergeItems [] (retained updates) (lines old)).map Item.line := by
    rw [applySettings_items, lines_unlines_stripCr _ hnl, List.map_map]
    rfl
  rw [applySettings_items (applySettings old updates), hlines, mergeItems_again [] hwords,
    List.map_map]
  rfl

theorem formUpdates_words (form : Form) :
    ∀ u ∈ retained (formUpdates form), IsWord u.sect ∧ IsWord u.key := by
  intro u hu
  exact managed_words _ ((formUpdates_sublist form).subset
    (List.mem_map_of_mem (List.mem_filter.mp hu).1))

theorem unlines_sublist {items : List Item}
    (h : ∀ item ∈ items, item.again.text.Sublist item.text) :
    (unlines (items.map fun item => item.again.text)).Sublist (unlines (items.map Item.text)) := by
  induction items with
  | nil => exact List.Sublist.refl _
  | cons item items ih =>
      rw [List.map_cons, List.map_cons, unlines_cons, unlines_cons]
      exact (h item (by simp)).append ((ih fun i hi => h i (by simp [hi])).cons_cons '\n')

/-- The second save of a form whose values are lines changes nothing exactly if no line that is
kept ends with a carriage return. It adds nothing in any case. -/
theorem resave_eq_iff (old : Text) {form : Form} (hvalues : ∀ u ∈ formUpdates form, '\n' ∉ u.value) :
    (applySettings (applySettings old (formUpdates form)) (formUpdates form) =
        applySettings old (formUpdates form) ↔
      ∀ raw ∈ keptLines old (formUpdates form), raw.getLast? ≠ some '\r') ∧
    (applySettings (applySettings old (formUpdates form)) (formUpdates form)).Sublist
      (applySettings old (formUpdates form)) := by
  have hwords := formUpdates_words form
  have hretained : ∀ u ∈ retained (formUpdates form), '\n' ∉ u.value :=
    fun u hu => hvalues u (List.mem_filter.mp hu).1
  rw [applySettings_twice hwords hretained, applySettings_items]
  have hsub : ∀ item ∈ mergeItems [] (retained (formUpdates form)) (lines old),
      item.again.text.Sublist item.text := by
    intro item hitem
    rcases text_again hwords hitem with heq | ⟨raw, rfl, heq⟩
    · rw [heq]
    · rw [heq]
      exact stripCr_sublist raw
  refine ⟨⟨?_, ?_⟩, unlines_sublist hsub⟩
  · intro h raw hraw
    have hitem := mem_keptLines.mp hraw
    have hnl : ∀ item ∈ mergeItems [] (retained (formUpdates form)) (lines old),
        '\n' ∉ item.text := fun item hitem => newline_not_mem_text hwords hretained hitem
    have hmaps := unlines_inj
      (List.forall_mem_map.mpr fun item hitem hmem =>
        hnl item hitem ((hsub item hitem).subset hmem))
      (List.forall_mem_map.mpr hnl) h
    exact stripCr_eq_self_iff.mp (List.map_inj_left.mp hmaps _ hitem)
  · intro h
    refine congrArg unlines (List.map_congr_left ?_)
    intro item hitem
    rcases text_again hwords hitem with heq | ⟨raw, rfl, heq⟩
    · exact heq
    · rw [heq]
      exact stripCr_eq_self_iff.mpr (h raw (mem_keptLines.mpr hitem))

/-- A hostname is replaced, a section is created. -/
theorem resave_hostname :
    (applySettings (applySettings "[system]\r\n hostname = a # b\n".toList
        (formUpdates [("hostname".toList, "c".toList)]))
        (formUpdates [("hostname".toList, "c".toList)]) =
      applySettings "[system]\r\n hostname = a # b\n".toList
        (formUpdates [("hostname".toList, "c".toList)]) ↔
      ∀ raw ∈ keptLines "[system]\r\n hostname = a # b\n".toList
        (formUpdates [("hostname".toList, "c".toList)]), raw.getLast? ≠ some '\r') ∧
    (applySettings (applySettings "[system]\r\n hostname = a # b\n".toList
        (formUpdates [("hostname".toList, "c".toList)]))
        (formUpdates [("hostname".toList, "c".toList)])).Sublist
      (applySettings "[system]\r\n hostname = a # b\n".toList
        (formUpdates [("hostname".toList, "c".toList)])) :=
  resave_eq_iff _ (by decide +kernel)

/-- The line end of a comment has two carriage returns; each save drops one. -/
theorem carriageReturns_not_resaved :
    (∀ u ∈ formUpdates [], '\n' ∉ u.value) ∧
      applySettings (applySettings "# lan\r\r\n".toList (formUpdates [])) (formUpdates []) ≠
        applySettings "# lan\r\r\n".toList (formUpdates []) := by
  decide +kernel

end Lwrt.Httpd
