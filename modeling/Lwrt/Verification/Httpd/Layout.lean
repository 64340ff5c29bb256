import Mathlib.Data.List.Perm.Basic
import Lwrt.Verification.Httpd.Merge

/-! # The lines of a saved file

Every line of the output is an old one, replaces an old one, or was inserted for an update. -/

namespace Lwrt.Httpd

open Library Text

/-- A line of the output, with its origin. -/
inductive Item where
  | kept (raw : Text)
  | replaced (raw : Text) (u : Update)
  | inserted (u : Update)
  /-- The blank line above a new header. -/
  | blank
  | header (sect : Text)
deriving DecidableEq

namespace Item

def text : Item → Text
  | kept raw => raw
  | replaced raw u => raw.takeWhile isWhitespace ++ assignment u.key u.value
  | inserted u => assignment u.key u.value
  | blank => []
  | header sect => '[' :: sect ++ [']']

/-- The old line that an output line stands for. -/
def old : Item → Option Text
  | kept raw => some raw
  | replaced raw _ => some raw
  | _ => none

/-- The update that an output line carries. -/
def update : Item → Option Update
  | replaced _ u => some u
  | inserted u => some u
  | _ => none

/-- The section that starts at an output line. -/
def opens : Item → Option Text
  | kept raw => headerName raw
  | header sect => some sect
  | _ => none

end Item

/-- The sections of the blocks that some lines belong to; the first block has no header. -/
def blocks (items : List Item) : List Text :=
  [] :: items.filterMap Item.opens

/-- The lines end in the first block of a section. -/
def InFirstBlock (items : List Item) (sect : Text) : Prop :=
  ∃ earlier, blocks items = earlier ++ [sect] ∧ sect ∉ earlier

/-- No old line of the current block comes any more. -/
def BlockEnds (items : List Item) : Prop :=
  ∀ raw ∈ (items.filterMap Item.old).head?, (headerName raw).isSome

/-- Where a line of the output may stand: what comes before it, and after it. -/
inductive Placed (earlier later : List Item) : Item → Prop
  | kept (raw : Text) : Placed earlier later (.kept raw)
  | replaced {raw v : Text} {u : Update} (hname : headerName raw = none)
      (hkey : splitKv raw = some (u.key, v)) (hfirst : InFirstBlock earlier u.sect) :
      Placed earlier later (.replaced raw u)
  | inserted {u : Update} (hfirst : InFirstBlock earlier u.sect) (hends : BlockEnds later) :
      Placed earlier later (.inserted u)
  | blank {sect : Text} (hheader : later.head? = some (.header sect)) : Placed earlier later .blank
  | header {sect : Text} {u : Update} (hblank : earlier.getLast? = some .blank)
      (hnew : sect ∉ blocks earlier) (hend : later.filterMap Item.old = [])
      (hnext : later.head? = some (.inserted u)) (hsect : u.sect = sect) :
      Placed earlier later (.header sect)

/-- Every line stands where it may, after some lines. -/
def Laid (earlier : List Item) : List Item → Prop
  | [] => True
  | item :: later => Placed earlier later item ∧ Laid (earlier ++ [item]) later

theorem Laid.placed {earlier before later : List Item} {item : Item}
    (h : Laid earlier (before ++ item :: later)) : Placed (earlier ++ before) later item := by
  induction before generalizing earlier with
  | nil =>
      rw [List.append_nil]
      exact h.1
  | cons first before ih =>
      have hplaced := ih h.2
      rwa [List.append_assoc] at hplaced

/-! ## The lines of the loop -/

def flushItems (sect : Text) (us : List Update) : List Item :=
  (us.filter (·.sect = sect)).map Item.inserted

def sectionItems : List Text → List Update → List Item
  | [], _ => []
  | s :: ss, us => .blank :: .header s :: (flushItems s us ++ sectionItems ss (pending s us))

def mergeItems (sect : Text) (us : List Update) : List Text → List Item
  | [] => flushItems sect us ++ sectionItems (pendingSections (pending sect us)) (pending sect us)
  | raw :: ls =>
      match headerName raw with
      | some name => flushItems sect us ++ .kept raw :: mergeItems name (pending sect us) ls
      | none =>
          match replacement sect us raw with
          | some u =>
              .replaced raw u :: mergeItems sect (us.eraseP fun w => w.sect = sect ∧ w.key = u.key) ls
          | none => .kept raw :: mergeItems sect us ls

theorem map_text_flushItems (sect : Text) (us : List Update) :
    (flushItems sect us).map Item.text = flushed sect us := by
  rw [flushItems, flushed, List.map_map]
  rfl

theorem map_text_sectionItems (ss : List Text) (us : List Update) :
    (sectionItems ss us).map Item.text = newSections ss us := by
  induction ss generalizing us with
  | nil => rfl
  | cons s ss ih =>
      rw [sectionItems, List.map_cons, List.map_cons, List.map_append, map_text_flushItems, ih]
      rfl

theorem map_text_mergeItems (sect : Text) (us : List Update) (ls : List Text) :
    (mergeItems sect us ls).map Item.text = mergeLines sect us ls := by
  induction ls generalizing sect us with
  | nil => rw [mergeItems, List.map_append, map_text_flushItems, map_text_sectionItems, mergeLines]
  | cons raw ls ih =>
      rw [mergeItems, mergeLines]
      cases headerName raw with
      | some name =>
          simp only [List.map_append, List.map_cons, map_text_flushItems, ih]
          rfl
      | none =>
          cases replacement sect us raw with
          | some u =>
              simp only [List.map_cons, ih]
              rfl
          | none =>
              simp only [List.map_cons, ih]
              rfl

/-! ## No line is lost -/

theorem filterMap_old_flushItems (sect : Text) (us : List Update) :
    (flushItems sect us).filterMap Item.old = [] := by
  rw [flushItems, List.filterMap_map]
  exact List.filterMap_eq_nil_iff.mpr fun _ _ => rfl

theorem filterMap_old_sectionItems (ss : List Text) (us : List Update) :
    (sectionItems ss us).filterMap Item.old = [] := by
  induction ss generalizing us with
  | nil => rfl
  | cons s ss ih =>
      rw [sectionItems, List.filterMap_cons_none rfl, List.filterMap_cons_none rfl,
        List.filterMap_append, filterMap_old_flushItems, ih, List.nil_append]

theorem filterMap_old_mergeItems (sect : Text) (us : List Update) (ls : List Text) :
    (mergeItems sect us ls).filterMap Item.old = ls := by
  induction ls generalizing sect us with
  | nil =>
      rw [mergeItems, List.filterMap_append, filterMap_old_flushItems, filterMap_old_sectionItems,
        List.nil_append]
  | cons raw ls ih =>
      rw [mergeItems]
      cases headerName raw with
      | some name => simp [filterMap_old_flushItems, Item.old, ih]
      | none =>
          cases replacement sect us raw with
          | some u => simp [Item.old, ih]
          | none => simp [Item.old, ih]

/-! ## Every update is written once -/

theorem filterMap_update_flushItems (sect : Text) (us : List Update) :
    (flushItems sect us).filterMap Item.update = us.filter (·.sect = sect) := by
  rw [flushItems, List.filterMap_map]
  exact List.filterMap_some

theorem filter_append_pending_perm (sect : Text) (us : List Update) :
    (us.filter (·.sect = sect) ++ pending sect us).Perm us := by
  have hpending : pending sect us = us.filter fun u => !decide (u.sect = sect) := by
    simp [pending]
  rw [hpending]
  exact List.filter_append_perm _ us

theorem filterMap_update_sectionItems (ss : List Text) (us : List Update)
    (h : ∀ u ∈ us, u.sect ∈ ss) : ((sectionItems ss us).filterMap Item.update).Perm us := by
  induction ss generalizing us with
  | nil =>
      rw [List.eq_nil_iff_forall_not_mem.mpr fun u hu => absurd (h u hu) List.not_mem_nil]
      exact .refl _
  | cons s ss ih =>
      rw [sectionItems, List.filterMap_cons_none rfl, List.filterMap_cons_none rfl,
        List.filterMap_append, filterMap_update_flushItems]
      refine (List.Perm.append_left _ (ih _ ?_)).trans (filter_append_pending_perm s us)
      intro u hu
      obtain ⟨hmem, hne⟩ := List.mem_filter.mp hu
      exact (List.mem_cons.mp (h u hmem)).resolve_left (by simpa using hne)

theorem eraseP_perm {us : List Update} {sect raw : Text} {u : Update}
    (h : replacement sect us raw = some u) :
    (u :: us.eraseP fun w => w.sect = sect ∧ w.key = u.key).Perm us := by
  obtain ⟨kv, -, hfind⟩ := Option.bind_eq_some_iff.mp h
  obtain ⟨hu, front, back, rfl, hfront⟩ := List.find?_eq_some_iff_append.mp hfind
  simp only [decide_eq_true_eq] at hu
  obtain ⟨rfl, hkey⟩ := hu
  have hbefore : ∀ w ∈ front, ¬(w.sect = u.sect ∧ w.key = u.key) := by
    intro w hw
    rw [hkey]
    simpa only [Bool.not_eq_true', decide_eq_false_iff_not] using hfront w hw
  rw [List.eraseP_append_right _ (by simpa only [decide_eq_true_eq] using hbefore),
    List.eraseP_cons_of_pos (by simp)]
  exact List.perm_middle.symm

theorem filterMap_update_mergeItems (sect : Text) (us : List Update) (ls : List Text) :
    ((mergeItems sect us ls).filterMap Item.update).Perm us := by
  induction ls generalizing sect us with
  | nil =>
      rw [mergeItems, List.filterMap_append, filterMap_update_flushItems]
      refine (List.Perm.append_left _ ?_).trans (filter_append_pending_perm sect us)
      exact filterMap_update_sectionItems _ _ fun u hu => mem_pendingSections.mpr ⟨u, hu, rfl⟩
  | cons raw ls ih =>
      rw [mergeItems]
      cases headerName raw with
      | some name =>
          simp only [List.filterMap_append, filterMap_update_flushItems]
          rw [List.filterMap_cons_none rfl]
          exact (List.Perm.append_left _ (ih name _)).trans (filter_append_pending_perm sect us)
      | none =>
          cases hrep : replacement sect us raw with
          | some u =>
              simp only [List.filterMap_cons, Item.update]
              exact ((ih sect _).cons u).trans (eraseP_perm hrep)
          | none =>
              simp only []
              rw [List.filterMap_cons_none rfl]
              exact ih sect us

/-! ## Every line stands in its place -/

theorem blocks_append (items more : List Item) :
    blocks (items ++ more) = blocks items ++ more.filterMap Item.opens := by
  rw [blocks, List.filterMap_append, blocks, List.cons_append]

theorem filterMap_opens_inserted (vs : List Update) :
    (vs.map Item.inserted).filterMap Item.opens = [] := by
  rw [List.filterMap_map]
  exact List.filterMap_eq_nil_iff.mpr fun _ _ => rfl

theorem blockEnds_inserted (vs : List Update) {rest : List Item} (h : BlockEnds rest) :
    BlockEnds (vs.map Item.inserted ++ rest) := by
  have hold : (vs.map Item.inserted).filterMap Item.old = [] := by
    rw [List.filterMap_map]
    exact List.filterMap_eq_nil_iff.mpr fun _ _ => rfl
  rw [BlockEnds, List.filterMap_append, hold, List.nil_append]
  exact h

/-- Updates that are inserted together. -/
theorem laid_inserted {earlier rest : List Item} {vs : List Update}
    (hfirst : ∀ u ∈ vs, InFirstBlock earlier u.sect) (hends : BlockEnds rest)
    (hrest : Laid (earlier ++ vs.map Item.inserted) rest) :
    Laid earlier (vs.map Item.inserted ++ rest) := by
  induction vs generalizing earlier with
  | nil =>
      rw [List.map_nil, List.append_nil] at hrest
      exact hrest
  | cons u vs ih =>
      refine ⟨.inserted (hfirst u (by simp)) (blockEnds_inserted vs hends), ih ?_ ?_⟩
      · intro w hw
        obtain ⟨closed, hblocks, hnew⟩ := hfirst w (by simp [hw])
        refine ⟨closed, ?_, hnew⟩
        rw [blocks_append, hblocks]
        exact List.append_nil _
      · rwa [List.append_assoc]

/-- The lines are in a block of `sect`, and no block of a pending update was left. -/
def Pending (earlier : List Item) (sect : Text) (us : List Update) : Prop :=
  ∃ closed, blocks earlier = closed ++ [sect] ∧ ∀ u ∈ us, u.sect ∉ closed

variable {earlier : List Item} {sect : Text} {us : List Update}

theorem Pending.inFirstBlock (h : Pending earlier sect us) {u : Update} (hu : u ∈ us)
    (hsect : u.sect = sect) : InFirstBlock earlier u.sect := by
  obtain ⟨closed, hblocks, hnew⟩ := h
  exact ⟨closed, hsect ▸ hblocks, hnew u hu⟩

theorem Pending.append (h : Pending earlier sect us) {item : Item} (hopens : item.opens = none)
    {ws : List Update} (hws : ws ⊆ us) : Pending (earlier ++ [item]) sect ws := by
  obtain ⟨closed, hblocks, hnew⟩ := h
  refine ⟨closed, ?_, fun u hu => hnew u (hws hu)⟩
  rw [blocks_append, hblocks, List.filterMap_cons_none hopens]
  exact List.append_nil _

theorem blocks_flushItems (h : Pending earlier sect us) :
    ∀ u ∈ pending sect us, u.sect ∉ blocks (earlier ++ flushItems sect us) := by
  intro u hu
  obtain ⟨closed, hblocks, hnew⟩ := h
  obtain ⟨hmem, hne⟩ := List.mem_filter.mp hu
  rw [blocks_append, flushItems, filterMap_opens_inserted, List.append_nil, hblocks]
  simp only [List.mem_append, List.mem_singleton, not_or]
  exact ⟨hnew u hmem, by simpa using hne⟩

theorem laid_flushItems (h : Pending earlier sect us) {rest : List Item} (hends : BlockEnds rest)
    (hrest : Laid (earlier ++ flushItems sect us) rest) :
    Laid earlier (flushItems sect us ++ rest) := by
  refine laid_inserted ?_ hends hrest
  intro u hu
  obtain ⟨hmem, hsect⟩ := List.mem_filter.mp hu
  exact h.inFirstBlock hmem (by simpa using hsect)

theorem pendingSections_nodup (us : List Update) : (pendingSections us).Nodup := by
  have h : ∀ (us : List Update) (seen : List Text), seen.Nodup →
      (us.foldl (fun seen u => if u.sect ∈ seen then seen else seen ++ [u.sect]) seen).Nodup := by
    intro us
    induction us with
    | nil => exact fun _ hseen => hseen
    | cons u us ih =>
        intro seen hseen
        rw [List.foldl_cons]
        apply ih
        split
        · exact hseen
        · rename_i hnew
          exact List.nodup_append.mpr ⟨hseen, by simp, by
            intro s hs t ht heq
            exact hnew (List.mem_singleton.mp ht ▸ heq ▸ hs)⟩
  exact h us [] List.nodup_nil

theorem laid_sectionItems {ss : List Text} (hnodup : ss.Nodup)
    (hused : ∀ s ∈ ss, ∃ u ∈ us, u.sect = s) (hnew : ∀ u ∈ us, u.sect ∉ blocks earlier) :
    Laid earlier (sectionItems ss us) := by
  induction ss generalizing earlier us with
  | nil => trivial
  | cons s ss ih =>
      obtain ⟨hs, hss⟩ := List.nodup_cons.mp hnodup
      have hblocks : blocks (earlier ++ [.blank] ++ [.header s]) = blocks earlier ++ [s] := by
        rw [blocks_append, blocks_append]
        simp [Item.opens]
      have hold : (flushItems s us ++ sectionItems ss (pending s us)).filterMap Item.old = [] := by
        rw [List.filterMap_append, filterMap_old_flushItems, filterMap_old_sectionItems,
          List.append_nil]
      obtain ⟨u, hu, hsect⟩ := hused s (by simp)
      have hpending : Pending (earlier ++ [.blank] ++ [.header s]) s us :=
        ⟨blocks earlier, hblocks, hnew⟩
      refine ⟨.blank rfl, ?_, ?_⟩
      · have hne : us.filter (·.sect = s) ≠ [] :=
          List.ne_nil_of_mem (List.mem_filter.mpr ⟨hu, by simpa using hsect⟩)
        obtain ⟨w, ws, hws⟩ := List.exists_cons_of_ne_nil hne
        have hw : w ∈ us.filter (·.sect = s) := by
          rw [hws]
          exact List.mem_cons_self
        refine .header (u := w) ?_ ?_ hold ?_ ?_
        · simp
        · rw [blocks_append, ← hsect]
          simpa [Item.opens] using hnew u hu
        · rw [flushItems, hws]
          rfl
        · simpa using (List.mem_filter.mp hw).2
      · refine laid_flushItems hpending ?_ (ih hss ?_ (blocks_flushItems hpending))
        · rw [BlockEnds, filterMap_old_sectionItems]
          simp
        · intro t ht
          obtain ⟨u, hu, rfl⟩ := hused t (by simp [ht])
          refine ⟨u, List.mem_filter.mpr ⟨hu, ?_⟩, rfl⟩
          simpa using fun heq : u.sect = s => hs (heq ▸ ht)

theorem laid_mergeItems (h : Pending earlier sect us) (ls : List Text) :
    Laid earlier (mergeItems sect us ls) := by
  induction ls generalizing earlier sect us with
  | nil =>
      refine laid_flushItems h ?_ ?_
      · rw [BlockEnds, filterMap_old_sectionItems]
        simp
      · exact laid_sectionItems (pendingSections_nodup _) (fun s hs => mem_pendingSections.mp hs)
          (blocks_flushItems h)
  | cons raw ls ih =>
      rw [mergeItems]
      cases hname : headerName raw with
      | some name =>
          refine laid_flushItems h ?_ ⟨.kept raw, ih ?_⟩
          · simp [BlockEnds, Item.old, hname]
          · refine ⟨blocks (earlier ++ flushItems sect us), ?_, blocks_flushItems h⟩
            rw [blocks_append]
            simp [Item.opens, hname]
      | none =>
          cases hrep : replacement sect us raw with
          | some u =>
              obtain ⟨⟨k, v⟩, hsplit, hfind⟩ := Option.bind_eq_some_iff.mp hrep
              have hu := List.find?_some hfind
              simp only [decide_eq_true_eq] at hu
              have hmem := List.mem_of_find?_eq_some hfind
              rw [← hu.2] at hsplit
              exact ⟨.replaced hname hsplit (h.inFirstBlock hmem hu.1),
                ih (h.append rfl List.eraseP_subset)⟩
          | none =>
              have hopens : (Item.kept raw).opens = none := hname
              exact ⟨.kept raw, ih (h.append hopens fun _ hu => hu)⟩

/-- The output is the old lines in their order, some of them replaced, and inserted ones: every
update that is not a blank secret stands in the output once, in the first block of its section. -/
theorem applySettings_conserves (old : Text) (updates : List Update) :
    ∃ items : List Item, applySettings old updates = unlines (items.map Item.text) ∧
      items.filterMap Item.old = lines old ∧
      (items.filterMap Item.update).Perm (retained updates) ∧
      ∀ earlier item later, items = earlier ++ item :: later → Placed earlier later item := by
  refine ⟨mergeItems [] (retained updates) (lines old), ?_, filterMap_old_mergeItems _ _ _,
    filterMap_update_mergeItems _ _ _, ?_⟩
  · rw [map_text_mergeItems, applySettings_eq]
  · intro earlier item later hsplit
    have hpending : Pending [] [] (retained updates) := ⟨[], rfl, fun _ _ => List.not_mem_nil⟩
    have hlaid := laid_mergeItems hpending (lines old)
    rw [hsplit] at hlaid
    exact hlaid.placed

end Lwrt.Httpd
