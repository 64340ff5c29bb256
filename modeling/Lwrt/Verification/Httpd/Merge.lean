import Mathlib.Data.List.Pairwise
import Lwrt.Applet.Httpd.Settings
import Lwrt.Verification.Config.Reading

/-! # The settings update seen by the parser

`apply_settings` is brought into the form of a recursion on the old lines. The parser is
then run over its output: each update lands at one place of the old file, and all the
other writes of the file stay where they were. -/

namespace Lwrt.Httpd

open Library Text WriteLog Config

/-! ## The output, chunk by chunk -/

/-- The assignments that `flush_section` emits. -/
def flushed (sect : Text) (us : List Update) : List Text :=
  (us.filter (·.sect = sect)).map fun u => assignment u.key u.value

/-- The updates that `flush_section` leaves. -/
def pending (sect : Text) (us : List Update) : List Update :=
  us.filter (·.sect ≠ sect)

/-- The update that replaces a line. -/
def replacement (sect : Text) (us : List Update) (raw : Text) : Option Update :=
  (splitKv raw).bind fun kv => us.find? fun u => u.sect = sect ∧ u.key = kv.1

def newSections : List Text → List Update → List Text
  | [], _ => []
  | s :: ss, us => [] :: ('[' :: s ++ [']']) :: (flushed s us ++ newSections ss (pending s us))

def mergeLines (sect : Text) (us : List Update) : List Text → List Text
  | [] => flushed sect us ++ newSections (pendingSections (pending sect us)) (pending sect us)
  | raw :: ls =>
      match headerName raw with
      | some name => flushed sect us ++ raw :: mergeLines name (pending sect us) ls
      | none =>
          match replacement sect us raw with
          | some u =>
              (raw.takeWhile isWhitespace ++ assignment u.key u.value) ::
                mergeLines sect (us.eraseP fun w => w.sect = sect ∧ w.key = u.key) ls
          | none => raw :: mergeLines sect us ls

theorem flushSection_eq (out sect : Text) (us : List Update) :
    flushSection out sect us = (out ++ unlines (flushed sect us), pending sect us) := by
  induction us generalizing out with
  | nil => simp [flushSection, flushed, pending, unlines]
  | cons u us ih =>
      by_cases h : u.sect = sect
      · simp [flushSection, h, ih, flushed, pending, unlines]
      · simp [flushSection, h, ih, flushed, pending]

theorem foldl_newSection (ss : List Text) (m : Merge) :
    (ss.foldl Merge.newSection m).out = m.out ++ unlines (newSections ss m.updates) := by
  induction ss generalizing m with
  | nil => simp [newSections, unlines]
  | cons s ss ih =>
      rw [List.foldl_cons, ih]
      simp [Merge.newSection, flushSection_eq, newSections, unlines]

/-- What the loop and the code after it append to the output. -/
def Merge.finish (m : Merge) : Text :=
  m.out ++ unlines (mergeLines m.sect m.updates [])

theorem finish_foldl_line (ls : List Text) (m : Merge) :
    (ls.foldl Merge.line m).finish = m.out ++ unlines (mergeLines m.sect m.updates ls) := by
  induction ls generalizing m with
  | nil => rfl
  | cons raw ls ih =>
      rw [List.foldl_cons, ih, mergeLines, Merge.line]
      cases headerName raw with
      | some name => simp [flushSection_eq, unlines]
      | none =>
          simp only [replacement]
          cases (splitKv raw).bind fun kv => m.updates.find? fun u => u.sect = m.sect ∧ u.key = kv.1 with
          | some u => simp [unlines]
          | none => simp [unlines]

theorem applySettings_eq (old : Text) (updates : List Update) :
    applySettings old updates = unlines (mergeLines [] (retained updates) (lines old)) := by
  have h := finish_foldl_line (lines old) ⟨[], [], retained updates⟩
  rw [List.nil_append] at h
  rw [← h, applySettings, foldl_newSection]
  simp [Merge.finish, mergeLines, flushSection_eq, unlines]

/-! ## The two scanners on one line -/

theorem reading_of_splitKv {raw k v : Text} (h : splitKv raw = some (k, v)) :
    reading raw = .assign k v := by
  simp only [splitKv] at h
  split at h
  · simp at h
  · rename_i hline
    push Not at hline
    obtain ⟨hne, hhead⟩ := hline
    obtain ⟨⟨k₀, v₀⟩, hsplit, hkv⟩ := Option.map_eq_some_iff.mp h
    simp only [Prod.mk.injEq] at hkv
    have hnone : bracketed (content raw) = none := by
      cases hc : content raw with
      | nil => rfl
      | cons c t =>
          have hbracket : c ≠ '[' := fun heq => hhead (by rw [hc, heq]; rfl)
          simp [bracketed, stripPrefix, hbracket]
    simp only [reading, hne, hnone, hsplit, if_false, hkv.1, hkv.2]

/-- A line that starts with a bracket for one scanner does so for the other. -/
theorem head?_content_of_headerName {raw name : Text} (h : headerName raw = some name) :
    (content raw).head? = some '[' := by
  have hhead : (trim raw).head? = some '[' := by
    cases ht : trim raw with
    | nil => simp [headerName, bracketed, ht, stripPrefix] at h
    | cons c t =>
        by_cases hc : c = '['
        · simp [hc]
        · simp [headerName, bracketed, ht, stripPrefix, hc] at h
  obtain ⟨b, t, rfl, hb, hws⟩ := eq_append_of_head?_trim hhead
  have hhash : '#' ∉ b ++ ['['] := by
    intro hmem
    rcases List.mem_append.mp hmem with hmem | hmem
    · exact absurd (hb _ hmem) (by decide)
    · exact absurd hmem (by decide)
  have hbefore : before '#' (b ++ '[' :: t) = b ++ '[' :: before '#' t := by
    simpa using before_append_of_not_mem hhash t
  rw [content, hbefore, trim_append_cons _ _ hws, trimStart_blank hb]
  rfl

/-- A word that is assigned for the parser is one for `split_kv`. -/
theorem splitKv_of_reading {raw k v : Text} (h : reading raw = .assign k v) (hk : IsWord k) :
    headerName raw = none ∧ splitKv raw = some (k, v) := by
  simp only [reading] at h
  split at h
  · simp at h
  · rename_i hne
    split at h
    · simp at h
    · split at h
      · rename_i k₀ v₀ hsplit
        simp only [Reading.assign.injEq] at h
        have hhead : (content raw).head? ≠ some '[' := by
          intro hhead
          obtain ⟨t, ht⟩ := List.head?_eq_some_iff.mp hhead
          rw [ht] at hsplit
          obtain ⟨x, rfl⟩ := splitOnce_head hsplit (by decide)
          -- the key would start with the bracket
          have hkey : trim ('[' :: x) = '[' :: trimEnd x := trim_append_cons [] x (by decide)
          exact hk.not_mem (d := '[') (by decide) (by simp [← h.1, hkey])
        constructor
        · cases hname : headerName raw with
          | none => rfl
          | some name => exact absurd (head?_content_of_headerName hname) hhead
        · simp [splitKv, hne, hhead, hsplit, h.1, h.2]
      · simp at h

/-! ## What the parser reads of a chunk -/

/-- The lines of a text emitted chunk by chunk. -/
def emitted (cs : List Text) : List Text :=
  cs.flatMap fun c => lines (c ++ ['\n'])

@[simp]
theorem emitted_nil : emitted [] = [] :=
  rfl

@[simp]
theorem emitted_cons (c : Text) (cs : List Text) :
    emitted (c :: cs) = lines (c ++ ['\n']) ++ emitted cs :=
  rfl

@[simp]
theorem emitted_append (a b : List Text) : emitted (a ++ b) = emitted a ++ emitted b :=
  List.flatMap_append

/-- The lines that a value takes up in the file. -/
def valueLines (v : Text) : List Text :=
  lines (v ++ ['\n'])

/-- No line of a value but the first means anything to the parser. -/
def Inert (v : Text) : Prop :=
  ∀ l ∈ (valueLines v).tail, reading l = .skip

instance (v : Text) : Decidable (Inert v) :=
  inferInstanceAs (Decidable (∀ _ ∈ _, _))

/-- What the parser keeps of a value. -/
def effective (v : Text) : Text :=
  content ((valueLines v).headD [])

/-- A line of the old file, emitted again. -/
theorem writes_raw (p : Text) {raw : Text} (h : '\n' ∉ raw) (rest : List Text) :
    writes p (lines (raw ++ ['\n']) ++ rest) =
      (reading raw).log p ++ writes ((reading raw).next p) rest := by
  rw [lines_append_newline raw [] h]
  simp [lines, writes, reading_stripCr]

/-- An assignment of a word with an inert value. -/
theorem writes_assignment (p : Text) {indent key value : Text}
    (hindent : ∀ c ∈ indent, isWhitespace c = true) (hnl : '\n' ∉ indent) (hkey : IsWord key)
    (hvalue : Inert value) (rest : List Text) :
    writes p (lines ((indent ++ assignment key value) ++ ['\n']) ++ rest) =
      ((p, key), effective value) :: writes p rest := by
  obtain ⟨l, ls, hl⟩ := List.exists_cons_of_ne_nil
    (lines_ne_nil (s := value ++ ['\n']) (by simp))
  have hpre : '\n' ∉ indent ++ (key ++ [' ', '=', ' ']) := by
    simp [hnl, hkey.isToken.newline_not_mem]
  have hlines : lines ((indent ++ assignment key value) ++ ['\n']) =
      (indent ++ (key ++ ' ' :: '=' :: ' ' :: l)) :: ls := by
    have h := lines_append_left (indent ++ (key ++ [' ', '=', ' '])) (value ++ ['\n']) hpre
      (by simp) hl
    simpa [assignment] using h
  have hskip : ∀ m ∈ ls, reading m = .skip := by
    simpa [Inert, valueLines, hl] using hvalue
  rw [hlines, List.cons_append, writes, reading_assign hindent hkey]
  simp only [Reading.log, Reading.next, List.singleton_append]
  rw [writes_skip_append p hskip, effective, valueLines, hl]
  rfl

/-! ## Updates that are written out together -/

/-- Each key at most once, names that are words, and values that do not spill. -/
structure Tame (us : List Update) : Prop where
  keys : us.Pairwise fun u w => u.key ≠ w.key
  words : ∀ u ∈ us, IsWord u.sect ∧ IsWord u.key
  inert : ∀ u ∈ us, Inert u.value

theorem Tame.sublist {us ws : List Update} (h : Tame us) (hs : ws.Sublist us) : Tame ws where
  keys := h.keys.sublist hs
  words := fun u hu => h.words u (hs.subset hu)
  inert := fun u hu => h.inert u (hs.subset hu)

theorem Tame.eq_of_key {us : List Update} (h : Tame us) {u w : Update} (hu : u ∈ us) (hw : w ∈ us)
    (hkey : u.key = w.key) : u = w := by
  have : Std.Symm fun u w : Update => u.key ≠ w.key := ⟨fun _ _ hne => hne.symm⟩
  by_contra hne
  exact h.keys.forall hu hw hne hkey

theorem pending_sublist (sect : Text) (us : List Update) : (pending sect us).Sublist us :=
  List.filter_sublist

/-- The writes of a flush. -/
def flushLog (p sect : Text) (us : List Update) : Log :=
  (us.filter (·.sect = sect)).map fun u => ((p, u.key), effective u.value)

theorem writes_flushed (p sect : Text) {us : List Update} (h : Tame us) (rest : List Text) :
    writes p (emitted (flushed sect us) ++ rest) = flushLog p sect us ++ writes p rest := by
  induction us with
  | nil => rfl
  | cons u us ih =>
      have ih := ih (h.sublist (List.sublist_cons_self u us))
      by_cases hu : u.sect = sect
      · have hblank : ∀ c ∈ ([] : Text), isWhitespace c = true := by simp
        have hassign := writes_assignment p hblank (by simp) (h.words u (by simp)).2
          (h.inert u (by simp)) (emitted (flushed sect us) ++ rest)
        simp only [flushed, flushLog, List.filter_cons, hu, decide_true, if_true, List.map_cons,
          emitted_cons, List.append_assoc, List.cons_append] at ih ⊢
        rw [List.nil_append] at hassign
        rw [← ih]
        exact hassign
      · simpa [flushed, flushLog, hu] using ih

theorem final_flushLog_of_ne {sect key : Text} {us : List Update}
    (h : ∀ u ∈ us, u.key = key → u.sect ≠ sect) (p s : Text) :
    final (flushLog p sect us) (s, key) = none := by
  apply final_eq_none
  intro w hw
  obtain ⟨u, hu, rfl⟩ := List.mem_map.mp hw
  obtain ⟨hmem, hsect⟩ := List.mem_filter.mp hu
  simp only [ne_eq, Prod.mk.injEq, not_and]
  intro _ hkey
  exact h u hmem hkey (by simpa using hsect)

theorem final_flushLog_of_mem {us : List Update} (h : Tame us) {u : Update} (hu : u ∈ us)
    (p s : Text) :
    final (flushLog p u.sect us) (s, u.key) = if p = s then some (effective u.value) else none := by
  induction us with
  | nil => simp at hu
  | cons w us ih =>
      have hus := h.sublist (List.sublist_cons_self w us)
      rcases List.mem_cons.mp hu with rfl | hmem
      · have hother : ∀ x ∈ us, x.key = u.key → x.sect ≠ u.sect := fun x hx hkey =>
          absurd hkey.symm (List.rel_of_pairwise_cons h.keys hx)
        have hnone := final_flushLog_of_ne hother p s
        simp only [flushLog] at hnone
        simp [flushLog, final_cons, hnone]
      · have hne : w.key ≠ u.key := List.rel_of_pairwise_cons h.keys hmem
        have ih := ih hus hmem
        simp only [flushLog] at ih
        by_cases hw : w.sect = u.sect
        · simp [flushLog, hw, final_cons, ih, hne]
        · simp [flushLog, hw, ih]

/-! ## Sections created at the end -/

theorem mem_pendingSections {us : List Update} {s : Text} :
    s ∈ pendingSections us ↔ ∃ u ∈ us, u.sect = s := by
  have h : ∀ (us : List Update) (seen : List Text),
      s ∈ us.foldl (fun seen u => if u.sect ∈ seen then seen else seen ++ [u.sect]) seen ↔
        s ∈ seen ∨ ∃ u ∈ us, u.sect = s := by
    intro us
    induction us with
    | nil => simp
    | cons u us ih =>
        intro seen
        rw [List.foldl_cons, ih]
        by_cases hu : u.sect ∈ seen
        · simp only [hu, if_true, List.mem_cons, exists_eq_or_imp]
          constructor
          · tauto
          · rintro (hs | rfl | hs)
            · exact Or.inl hs
            · exact Or.inl hu
            · exact Or.inr hs
        · simp [hu, or_assoc, eq_comm]
  simpa [pendingSections] using h us []

theorem writes_newSection (p : Text) {s : Text} (hs : IsWord s) {us : List Update} (h : Tame us)
    (ss : List Text) :
    writes p (emitted (newSections (s :: ss) us)) =
      flushLog s s us ++ writes s (emitted (newSections ss (pending s us))) := by
  have hnl : '\n' ∉ ('[' :: s ++ [']']) := by
    simpa using hs.isToken.newline_not_mem
  rw [newSections, emitted_cons, writes_raw p (by simp), emitted_cons, writes_raw _ hnl,
    reading_bracket hs, emitted_append, show reading [] = .skip from rfl]
  simp only [Reading.log, Reading.next, List.nil_append]
  rw [writes_flushed s s h]

theorem final_newSections_of_ne {key : Text} (p s : Text) (ss : List Text) {us : List Update}
    (h : Tame us) (hss : ∀ s ∈ ss, IsWord s) (hkey : ∀ u ∈ us, u.key ≠ key) :
    final (writes p (emitted (newSections ss us))) (s, key) = none := by
  induction ss generalizing p us with
  | nil => rfl
  | cons t ss ih =>
      have hsub := pending_sublist t us
      have hrest := ih t (h.sublist hsub) (fun x hx => hss x (by simp [hx]))
        (fun u hu => hkey u (hsub.subset hu))
      rw [writes_newSection p (hss t (by simp)) h, final_append, hrest,
        final_flushLog_of_ne (fun u hu heq => absurd heq (hkey u hu))]
      rfl

theorem final_newSections_of_mem (p s : Text) (ss : List Text) {us : List Update} (h : Tame us)
    (hss : ∀ s ∈ ss, IsWord s) {u : Update} (hu : u ∈ us) (hsect : u.sect ∈ ss) :
    final (writes p (emitted (newSections ss us))) (s, u.key) =
      if u.sect = s then some (effective u.value) else none := by
  induction ss generalizing p us with
  | nil => simp at hsect
  | cons t ss ih =>
      have hsub := pending_sublist t us
      have hrest := h.sublist hsub
      have hss' : ∀ x ∈ ss, IsWord x := fun x hx => hss x (by simp [hx])
      rw [writes_newSection p (hss t (by simp)) h, final_append]
      by_cases ht : u.sect = t
      · -- the section of the update is created here, and nothing later has its key
        have hlater : ∀ w ∈ pending t us, w.key ≠ u.key := by
          intro w hw heq
          obtain ⟨hmem, hne⟩ := List.mem_filter.mp hw
          rw [h.eq_of_key hmem hu heq] at hne
          simp [ht] at hne
        subst ht
        rw [final_newSections_of_ne _ _ _ hrest hss' hlater, final_flushLog_of_mem h hu]
        rfl
      · have hmem : u ∈ pending t us := List.mem_filter.mpr ⟨hu, by simpa using ht⟩
        have hin : u.sect ∈ ss := by
          simpa [ht] using hsect
        have hflush : ∀ w ∈ us, w.key = u.key → w.sect ≠ t := by
          intro w hw heq
          rw [h.eq_of_key hw hu heq]
          exact ht
        rw [ih t hrest hss' hmem hin, final_flushLog_of_ne hflush, Option.or_none]

end Lwrt.Httpd
