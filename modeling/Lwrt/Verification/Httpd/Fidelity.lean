import Lwrt.Verification.Httpd.Settings

/-! # Submitted values

In a file without repetitions a submitted value is read back unless it contains a comment
sign. -/

namespace Lwrt.Httpd

open Library Text WriteLog Config

/-- A line that opens a section, for one of the two scanners. -/
def IsHeader (raw : Text) : Prop :=
  (headerName raw).isSome ∨ (bracketed (content raw)).isSome

instance (raw : Text) : Decidable (IsHeader raw) :=
  inferInstanceAs (Decidable (_ ∨ _))

/-- Each header occurs once, each key of a section does, and headers carry no comment. -/
structure Regular (text : Text) : Prop where
  headers : ((lines text).filterMap headerName).Nodup
  keys : ((writes [] (lines text)).map Prod.fst).Nodup
  comments : ∀ raw ∈ lines text, IsHeader raw → '#' ∉ raw

instance (text : Text) : Decidable (Regular text) :=
  decidable_of_iff (((lines text).filterMap headerName).Nodup ∧
      ((writes [] (lines text)).map Prod.fst).Nodup ∧ ∀ raw ∈ lines text, IsHeader raw → '#' ∉ raw)
    ⟨fun ⟨hheaders, hkeys, hcomments⟩ => ⟨hheaders, hkeys, hcomments⟩,
      fun h => ⟨h.headers, h.keys, h.comments⟩⟩

/-! ## The scanners agree -/

theorem reading_header_iff {raw : Text} (h : IsHeader raw → '#' ∉ raw) (name : Text) :
    reading raw = .header name ↔ headerName raw = some name := by
  have hagree : '#' ∉ raw → (reading raw = .header name ↔ headerName raw = some name) := by
    intro hhash
    have hcontent : content raw = trim raw := by
      rw [content, before_eq_self hhash]
    rw [reading, headerName, hcontent]
    by_cases hempty : trim raw = []
    · simp [hempty, bracketed, stripPrefix]
    · cases hname : bracketed (trim raw) with
      | some n => simp [hempty]
      | none =>
          cases hsplit : splitOnce '=' (trim raw) with
          | none => simp [hempty]
          | some kv => simp [hempty]
  constructor
  · intro hreading
    refine (hagree (h (Or.inr ?_))).mp hreading
    rw [reading] at hreading
    by_cases hempty : content raw = []
    · simp [hempty] at hreading
    · cases hname : bracketed (content raw) with
      | some n => rfl
      | none =>
          cases hsplit : splitOnce '=' (content raw) with
          | none => simp [hempty, hname, hsplit] at hreading
          | some kv => simp [hempty, hname, hsplit] at hreading
  · intro hname
    exact (hagree (h (Or.inl (by simp [hname])))).mpr hname

variable {raw : Text}

theorem next_of_headerName_none (h : IsHeader raw → '#' ∉ raw) (hname : headerName raw = none)
    (p : Text) : (reading raw).next p = p := by
  cases hreading : reading raw with
  | skip => rfl
  | assign k v => rfl
  | header name => simp [(reading_header_iff h name).mp hreading] at hname

/-! ## The place of an update -/

theorem mem_filterMap_cons {α β : Type*} {f : α → Option β} (a : α) {as : List α} {b : β}
    (h : b ∈ as.filterMap f) : b ∈ (a :: as).filterMap f :=
  ((List.sublist_cons_self a as).filterMap f).subset h

/-- In lines of other sections nothing is written to this one. -/
theorem final_writes_eq_none {sect p : Text} {ls : List Text}
    (hagree : ∀ raw ∈ ls, IsHeader raw → '#' ∉ raw) (hp : p ≠ sect)
    (hsect : sect ∉ ls.filterMap headerName) (key : Text) :
    final (writes p ls) (sect, key) = none := by
  induction ls generalizing p with
  | nil => rfl
  | cons raw ls ih =>
      have hraw := hagree raw (by simp)
      have hrest : ∀ l ∈ ls, IsHeader l → '#' ∉ l := fun l hl => hagree l (by simp [hl])
      rw [writes, final_append]
      cases hreading : reading raw with
      | skip =>
          have hnext := fun hmem => hsect (mem_filterMap_cons raw hmem)
          simpa [Reading.log, Reading.next] using ih hrest hp hnext
      | assign k v =>
          have hnext := fun hmem => hsect (mem_filterMap_cons raw hmem)
          have hlog : final ((Reading.assign k v).log p) (sect, key) = none := by
            simp [Reading.log, final_cons, hp]
          rw [hlog, Option.or_none]
          exact ih hrest hp hnext
      | header name =>
          rw [List.filterMap_cons_some ((reading_header_iff hraw name).mp hreading), List.mem_cons,
            not_or] at hsect
          simpa [Reading.log, Reading.next] using ih hrest (Ne.symm hsect.1) hsect.2

/-- A key that is assigned by a line is not assigned after it, where no key is assigned twice. -/
theorem final_writes_of_assigns {key a raw : Text} {ls : List Text} (hassigns : assigns key raw)
    (hkeys : (((reading raw).log a).map Prod.fst ++ (writes a ls).map Prod.fst).Nodup) :
    final (writes a ls) (a, key) = none := by
  obtain ⟨v, hv⟩ := assigns_iff.mp hassigns
  rw [hv, Reading.log, List.map_singleton, List.singleton_append, List.nodup_cons] at hkeys
  refine final_eq_none fun w hw heq => hkeys.1 ?_
  have hmem : w.1 ∈ (writes a ls).map Prod.fst := List.mem_map_of_mem hw
  rwa [heq] at hmem

/-- An update lands in its own section, and its key is not assigned after its place. -/
theorem landing_regular {sect key a : Text} {ls : List Text}
    (hheaders : (ls.filterMap headerName).Nodup) (hkeys : ((writes a ls).map Prod.fst).Nodup)
    (hagree : ∀ raw ∈ ls, IsHeader raw → '#' ∉ raw)
    (hleft : a = sect → sect ∉ ls.filterMap headerName) :
    (landing sect key a a ls).sect = sect ∧
      final (landing sect key a a ls).rest (sect, key) = none := by
  induction ls generalizing a with
  | nil =>
      rw [landing]
      split
      · rename_i ha
        exact ⟨ha, rfl⟩
      · exact ⟨rfl, rfl⟩
  | cons raw ls ih =>
      have hraw := hagree raw (by simp)
      have hrest : ∀ l ∈ ls, IsHeader l → '#' ∉ l := fun l hl => hagree l (by simp [hl])
      rw [writes, List.map_append] at hkeys
      have htail := (List.nodup_append.mp hkeys).2.1
      rw [landing]
      cases hname : headerName raw with
      | some name =>
          have hreading := (reading_header_iff hraw name).mpr hname
          rw [List.filterMap_cons_some hname] at hheaders hleft
          simp only [hreading, Reading.next] at htail ⊢
          by_cases ha : a = sect
          · have hother := hleft ha
            rw [List.mem_cons, not_or] at hother
            rw [if_pos ha]
            refine ⟨ha, ?_⟩
            simp only [writes, hreading, Reading.log, Reading.next, List.nil_append]
            exact final_writes_eq_none hrest (Ne.symm hother.1) hother.2 key
          · rw [if_neg ha]
            refine ih (List.nodup_cons.mp hheaders).2 htail hrest ?_
            rintro rfl
            exact (List.nodup_cons.mp hheaders).1
      | none =>
          have hnext := next_of_headerName_none hraw hname a
          rw [List.filterMap_cons_none hname] at hheaders hleft
          rw [hnext] at htail ⊢
          simp only []
          by_cases ha : a = sect ∧ assigns key raw
          · rw [if_pos ha]
            rw [hnext] at hkeys
            exact ⟨ha.1, ha.1 ▸ final_writes_of_assigns ha.2 hkeys⟩
          · rw [if_neg ha]
            exact ih hheaders htail hrest hleft

theorem Regular.seen {old : Text} (h : Regular old) {u : Update} (hsect : u.sect ≠ []) :
    (place old u).sect = u.sect ∧ final (place old u).rest (u.sect, u.key) = none :=
  landing_regular h.headers h.keys h.comments fun heq => absurd heq.symm hsect

/-! ## Saving -/

theorem effective_of_line {v : Text} (h : '\n' ∉ v) : effective v = trim (before '#' v) := by
  rw [effective, valueLines_of_newline h, List.headD_cons, content_stripCr, content]

end Lwrt.Httpd
