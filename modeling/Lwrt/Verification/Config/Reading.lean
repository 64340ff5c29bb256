import Lwrt.Applet.Config
import Lwrt.Library.WriteLog

/-! What the parser takes a line for, and the configuration as the last writes of a log. -/

namespace Lwrt.Config

open Library Text WriteLog

/-- The three ways to read a line. -/
inductive Reading where
  | skip
  | header (name : Text)
  | assign (key value : Text)
deriving DecidableEq

def reading (raw : Text) : Reading :=
  let line := content raw
  if line = [] then .skip
  else match bracketed line with
    | some name => .header (trim name)
    | none =>
        match splitOnce '=' line with
        | some (k, v) => .assign (trim k) (trim v)
        | none => .skip

/-- Values by section and key. -/
abbrev Log := WriteLog (Text × Text) Text

/-- The section after a line. -/
def Reading.next (sect : Text) : Reading → Text
  | .header name => name
  | _ => sect

/-- The write of a line. -/
def Reading.log (sect : Text) : Reading → Log
  | .assign key value => [((sect, key), value)]
  | _ => []

/-- The writes of the lines after a point where the current section is `sect`. -/
def writes (sect : Text) : List Text → Log
  | [] => []
  | raw :: ls => (reading raw).log sect ++ writes ((reading raw).next sect) ls

/-! ## The parser keeps the last writes -/

/-- One turn of the loop, by the reading of its line. -/
theorem parseLine_eq (st : Config × Text) (raw : Text) :
    parseLine st raw =
      match reading raw with
      | .skip => st
      | .header name => (⟨st.1.sections.insertIfNew name ∅⟩, name)
      | .assign key value =>
          (⟨st.1.sections.insert st.2 ((st.1.sections[st.2]?.getD ∅).insert key value)⟩, st.2) := by
  simp only [parseLine, reading]
  by_cases hempty : content raw = []
  · simp only [hempty, if_true]
  · simp only [hempty, if_false]
    cases bracketed (content raw) with
    | some name => rfl
    | none => cases splitOnce '=' (content raw) <;> rfl

theorem parseLine_sect (st : Config × Text) (raw : Text) :
    (parseLine st raw).2 = (reading raw).next st.2 := by
  rw [parseLine_eq]
  cases reading raw <;> rfl

/-- One turn of the loop adds the write of its line. -/
theorem get_parseLine (st : Config × Text) (raw sect key : Text) :
    (parseLine st raw).1.get sect key =
      (final ((reading raw).log st.2) (sect, key)).or (st.1.get sect key) := by
  rw [parseLine_eq]
  cases reading raw with
  | skip => rfl
  | header name =>
      -- a header only makes sure that its section exists
      simp only [Reading.log, final_nil, Option.none_or, get, Std.TreeMap.getElem?_insertIfNew]
      split
      · rename_i habs
        obtain ⟨heq, hnot⟩ := habs
        rw [Std.LawfulEqOrd.compare_eq_iff_eq] at heq
        rw [← heq, Std.TreeMap.getElem?_eq_none hnot]
        simp
      · rfl
  | assign k v =>
      simp only [Reading.log, final_cons, final_nil, Option.none_or, get,
        Std.TreeMap.getElem?_insert, Std.LawfulEqOrd.compare_eq_iff_eq, Prod.mk.injEq]
      by_cases hs : st.2 = sect
      · simp only [hs, if_true, true_and, Option.bind_some, Std.TreeMap.getElem?_insert,
          Std.LawfulEqOrd.compare_eq_iff_eq]
        split
        · simp
        · cases st.1.sections[sect]? <;> simp
      · simp [hs]

theorem get_foldl_parseLine (st : Config × Text) (ls : List Text) (sect key : Text) :
    (ls.foldl parseLine st).1.get sect key =
      (final (writes st.2 ls) (sect, key)).or (st.1.get sect key) := by
  induction ls generalizing st with
  | nil => simp [writes]
  | cons raw ls ih =>
      rw [List.foldl_cons, ih, parseLine_sect, get_parseLine, writes, final_append, Option.or_assoc]

/-- The value of a key is the one its last line assigns. -/
theorem get_parse (text sect key : Text) :
    (parse text).get sect key = final (writes [] (lines text)) (sect, key) := by
  rw [parse, get_foldl_parseLine]
  simp [get]

/-! ## Writes of concatenated lines -/

/-- Lines that are skipped change nothing. -/
theorem writes_skip_append (sect : Text) {a : List Text} (h : ∀ l ∈ a, reading l = .skip)
    (b : List Text) : writes sect (a ++ b) = writes sect b := by
  induction a with
  | nil => rfl
  | cons raw a ih =>
      rw [List.cons_append, writes, h raw (by simp)]
      exact ih (fun l hl => h l (by simp [hl]))

/-! ## Reading particular lines -/

theorem content_append_whitespace (raw : Text) {c : Char} (hc : isWhitespace c = true)
    (hhash : c ≠ '#') : content (raw ++ [c]) = content raw := by
  by_cases h : '#' ∈ raw
  · rw [content, before_append_of_mem h, content]
  · have hc' : '#' ∉ [c] := by simpa using Ne.symm hhash
    rw [content, before_append_of_not_mem h, before_eq_self hc', trim_append_whitespace raw hc,
      content, before_eq_self h]

theorem content_stripCr (raw : Text) : content (stripCr raw) = content raw := by
  rw [stripCr]
  split
  · rename_i hlast
    obtain ⟨x, rfl⟩ := List.getLast?_eq_some_iff.mp hlast
    rw [List.dropLast_concat, content_append_whitespace x (by decide) (by decide)]
  · rfl

theorem reading_stripCr (raw : Text) : reading (stripCr raw) = reading raw := by
  rw [reading, reading, content_stripCr]

theorem reading_bracket {name : Text} (h : IsWord name) :
    reading ('[' :: name ++ [']']) = .header name := by
  have htoken : IsToken ('[' :: name ++ [']']) :=
    (IsToken.cons (by decide) h.isToken).append (by decide)
  have hcontent : content ('[' :: name ++ [']']) = '[' :: name ++ [']'] := by
    rw [content, before_eq_self, trim_token htoken]
    simpa using h.not_mem (by decide)
  have hname : bracketed ('[' :: name ++ [']']) = some name := by
    simp [bracketed, stripPrefix, stripSuffix]
  simp only [reading, hcontent, hname, trim_token h.isToken]
  simp

/-- A line that assigns a word, with any value. -/
theorem reading_assign {indent key : Text} (hindent : ∀ c ∈ indent, isWhitespace c = true)
    (hkey : IsWord key) (value : Text) :
    reading (indent ++ (key ++ ' ' :: '=' :: ' ' :: value)) =
      .assign key (trim (before '#' value)) := by
  have hhash : '#' ∉ indent ++ (key ++ [' ', '=', ' ']) := by
    intro hmem
    rcases List.mem_append.mp hmem with hmem | hmem
    · exact absurd (hindent _ hmem) (by decide)
    · rcases List.mem_append.mp hmem with hmem | hmem
      · exact hkey.not_mem (by decide) hmem
      · exact absurd hmem (by decide)
  have hbefore : before '#' (indent ++ (key ++ ' ' :: '=' :: ' ' :: value)) =
      indent ++ ((key ++ [' ']) ++ '=' :: ' ' :: before '#' value) := by
    simpa using before_append_of_not_mem hhash value
  have hstart : trimStart (key ++ [' ']) = key ++ [' '] := by
    obtain ⟨c, t, rfl⟩ := List.exists_cons_of_ne_nil hkey.1
    simp [trimStart, hkey.isToken.2 c (by simp)]
  have hcontent : content (indent ++ (key ++ ' ' :: '=' :: ' ' :: value)) =
      (key ++ [' ']) ++ '=' :: trimEnd (' ' :: before '#' value) := by
    rw [content, hbefore, trim_blank_append hindent, trim_append_cons _ _ (by decide), hstart]
  have hnone : bracketed (content (indent ++ (key ++ ' ' :: '=' :: ' ' :: value))) = none := by
    rw [hcontent]
    obtain ⟨c, t, rfl⟩ := List.exists_cons_of_ne_nil hkey.1
    have hc : c ≠ '[' := by
      rintro rfl
      exact hkey.not_mem (d := '[') (by decide) (by simp)
    simp [bracketed, stripPrefix, hc]
  have heq : '=' ∉ key ++ [' '] := by
    simpa using hkey.not_mem (by decide)
  have htrim : trim (trimEnd (' ' :: before '#' value)) = trim (before '#' value) := by
    rw [trim_trimEnd]
    exact trim_blank_append (b := [' ']) (List.forall_mem_singleton.mpr (by decide)) _
  simp only [reading, hnone]
  rw [hcontent, splitOnce_append heq]
  simp only [trim_append_whitespace key (show isWhitespace ' ' = true by decide),
    trim_token hkey.isToken, htrim]
  simp

end Lwrt.Config
