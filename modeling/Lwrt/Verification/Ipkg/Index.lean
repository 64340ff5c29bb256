import Lwrt.Library.WriteLog
import Lwrt.Applet.Ipkg

/-! # Looking a package up in the index -/

namespace Lwrt.Ipkg

open Library Text

/-! ## Fields of a stanza -/

/-- The `Key: value` pair of a line. -/
def fieldOf (line : Text) : Option (Text × Text) :=
  (splitOnce ':' line).map fun kv => (trim kv.1, trim kv.2)

/-- The pairs of a stanza in order. -/
def fields (stanza : Text) : WriteLog Text Text :=
  (lines stanza).filterMap fieldOf

/-- The last field with a key. -/
def lastField (key stanza : Text) : Option Text :=
  (fields stanza).final key

/-- The first stanza whose last `Package` field is the name. -/
def stanzaFor (index name : Text) : Option Text :=
  (splitDouble '\n' index).find? fun stanza => lastField "Package".toList stanza = some name

/-- What a stanza says about the package. -/
def entryOf (name stanza : Text) : Entry where
  filename := (lastField "Filename".toList stanza).getD (name ++ ".ipk".toList)
  size := (lastField "Size".toList stanza).bind (parseUnsigned (2 ^ 32))
  sha256 := lastField "SHA256sum".toList stanza

/-- What a log of fields says, read the way the loop does. -/
def logFields (name : Text) (log : WriteLog Text Text) : Fields where
  isMatch := log.final "Package".toList = some name
  filename := log.final "Filename".toList
  size := (log.final "Size".toList).bind (parseUnsigned (2 ^ 32))
  sha256 := log.final "SHA256sum".toList

/-- One line sets the field it has. -/
theorem line_logFields (name : Text) (log : WriteLog Text Text) (line : Text) :
    (logFields name log).line name line = logFields name (log ++ (fieldOf line).toList) := by
  have hpf : "Package".toList ≠ "Filename".toList := by decide
  have hps : "Package".toList ≠ "Size".toList := by decide
  have hpd : "Package".toList ≠ "SHA256sum".toList := by decide
  have hfs : "Filename".toList ≠ "Size".toList := by decide
  have hfd : "Filename".toList ≠ "SHA256sum".toList := by decide
  have hsd : "Size".toList ≠ "SHA256sum".toList := by decide
  cases hkv : splitOnce ':' line with
  | none => simp [Fields.line, fieldOf, hkv]
  | some kv =>
      obtain ⟨key, val⟩ := kv
      simp only [Fields.line, fieldOf, hkv, Option.map_some, Option.toList_some, logFields,
        WriteLog.final_concat]
      generalize "Package".toList = package at *
      generalize "Filename".toList = filename at *
      generalize "Size".toList = size at *
      generalize "SHA256sum".toList = digest at *
      by_cases hp : trim key = package
      · simp [hp, hpf, hps, hpd]
      · by_cases hf : trim key = filename
        · simp [hf, hpf.symm, hfs, hfd]
        · by_cases hs : trim key = size
          · simp [hs, hps.symm, hfs.symm, hsd]
          · by_cases hd : trim key = digest
            · simp [hd, hpd.symm, hfd.symm, hsd.symm]
            · simp [hp, hf, hs, hd]

theorem foldl_line_logFields (name : Text) (log : WriteLog Text Text) (ls : List Text) :
    ls.foldl (Fields.line name) (logFields name log) =
      logFields name (log ++ ls.filterMap fieldOf) := by
  induction ls generalizing log with
  | nil => simp
  | cons l ls ih =>
      rw [List.foldl_cons, line_logFields, ih]
      cases h : fieldOf l with
      | none => simp [h]
      | some kv => simp [h]

theorem stanzaFields_eq (name stanza : Text) :
    stanzaFields name stanza = logFields name (fields stanza) :=
  foldl_line_logFields name [] (lines stanza)

/-- `find_entry` reads the first matching stanza and no other. -/
theorem findEntry_eq (index name : Text) :
    findEntry index name = (stanzaFor index name).map (entryOf name) := by
  rw [findEntry, stanzaFor]
  induction splitDouble '\n' index with
  | nil => rfl
  | cons stanza stanzas ih =>
      rw [List.findSome?_cons, List.find?_cons, ih, stanzaFields_eq]
      by_cases h : lastField "Package".toList stanza = some name
      · have hm : (logFields name (fields stanza)).isMatch = true := decide_eq_true h
        rw [decide_eq_true h, if_pos hm]
        rfl
      · have hm : (logFields name (fields stanza)).isMatch = false := decide_eq_false h
        rw [decide_eq_false h]
        simp only [hm]
        rfl

end Lwrt.Ipkg
