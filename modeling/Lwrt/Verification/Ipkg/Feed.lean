import Lwrt.Applet.Mkrepo
import Lwrt.Verification.Ipkg.Index

/-! # The feed builder's index as the installer reads it -/

namespace Lwrt.Ipkg

open Library Text

/-- A control text: non-blank `Key: value` lines, each with its line end, one `Package` field, and
none of the fields that the feed builder adds. -/
def IsControlText (ctrl name : Text) : Prop :=
  ∃ ls, ctrl = unlines ls ∧ (∀ l ∈ ls, '\n' ∉ l ∧ ':' ∈ l ∧ trim l ≠ []) ∧
    (ls.filterMap fieldOf).filter (·.1 = "Package".toList) = [("Package".toList, name)] ∧
    ∀ kv ∈ ls.filterMap fieldOf,
      kv.1 ≠ "Filename".toList ∧ kv.1 ≠ "Size".toList ∧ kv.1 ≠ "SHA256sum".toList

/-- A package with such a control text. -/
structure Package extends Mkrepo.Built where
  name : Text
  isControlText : IsControlText ctrl name

/-- Every package is found with the fields that were written for it. -/
def Agrees (ps : List Package) : Prop :=
  ∀ p ∈ ps, findEntry (Mkrepo.index (ps.map Package.toBuilt)) p.name =
    some ⟨p.ipk, some p.size, some p.sha⟩

/-! ## Lines of a control text -/

theorem fieldOf_append_whitespace (l : Text) {c : Char} (hc : isWhitespace c = true)
    (hcolon : c ≠ ':') : fieldOf (l ++ [c]) = fieldOf l := by
  by_cases hmem : ':' ∈ l
  · obtain ⟨k, v, rfl, hk⟩ := List.eq_append_cons_of_mem hmem
    rw [List.append_assoc, List.cons_append, fieldOf, fieldOf, splitOnce_append hk,
      splitOnce_append hk, Option.map_some, Option.map_some, trim_append_whitespace v hc]
  · have hmem' : ':' ∉ l ++ [c] := by simp [hmem, hcolon.symm]
    rw [fieldOf, fieldOf, splitOnce, splitOnce, if_neg hmem, if_neg hmem']

theorem fieldOf_stripCr (l : Text) : fieldOf (stripCr l) = fieldOf l := by
  rw [stripCr]
  split
  · rename_i hlast
    have hl : l = l.dropLast ++ ['\r'] := (List.dropLast_append_getLast? _ hlast).symm
    conv_rhs => rw [hl]
    rw [fieldOf_append_whitespace _ (by decide) (by decide)]
  · rfl

section Lines

variable {ls : List Text} (hls : ∀ l ∈ ls, '\n' ∉ l ∧ l ≠ [])
include hls

/-- The fields of a stanza are those of its lines. -/
theorem fields_intercalate : fields (['\n'].intercalate ls) = ls.filterMap fieldOf := by
  induction ls with
  | nil => rfl
  | cons l ls ih =>
      obtain ⟨⟨hnl, hne⟩, hls⟩ := List.forall_mem_cons.mp hls
      cases ls with
      | nil => simp [fields, lines_of_not_mem hnl hne]
      | cons m ls =>
          rw [List.intercalate_cons_cons, List.append_assoc, List.singleton_append, fields,
            lines_append_newline l _ hnl, List.filterMap_cons, fieldOf_stripCr,
            List.filterMap_cons, ← ih hls]
          rfl

/-- A blank line after the last line of a stanza ends the stanza there. -/
theorem splitDouble_unlines (hne : ls ≠ []) (rest : Text) :
    splitDouble '\n' (unlines ls ++ '\n' :: rest) =
      ['\n'].intercalate ls :: splitDouble '\n' rest := by
  induction ls with
  | nil => exact absurd rfl hne
  | cons l ls ih =>
      obtain ⟨⟨hnl, hne⟩, hls⟩ := List.forall_mem_cons.mp hls
      rw [unlines_cons, List.append_assoc, List.cons_append, splitDouble_append hnl]
      cases ls with
      | nil =>
          have hend : splitDouble '\n' ('\n' :: '\n' :: rest) = [] :: splitDouble '\n' rest :=
            if_pos ⟨rfl, rfl⟩
          simp [unlines, hend]
      | cons m ls =>
          obtain ⟨⟨hmnl, hmne⟩, -⟩ := List.forall_mem_cons.mp hls
          obtain ⟨d, m, rfl⟩ := List.exists_cons_of_ne_nil hmne
          have hd : d ≠ '\n' := fun heq => hmnl (by simp [heq])
          have ih := ih hls (by simp)
          rw [unlines_cons, List.cons_append, List.cons_append] at ih ⊢
          rw [splitDouble_cons_self hd, ih, List.intercalate_cons_cons]
          simp

/-- A first stanza that is for the package decides. -/
theorem findEntry_unlines {name : Text}
    (hname : WriteLog.final (ls.filterMap fieldOf) "Package".toList = some name) (rest : Text) :
    findEntry (unlines ls ++ '\n' :: rest) name =
      some ⟨(WriteLog.final (ls.filterMap fieldOf) "Filename".toList).getD (name ++ ".ipk".toList),
        (WriteLog.final (ls.filterMap fieldOf) "Size".toList).bind (parseUnsigned (2 ^ 32)),
        WriteLog.final (ls.filterMap fieldOf) "SHA256sum".toList⟩ := by
  have hne : ls ≠ [] := by
    rintro rfl
    cases hname
  have hfields := fields_intercalate hls
  have hmatch : lastField "Package".toList (['\n'].intercalate ls) = some name := by
    rw [lastField, hfields, hname]
  have hfirst : stanzaFor (unlines ls ++ '\n' :: rest) name = some (['\n'].intercalate ls) := by
    rw [stanzaFor, splitDouble_unlines hls hne, List.find?_cons, decide_eq_true hmatch]
  rw [findEntry_eq, hfirst, Option.map_some, entryOf, lastField, lastField, lastField, hfields]

end Lines

/-! ## The first stanza -/

/-- The first stanza of a written index has the control fields of its first package and no
others. -/
theorem findEntry_index_cons (p : Package) (ps : List Package) :
    findEntry (Mkrepo.index ((p :: ps).map Package.toBuilt)) p.name =
      some ⟨p.name ++ ".ipk".toList, none, none⟩ := by
  obtain ⟨ls, hctrl, hlines, hpackage, hother⟩ := p.isControlText
  have hls : ∀ l ∈ ls, '\n' ∉ l ∧ l ≠ [] :=
    fun l hl => ⟨(hlines l hl).1, List.ne_nil_of_mem (hlines l hl).2.1⟩
  obtain ⟨rest, hindex⟩ : ∃ rest, Mkrepo.index ((p :: ps).map Package.toBuilt) =
      unlines ls ++ '\n' :: rest := by
    rw [List.map_cons, Mkrepo.index, List.flatMap_cons, Mkrepo.stanza, hctrl]
    simp only [List.append_assoc]
    exact ⟨_, rfl⟩
  have hname : WriteLog.final (ls.filterMap fieldOf) "Package".toList = some p.name := by
    rw [WriteLog.final_eq_getLast?, hpackage]
    rfl
  rw [hindex, findEntry_unlines hls hname,
    WriteLog.final_eq_none fun kv hkv => (hother kv hkv).1,
    WriteLog.final_eq_none fun kv hkv => (hother kv hkv).2.1,
    WriteLog.final_eq_none fun kv hkv => (hother kv hkv).2.2]
  rfl

/-- The installer finds what the feed builder wrote for no package at all. -/
theorem agrees_iff (ps : List Package) : Agrees ps ↔ ps = [] := by
  constructor
  · intro h
    cases ps with
    | nil => rfl
    | cons p ps =>
        have hfound := h p (by simp)
        rw [findEntry_index_cons] at hfound
        simp at hfound
  · rintro rfl p hp
    cases hp

/-- The package of the repository's own feed. -/
def hello : Package where
  ctrl := "Package: hello\nVersion: 1.0\n".toList
  ipk := "hello_1.0_mipsel_24kc.ipk".toList
  size := 10240
  sha := "5283b2b98955dfab04c2f2b4a0da8045b6ff17e2e6151486c77f04d7a123bcc9".toList
  name := "hello".toList
  isControlText := ⟨["Package: hello".toList, "Version: 1.0".toList], by decide, by decide,
    by decide, by decide⟩

theorem hello_not_agrees : ¬Agrees [hello] := by
  intro h
  have hfound := h hello (by simp)
  have heval : findEntry (Mkrepo.index ([hello].map Package.toBuilt)) hello.name =
      some ⟨"hello.ipk".toList, none, none⟩ := by
    decide
  rw [heval] at hfound
  cases hfound

end Lwrt.Ipkg
