import Lwrt.Verification.Ipkg.Archive
import Lwrt.Verification.Ipkg.Paths

/-! # Paths that are split over two header fields

The format puts the front of a long path into a second field, which the extraction does not
read. -/

namespace Lwrt.Ipkg

open Library Text Utf8 Path

/-- In every archive the member is written at that place and at no other: what the archive leaves
anywhere is what the members before this one leave, its content at that place, and over both what
the members after it write. -/
def WrittenAt (e : Ustar.Entry) (place : Path) : Prop :=
  ∀ host, Reliable host → ∀ before after tail fuel fs,
    (Ustar.archive (before ++ e :: after) tail).length < 2 ^ 31 →
    (before ++ e :: after).length < fuel → ∀ q,
      (extractUstar host fuel (Ustar.archive (before ++ e :: after) tail) fs).1.files q =
        ((writesOf after).final q).or (if q = place then some e.content
          else (extractUstar host fuel (Ustar.archive before tail) fs).1.files q)

/-- A member that is a file of the package, not its control file. -/
theorem kind_memberOf {e : Ustar.Entry} (h : e.typeflag = byte '0' ∨ e.typeflag = 0) :
    (memberOf e).kind = if isControl e.name then .control else .file := by
  have hdir : e.typeflag ≠ byte '5' := by
    cases h with
    | inl h => rw [h]; decide
    | inr h => rw [h]; decide
  simp only [Member.kind, memberOf, e.name_ne_nil, hdir, h, if_true, if_false]

theorem writesOf_singleton {e : Ustar.Entry} (h : e.typeflag = byte '0' ∨ e.typeflag = 0) :
    writesOf [e] = if isControl e.name then [] else [(target e.name, e.content)] := by
  have hkind := kind_memberOf h
  by_cases hctrl : isControl e.name = true
  · rw [if_pos hctrl] at hkind
    simp [writesOf, fileMembers, hkind, hctrl]
  · rw [if_neg hctrl] at hkind
    simp only [writesOf, fileMembers, List.map_cons, List.map_nil, if_neg hctrl]
    rw [List.filter_cons_of_pos (by simpa using hkind)]
    rfl

theorem writesOf_append (es fs : List Ustar.Entry) :
    writesOf (es ++ fs) = writesOf es ++ writesOf fs := by
  simp only [writesOf, fileMembers, List.map_append, List.filter_append]

theorem length_archive_le (before after : List Ustar.Entry) (e : Ustar.Entry)
    (tail : List UInt8) :
    (Ustar.archive before tail).length ≤ (Ustar.archive (before ++ e :: after) tail).length := by
  simp only [Ustar.length_archive, List.map_append, List.sum_append]
  omega

/-- A regular member goes to the place of its name. -/
theorem writtenAt_iff {e : Ustar.Entry} (h : e.typeflag = byte '0' ∨ e.typeflag = 0)
    (hlen : (Ustar.archive [e] []).length < 2 ^ 31) (place : Path) :
    WrittenAt e place ↔ isControl e.name = false ∧ target e.name = place := by
  have hsingle := writesOf_singleton h
  constructor
  · intro hwritten
    have hat := hwritten quietHost quietHost_reliable [] [] [] 2 emptyDisk hlen (by simp) place
    rw [List.nil_append, files_extractUstar quietHost_reliable hlen (by simp), hsingle] at hat
    have hnone : (writesOf []).final place = none := rfl
    have hdisk : emptyDisk.files place = none := rfl
    rw [hnone, hdisk, if_pos rfl, Option.or_none, Option.none_or] at hat
    by_cases hctrl : isControl e.name = true
    · simp [hctrl] at hat
    · simp only [hctrl, Bool.false_eq_true, if_false, WriteLog.final_cons, WriteLog.final_nil,
        Option.none_or] at hat
      refine ⟨by simpa using hctrl, ?_⟩
      by_contra hne
      simp [hne] at hat
  · intro hplace host hhost before after tail fuel fs hfits hfuel q
    obtain ⟨hctrl, rfl⟩ := hplace
    have hbefore := files_extractUstar hhost
      (Nat.lt_of_le_of_lt (length_archive_le before after e tail) hfits)
      (Nat.lt_of_le_of_lt (by simp) hfuel : before.length < fuel) fs q
    rw [files_extractUstar hhost hfits hfuel, hbefore, writesOf_append, ← List.singleton_append,
      writesOf_append, hsingle, hctrl]
    simp only [Bool.false_eq_true, if_false, WriteLog.final_append, WriteLog.final_cons,
      WriteLog.final_nil, Option.none_or, Option.or_assoc]
    by_cases hq : target e.name = q
    · simp [hq]
    · simp [hq, Ne.symm hq]

/-! ## The two fields -/

theorem target_append (pre name : Text) :
    target (pre ++ '/' :: name) = target pre ++ target name := by
  rw [target_eq, target_eq, target_eq, List.splitOn_append_cons_self, List.filter_append]

theorem target_path (e : Ustar.PathEntry) : target e.path = target e.pre ++ target e.name := by
  rw [Ustar.PathEntry.path]
  split
  · rename_i hnil
    rw [hnil]
    rfl
  · exact target_append e.pre e.name

/-- A file with a plain header and a prefix. -/
def plainPath (pre name : Text) (content : List UInt8) (hname : name ≠ [])
    (hnul : Char.ofNat 0 ∉ name) (hlen : (encode name).length ≤ 100)
    (hnulpre : Char.ofNat 0 ∉ pre) (hlenpre : (encode pre).length ≤ 155) : Ustar.PathEntry where
  name := name
  typeflag := byte '0'
  content := content
  owner := Vector.replicate 24 0
  terminator := 0
  stamp := Vector.replicate 20 0
  rest := ⟨(List.replicate 188 0 ++ ((encode pre ++ List.replicate (155 - (encode pre).length) 0) ++
    List.replicate 12 0)).toArray, by
      simp only [List.size_toArray, List.length_append, List.length_replicate]
      omega⟩
  name_ne_nil := hname
  nul_not_mem := hnul
  length_encode_name := hlen
  terminator_eq := (plain name (byte '0') content hname hnul hlen).terminator_eq
  pre := pre
  nul_not_mem_pre := hnulpre
  length_encode_pre := hlenpre
  prefixField_eq := by
    have h := extract_append_append (List.replicate 188 0)
      (encode pre ++ List.replicate (155 - (encode pre).length) 0) (List.replicate 12 0)
    rw [List.length_replicate, List.length_append, List.length_replicate,
      Nat.add_sub_cancel' hlenpre] at h
    exact h

theorem length_archive_singleton {e : Ustar.Entry} (h : e.content.length ≤ 1024) :
    (Ustar.archive [e] []).length < 2 ^ 31 := by
  rw [Ustar.length_archive, List.map_cons, List.map_nil, List.sum_cons, List.sum_nil,
    List.length_nil, Ustar.length_encode]
  omega

def shortFile : Ustar.PathEntry :=
  plainPath [] "./usr/bin/hello".toList [104, 105] helloFile.name_ne_nil helloFile.nul_not_mem
    helloFile.length_encode_name (by decide) (by decide)

/-- A path of 121 bytes. -/
def deepFile : Ustar.PathEntry :=
  plainPath ("./usr/lib/".toList ++ List.replicate 90 'a') (List.replicate 20 'b') [104, 105]
    (by decide) (by decide) (by decide) (by decide) (by decide)

end Lwrt.Ipkg
