import Lwrt.Verification.Ipkg.Archive
import Lwrt.Verification.Ipkg.Install
import Lwrt.Verification.Ipkg.Paths

/-! # Removing what was installed -/

namespace Lwrt.Ipkg

open Library Text Utf8

/-! ## Places of the program -/

def listPlace (name : Text) : Path :=
  Path.resolve [] (listPath name)

def controlPlace (name : Text) : Path :=
  Path.resolve [] (controlPath name)

/-- Not under the directory of the package manager. -/
def Outside (p : Path) : Prop :=
  ¬Path.resolve [] state <+: p

instance : DecidablePred Outside :=
  fun p => inferInstanceAs (Decidable (¬Path.resolve [] state <+: p))

theorem head?_state_append (t : Text) : (state ++ t).head? = some '/' := by
  rw [List.head?_append]
  rfl

theorem resolve_listPath (cwd : Path) (name : Text) :
    Path.resolve cwd (listPath name) = listPlace name := by
  apply Path.resolve_of_head?
  rw [listPath, List.append_assoc, List.append_assoc]
  exact head?_state_append _

theorem resolve_controlPath (cwd : Path) (name : Text) :
    Path.resolve cwd (controlPath name) = controlPlace name := by
  apply Path.resolve_of_head?
  rw [controlPath, List.append_assoc, List.append_assoc]
  exact head?_state_append _

/-! ## What an install writes -/

/-- The text of the manifest. -/
def manifest (ms : List Member) : Text :=
  ['\n'].intercalate ((fileMembers ms).map Member.name)

/-- The writes of an install that goes through: the files of the archive, the manifest and the
control file. -/
def installLog (host : Host) (name : Text) (ms : List Member) : WriteLog Path (List UInt8) :=
  writeLog ((fileMembers ms).map fun m => (m.name, m.data)) ++
    (((host.list.stored (encode (manifest ms))).map (listPlace name, ·)).toList ++
      ((lastControl ms).bind fun m =>
        (host.control.stored m.data).map (controlPlace name, ·)).toList)

theorem files_record (host : Host) (name : Text) (control : Option (List UInt8)) (files : List Text)
    (fs : FileSystem) (p : Path) :
    (record host name control files fs).files p =
      (WriteLog.final (control.bind fun ctrl =>
        (host.control.stored ctrl).map (controlPlace name, ·)).toList p).or
        ((WriteLog.final ((host.list.stored (encode (['\n'].intercalate files))).map
          (listPlace name, ·)).toList p).or (fs.files p)) := by
  cases control with
  | none =>
      simp only [record, resolve_listPath, files_write, Option.bind_none, Option.toList_none,
        WriteLog.final_nil, Option.none_or]
  | some ctrl =>
      simp only [record, resolve_listPath, resolve_controlPath, files_write, Option.bind_some]

/-- An install that passes the check, by how its visits end. -/
theorem install_of_fetch {host : Host} {repo name : Text} {fs : FileSystem} {blob : List UInt8}
    (hfetch : fetch host repo name fs = some blob) (fuel : ℕ) :
    install host fuel repo name fs =
      match visitAll host 0 (walk blob fuel 0).1 ⟨fs, none, []⟩, (walk blob fuel 0).2 with
      | .error fs, _ => (fs, .code 1)
      | .ok e, .ended => (record host name e.control e.written e.fs, .code 0)
      | .ok e, .panicked => (e.fs, .panicked)
      | .ok e, .running => (e.fs, .running) := by
  simp only [install, hfetch, extractUstar, extractFrom_eq]
  cases visitAll host 0 (walk blob fuel 0).1 ⟨fs, none, []⟩ with
  | error fs => rfl
  | ok e =>
      cases (walk blob fuel 0).2 with
      | ended => rfl
      | panicked => rfl
      | running => rfl

theorem install_eq_record {host : Host} {fuel : ℕ} {repo name : Text} {fs : FileSystem}
    {blob : List UInt8} (hfetch : fetch host repo name fs = some blob)
    (hcode : (install host fuel repo name fs).2 = .code 0) :
    ∃ e, visitAll host 0 (walk blob fuel 0).1 ⟨fs, none, []⟩ = .ok e ∧
      (install host fuel repo name fs).1 = record host name e.control e.written e.fs := by
  rw [install_of_fetch hfetch] at hcode ⊢
  cases hvisit : visitAll host 0 (walk blob fuel 0).1 ⟨fs, none, []⟩ with
  | error fs => simp [hvisit] at hcode
  | ok e =>
      cases hstop : (walk blob fuel 0).2 with
      | ended => exact ⟨e, rfl, rfl⟩
      | panicked => simp [hvisit, hstop] at hcode
      | running => simp [hvisit, hstop] at hcode

/-- An install that goes through leaves every file as its log says. -/
theorem files_install {host : Host} {fuel : ℕ} {repo name : Text} {fs : FileSystem}
    {blob : List UInt8} (hfetch : fetch host repo name fs = some blob)
    (hcode : (install host fuel repo name fs).2 = .code 0) (p : Path) :
    (install host fuel repo name fs).1.files p =
      ((installLog host name (walk blob fuel 0).1).final p).or (fs.files p) := by
  obtain ⟨e, he, hrecord⟩ := install_eq_record hfetch hcode
  obtain ⟨htouched, hwritten, hcontrol⟩ := visitAll_ok he
  have hfiles := files_visitAll host 0 (walk blob fuel 0).1 ⟨fs, none, []⟩ p
  rw [he, htouched] at hfiles
  rw [hrecord, files_record, hwritten, hcontrol, Option.or_none, List.nil_append,
    show e.fs.files p = _ from hfiles, installLog, WriteLog.final_append, WriteLog.final_append,
    ← manifest, Option.or_assoc, Option.or_assoc]
  cases lastControl (walk blob fuel 0).1 with
  | none => rfl
  | some m => rfl

/-! ## What a removal deletes -/

/-- The place that a line of the manifest makes `remove` delete. -/
def lineTarget (cwd : Path) (l : Text) : Option Path :=
  if l ≠ [] ∧ l ≠ "./control".toList ∧ Path.namesDirectory l = false then some (Path.resolve cwd l)
  else none

/-- The places that `remove` deletes, with a manifest of that content. -/
def deleted (cwd : Path) (name : Text) (content : Option (List UInt8)) : List Path :=
  match content.bind fromUtf8 with
  | none => []
  | some text => listPlace name :: (lines text).filterMap (lineTarget cwd)

theorem files_removeLine (cwd : Path) (fs : FileSystem) (l : Text) (p : Path) :
    (removeLine cwd fs l).files p = if lineTarget cwd l = some p then none else fs.files p := by
  rw [removeLine, lineTarget]
  by_cases hline : l ≠ [] ∧ l ≠ "./control".toList
  · rw [if_pos hline, FileSystem.removeFile]
    cases hdir : Path.namesDirectory l with
    | true => simp
    | false =>
        have hkeep : l ≠ [] ∧ l ≠ "./control".toList ∧ false = false := ⟨hline.1, hline.2, rfl⟩
        rw [if_neg Bool.false_ne_true, if_pos hkeep, FileSystem.unlink]
        simp only [Option.some.injEq]
        exact if_congr eq_comm rfl rfl
  · have hnone : ¬(l ≠ [] ∧ l ≠ "./control".toList ∧ Path.namesDirectory l = false) :=
      fun h => hline ⟨h.1, h.2.1⟩
    rw [if_neg hline, if_neg hnone]
    simp

theorem files_foldl_removeLine (cwd : Path) (ls : List Text) (fs : FileSystem) (p : Path) :
    (ls.foldl (removeLine cwd) fs).files p =
      if p ∈ ls.filterMap (lineTarget cwd) then none else fs.files p := by
  induction ls generalizing fs with
  | nil => rfl
  | cons l ls ih =>
      have hmem : p ∈ (l :: ls).filterMap (lineTarget cwd) ↔
          lineTarget cwd l = some p ∨ p ∈ ls.filterMap (lineTarget cwd) := by
        simp [List.mem_filterMap]
      rw [List.foldl_cons, ih, files_removeLine, if_congr hmem rfl rfl]
      by_cases hl : lineTarget cwd l = some p
      · simp [hl]
      · simp [hl]

/-- `remove` deletes the places of the manifest and the manifest. -/
theorem files_remove (cwd : Path) (name : Text) (fs : FileSystem) (p : Path) :
    (remove cwd name fs).1.files p =
      if p ∈ deleted cwd name (fs.files (listPlace name)) then none else fs.files p := by
  rw [remove, deleted]
  simp only [resolve_listPath, FileSystem.readToString]
  cases (fs.files (listPlace name)).bind fromUtf8 with
  | none => rfl
  | some text =>
      simp only [FileSystem.unlink, files_foldl_removeLine, List.mem_cons]
      by_cases hp : p = listPlace name
      · simp [hp]
      · simp [hp]

/-! ## Install, then remove -/

/-- Outside the package manager's directory, an install followed by a removal from `cwd` deletes
what the install wrote and leaves every other file as it was. -/
def Undoes (host : Host) (fuel : ℕ) (repo name : Text) (fs : FileSystem) (ms : List Member)
    (cwd : Path) : Prop :=
  ∀ p, Outside p → (remove cwd name (install host fuel repo name fs).1).1.files p =
    if p ∈ (installLog host name ms).map Prod.fst then none else fs.files p

/-- Outside the package manager's directory, the lines of the manifest, read from `cwd`, name every
place that the install writes to and no other place with a file. -/
def NamesExactly (host : Host) (name : Text) (fs : FileSystem) (ms : List Member) (cwd : Path) :
    Prop :=
  ∀ p, Outside p →
    (p ∈ (installLog host name ms).map Prod.fst → p ∈ deleted cwd name
      (((installLog host name ms).final (listPlace name)).or (fs.files (listPlace name)))) ∧
    (p ∈ deleted cwd name
      (((installLog host name ms).final (listPlace name)).or (fs.files (listPlace name))) →
        p ∈ (installLog host name ms).map Prod.fst ∨ fs.files p = none)

section Undo

variable {host : Host} {fuel : ℕ} {repo name : Text} {fs : FileSystem} {blob : List UInt8}
variable (hfetch : fetch host repo name fs = some blob)
variable (hcode : (install host fuel repo name fs).2 = .code 0)
include hfetch hcode

theorem undoes_of_namesExactly {cwd : Path}
    (h : NamesExactly host name fs (walk blob fuel 0).1 cwd) :
    Undoes host fuel repo name fs (walk blob fuel 0).1 cwd := by
  intro p hp
  obtain ⟨hcovered, honly⟩ := h p hp
  rw [files_remove, files_install hfetch hcode, files_install hfetch hcode]
  by_cases hwritten : p ∈ (installLog host name (walk blob fuel 0).1).map Prod.fst
  · rw [if_pos (hcovered hwritten), if_pos hwritten]
  · rw [if_neg hwritten, WriteLog.final_of_not_mem hwritten, Option.none_or]
    split
    · rename_i hgone
      exact ((honly hgone).resolve_left hwritten).symm
    · rfl

theorem namesExactly_of_undoes {cwd : Path}
    (h : Undoes host fuel repo name fs (walk blob fuel 0).1 cwd) :
    NamesExactly host name fs (walk blob fuel 0).1 cwd := by
  intro p hp
  have hafter := h p hp
  rw [files_remove, files_install hfetch hcode, files_install hfetch hcode] at hafter
  constructor
  · intro hwritten
    by_contra hkept
    obtain ⟨v, hv⟩ := WriteLog.exists_final hwritten
    rw [if_neg hkept, if_pos hwritten, hv] at hafter
    cases hafter
  · intro hgone
    by_cases hwritten : p ∈ (installLog host name (walk blob fuel 0).1).map Prod.fst
    · exact Or.inl hwritten
    · rw [if_pos hgone, if_neg hwritten] at hafter
      exact Or.inr hafter.symm

/-- A removal undoes an install if and only if the manifest names exactly what was written. -/
theorem undoes_iff (cwd : Path) :
    Undoes host fuel repo name fs (walk blob fuel 0).1 cwd ↔
      NamesExactly host name fs (walk blob fuel 0).1 cwd :=
  ⟨namesExactly_of_undoes hfetch hcode, undoes_of_namesExactly hfetch hcode⟩

end Undo

/-! ## From the root directory -/

/-- A member name that survives the manifest and leads from the root where the installer goes. -/
structure IsPlainName (name : Text) : Prop where
  newline : '\n' ∉ name
  carriageReturn : name.getLast? ≠ some '\r'
  parent : ['.', '.'] ∉ name.splitOn '/'
  file : Path.namesDirectory name = false

theorem kind_eq_file {m : Member} (h : m.kind = .file) :
    m.name ≠ [] ∧ isControl m.name = false := by
  rw [Member.kind] at h
  split at h
  · cases h
  · rename_i hne
    split at h
    · cases h
    · rename_i hcontrol
      exact ⟨hne, Bool.eq_false_iff.mpr hcontrol⟩

theorem lineTarget_root {m : Member} (hkind : m.kind = .file) (h : IsPlainName m.name) :
    lineTarget [] m.name = some (target m.name) := by
  obtain ⟨hne, hcontrol⟩ := kind_eq_file hkind
  have hname : m.name ≠ "./control".toList := by
    intro heq
    rw [heq] at hcontrol
    exact absurd hcontrol (by decide)
  rw [lineTarget, if_pos ⟨hne, hname, h.file⟩, resolve_root_eq_target h.parent]

/-- The manifest of plain names, read from the root. -/
theorem deleted_root {ms : List Member} (h : ∀ m ∈ fileMembers ms, IsPlainName m.name)
    (name : Text) :
    deleted [] name (some (encode (manifest ms))) =
      listPlace name :: (fileMembers ms).map fun m => target m.name := by
  have hlines : lines (manifest ms) = (fileMembers ms).map Member.name := by
    apply lines_intercalate
    intro l hl
    obtain ⟨m, hm, rfl⟩ := List.mem_map.mp hl
    have hkind : m.kind = .file := of_decide_eq_true (List.mem_filter.mp hm).2
    exact ⟨(h m hm).newline, (h m hm).carriageReturn, (kind_eq_file hkind).1⟩
  have htargets : ((fileMembers ms).map Member.name).filterMap (lineTarget []) =
      (fileMembers ms).map fun m => target m.name := by
    rw [List.filterMap_map, ← List.filterMap_eq_map]
    apply List.filterMap_congr
    intro m hm
    exact lineTarget_root (of_decide_eq_true (List.mem_filter.mp hm).2) (h m hm)
  simp only [deleted, Option.bind_some, fromUtf8_encode, hlines, htargets]

/-- A name with an ending of more than two characters is no special component. -/
theorem isName_append (name : Text) {t : Text} (ht : 3 ≤ t.length) :
    Path.isName (name ++ t) = true := by
  have hlen : 3 ≤ (name ++ t).length := by
    rw [List.length_append]
    omega
  simp only [Path.isName, decide_eq_true_eq]
  refine ⟨?_, ?_, ?_⟩
  · intro h
    simp [h] at hlen
  · intro h
    simp [h] at hlen
  · intro h
    simp [h] at hlen

/-- A file of the package manager, for a package whose name is not a path. -/
theorem resolve_installed {name t : Text} (hname : '/' ∉ name) (hslash : '/' ∉ t)
    (hlen : 3 ≤ t.length) :
    Path.resolve [] (state ++ "/installed/".toList ++ name ++ t) =
      ["var".toList, "ipkg".toList, "installed".toList, name ++ t] := by
  have hx := isName_append name hlen
  have hfree : '/' ∉ name ++ t := by
    rw [List.mem_append, not_or]
    exact ⟨hname, hslash⟩
  have hsplit : ("/var/ipkg/installed".toList ++ '/' :: (name ++ t)).splitOn '/' =
      [[], "var".toList, "ipkg".toList, "installed".toList] ++ [name ++ t] := by
    rw [List.splitOn_append_cons_self, List.splitOn_eq_singleton hfree]
    rfl
  have hparent : ['.', '.'] ≠ name ++ t := by
    intro h
    rw [← h] at hx
    cases hx
  have hnames : ([[], "var".toList, "ipkg".toList, "installed".toList] : Path).filter Path.isName =
      ["var".toList, "ipkg".toList, "installed".toList] := by
    decide
  rw [List.append_assoc]
  change Path.resolve [] ("/var/ipkg/installed".toList ++ '/' :: (name ++ t)) = _
  rw [Path.resolve_root (by rw [hsplit]; simp [hparent]), hsplit, List.filter_append, hnames,
    List.filter_singleton, hx]
  rfl

theorem listPlace_eq {name : Text} (h : '/' ∉ name) :
    listPlace name = ["var".toList, "ipkg".toList, "installed".toList, name ++ ".list".toList] :=
  resolve_installed h (by decide) (by decide)

theorem controlPlace_eq {name : Text} (h : '/' ∉ name) :
    controlPlace name =
      ["var".toList, "ipkg".toList, "installed".toList, name ++ ".control".toList] :=
  resolve_installed h (by decide) (by decide)

theorem eq_controlPlace {host : Host} {name : Text} {ms : List Member} {w : Path × List UInt8}
    (hw : w ∈ ((lastControl ms).bind fun m =>
      (host.control.stored m.data).map (controlPlace name, ·)).toList) :
    w.1 = controlPlace name := by
  rw [Option.mem_toList, Option.bind_eq_some_iff] at hw
  obtain ⟨m, -, hw⟩ := hw
  obtain ⟨b, -, rfl⟩ := Option.map_eq_some_iff.mp hw
  rfl

/-- Run from the root directory, with the manifest on the disk and plain names in the archive, a
removal undoes the install. -/
theorem undoes_from_root {host : Host} {fuel : ℕ} {repo name : Text} {fs : FileSystem}
    {blob : List UInt8} (hfetch : fetch host repo name fs = some blob)
    (hcode : (install host fuel repo name fs).2 = .code 0) (hname : '/' ∉ name)
    (hlist : host.list.ok (encode (manifest (walk blob fuel 0).1)) = true)
    (hplain : ∀ m ∈ fileMembers (walk blob fuel 0).1, IsPlainName m.name) :
    Undoes host fuel repo name fs (walk blob fuel 0).1 [] := by
  apply undoes_of_namesExactly hfetch hcode
  generalize (walk blob fuel 0).1 = ms at hlist hplain
  have hne : controlPlace name ≠ listPlace name := by
    rw [controlPlace_eq hname, listPlace_eq hname]
    simp
  have hinside : ¬Outside (controlPlace name) := by
    rw [controlPlace_eq hname, Outside, not_not]
    exact ⟨["installed".toList, name ++ ".control".toList], rfl⟩
  have hstored := Outcome.stored_of_ok hlist
  have hmanifest : (installLog host name ms).final (listPlace name) =
      some (encode (manifest ms)) := by
    rw [installLog, WriteLog.final_append, WriteLog.final_append,
      WriteLog.final_eq_none fun w hw heq => hne ((eq_controlPlace hw).symm.trans heq), hstored]
    simp [WriteLog.final_cons]
  have hkeys : (installLog host name ms).map Prod.fst =
      ((fileMembers ms).map fun m => target m.name) ++ listPlace name ::
        ((lastControl ms).bind fun m =>
          (host.control.stored m.data).map (controlPlace name, ·)).toList.map Prod.fst := by
    simp [installLog, writeLog, hstored]
  intro p hp
  rw [hmanifest, Option.some_or, deleted_root hplain, hkeys, List.mem_append, List.mem_cons,
    List.mem_cons]
  constructor
  · rintro (hfile | hlisted | hcontrol)
    · exact Or.inr hfile
    · exact Or.inl hlisted
    · obtain ⟨w, hw, rfl⟩ := List.mem_map.mp hcontrol
      rw [eq_controlPlace hw] at hp
      exact absurd hp hinside
  · rintro (hlisted | hfile)
    · exact Or.inl (Or.inr (Or.inl hlisted))
    · exact Or.inl (Or.inl hfile)

/-! ## From another directory -/

/-- The archive of the example feed. -/
def helloArchive : List UInt8 :=
  Ustar.archive [helloFile] []

theorem length_helloArchive : (okResponse ++ helloArchive).length < 2 ^ 31 := by
  have hresponse : okResponse.length = 19 := by decide
  simp [helloArchive, Ustar.length_archive, Ustar.length_encode, helloFile, plain, hresponse]

def helloHost : Host :=
  serve helloArchive length_helloArchive quietHost

def helloDisk : FileSystem :=
  publish helloArchive emptyDisk

theorem fetch_hello : fetch helloHost feed "hello".toList helloDisk = some helloArchive :=
  fetch_published quietHost emptyDisk helloArchive length_helloArchive

/-- The walk over an archive that was downloaded. -/
theorem walk_served {es : List Ustar.Entry} (h : (okResponse ++ Ustar.archive es []).length < 2 ^ 31)
    {fuel : ℕ} (hfuel : es.length < fuel) :
    walk (Ustar.archive es []) fuel 0 = (es.map memberOf, .ended) := by
  rw [List.length_append] at h
  exact walk_archive_zero (by omega) hfuel

theorem walk_helloArchive : walk helloArchive 2 0 = ([memberOf helloFile], .ended) :=
  walk_served length_helloArchive (by decide)

theorem install_hello_code : (install helloHost 2 feed "hello".toList helloDisk).2 = .code 0 := by
  have hwrite : ∀ i bytes, (helloHost.write i).ok bytes = true := fun _ _ => rfl
  obtain ⟨e, he⟩ := visitAll_of_write hwrite 0 [memberOf helloFile] ⟨helloDisk, none, []⟩
  rw [install_of_fetch fetch_hello, walk_helloArchive]
  simp only [he]

theorem undoes_iff_hello :
    Undoes helloHost 2 feed "hello".toList helloDisk (walk helloArchive 2 0).1 [] ↔
      NamesExactly helloHost "hello".toList helloDisk (walk helloArchive 2 0).1 [] :=
  undoes_iff fetch_hello install_hello_code []

/-- A package removed from `/root` leaves its files behind. -/
theorem hello_not_undone_from_root :
    ¬Undoes helloHost 2 feed "hello".toList helloDisk (walk helloArchive 2 0).1
      ["root".toList] := by
  intro h
  have hplace := h ["usr".toList, "bin".toList, "hello".toList] (by decide)
  rw [files_remove, files_install fetch_hello install_hello_code,
    files_install fetch_hello install_hello_code, walk_helloArchive] at hplace
  revert hplace
  decide

end Lwrt.Ipkg
