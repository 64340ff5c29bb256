import Lwrt.Library.WriteLog
import Lwrt.Applet.Ipkg

/-! # The members of an archive and what visiting them does -/

namespace Lwrt.Ipkg

open Library Text Utf8

/-! ## The walk -/

/-- How the walk over the headers stops. -/
inductive Stop where
  | ended
  | panicked
  | running
deriving DecidableEq

/-- The members that the loop comes to from an offset, which no effect of visiting them changes. -/
def walk (data : List UInt8) : ℕ → ℕ → List Member × Stop
  | 0, _ => ([], .running)
  | fuel + 1, off =>
      match turn data off with
      | .stop => ([], .ended)
      | .panicked => ([], .panicked)
      | .member m next => (m :: (walk data fuel next).1, (walk data fuel next).2)

/-- Member after member, until one fails. -/
def visitAll (host : Host) : ℕ → List Member → Extraction → Except FileSystem Extraction
  | _, [], e => .ok e
  | i, m :: ms, e =>
      match visit host i m e with
      | .error fs => .error fs
      | .ok e => visitAll host (i + 1) ms e

def Stop.ending (e : Extraction) : Stop → Ending
  | ended => .ok e.control e.written
  | panicked => .panicked
  | running => .running

/-- The loop visits the members of the walk. -/
theorem extractFrom_eq (host : Host) (data : List UInt8) (fuel i off : ℕ) (e : Extraction) :
    extractFrom host data fuel i off e =
      match visitAll host i (walk data fuel off).1 e with
      | .error fs => (fs, .err)
      | .ok e => (e.fs, (walk data fuel off).2.ending e) := by
  induction fuel generalizing i off e with
  | zero => rfl
  | succ fuel ih =>
      rw [extractFrom, walk]
      cases hturn : turn data off with
      | stop => simp only [visitAll, Stop.ending]
      | panicked => simp only [visitAll, Stop.ending]
      | member m next =>
          simp only [visitAll]
          cases hvisit : visit host i m e with
          | error fs => simp only
          | ok e => exact ih (i + 1) next e

/-! ## Kinds of members -/

/-- What a member is to the installer. -/
inductive Kind where
  | control
  | directory
  | file
  | other
deriving DecidableEq

def Member.kind (m : Member) : Kind :=
  if m.name = [] then .other
  else if isControl m.name then .control
  else if m.typeflag = byte '5' then .directory
  else if m.typeflag = byte '0' ∨ m.typeflag = 0 then .file
  else .other

/-- Where a member of that name goes, from whatever directory the command is run. -/
def target (name : Text) : Path :=
  Path.resolve [] (sanitize name)

/-- The parent directory is there before a file is created. -/
def makeParent (host : Host) (i : ℕ) (name : Text) (fs : FileSystem) : FileSystem :=
  if target name ≠ [] ∧ host.mkdir i then fs.createDirAll (target name).dropLast else fs

/-- What one visit does. -/
theorem visit_eq (host : Host) (i : ℕ) (m : Member) (e : Extraction) :
    visit host i m e = match m.kind with
      | .control => .ok { e with control := some m.data }
      | .directory =>
          .ok { e with fs := if host.mkdir i then e.fs.createDirAll (target m.name) else e.fs }
      | .file =>
          let fs := (makeParent host i m.name e.fs).write (host.write i) (target m.name) m.data
          if (host.write i).ok m.data then .ok { e with fs := fs, written := e.written ++ [m.name] }
          else .error fs
      | .other => .ok e := by
  rw [visit, Member.kind]
  split
  · rfl
  · split
    · rfl
    · split
      · rfl
      · split
        · rfl
        · rfl

/-! ## Files -/

/-- The files that the members create, with what is in them: up to the first one that cannot be
written in full. -/
def touched (host : Host) : ℕ → List Member → List (Text × List UInt8)
  | _, [] => []
  | i, m :: ms =>
      if m.kind = .file then
        (((host.write i).stored m.data).map (m.name, ·)).toList ++
          if (host.write i).ok m.data then touched host (i + 1) ms else []
      else touched host (i + 1) ms

/-- The writes to places. -/
def writeLog (ts : List (Text × List UInt8)) : WriteLog Path (List UInt8) :=
  ts.map fun t => (target t.1, t.2)

/-- The file system after a run of visits, whether or not it fails. -/
def stateAfter : Except FileSystem Extraction → FileSystem
  | .error fs => fs
  | .ok e => e.fs

theorem files_makeParent (host : Host) (i : ℕ) (name : Text) (fs : FileSystem) :
    (makeParent host i name fs).files = fs.files := by
  rw [makeParent]
  split <;> rfl

/-- One call is a log of at most one write. -/
theorem files_write (fs : FileSystem) (o : Outcome) (p : Path) (bytes : List UInt8) (q : Path) :
    (fs.write o p bytes).files q =
      (WriteLog.final ((o.stored bytes).map (p, ·)).toList q).or (fs.files q) := by
  by_cases hq : q = p
  · rw [hq, FileSystem.files_write_self]
    cases o.stored bytes <;> simp [WriteLog.final_cons]
  · rw [FileSystem.files_write_of_ne fs o bytes hq]
    cases o.stored bytes <;> simp [WriteLog.final_cons, Ne.symm hq]

theorem writeLog_toList (name : Text) (b : Option (List UInt8)) :
    writeLog (b.map (name, ·)).toList = (b.map (target name, ·)).toList := by
  cases b <;> rfl

/-- A run of visits changes files by its writes only. -/
theorem files_visitAll (host : Host) (i : ℕ) (ms : List Member) (e : Extraction) (p : Path) :
    (stateAfter (visitAll host i ms e)).files p =
      ((writeLog (touched host i ms)).final p).or (e.fs.files p) := by
  induction ms generalizing i e with
  | nil => rfl
  | cons m ms ih =>
      rw [visitAll, visit_eq, touched]
      cases hk : m.kind with
      | control => exact ih (i + 1) _
      | directory =>
          refine (ih (i + 1) _).trans ?_
          cases host.mkdir i <;> rfl
      | other => exact ih (i + 1) _
      | file =>
          have hwrite := files_write (makeParent host i m.name e.fs) (host.write i) (target m.name)
            m.data p
          rw [files_makeParent, ← writeLog_toList] at hwrite
          simp only [if_true]
          cases hok : (host.write i).ok m.data with
          | false =>
              simp only [Bool.false_eq_true, if_false, List.append_nil]
              exact hwrite
          | true =>
              simp only [if_true]
              rw [ih, hwrite, writeLog, writeLog, writeLog, List.map_append,
                WriteLog.final_append, Option.or_assoc]

/-! ## Runs that go through -/

/-- The regular members, less the control file. -/
def fileMembers (ms : List Member) : List Member :=
  ms.filter (·.kind = .file)

/-- The last control member. -/
def lastControl (ms : List Member) : Option Member :=
  (ms.filter (·.kind = .control)).getLast?

theorem fileMembers_cons (m : Member) (ms : List Member) :
    fileMembers (m :: ms) = fileMembers [m] ++ fileMembers ms :=
  List.filter_append [m] ms

theorem lastControl_cons (m : Member) (ms : List Member) :
    lastControl (m :: ms) = (lastControl ms).or (lastControl [m]) := by
  rw [lastControl, ← List.singleton_append, List.filter_append, List.getLast?_append]
  rfl

/-- The directory that a member asks for, with all above it: a directory member itself, the parent
of a file. -/
def Member.directory (m : Member) : Option Path :=
  match m.kind with
  | .directory => some (target m.name)
  | .file => if target m.name = [] then none else some (target m.name).dropLast
  | _ => none

/-- A visit that goes through. -/
theorem visit_ok {host : Host} {i : ℕ} {m : Member} {e e' : Extraction}
    (h : visit host i m e = .ok e') :
    (m.kind = .file → (host.write i).ok m.data = true) ∧
      e'.written = e.written ++ (fileMembers [m]).map Member.name ∧
      e'.control = ((lastControl [m]).map Member.data).or e.control ∧
      ∀ p, e'.fs.dirs p =
        (e.fs.dirs p || m.directory.any fun d => host.mkdir i && p.isPrefixOf d) := by
  rw [visit_eq] at h
  cases hk : m.kind with
  | control =>
      simp only [hk, Except.ok.injEq] at h
      subst h
      simp [fileMembers, lastControl, Member.directory, hk]
  | directory =>
      simp only [hk, Except.ok.injEq] at h
      subst h
      refine ⟨by simp, by simp [fileMembers, hk], by simp [lastControl, hk], fun p => ?_⟩
      cases hmk : host.mkdir i <;> simp [Member.directory, hk, FileSystem.createDirAll]
  | other =>
      simp only [hk, Except.ok.injEq] at h
      subst h
      simp [fileMembers, lastControl, Member.directory, hk]
  | file =>
      simp only [hk] at h
      split at h
      · rename_i hok
        simp only [Except.ok.injEq] at h
        subst h
        refine ⟨fun _ => hok, by simp [fileMembers, hk], by simp [lastControl, hk], fun p => ?_⟩
        by_cases hroot : target m.name = []
        · simp [FileSystem.write, makeParent, Member.directory, hk, hroot]
        · cases hmk : host.mkdir i <;>
            simp [FileSystem.write, makeParent, Member.directory, hk, hroot, hmk,
              FileSystem.createDirAll]
      · cases h

/-- Every file that is created is written in full, and its name is noted. -/
theorem visitAll_ok {host : Host} {i : ℕ} {ms : List Member} {e e' : Extraction}
    (h : visitAll host i ms e = .ok e') :
    touched host i ms = (fileMembers ms).map (fun m => (m.name, m.data)) ∧
      e'.written = e.written ++ (fileMembers ms).map Member.name ∧
      e'.control = ((lastControl ms).map Member.data).or e.control := by
  induction ms generalizing i e with
  | nil =>
      cases h
      simp [touched, fileMembers, lastControl]
  | cons m ms ih =>
      rw [visitAll] at h
      cases hvisit : visit host i m e with
      | error fs => simp [hvisit] at h
      | ok e₁ =>
          simp only [hvisit] at h
          obtain ⟨hok, hwritten₁, hcontrol₁, -⟩ := visit_ok hvisit
          obtain ⟨htouched, hwritten, hcontrol⟩ := ih h
          refine ⟨?_, ?_, ?_⟩
          · rw [touched, htouched, fileMembers, fileMembers, List.filter_cons]
            by_cases hk : m.kind = .file
            · simp [hk, hok hk, Outcome.stored_of_ok (hok hk)]
            · simp [hk]
          · rw [hwritten, hwritten₁, List.append_assoc, ← List.map_append, ← fileMembers_cons]
          · rw [hcontrol, hcontrol₁, ← Option.or_assoc, ← Option.map_or, ← lastControl_cons]

/-- The directories that were asked for are there. -/
theorem dirs_visitAll {host : Host} (hmkdir : ∀ i, host.mkdir i = true) {i : ℕ} {ms : List Member}
    {e e' : Extraction} (h : visitAll host i ms e = .ok e') (p : Path) :
    e'.fs.dirs p = (e.fs.dirs p || ms.any fun m => m.directory.any p.isPrefixOf) := by
  induction ms generalizing i e with
  | nil =>
      cases h
      simp
  | cons m ms ih =>
      rw [visitAll] at h
      cases hvisit : visit host i m e with
      | error fs => simp [hvisit] at h
      | ok e₁ =>
          simp only [hvisit] at h
          have hdirs := (visit_ok hvisit).2.2.2 p
          simp only [hmkdir, Bool.true_and] at hdirs
          rw [ih h, hdirs, List.any_cons, Bool.or_assoc]

/-- Where every file can be written, no visit fails. -/
theorem visitAll_of_write {host : Host} (hwrite : ∀ i bytes, (host.write i).ok bytes = true) (i : ℕ)
    (ms : List Member) (e : Extraction) : ∃ e', visitAll host i ms e = .ok e' := by
  induction ms generalizing i e with
  | nil => exact ⟨e, rfl⟩
  | cons m ms ih =>
      have hvisit : ∃ e₁, visit host i m e = .ok e₁ := by
        rw [visit_eq]
        cases m.kind with
        | file => simp [hwrite]
        | control => exact ⟨_, rfl⟩
        | directory => exact ⟨_, rfl⟩
        | other => exact ⟨_, rfl⟩
      obtain ⟨e₁, hvisit⟩ := hvisit
      rw [visitAll, hvisit]
      exact ih (i + 1) e₁

end Lwrt.Ipkg
