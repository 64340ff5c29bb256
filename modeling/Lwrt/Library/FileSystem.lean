import Lwrt.Library.Text

/-! Files and directories of a Unix file system without links, and the texts that name them. -/

namespace Lwrt.Library

/-- A place in the tree: the components from the root. -/
abbrev Path := List Text

namespace Path

/-- From a directory along one component. -/
def enter (dir : Path) (c : Text) : Path :=
  if c = [] ∨ c = ['.'] then dir
  else if c = ['.', '.'] then dir.dropLast
  else dir ++ [c]

/-- The place that a text names for a process in the directory `cwd`. -/
def resolve (cwd : Path) (t : Text) : Path :=
  (t.splitOn '/').foldl enter (if t.head? = some '/' then [] else cwd)

/-- A text that no regular file answers to: it ends in a slash, in `.` or in `..`. -/
def namesDirectory (t : Text) : Bool :=
  match (t.splitOn '/').getLast? with
  | some c => c == [] || c == ['.'] || c == ['.', '.']
  | none => true

/-- An absolute text names the same place everywhere. -/
theorem resolve_of_head? {t : Text} (h : t.head? = some '/') (cwd : Path) :
    resolve cwd t = resolve [] t := by
  rw [resolve, if_pos h, resolve, if_pos h]

/-- A component that names something below the directory it is looked up in. -/
def isName (c : Text) : Bool :=
  c ≠ [] ∧ c ≠ ['.'] ∧ c ≠ ['.', '.']

theorem foldl_enter {cs : List Text} (h : ['.', '.'] ∉ cs) (dir : Path) :
    cs.foldl enter dir = dir ++ cs.filter isName := by
  induction cs generalizing dir with
  | nil => simp
  | cons c cs ih =>
      obtain ⟨hc, hcs⟩ := not_or.mp (mt List.mem_cons.mpr h)
      rw [List.foldl_cons, ih hcs, enter, if_neg (Ne.symm hc)]
      by_cases hskip : c = [] ∨ c = ['.']
      · have hname : isName c = false := by
          rcases hskip with rfl | rfl <;> rfl
        rw [if_pos hskip, List.filter_cons_of_neg (by rw [hname]; decide)]
      · have hname : isName c = true := by
          rw [not_or] at hskip
          simp [isName, hskip.1, hskip.2, Ne.symm hc]
        rw [if_neg hskip, List.filter_cons_of_pos hname, List.append_assoc, List.singleton_append]

/-- From the root, a text without `..` leads along its names. -/
theorem resolve_root {t : Text} (h : ['.', '.'] ∉ t.splitOn '/') :
    resolve [] t = (t.splitOn '/').filter isName := by
  rw [resolve, ite_self, foldl_enter h, List.nil_append]

end Path

structure FileSystem where
  files : Path → Option (List UInt8)
  dirs : Path → Bool

/-- What becomes of creating a file and writing all its bytes: it goes through, the device takes
only so many bytes, or the file cannot be created. -/
inductive Outcome where
  | done
  | full (n : ℕ)
  | refused
deriving DecidableEq

namespace Outcome

/-- Whether both calls succeed. -/
def ok : Outcome → List UInt8 → Bool
  | done, _ => true
  | full n, bytes => bytes.length ≤ n
  | refused, _ => false

/-- What the file holds afterwards, if it was created. -/
def stored : Outcome → List UInt8 → Option (List UInt8)
  | done, bytes => some bytes
  | full n, bytes => some (bytes.take n)
  | refused, _ => none

theorem stored_of_ok {o : Outcome} {bytes : List UInt8} (h : o.ok bytes = true) :
    o.stored bytes = some bytes := by
  cases o with
  | done => rfl
  | full n =>
      have hlen : bytes.length ≤ n := of_decide_eq_true h
      rw [stored, List.take_of_length_le hlen]
  | refused => cases h

end Outcome

namespace FileSystem

/-- `File::create` and `write_all`. -/
def write (fs : FileSystem) (o : Outcome) (p : Path) (bytes : List UInt8) : FileSystem :=
  { fs with files := fun q => if q = p then (o.stored bytes).or (fs.files q) else fs.files q }

/-- `fs::create_dir_all`, when it succeeds: the directory and every one above it. -/
def createDirAll (fs : FileSystem) (p : Path) : FileSystem :=
  { fs with dirs := fun q => fs.dirs q || q.isPrefixOf p }

/-- The file at a place, if there is one, is gone. -/
def unlink (fs : FileSystem) (p : Path) : FileSystem :=
  { fs with files := fun q => if q = p then none else fs.files q }

/-- `fs::remove_file`, its error ignored. -/
def removeFile (fs : FileSystem) (cwd : Path) (t : Text) : FileSystem :=
  if Path.namesDirectory t then fs else fs.unlink (Path.resolve cwd t)

/-- `fs::read_to_string`. -/
def readToString (fs : FileSystem) (p : Path) : Option Text :=
  (fs.files p).bind Utf8.fromUtf8

theorem files_write_self (fs : FileSystem) (o : Outcome) (p : Path) (bytes : List UInt8) :
    (fs.write o p bytes).files p = (o.stored bytes).or (fs.files p) := by
  simp [write]

theorem files_write_of_ne (fs : FileSystem) (o : Outcome) {p q : Path} (bytes : List UInt8)
    (h : q ≠ p) : (fs.write o p bytes).files q = fs.files q := by
  simp [write, h]

end FileSystem

end Lwrt.Library
