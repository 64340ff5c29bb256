import Lwrt.Applet.Httpd.Route
import Lwrt.Library.Machine

/-! Settings saves side by side, when the write of the file is one step. -/

namespace Lwrt.Httpd

open Library Text

/-- What `save_settings` writes, by the file it read. -/
def mergedContents (file : Option (List UInt8)) (body : List UInt8) : List UInt8 :=
  Utf8.encode (mergedSettings (readToString file) body)

/-- The configuration file, and what each save has merged. -/
structure Saves where
  file : Option (List UInt8)
  merged : ℕ → Option (List UInt8)

/-- A save reads the file and merges its form; then it writes the result. -/
inductive SaveStep where
  | read (i : ℕ) (body : List UInt8)
  | write (i : ℕ)
deriving DecidableEq

/-- No lock is held between the two steps of a save. -/
def saveStep : Machine Saves SaveStep Empty
  | s, .read i body =>
      ({ s with
          merged := fun j => if j = i then some (mergedContents s.file body) else s.merged j }, [])
  | s, .write i =>
      match s.merged i with
      | some contents => ({ s with file := some contents }, [])
      | none => (s, [])

/-- The file after some steps. -/
def savedFile (file : Option (List UInt8)) (steps : List SaveStep) : Option (List UInt8) :=
  (Machine.run saveStep ⟨file, fun _ => none⟩ steps).1.file

end Lwrt.Httpd
