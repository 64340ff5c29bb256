import Lwrt.Applet.Sha256
import Lwrt.Model.Fips180
import Lwrt.Model.Ustar

/-! The feed builder `mkrepo.sh`: the archives it packs and the index it writes. -/

namespace Lwrt.Mkrepo

open Library Text

/-- A package as its index stanza shows it: the text of its control file, and the name, the size
and the digest of its archive. -/
structure Built where
  ctrl : Text
  ipk : Text
  size : ℕ
  sha : Text

def stanza (p : Built) : Text :=
  p.ctrl ++ "\n".toList ++
    "Filename: ".toList ++ p.ipk ++ "\n".toList ++
    "Size: ".toList ++ decimal p.size ++ "\n".toList ++
    "SHA256sum: ".toList ++ p.sha ++ "\n".toList ++
    "\n".toList

/-- Stanza after stanza is appended to the index. -/
def index (ps : List Built) : Text :=
  ps.flatMap stanza

/-! ## Packing -/

/-- `[[:space:]]`. -/
def space : List Char :=
  [' ', '\t', '\n', '\x0b', '\x0c', '\r']

/-- A `Key:` value of a control file: what follows on the first line that begins with the key. -/
def controlField (ctrl key : Text) : Text :=
  (((ctrl.splitOn '\n').find? (key ++ [':']).isPrefixOf).map fun line =>
    (line.drop (key.length + 1)).dropWhile (· ∈ space)).getD []

/-- A package's directory: its control file, and what tar makes of this file and of the tree to
install. `tail` is what fills the last record. -/
structure Source where
  ctrl : Text
  control : Ustar.Entry
  payload : List Ustar.Entry
  tail : List UInt8
  name_control : control.name = "./control".toList
  typeflag_control : control.typeflag = Utf8.byte '0'
  content_control : control.content = Utf8.encode ctrl

/-- The control member first, then the payload. -/
def Source.archive (s : Source) : List UInt8 :=
  Ustar.archive (s.control :: s.payload) s.tail

def Source.ipk (arch : Text) (s : Source) : Text :=
  let pkg := controlField s.ctrl "Package".toList
  let ver := controlField s.ctrl "Version".toList
  pkg ++ '_' :: (if ver = [] then "0".toList else ver) ++ '_' :: arch ++ ".ipk".toList

def Source.build (arch : Text) (s : Source) : Built where
  ctrl := s.ctrl
  ipk := s.ipk arch
  size := s.archive.length
  sha := Sha256.hex (Fips180.sha256 s.archive)

/-- The files of the feed as they are written, unless there is no package, or one without a name. -/
def run (arch : Text) (sources : List Source) : Option (List (Text × List UInt8)) :=
  if sources ≠ [] ∧ ∀ s ∈ sources, controlField s.ctrl "Package".toList ≠ [] then
    some (sources.map (fun s => (s.ipk arch, s.archive)) ++
      [("Packages".toList, Utf8.encode (index (sources.map (Source.build arch))))])
  else none

end Lwrt.Mkrepo
