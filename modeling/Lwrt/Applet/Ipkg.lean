import Lwrt.Library.FileSystem
import Lwrt.Applet.Config
import Lwrt.Applet.Sha256

/-! The package manager: the index of a feed, the download and its check, the unpacking of a ustar
archive under `/`, and the removal of what a manifest lists. -/

namespace Lwrt.Ipkg

open Library Text Utf8

/-- A byte vector on the target, whose addresses are 32 bits wide. -/
abbrev Vec := { bytes : List UInt8 // bytes.length < 2 ^ 31 }

/-- What a command meets outside the program: its working directory, the answer of a server to a
request, and how each call that changes the file system ends. `write` and `mkdir` are for the
members of an archive, by their position; the others are for the files of the program. -/
structure Host where
  cwd : Path
  connect : Text → List UInt8 → Except Text Vec
  write : ℕ → Outcome
  mkdir : ℕ → Bool
  setup : Bool
  index : Outcome
  list : Outcome
  control : Outcome

/-- How a command ends: it returns a code, it panics, or it is still running. -/
inductive Exit where
  | code (n : ℕ)
  | panicked
  | running
deriving DecidableEq

/-! ## Paths of the program -/

def state : Text :=
  "/var/ipkg".toList

def packages : Text :=
  state ++ "/Packages".toList

def listPath (name : Text) : Text :=
  state ++ "/installed/".toList ++ name ++ ".list".toList

def controlPath (name : Text) : Text :=
  state ++ "/installed/".toList ++ name ++ ".control".toList

/-! ## The index -/

/-- One package's metadata. -/
structure Entry where
  filename : Text
  size : Option ℕ
  sha256 : Option Text
deriving DecidableEq

/-- What the lines of a stanza have set so far. -/
structure Fields where
  isMatch : Bool
  filename : Option Text
  size : Option ℕ
  sha256 : Option Text
deriving DecidableEq

def Fields.line (name : Text) (f : Fields) (line : Text) : Fields :=
  match splitOnce ':' line with
  | none => f
  | some (key, val) =>
      let val := trim val
      if trim key = "Package".toList then { f with isMatch := val = name }
      else if trim key = "Filename".toList then { f with filename := some val }
      else if trim key = "Size".toList then { f with size := parseUnsigned (2 ^ 32) val }
      else if trim key = "SHA256sum".toList then { f with sha256 := some val }
      else f

def stanzaFields (name stanza : Text) : Fields :=
  (lines stanza).foldl (Fields.line name) ⟨false, none, none, none⟩

def findEntry (index name : Text) : Option Entry :=
  (splitDouble '\n' index).findSome? fun stanza =>
    let f := stanzaFields name stanza
    if f.isMatch then some ⟨f.filename.getD (name ++ ".ipk".toList), f.size, f.sha256⟩ else none

/-! ## HTTP/1.0 GET -/

/-- The offset of the first empty line. -/
def headerEnd : List UInt8 → Option ℕ
  | [] => none
  | b :: raw =>
      if [13, 10, 13, 10].isPrefixOf (b :: raw) then some 0 else (headerEnd raw).map (· + 1)

def contains (s sub : Text) : Bool :=
  s.tails.any sub.isPrefixOf

/-- The body of a response with status 200. -/
def responseBody (raw : List UInt8) : Except Text (List UInt8) :=
  match headerEnd raw with
  | none => .error "no http header terminator".toList
  | some sep =>
      let headers := fromUtf8Lossy (raw.take sep)
      if (lines headers).head?.any (contains · " 200".toList) then .ok (raw.drop (sep + 4))
      else .error "http status not 200".toList

def request (path host : Text) : Text :=
  "GET ".toList ++ path ++ " HTTP/1.0\r\nHost: ".toList ++ host ++
    "\r\nConnection: close\r\nUser-Agent: ipkg\r\n\r\n".toList

def httpGet (host : Host) (url : Text) : Except Text (List UInt8) :=
  if "http://".toList.isPrefixOf url then
    let rest := url.drop 7
    let hostport := before '/' rest
    let path := match splitOnce '/' rest with
      | some (_, p) => '/' :: p
      | none => ['/']
    let addr := if ':' ∈ hostport then hostport else hostport ++ ":80".toList
    match host.connect addr (encode (request path (before ':' hostport))) with
    | .error e => .error e
    | .ok raw => responseBody raw.1
  else .error "only http:// supported".toList

/-! ## ustar extraction -/

/-- Release arithmetic on addresses wraps. -/
@[irreducible]
def usize (n : ℕ) : ℕ :=
  n % 2 ^ 32

def trimDotSlash : Text → Text
  | '.' :: '/' :: s => trimDotSlash s
  | s => s

/-- Does this archive member name the package's control file? -/
def isControl (name : Text) : Bool :=
  trimDotSlash name = "control".toList

def cstr (b : List UInt8) : Text :=
  fromUtf8Lossy (b.takeWhile (· ≠ 0))

def octal (b : List UInt8) : ℕ :=
  let s := trim (cstr b)
  (parseOctal (2 ^ 32) (if s = [] then "0".toList else s)).getD 0

def align512 (n : ℕ) : ℕ :=
  usize (n + 511) / 512 * 512

/-- An archive member name as an absolute path, without `..` and empty components. -/
def sanitize (name : Text) : Text :=
  let trimmed := (trimDotSlash name).dropWhile (· = '/')
  let safe := (trimmed.splitOn '/').filter fun c => c ≠ "..".toList ∧ c ≠ []
  '/' :: ['/'].intercalate safe

/-- A member as the loop sees it. -/
structure Member where
  name : Text
  typeflag : UInt8
  data : List UInt8
deriving DecidableEq

/-- The variables of the loop: the file system, the control blob and the names written. -/
structure Extraction where
  fs : FileSystem
  control : Option (List UInt8)
  written : List Text

/-- The `i`-th turn of the loop, after the member's bytes are cut out. An error leaves the file
system as it is by then. -/
def visit (host : Host) (i : ℕ) (m : Member) (e : Extraction) : Except FileSystem Extraction :=
  if m.name = [] then .ok e
  else if isControl m.name then .ok { e with control := some m.data }
  else
    let path := Path.resolve host.cwd (sanitize m.name)
    if m.typeflag = byte '5' then
      .ok { e with fs := if host.mkdir i then e.fs.createDirAll path else e.fs }
    else if m.typeflag = byte '0' ∨ m.typeflag = 0 then
      let fs := if path ≠ [] ∧ host.mkdir i then e.fs.createDirAll path.dropLast else e.fs
      let fs := fs.write (host.write i) path m.data
      if (host.write i).ok m.data then .ok { e with fs := fs, written := e.written ++ [m.name] }
      else .error fs
    else .ok e

/-- How the extraction ends. -/
inductive Ending where
  | ok (control : Option (List UInt8)) (files : List Text)
  | err
  | panicked
  | running
deriving DecidableEq

/-- What the loop finds at an offset: the end, a slice whose start is after its end, or a member
and the offset of the next header. -/
inductive Turn where
  | stop
  | panicked
  | member (m : Member) (next : ℕ)
deriving DecidableEq

def turn (data : List UInt8) (off : ℕ) : Turn :=
  if usize (off + 512) ≤ data.length then
    if usize (off + 512) < off then .panicked
    else
      let hdr := extract data off 512
      if hdr.all (· = 0) then .stop
      else
        let name := cstr (extract hdr 0 100)
        let size := octal (extract hdr 124 12)
        let typeflag := hdr.getD 156 0
        let off := usize (off + 512)
        let stop := min (usize (off + size)) data.length
        if stop < off then .panicked
        else .member ⟨name, typeflag, extract data off (stop - off)⟩ (usize (off + align512 size))
  else .stop

/-- At most `fuel` turns of the loop, the `i`-th one next, at offset `off`. -/
def extractFrom (host : Host) (data : List UInt8) :
    ℕ → ℕ → ℕ → Extraction → FileSystem × Ending
  | 0, _, _, e => (e.fs, .running)
  | fuel + 1, i, off, e =>
      match turn data off with
      | .stop => (e.fs, .ok e.control e.written)
      | .panicked => (e.fs, .panicked)
      | .member m next =>
          match visit host i m e with
          | .error fs => (fs, .err)
          | .ok e => extractFrom host data fuel (i + 1) next e

def extractUstar (host : Host) (fuel : ℕ) (data : List UInt8) (fs : FileSystem) :
    FileSystem × Ending :=
  extractFrom host data fuel 0 0 ⟨fs, none, []⟩

/-! ## Commands -/

/-- Fetch the index. -/
def update (host : Host) (repo : Text) (fs : FileSystem) : FileSystem × Exit :=
  match httpGet host (repo ++ "/Packages".toList) with
  | .ok body => (fs.write host.index (Path.resolve host.cwd packages) body, .code 0)
  | .error _ => (fs, .code 1)

/-- Print the index. -/
def list (host : Host) (fs : FileSystem) : Exit :=
  match fs.readToString (Path.resolve host.cwd packages) with
  | some _ => .code 0
  | none => .code 1

/-- The manifest and the control file of an installed package; errors are ignored. -/
def record (host : Host) (name : Text) (control : Option (List UInt8)) (files : List Text)
    (fs : FileSystem) : FileSystem :=
  let manifest := encode (['\n'].intercalate files)
  let fs := fs.write host.list (Path.resolve host.cwd (listPath name)) manifest
  match control with
  | some ctrl => fs.write host.control (Path.resolve host.cwd (controlPath name)) ctrl
  | none => fs

/-- Size, where the index has one, then digest; an index without a digest is refused. -/
def checkBlob (entry : Entry) (blob : List UInt8) : Bool :=
  (match entry.size with
    | some sz => blob.length = sz
    | none => true) &&
  match entry.sha256 with
    | some want => eqIgnoreAsciiCase (Sha256.hex (Sha256.digest blob)) want
    | none => false

/-- The downloaded package, when the index vouches for it. -/
def fetch (host : Host) (repo name : Text) (fs : FileSystem) : Option (List UInt8) :=
  match fs.readToString (Path.resolve host.cwd packages) with
  | none => none
  | some index =>
      match findEntry index name with
      | none => none
      | some entry =>
          match httpGet host (repo ++ '/' :: entry.filename) with
          | .error _ => none
          | .ok blob => if checkBlob entry blob then some blob else none

/-- `fuel` bounds the turns of the extraction loop. -/
def install (host : Host) (fuel : ℕ) (repo name : Text) (fs : FileSystem) : FileSystem × Exit :=
  match fetch host repo name fs with
  | none => (fs, .code 1)
  | some blob =>
      match extractUstar host fuel blob fs with
      | (fs, .ok control files) => (record host name control files fs, .code 0)
      | (fs, .err) => (fs, .code 1)
      | (fs, .panicked) => (fs, .panicked)
      | (fs, .running) => (fs, .running)

def removeLine (cwd : Path) (fs : FileSystem) (f : Text) : FileSystem :=
  if f ≠ [] ∧ f ≠ "./control".toList then fs.removeFile cwd f else fs

def remove (cwd : Path) (name : Text) (fs : FileSystem) : FileSystem × Exit :=
  let list := Path.resolve cwd (listPath name)
  match fs.readToString list with
  | none => (fs, .code 1)
  | some manifest => (((lines manifest).foldl (removeLine cwd) fs).unlink list, .code 0)

/-- The feed that the configuration names. -/
def repoOf (host : Host) (fs : FileSystem) : Text :=
  (Config.load (fs.readToString (Path.resolve host.cwd "/etc/lwrt/config".toList))).getOr
    "ipkg".toList "repo".toList "http://downloads.lwrt.local/packages".toList

def run (host : Host) (fuel : ℕ) (args : List Text) (fs : FileSystem) : FileSystem × Exit :=
  let repo := repoOf host fs
  let installed := Path.resolve host.cwd (state ++ "/installed".toList)
  let fs := if host.setup then fs.createDirAll installed else fs
  match args with
  | [] => (fs, .code 1)
  | cmd :: rest =>
      if cmd = "update".toList then update host repo fs
      else if cmd = "list".toList then (fs, list host fs)
      else if cmd = "install".toList then
        match rest with
        | name :: _ => install host fuel repo name fs
        | [] => (fs, .code 1)
      else if cmd = "remove".toList then
        match rest with
        | name :: _ => remove host.cwd name fs
        | [] => (fs, .code 1)
      else (fs, .code 1)

end Lwrt.Ipkg
