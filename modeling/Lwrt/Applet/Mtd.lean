import Lwrt.Library.FileSystem
import Lwrt.Model.Mtdchar

/-! The flash tool: which device a partition names, and erasing, writing and comparing it. -/

namespace Lwrt.Mtd

open Library Text Mtdchar

/-- A range that the tool asks to be erased. -/
structure EraseRequest where
  dev : Path
  start : ℕ
  length : ℕ
deriving DecidableEq

/-- What the tools act on. `devices` are the flash partitions by the places of their nodes; `erases`
and `reboots` are the requests so far. -/
structure World where
  fs : FileSystem
  devices : Path → Option Partition
  stdin : Option (List UInt8)
  erases : List EraseRequest
  reboots : ℕ

/-- The working directory, and how the calls end that change something: the erasing of a block by
its offset, the writing of the image, and the copy of the configuration. -/
structure Host where
  cwd : Path
  erase : ℕ → Erasure
  write : Programming
  backup : Outcome

/-- What keeps a command from returning. -/
inductive Stop where
  | overflow
  | endless
  | unwrapped
deriving DecidableEq

/-- The result of 32-bit arithmetic. -/
def u32 (n : ℕ) : Except Stop ℕ :=
  if n < 2 ^ 32 then .ok n else .error .overflow

/-! ## Files -/

/-- The regular file that a text names. -/
def World.regular (w : World) (cwd : Path) (t : Text) : Option (List UInt8) :=
  if Path.namesDirectory t then none else w.fs.files (Path.resolve cwd t)

/-- The partition whose device node a text names. -/
def World.device (w : World) (cwd : Path) (t : Text) : Option Partition :=
  if Path.namesDirectory t then none else w.devices (Path.resolve cwd t)

/-- `fs::read`, of a regular file or of a device. -/
def World.read (w : World) (cwd : Path) (t : Text) : Option (List UInt8) :=
  ((w.device cwd t).map Partition.bytes).or (w.regular cwd t)

/-! ## Partition resolution -/

def procMtd : Text :=
  "/proc/mtd".toList

/-- The name of the partition in a line of the table, with its device. -/
def tableEntry (line : Text) : Option (Text × Text) :=
  (splitOnce ':' line).bind fun (dev, rest) =>
    (rest.splitOn '"')[1]?.map fun name => (name, trim dev)

/-- An explicit path, a shorthand, or a partition name. -/
def resolve (fs : FileSystem) (part : Text) : Except Text Text :=
  if "/dev/".toList.isPrefixOf part then .ok part
  else
    let n := part.drop 3
    if "mtd".toList.isPrefixOf part ∧ n.all Char.isDigit ∧ n ≠ [] then
      .ok ("/dev/mtd".toList ++ n)
    else
      match fs.readToString (Path.resolve [] procMtd) with
      | none => .error "No such file or directory (os error 2)".toList
      | some table =>
          match (lines table).findSome? fun line =>
            (tableEntry line).bind fun (name, dev) => if name = part then some dev else none with
          | some dev => .ok ("/dev/".toList ++ dev)
          | none => .error ("no mtd partition named '".toList ++ part ++ "'".toList)

/-! ## An open partition -/

structure MtdInfo where
  size : ℕ
  erasesize : ℕ
deriving DecidableEq

/-- `get_info`: `size` at 8 and `erasesize` at 12. -/
def getInfo (p : Partition) : MtdInfo :=
  ⟨field p.info 8, field p.info 12⟩

/-- `open_part`: the place of the device, and the partition behind it. -/
def openPart (host : Host) (w : World) (part : Text) : Except Text (Path × Partition) :=
  match resolve w.fs part with
  | .error e => .error e
  | .ok path =>
      match w.device host.cwd path with
      | none => .error "No such file or directory (os error 2)".toList
      | some p => .ok (Path.resolve host.cwd path, p)

/-- `erase_info_user`: the offset and the length. -/
def eraseInfo (off bs : ℕ) : List UInt8 :=
  toLe32 (UInt32.ofNat off) ++ toLe32 (UInt32.ofNat bs)

/-- The loop of `erase_range`, from the offset `off` on. No block is empty, so the fuel is at
least the number of rounds. -/
def eraseLoop (host : Host) (dev : Path) (bs stop : ℕ) :
    ℕ → ℕ → Partition → List EraseRequest → Except Stop (Bool × Partition × List EraseRequest)
  | 0, _, _, _ => .error .endless
  | fuel + 1, off, p, erases =>
      if off < stop then
        let erases := erases ++ [⟨dev, off, bs⟩]
        match p.memErase (host.erase off) (eraseInfo off bs) with
        | (false, p) => .ok (false, p, erases)
        | (true, p) => do
            let off ← u32 (off + bs)
            eraseLoop host dev bs stop fuel off p erases
      else .ok (true, p, erases)

/-- `div_ceil`. -/
def divCeil (n d : ℕ) : ℕ :=
  if 0 < n % d then n / d + 1 else n / d

/-- Erase from `start` on, `len` bytes rounded up to blocks. -/
def eraseRange (host : Host) (dev : Path) (info : MtdInfo) (start len : ℕ) (p : Partition)
    (erases : List EraseRequest) : Except Stop (Bool × Partition × List EraseRequest) := do
  let bs := max info.erasesize 1
  -- `saturating_add`
  let stop := min (start + len) (2 ^ 32 - 1)
  let stop ← u32 (divCeil stop bs * bs)
  let stop := min stop info.size
  eraseLoop host dev bs stop (stop + 1) (start - start % bs) p erases

/-- The world once a device holds other bytes. -/
def World.store (w : World) (dev : Path) (p : Partition) (erases : List EraseRequest) : World :=
  { w with
    devices := fun q => if q = dev then some p else w.devices q
    erases := erases }

/-! ## Subcommands -/

/-- `read_image`: `-` takes standard input to its end. -/
def readImage (host : Host) (w : World) (src : Text) : Option (List UInt8) × World :=
  if src = ['-'] then (w.stdin, { w with stdin := w.stdin.map fun _ => [] })
  else (w.read host.cwd src, w)

def list (w : World) : ℕ :=
  if (w.fs.readToString (Path.resolve [] procMtd)).isSome then 0 else 1

/-- Flash an image onto a partition: the code, and the world afterwards. -/
def write (host : Host) (w : World) (img part : Text) : Except Stop (ℕ × World) :=
  match readImage host w img with
  | (none, w) => .ok (1, w)
  | (some data, w) =>
      match openPart host w part with
      | .error _ => .ok (1, w)
      | .ok (dev, p) =>
          let info := getInfo p
          if info.size < data.length then .ok (1, w)
          else do
            -- `data.len() as u32`
            let (erased, p, erases) ←
              eraseRange host dev info 0 (data.length % 2 ^ 32) p w.erases
            if erased then
              let (written, p) := p.writeAll host.write data
              .ok (if written then 0 else 1, w.store dev p erases)
            else .ok (1, w.store dev p erases)

/-- Erase a whole partition. -/
def erase (host : Host) (w : World) (part : Text) : Except Stop (ℕ × World) :=
  match openPart host w part with
  | .error _ => .ok (1, w)
  | .ok (dev, p) => do
      let info := getInfo p
      let (erased, p, erases) ← eraseRange host dev info 0 info.size p w.erases
      .ok (if erased then 0 else 1, w.store dev p erases)

/-- Compare the start of a partition with an image. -/
def verify (host : Host) (w : World) (img part : Text) : ℕ × World :=
  match readImage host w img with
  | (none, w) => (1, w)
  | (some data, w) =>
      match openPart host w part with
      | .error _ => (1, w)
      | .ok (_, p) =>
          match p.readExact data.length with
          | none => (1, w)
          | some onFlash => (if onFlash = data then 0 else 2, w)

def run (host : Host) (w : World) : List Text → Except Stop (ℕ × World)
  | [] => .ok (list w, w)
  | cmd :: args =>
      if cmd = "list".toList then .ok (list w, w)
      else if cmd = "write".toList then
        match args with
        | img :: part :: _ => write host w img part
        | _ => .ok (2, w)
      else if cmd = "erase".toList then
        match args with
        | part :: _ => erase host w part
        | [] => .ok (2, w)
      else if cmd = "verify".toList then
        match args with
        | img :: part :: _ => .ok (verify host w img part)
        | _ => .ok (2, w)
      else .ok (2, w)

end Lwrt.Mtd
