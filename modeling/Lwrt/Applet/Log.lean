import Lwrt.Library.Text

/-! The log file: every line is appended, and a full file is kept as the old one. -/

namespace Lwrt.Log

open Library Text

/-- `MAX`. -/
def maxSize : ℕ :=
  64 * 1024

/-- `/var/log/messages` and `/var/log/messages.0`. -/
structure Files where
  file : Option (List UInt8)
  old : Option (List UInt8)

/-- `rename`: a missing file is not renamed. -/
def Files.rename (fs : Files) : Files :=
  match fs.file with
  | some bytes => ⟨none, some bytes⟩
  | none => fs

/-- Append one line, rotating once when the file crosses `maxSize`. -/
def append (fs : Files) (line : Text) : Files :=
  let fs := if maxSize ≤ (fs.file.map List.length).getD 0 then fs.rename else fs
  { fs with file := some (fs.file.getD [] ++ Utf8.encode (line ++ ['\n'])) }

/-- What `log read` prints: the rotated file, then the current one. -/
def read (fs : Files) : Text :=
  (fs.old.bind Utf8.fromUtf8).getD [] ++ (fs.file.bind Utf8.fromUtf8).getD []

/-! ## Where the lines come from -/

/-- `trim_end_matches`. -/
def trimEndMatches (cs : List Char) (s : Text) : Text :=
  s.rdropWhile cs.contains

/-- The seconds since the epoch, in brackets. -/
def stamp (secs : ℕ) : Text :=
  '[' :: decimal secs ++ [']']

/-- A datagram of `/dev/log` is one message, possibly with a trailing newline. -/
def ingestUserspace (fs : Files) (secs : ℕ) (bytes : List UInt8) : Files :=
  let msg := trimEndMatches ['\n', '\x00'] (Utf8.fromUtf8Lossy bytes)
  if msg = [] then fs else append fs (stamp secs ++ ' ' :: msg)

/-- A record of `/dev/kmsg` is `prio,seq,ts,flag;message`. Keep the message. -/
def ingestKernel (fs : Files) (secs : ℕ) (bytes : List UInt8) : Files :=
  let rec' := Utf8.fromUtf8Lossy bytes
  let body := trimEndMatches ['\n'] (((splitOnce ';' rec').map Prod.snd).getD rec')
  if body = [] then fs else append fs (stamp secs ++ " kernel: ".toList ++ body)

/-- `log <text...>`, when no daemon takes the message. -/
def logger (fs : Files) (secs : ℕ) (msg : Text) : Files :=
  append fs (stamp secs ++ " user: ".toList ++ msg)

/-- A message for the log, with the time it arrives. -/
inductive Message where
  | userspace (secs : ℕ) (bytes : List UInt8)
  | kernel (secs : ℕ) (bytes : List UInt8)
  | logger (secs : ℕ) (msg : Text)

def ingest (fs : Files) : Message → Files
  | .userspace secs bytes => ingestUserspace fs secs bytes
  | .kernel secs bytes => ingestKernel fs secs bytes
  | .logger secs msg => logger fs secs msg

/-! ## The daemon -/

/-- The size of the receive buffer. -/
def bufSize : ℕ :=
  4096

/-- What one turn of the loop finds: a datagram in the socket, and what the reads from the kernel
ring return until one fails, each with the time it is ingested. -/
structure Wake where
  datagram : Option (ℕ × List UInt8)
  records : List (ℕ × List UInt8)

/-- A datagram is cut short where the buffer ends. An empty read ends the draining. -/
def turn (fs : Files) (w : Wake) : Files :=
  let fs := match w.datagram with
    | some (secs, bytes) => ingestUserspace fs secs (bytes.take bufSize)
    | none => fs
  (w.records.takeWhile (·.2 ≠ [])).foldl (fun fs r => ingestKernel fs r.1 r.2) fs

def daemon (fs : Files) (ws : List Wake) : Files :=
  ws.foldl turn fs

end Lwrt.Log
