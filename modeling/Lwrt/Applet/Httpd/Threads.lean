import Lwrt.Applet.Httpd.Route

/-! The connections of the admin UI side by side. Each thread reads and writes the
configuration file in steps of its own. -/

namespace Lwrt.Httpd

open Library Text

/-- What the configuration file is read for: `Config::load` in `handle` or in a fragment, or
the old text in `save_settings`. -/
inductive Purpose where
  | handle (req : Request)
  | status
  | settings
  | merge (body : List UInt8)

/-- `Config::load`, as opposed to a read of the text. -/
def Purpose.loads : Purpose → Bool
  | .merge _ => false
  | _ => true

/-- How far a connection is. -/
inductive Phase where
  | opening (why : Purpose)
  | reading (why : Purpose) (buf : List UInt8)
  | ready (req : Request) (cfg : Config)
  | saving (contents : List UInt8)
  /-- The file is open and truncated, `written` bytes are in. -/
  | writing (contents : List UInt8) (written : ℕ)
  | finished (resp : Resp)

/-- The process: the configuration file and the connections by number. -/
structure Server where
  file : Option (List UInt8)
  sessions : Sessions
  signals : ℕ
  clock : ℕ
  threads : ℕ → Option Phase

def Server.start (file : Option (List UInt8)) : Server :=
  ⟨file, .empty, 0, 0, fun _ => none⟩

def Server.put (s : Server) (i : ℕ) (phase : Phase) : Server :=
  { s with threads := fun j => if j = i then some phase else s.threads j }

/-- A step of one thread. -/
inductive Action where
  | connect (i : ℕ) (req : Request)
  | openRead (i : ℕ) (files : Files)
  /-- Read at most `n + 1` bytes. -/
  | read (i n : ℕ) (files : Files)
  | route (i wait pause : ℕ) (random : List UInt8) (files : Files)
  | truncate (i : ℕ)
  /-- Write at most `n + 1` bytes. -/
  | write (i n : ℕ)
  /-- Opening the file for writing fails, or a write to it does. -/
  | fail (i : ℕ)

/-- What can be observed of the configuration. -/
inductive Event where
  | loaded (content : Option (List UInt8))
  | handled (cfg : Config)
  | published (contents : List UInt8)
  /-- A save is answered with an error, and this is the file then. -/
  | failed (file : Option (List UInt8))

/-- The next phase once the file was read. -/
def received (content : Option (List UInt8)) (files : Files) : Purpose → Phase
  | .handle req => .ready req (Config.load (readToString content))
  | .status =>
      .finished (html "200 OK".toList (fragStatus (Config.load (readToString content)) files))
  | .settings =>
      .finished (html "200 OK".toList (fragSettings (Config.load (readToString content))))
  | .merge body => .saving (Utf8.encode (mergedSettings (readToString content) body))

def loadEvent (why : Purpose) (content : Option (List UInt8)) : List Event :=
  if why.loads then [.loaded content] else []

/-- A write of `src` at an offset of a file; a gap before it reads as zeros. -/
def writeAt (b : List UInt8) (off : ℕ) (src : List UInt8) : List UInt8 :=
  copyAt (b ++ List.replicate (off - b.length) 0) off src

/-- The phase once the request was routed. -/
def Task.phase (files : Files) : Task → Phase
  | .respond resp => .finished resp
  | .status => .opening .status
  | .clients => .finished (html "200 OK".toList (fragClients files))
  | .settings => .opening .settings
  | .save body => .opening (.merge body)
  | .reboot => .finished (html "200 OK".toList
      (note "Rebooting… this page will stop responding for a moment.".toList false))

/-- The state once `written` bytes of the new file are in; with the last one the save is
answered. -/
def Server.progress (s : Server) (i : ℕ) (contents : List UInt8) (written : ℕ) :
    Server × List Event :=
  if written = contents.length then
    (s.put i (.finished (saveAnswer true)), [.published contents])
  else (s.put i (.writing contents written), [])

/-- One step; an action that the thread is not ready for does nothing. -/
def step : Machine Server Action Event
  | s, .connect i req =>
      match s.threads i with
      | none => (s.put i (.opening (.handle req)), [])
      | some _ => (s, [])
  | s, .openRead i files =>
      match s.threads i with
      | some (.opening why) =>
          match s.file with
          | none => (s.put i (received none files why), loadEvent why none)
          | some _ => (s.put i (.reading why []), [])
      | _ => (s, [])
  | s, .read i n files =>
      match s.threads i with
      | some (.reading why buf) =>
          if (s.file.getD []).length ≤ buf.length then
            (s.put i (received (some buf) files why), loadEvent why (some buf))
          else (s.put i (.reading why (buf ++ extract (s.file.getD []) buf.length (n + 1))), [])
      | _ => (s, [])
  | s, .route i wait pause random files =>
      match s.threads i with
      | some (.ready req cfg) =>
          let now := s.clock + wait
          let decided := dispatch req cfg s.sessions now (now + pause) random
          ({ s with
              sessions := decided.1
              signals := if decided.2 = Task.reboot then s.signals + 1 else s.signals
              clock := now + pause }.put i (decided.2.phase files), [.handled cfg])
      | _ => (s, [])
  | s, .truncate i =>
      match s.threads i with
      | some (.saving contents) => { s with file := some [] }.progress i contents 0
      | _ => (s, [])
  | s, .write i n =>
      match s.threads i with
      | some (.writing contents written) =>
          let chunk := extract contents written (n + 1)
          { s with file := some (writeAt (s.file.getD []) written chunk) }.progress i contents
            (written + chunk.length)
      | _ => (s, [])
  | s, .fail i =>
      match s.threads i with
      | some (.saving _) => (s.put i (.finished (saveAnswer false)), [.failed s.file])
      | some (.writing _ _) => (s.put i (.finished (saveAnswer false)), [.failed s.file])
      | _ => (s, [])

end Lwrt.Httpd
