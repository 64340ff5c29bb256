import Lwrt.Applet.Httpd.Fragments
import Lwrt.Applet.Httpd.Settings
import Lwrt.Applet.Sha256
import Lwrt.Library.Machine

/-! Sessions, authorisation and routing of the admin UI. -/

namespace Lwrt.Httpd

open Library Text

/-! ## Sessions -/

/-- The lifetime of a session, in nanoseconds. -/
def sessionTtl : ℕ :=
  3600 * 10 ^ 9

/-- Token to issue time. -/
structure Sessions where
  tokens : Std.TreeMap Text ℕ

namespace Sessions

def empty : Sessions :=
  ⟨∅⟩

/-- `now` is the clock reading of the call. A time difference saturates at zero. -/
def gc (s : Sessions) (now : ℕ) : Sessions :=
  ⟨s.tokens.filter fun _ t => now - t < sessionTtl⟩

/-- Both `gc` and the insertion read the clock. -/
def insert (s : Sessions) (token : Text) (now later : ℕ) : Sessions :=
  ⟨(s.gc now).tokens.insert token later⟩

def valid (s : Sessions) (token : Text) (now : ℕ) : Bool :=
  match s.tokens[token]? with
  | some t => now - t < sessionTtl
  | none => false

end Sessions

/-! ## Authorisation -/

/-- The request line and the headers that matter. -/
structure Request where
  method : Text
  path : Text
  body : List UInt8
  cookieToken : Option Text
  csrf : Option Text

def authRequired (cfg : Config) : Bool :=
  (cfg.get "admin".toList "password".toList).isSome ||
    (cfg.get "admin".toList "password_sha256".toList).isSome

def verifyPassword (cfg : Config) (supplied : Text) : Bool :=
  match cfg.get "admin".toList "password_sha256".toList with
  | some h => eqIgnoreAsciiCase (Sha256.hex (Sha256.digest (Utf8.encode supplied))) (trim h)
  | none =>
      match cfg.get "admin".toList "password".toList with
      | some p => p == supplied
      | none => false

def isAuthed (req : Request) (cfg : Config) (sessions : Sessions) (now : ℕ) : Bool :=
  if authRequired cfg then
    match req.cookieToken with
    | some tok => sessions.valid tok now
    | none => false
  else true

/-- State-changing requests need cookie and header to match, except in open mode. -/
def csrfOk (req : Request) (cfg : Config) : Bool :=
  if authRequired cfg then
    match req.cookieToken, req.csrf with
    | some c, some h => c == h
    | _, _ => false
  else true

/-- `random` is the buffer after the attempt to fill it from `/dev/urandom`. -/
def newToken (random : List UInt8) : Text :=
  Sha256.hex random

/-! ## Routing -/

structure Resp where
  status : Text
  ctype : Text
  payload : List UInt8
  setCookie : Option Text
deriving DecidableEq

def html (status body : Text) : Resp :=
  ⟨status, "text/html; charset=utf-8".toList, Utf8.encode body, none⟩

/-- What a request leads to: a response that is ready, or work on the system. -/
inductive Task where
  | respond (resp : Resp)
  | status
  | clients
  | settings
  | save (body : List UInt8)
  | reboot
deriving DecidableEq

def login (req : Request) (cfg : Config) (sessions : Sessions) (host : Text) (now later : ℕ)
    (random : List UInt8) : Sessions × Task :=
  let supplied := (field (parseForm req.body) "password".toList).getD []
  if !authRequired cfg || verifyPassword cfg supplied then
    let token := newToken random
    (sessions.insert token now later,
      .respond { html "200 OK".toList (shellInner (some token) host) with setCookie := some token })
  else
    (sessions,
      .respond (html "401 Unauthorized".toList (loginInner (some "Wrong password".toList))))

/-- The decisions of `route`: the sessions after them and the task that is left. `now` and
`later` are the clock readings of the request. -/
def dispatch (req : Request) (cfg : Config) (sessions : Sessions) (now later : ℕ)
    (random : List UInt8) : Sessions × Task :=
  let host := cfg.getOr "system".toList "hostname".toList "lwrt".toList
  let forbidden := html "403 Forbidden".toList
    (note "Session check failed — reload the page.".toList true)
  if req.method = "GET".toList ∧ req.path = "/".toList then
    if authRequired cfg && !isAuthed req cfg sessions now then
      (sessions, .respond (html "200 OK".toList (fullPage (loginInner none))))
    else
      let csrf := if authRequired cfg then req.cookieToken else none
      (sessions, .respond (html "200 OK".toList (fullPage (shellInner csrf host))))
  else if req.method = "POST".toList ∧ req.path = "/ui/login".toList then
    login req cfg sessions host now later random
  else if !isAuthed req cfg sessions now then
    (sessions, .respond (html "401 Unauthorized".toList
      (loginInner (some "Session expired — sign in again".toList))))
  else if req.method = "GET".toList ∧ req.path = "/ui/status".toList then (sessions, .status)
  else if req.method = "GET".toList ∧ req.path = "/ui/clients".toList then (sessions, .clients)
  else if req.method = "GET".toList ∧ req.path = "/ui/settings".toList then (sessions, .settings)
  else if req.method = "POST".toList ∧ req.path = "/ui/settings".toList then
    (sessions, if csrfOk req cfg then .save req.body else .respond forbidden)
  else if req.method = "POST".toList ∧ req.path = "/ui/reboot".toList then
    (sessions, if csrfOk req cfg then .reboot else .respond forbidden)
  else
    (sessions, .respond ⟨"404 Not Found".toList, "text/plain".toList,
      Utf8.encode "not found".toList, none⟩)

/-! ## The system behind the routes -/

/-- `fs::read_to_string`, of a file that may be missing. -/
def readToString (file : Option (List UInt8)) : Option Text :=
  file.bind Utf8.fromUtf8

/-- How `fs::write` ends: the file cannot be opened, or writing stops after some bytes. -/
inductive WriteEnd where
  | done
  | openFailed
  | writeFailed (written : ℕ)

def fsWrite (file : Option (List UInt8)) (contents : List UInt8) : WriteEnd → Option (List UInt8)
  | .done => some contents
  | .openFailed => file
  | .writeFailed written => some (contents.take written)

/-- The answer of `save_settings`. -/
def saveAnswer (ok : Bool) : Resp :=
  if ok then html "200 OK".toList (note "Saved. Reboot to apply network changes.".toList false)
  else html "500 Error".toList (note "Could not write config.".toList true)

def WriteEnd.ok : WriteEnd → Bool
  | .done => true
  | _ => false

/-- The configuration file after `save_settings`, and its answer. -/
def saveSettings (stored : Option (List UInt8)) (body : List UInt8) (e : WriteEnd) :
    Option (List UInt8) × Resp :=
  let merged := Utf8.encode (mergedSettings (readToString stored) body)
  (fsWrite stored merged e, saveAnswer e.ok)

/-- What the server and its requests work on. -/
structure Site where
  stored : Option (List UInt8)
  /-- Termination signals sent to process 1. -/
  signals : ℕ
  sessions : Sessions
  clock : ℕ

def Site.config (s : Site) : Config :=
  Config.load (readToString s.stored)

/-- A request with what it meets: the configuration it was given, the time since the last
clock reading and between its own two, random bytes, files, and how a write ends. -/
structure Call where
  req : Request
  cfg : Config
  wait : ℕ
  pause : ℕ
  random : List UInt8
  files : Files
  writeEnd : WriteEnd

/-- Carry out a task: the file, the signals and the response after it. -/
def perform (s : Site) (c : Call) : Task → Option (List UInt8) × ℕ × Resp
  | .respond resp => (s.stored, s.signals, resp)
  | .status => (s.stored, s.signals, html "200 OK".toList (fragStatus s.config c.files))
  | .clients => (s.stored, s.signals, html "200 OK".toList (fragClients c.files))
  | .settings => (s.stored, s.signals, html "200 OK".toList (fragSettings s.config))
  | .save body =>
      let saved := saveSettings s.stored body c.writeEnd
      (saved.1, s.signals, saved.2)
  | .reboot =>
      (s.stored, s.signals + 1, html "200 OK".toList
        (note "Rebooting… this page will stop responding for a moment.".toList false))

/-- A request that was handled. -/
structure Exchange where
  before : Site
  call : Call
  task : Task
  after : Site
  resp : Resp

/-- The clock reading of the session check, and the one of an insertion. -/
def Exchange.now (x : Exchange) : ℕ :=
  x.before.clock + x.call.wait

def Exchange.later (x : Exchange) : ℕ :=
  x.now + x.call.pause

def route (s : Site) (c : Call) : Exchange :=
  let now := s.clock + c.wait
  let decided := dispatch c.req c.cfg s.sessions now (now + c.pause) c.random
  let performed := perform s c decided.2
  { before := s
    call := c
    task := decided.2
    after := ⟨performed.1, performed.2.1, decided.1, now + c.pause⟩
    resp := performed.2.2 }

/-- One request after the other. -/
def serve : Machine Site Call Exchange :=
  fun s c => ((route s c).after, [route s c])

end Lwrt.Httpd
