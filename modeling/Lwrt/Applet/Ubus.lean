import Lwrt.Library.Lines
import Lwrt.Library.Machine
import Lwrt.Applet.Json

/-! The message bus: a broker that keeps the registered objects, routes calls to the
connections that own them and hands their replies back. -/

namespace Lwrt.Ubus

open Library Text Json

/-! ## Frames on the wire -/

/-- `send_to`: one JSON text and a newline. -/
def frameBytes (v : Value) : List UInt8 :=
  Utf8.encode (v.write ++ ['\n'])

/-- What a loop over the lines of a stream parses: each line that is not blank. -/
def receive (stream : List UInt8) : List (Except Text Value) :=
  ((readLines stream).filter fun line => trim line ≠ []).map Value.parse

/-- The end of `request`: one response line. -/
def readResponse (stream : List UInt8) : Except Text Value :=
  match readLine stream with
  | none => .error "stream did not contain valid UTF-8".toList
  | some resp =>
      match Value.parse (trim resp) with
      | .ok v => .ok v
      | .error e => .error ("bad response: ".toList ++ e)

/-! ## The built-in `system` object -/

/-- What the built-ins read: `None` for a file that cannot be read. -/
structure System where
  kernelRelease : Text
  hostname : Option Text
  uptime : Option Text
  meminfo : Option Text
  now : ℕ

def s (text : String) : Value :=
  .str text.toList

def num (n : ℕ) : Value :=
  .num (.ofNat n)

def hostname (sys : System) : Text :=
  match sys.hostname with
  | some text => trim text
  | none => "lwrt".toList

def uptime (sys : System) : ℕ :=
  (((sys.uptime.bind fun text => (splitWhitespace text).head?).bind F64.parse).map F64.toU64).getD 0

/-- The number in the second field of a line. -/
def kb (line : Text) : ℕ :=
  ((splitWhitespace line)[1]?.bind (parseUnsigned (2 ^ 64))).getD 0

/-- The last `MemTotal` and `MemFree` of `/proc/meminfo`. -/
def meminfo (sys : System) : ℕ × ℕ :=
  (lines (sys.meminfo.getD [])).foldl
    (fun acc line =>
      if "MemTotal:".toList.isPrefixOf line then (kb line, acc.2)
      else if "MemFree:".toList.isPrefixOf line then (acc.1, kb line)
      else acc)
    (0, 0)

def version : String := "0.2.0"

def board (sys : System) : Value :=
  obj [("kernel", .str sys.kernelRelease), ("hostname", .str (hostname sys)), ("system", s "LWRT"),
    ("model", s "LWRT router"), ("board_name", s "lwrt"),
    ("release", obj [("distribution", s "LWRT"), ("version", s version)])]

def info (sys : System) : Value :=
  obj [("uptime", num (uptime sys)), ("localtime", num sys.now),
    ("memory", obj [("total", num (meminfo sys).1), ("free", num (meminfo sys).2)])]

def builtinCall (sys : System) (path method : Text) : Option Value :=
  if path = "system".toList ∧ method = "board".toList then some (board sys)
  else if path = "system".toList ∧ method = "info".toList then some (info sys)
  else none

def builtins : List (Text × List Text) :=
  [("system".toList, ["board".toList, "info".toList])]

/-! ## The broker -/

/-- A registered object and the connection that owns it. -/
structure Object where
  path : Text
  methods : List Text
  owner : ℕ

/-- The connections by number, the objects and listeners among them, and for each call in
flight the connection that waits for its answer. -/
structure Bus where
  objects : List Object
  conns : List ℕ
  listeners : List ℕ
  pending : List (ℕ × ℕ)
  nextConn : ℕ
  nextReq : ℕ

/-- A frame written to a connection. -/
structure Delivery where
  conn : ℕ
  frame : Value

def ok (data : Value) : Value :=
  obj [("status", .num (.ofNat 0)), ("data", data)]

def status (code : ℤ) : Value :=
  obj [("status", .num (.ofInt code))]

def err (code : ℤ) (msg : Text) : Value :=
  obj [("status", .num (.ofInt code)), ("error", .str msg)]

def invoke (reqid : ℕ) (method : Text) (args : Value) : Value :=
  obj [("invoke", num reqid), ("method", .str method), ("args", args)]

def event (name : Text) (data : Value) : Value :=
  obj [("event", .str name), ("data", data)]

/-- The listing of one object. -/
def listing (path : Text) (methods : List Text) : Value :=
  obj [("path", .str path), ("methods", .array (methods.map .str))]

/-- A request with its fields, each missing one at its default. -/
inductive Request where
  | list
  | call (path method : Text) (args : Value)
  | reply (id : ℕ) (data : Value)
  | add (path : Text) (methods : List Text)
  | send (name : Text) (data : Value)
  | listen
  | unknown

/-- A field that should be a string. -/
def textField (req : Value) (key : String) : Text :=
  ((req.get key.toList).bind Value.asStr).getD []

def Request.ofValue (req : Value) : Request :=
  let op := textField req "op"
  if op = "list".toList then list
  else if op = "call".toList then
    call (textField req "path") (textField req "method")
      ((req.get "args".toList).getD (.object []))
  else if op = "reply".toList then
    reply (((req.get "id".toList).bind Value.asU64).getD 0) ((req.get "data".toList).getD .null)
  else if op = "add".toList then
    add (textField req "path")
      (((req.get "methods".toList).bind Value.asArray).getD [] |>.filterMap Value.asStr)
  else if op = "send".toList then send (textField req "event") ((req.get "data".toList).getD .null)
  else if op = "listen".toList then listen
  else unknown

namespace Bus

def default : Bus :=
  ⟨[], [], [], [], 0, 0⟩

def sendTo (b : Bus) (conn : ℕ) (v : Value) : List Delivery :=
  if b.conns.contains conn then [⟨conn, v⟩] else []

def listObjects (b : Bus) : Value :=
  obj [("status", .num (.ofNat 0)),
    ("objects", .array (builtins.map (fun o => listing o.1 o.2) ++
      b.objects.map fun o => listing o.path o.methods))]

/-- The owner of the first object with this path that has the method. -/
def provider (b : Bus) (path method : Text) : Option ℕ :=
  (b.objects.find? fun o => o.path = path && o.methods.any (· = method)).map Object.owner

/-- `handle_request`, once the request is read. -/
def handleRequest (sys : System) (b : Bus) (id : ℕ) : Request → Bus × List Delivery
  | .list => (b, b.sendTo id b.listObjects)
  | .call path method args =>
      match builtinCall sys path method with
      | some data => (b, b.sendTo id (ok data))
      | none =>
          match b.provider path method with
          | some owner =>
              let reqid := b.nextReq + 1
              ({ b with nextReq := reqid, pending := (reqid, id) :: b.pending },
                b.sendTo owner (invoke reqid method args))
          | none => (b, b.sendTo id (err (-2) "object/method not found".toList))
  | .reply reqid data =>
      match b.pending.lookup reqid with
      | some caller =>
          ({ b with pending := b.pending.filter fun entry => entry.1 ≠ reqid },
            b.sendTo caller (ok data))
      | none => (b, [])
  | .add path methods =>
      if path = [] then (b, b.sendTo id (err (-1) "add: empty path".toList))
      else
        -- the last registration of a path wins
        ({ b with objects := b.objects.filter (fun o => o.path ≠ path) ++ [⟨path, methods, id⟩] },
          b.sendTo id (status 0))
  | .send name data =>
      (b, b.listeners.flatMap (fun t => b.sendTo t (event name data)) ++ b.sendTo id (status 0))
  | .listen =>
      ({ b with listeners := if b.listeners.contains id then b.listeners else id :: b.listeners },
        b.sendTo id (status 0))
  | .unknown => (b, b.sendTo id (err (-1) "unknown op".toList))

/-- A line that is not blank, received on connection `id`. -/
def handleLine (sys : System) (b : Bus) (id : ℕ) (line : Text) : Bus × List Delivery :=
  match Value.parse line with
  | .ok req => b.handleRequest sys id (.ofValue req)
  | .error e => (b, b.sendTo id (err (-1) ("bad json: ".toList ++ e)))

end Bus

/-! ## Connections side by side

Every frame is handled under the lock, so a run of the broker is a sequence of connections,
frames and disconnections in the order in which their threads take it. -/

inductive Event where
  | connect
  | line (conn : ℕ) (text : Text) (sys : System)
  | disconnect (conn : ℕ)

namespace Bus

def step (b : Bus) : Event → Bus × List Delivery
  | .connect =>
      let id := b.nextConn + 1
      ({ b with nextConn := id, conns := id :: b.conns }, [])
  | .line id text sys =>
      -- a connection that was closed has no thread left to read from it
      if b.conns.contains id ∧ trim text ≠ [] then b.handleLine sys id text else (b, [])
  | .disconnect id =>
      ({ b with
          conns := b.conns.filter (· ≠ id)
          listeners := b.listeners.filter (· ≠ id)
          objects := b.objects.filter fun o => o.owner ≠ id }, [])

end Bus

end Lwrt.Ubus
