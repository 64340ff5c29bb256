import Lwrt.Applet.Ubus

/-! The clients of the bus: a request with its response, or the events that come in. -/

namespace Lwrt.Ubus

open Library Text Json

/-- What a command prints, and its exit code. -/
structure Printed where
  code : ℕ
  out : Text
  err : Text

def failed (msg : Text) : Printed :=
  ⟨1, [], "ubus: ".toList ++ msg ++ ['\n']⟩

/-- The JSON text of an argument, if there is one. -/
def jsonArgument (default : Value) (what : String) : Option Text → Except Text Value
  | none => .ok default
  | some t =>
      match Value.parse t with
      | .ok v => .ok v
      | .error e => .error ("bad json ".toList ++ what.toList ++ ": ".toList ++ e)

def listRequest : Value :=
  obj [("op", s "list")]

def callRequest (path method : Text) (args : Value) : Value :=
  obj [("op", s "call"), ("path", .str path), ("method", .str method), ("args", args)]

def sendRequest (event : Text) (data : Value) : Value :=
  obj [("op", s "send"), ("event", .str event), ("data", data)]

/-- The first line that `ubus listen` sends. -/
def listenLine : Text :=
  "\x7b\"op\":\"listen\"\x7d".toList

/-- The line of one listed object, unless the filter names another. -/
def listedLine (filter : Option Text) (o : Value) : Text :=
  let path := textField o "path"
  if filter.any (· ≠ path) then []
  else
    let methods := ((o.get "methods".toList).bind Value.asArray).getD [] |>.filterMap Value.asStr
    path ++ "\t[".toList ++ ", ".toList.intercalate methods ++ "]\n".toList

section

-- `request`: the response to one frame, or why there is none
variable (request : Value → Except Text Value)

def cliList (filter : Option Text) : Printed :=
  match request listRequest with
  | .error e => failed e
  | .ok resp =>
      match (resp.get "objects".toList).bind Value.asArray with
      | none => failed "malformed list response".toList
      | some objs => ⟨0, objs.flatMap (listedLine filter), []⟩

def cliCall (path method : Text) (argsJson : Option Text) : Printed :=
  match jsonArgument (.object []) "args" argsJson with
  | .error e => failed e
  | .ok args =>
      match request (callRequest path method args) with
      | .error e => failed e
      | .ok resp =>
          match resp.get "data".toList with
          | some data => ⟨0, data.write ++ ['\n'], []⟩
          | none =>
              failed (((resp.get "error".toList).bind Value.asStr).getD "call failed".toList)

def cliSend (event : Text) (dataJson : Option Text) : Printed :=
  match jsonArgument .null "data" dataJson with
  | .error e => failed e
  | .ok data =>
      match request (sendRequest event data) with
      | .error e => failed e
      | .ok _ => ⟨0, [], []⟩

/-- What `ubus listen` prints of the lines it reads. -/
def cliListen (stream : List UInt8) : Text :=
  (receive stream).flatMap fun
    | .ok v => if (v.get "event".toList).isSome then v.write ++ ['\n'] else []
    | .error _ => []

/-- The commands; `none` for the broker itself, which does not return. `listen` is what comes in on
the connection of `ubus listen`. -/
def run (listen : Except Text (List UInt8)) (args : List Text) : Option Printed :=
  match args with
  | [] => none
  | cmd :: rest =>
      if cmd = "daemon".toList then none
      else if cmd = "list".toList then some (cliList request rest.head?)
      else if cmd = "call".toList then
        match rest with
        | path :: method :: more => some (cliCall request path method more.head?)
        | _ => some (failed "call <path> <method> [json-args]".toList)
      else if cmd = "send".toList then
        match rest with
        | event :: more => some (cliSend request event more.head?)
        | [] => some (failed "send <event> [json-data]".toList)
      else if cmd = "listen".toList then
        match listen with
        | .ok stream => some ⟨0, cliListen stream, []⟩
        | .error e => some (failed e)
      else some (failed ("unknown subcommand '".toList ++ cmd ++ "'".toList))

end

end Lwrt.Ubus
