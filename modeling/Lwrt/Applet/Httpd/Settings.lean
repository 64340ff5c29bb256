import Lwrt.Applet.Config

/-! The settings form of the admin UI: form decoding and the line-preserving update of the
configuration file. -/

namespace Lwrt.Httpd

open Library Text

/-! ## Form decoding -/

abbrev Form := List (Text × Text)

def field (form : Form) (name : Text) : Option Text :=
  (form.find? (·.1 = name)).map (·.2)

def hexval (c : UInt8) : Option UInt8 :=
  if 48 ≤ c && c ≤ 57 then some (c - 48)
  else if 97 ≤ c && c ≤ 102 then some (c - 97 + 10)
  else if 65 ≤ c && c ≤ 70 then some (c - 65 + 10)
  else none

/-- `+` is 43, `%` is 37. An escape that is cut short or not hexadecimal stays as it is. -/
def urldecodeBytes : List UInt8 → List UInt8
  | [] => []
  | c :: h :: l :: rest =>
      if c = 43 then 32 :: urldecodeBytes (h :: l :: rest)
      else if c = 37 then
        match hexval h, hexval l with
        | some hi, some lo => (hi * 16 + lo) :: urldecodeBytes rest
        | _, _ => c :: urldecodeBytes (h :: l :: rest)
      else c :: urldecodeBytes (h :: l :: rest)
  | c :: rest => (if c = 43 then 32 else c) :: urldecodeBytes rest

def urldecode (s : Text) : Text :=
  Utf8.fromUtf8Lossy (urldecodeBytes (Utf8.encode s))

def parseForm (body : List UInt8) : Form :=
  (((Utf8.fromUtf8Lossy body).splitOn '&').filter (· ≠ [])).filterMap fun p =>
    (splitOnce '=' p).map fun kv => (urldecode kv.1, urldecode kv.2)

/-! ## Updating the file -/

structure Update where
  sect : Text
  key : Text
  value : Text
deriving DecidableEq

/-- Config keys whose values must never leave the device in cleartext. -/
def secretKeys : List Text :=
  ["key".toList, "password".toList, "password_sha256".toList, "private_key".toList, "psk".toList]

def isSecretKey (key : Text) : Bool :=
  secretKeys.contains key

/-- Split a `key = value` line, ignoring comments, blank lines and section lines. -/
def splitKv (raw : Text) : Option (Text × Text) :=
  let line := Config.content raw
  if line = [] ∨ line.head? = some '[' then none
  else (splitOnce '=' line).map fun kv => (trim kv.1, trim kv.2)

/-- `key = value`, without a line end. -/
def assignment (key value : Text) : Text :=
  key ++ ' ' :: '=' :: ' ' :: value

/-- Emit and drain the pending updates of a section: the new output and the updates left. -/
def flushSection (out : Text) (sect : Text) : List Update → Text × List Update
  | [] => (out, [])
  | u :: us =>
      if u.sect = sect then flushSection (out ++ (assignment u.key u.value ++ ['\n'])) sect us
      else ((flushSection out sect us).1, u :: (flushSection out sect us).2)

/-- The locals of `apply_settings`. -/
structure Merge where
  out : Text
  sect : Text
  updates : List Update

def headerName (raw : Text) : Option Text :=
  (Config.bracketed (trim raw)).map trim

def Merge.line (m : Merge) (raw : Text) : Merge :=
  match headerName raw with
  | some name =>
      { out := (flushSection m.out m.sect m.updates).1 ++ (raw ++ ['\n'])
        sect := name
        updates := (flushSection m.out m.sect m.updates).2 }
  | none =>
      match (splitKv raw).bind fun kv => m.updates.find? fun u => u.sect = m.sect ∧ u.key = kv.1 with
      | some u =>
          { m with
            out := m.out ++ (raw.takeWhile isWhitespace ++ assignment u.key u.value ++ ['\n'])
            updates := m.updates.eraseP fun w => w.sect = m.sect ∧ w.key = u.key }
      | none => { m with out := m.out ++ (raw ++ ['\n']) }

/-- Create a section for the updates that found none. -/
def Merge.newSection (m : Merge) (sect : Text) : Merge :=
  let flushed := flushSection (m.out ++ ('\n' :: '[' :: sect ++ [']', '\n'])) sect m.updates
  { m with out := flushed.1, updates := flushed.2 }

/-- The sections of the updates, each once, in order of first appearance. -/
def pendingSections (updates : List Update) : List Text :=
  updates.foldl (fun seen u => if u.sect ∈ seen then seen else seen ++ [u.sect]) []

def retained (updates : List Update) : List Update :=
  updates.filter fun u => !(isSecretKey u.key && trim u.value = [])

def applySettings (old : Text) (updates : List Update) : Text :=
  let m := (lines old).foldl Merge.line ⟨[], [], retained updates⟩
  let flushed := flushSection m.out m.sect m.updates
  let m : Merge := { m with out := flushed.1, updates := flushed.2 }
  ((pendingSections m.updates).foldl Merge.newSection m).out

/-- The `(section, key, form field)` triples of the text inputs, in the order of the source. -/
def formFields : List (Text × Text × Text) :=
  [("system".toList, "hostname".toList, "hostname".toList),
    ("lan".toList, "ipaddr".toList, "lan_ipaddr".toList),
    ("wifi".toList, "ssid".toList, "wifi_ssid".toList),
    ("wifi".toList, "key".toList, "wifi_key".toList),
    ("wan".toList, "proto".toList, "wan_proto".toList)]

/-- The updates a posted form asks for. The checkbox counts as set when it is present. -/
def formUpdates (form : Form) : List Update :=
  formFields.filterMap (fun f => (field form f.2.2).map fun v => ⟨f.1, f.2.1, v⟩) ++
    [⟨"dhcp".toList, "enabled".toList,
      if form.any (·.1 = "dhcp_enabled".toList) then ['1'] else ['0']⟩]

/-- The text `save_settings` writes, given the content of the stored file if it can be read. -/
def mergedSettings (stored : Option Text) (body : List UInt8) : Text :=
  applySettings (stored.getD Config.default) (formUpdates (parseForm body))

end Lwrt.Httpd
