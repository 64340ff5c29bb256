import Lwrt.Library.Checked
import Lwrt.Library.Endian
import Lwrt.Library.Ipv4
import Lwrt.Library.Machine

/-! The DNS applet: local answers from the lease file, and a cache before the upstream server. -/

namespace Lwrt.Dns

open Library

/-- A line of the lease file, in fields, that names `host`. -/
def namesHost (host : Text) (f : List Text) : Bool :=
  4 ≤ f.length && f[3]?.any (Text.eqIgnoreAsciiCase · host)

/-- `file` is the content of the lease file, if it can be read. -/
def lookupLease (file : Option Text) (host : Text) : Option Ipv4Addr := do
  let text ← file
  let f ← ((Text.lines text).map Text.splitWhitespace).find? (namesHost host)
  let ip ← f[2]?
  Ipv4Addr.ofText ip

/-! ## Local answers -/

/-- `str::trim_end_matches`, for a pattern that is not empty. -/
def trimEndMatches (pat s : Text) : Text :=
  (fun t => if pat.isSuffixOf t then t.take (t.length - pat.length) else t)^[s.length] s

/-- The loop of `read_name` at `pos`, with the labels before it. Every turn moves on, so the
length of the buffer is enough fuel. -/
def nameFrom (buf : List UInt8) : ℕ → ℕ → List Text → Checked (Option (Text × ℕ))
  | 0, _, _ => return none
  | fuel + 1, pos, parts =>
      if buf.length ≤ pos then return none
      else do
        let len := (← Checked.get buf pos).toNat
        if len = 0 then return some (['.'].intercalate parts, pos + 1)
        else if 0xc0 ≤ len then return none
        else if buf.length < pos + 1 + len then return none
        else
          let label ← Checked.slice buf (pos + 1) (pos + 1 + len)
          nameFrom buf fuel (pos + 1 + len) (parts ++ [Utf8.fromUtf8Lossy label])

def readName (buf : List UInt8) (pos : ℕ) : Checked (Option (Text × ℕ)) :=
  nameFrom buf (buf.length + 1) pos []

/-- `u16::from_be_bytes([buf[i], buf[i + 1]])`. -/
def u16At (buf : List UInt8) (i : ℕ) : Checked ℕ := do
  return ofBeBytes [← Checked.get buf i, ← Checked.get buf (i + 1)]

/-- The response of `local_answer`, for a question that ends at `after + 4`. -/
def response (query : List UInt8) (after : ℕ) (ip : Ipv4Addr) : Checked (List UInt8) := do
  let r ← Checked.slice query 0 (after + 4)
  let r ← Checked.set r 2 0x81
  let r ← Checked.set r 3 0x80
  let r ← Checked.set r 6 0
  let r ← Checked.set r 7 1
  return r ++ ([0xc0, 0x0c] ++ toBe16 1 ++ toBe16 1 ++ toBe32 120 ++ toBe16 4 ++ ip.octets)

def localAnswer (leases : Option Text) (query : List UInt8) : Checked (Option (List UInt8)) := do
  if (← u16At query 4) ≠ 1 then return none
  match ← readName query 12 with
  | none => return none
  | some (name, after) =>
      if query.length < after + 4 then return none
      else if (← u16At query after) ≠ 1 then return none
      else
        match lookupLease leases ((trimEndMatches ".lan".toList name).map Char.toLower) with
        | none => return none
        | some ip => return some (← response query after ip)

/-! ## The upstream server -/

/-- `wanDns` is the content of `/run/wan.dns`, if it can be read. -/
def upstream (wanDns : Option Text) : Ipv4Addr :=
  (wanDns.bind fun s => Ipv4Addr.ofText (Text.trim s)).getD ⟨1, 1, 1, 1⟩

/-- What happens to a query that is sent from a fresh socket: the first datagram that arrives
there before the timeout, from any sender, unless a call on the socket fails. -/
abbrev Network := Ipv4Addr → List UInt8 → Option (List UInt8)

/-- The size of the receive buffers. -/
def bufSize : ℕ := 1500

def forward (network : Network) (wanDns : Option Text) (query : List UInt8) :
    Option (List UInt8) :=
  (network (upstream wanDns) query).map (·.take bufSize)

/-! ## The loop -/

/-- The bytes of a query after its header, with a reply without its id and the time of it. -/
abbrev Cache := Std.TreeMap (List UInt8) (List UInt8 × ℕ)

/-- 60 seconds, in nanoseconds. -/
def ttl : ℕ := 60 * 1000000000

def cached (cache : Cache) (key : List UInt8) (now : ℕ) : Option (List UInt8) :=
  cache[key]?.bind fun e => if now - e.2 < ttl then some e.1 else none

/-- A datagram of a client, and what the turn of the loop for it finds: the files, the network,
and the time before and after it forwards. -/
structure Arrival where
  client : Ipv4Addr × UInt16
  datagram : List UInt8
  leases : Option Text
  wanDns : Option Text
  network : Network
  now : ℕ
  later : ℕ

/-- What the loop has of the datagram. -/
def Arrival.query (a : Arrival) : List UInt8 :=
  a.datagram.take bufSize

structure Reply where
  client : Ipv4Addr × UInt16
  bytes : List UInt8
deriving DecidableEq, Repr

def answerFromCache (cache : Cache) (a : Arrival) (resp : List UInt8) :
    Checked (Cache × List Reply) := do
  let out ← Checked.set resp 0 (← Checked.get a.query 0)
  let out ← Checked.set out 1 (← Checked.get a.query 1)
  return (cache, [⟨a.client, out⟩])

def relay (cache : Cache) (a : Arrival) (key resp : List UInt8) :
    Checked (Cache × List Reply) := do
  let store ← Checked.set resp 0 0
  let store ← Checked.set store 1 0
  return (cache.insert key (store, a.later), [⟨a.client, resp⟩])

/-- One turn of the loop. -/
def turn (cache : Cache) (a : Arrival) : Checked (Cache × List Reply) :=
  if a.query.length < 12 then return (cache, [])
  else do
    match ← localAnswer a.leases a.query with
    | some reply => return (cache, [⟨a.client, reply⟩])
    | none =>
        let key ← Checked.slice a.query 12 a.query.length
        match cached cache key a.now with
        | some resp => answerFromCache cache a resp
        | none =>
            match forward a.network a.wanDns a.query with
            | some resp => relay cache a key resp
            | none => return (cache, [])

/-- A panic aborts the process. -/
structure Resolver where
  cache : Cache
  crashed : Bool

def Resolver.start : Resolver :=
  ⟨∅, false⟩

def Resolver.step : Machine Resolver Arrival Reply := fun s a =>
  if s.crashed then (s, [])
  else
    match turn s.cache a with
    | .ok (cache, replies) => (⟨cache, false⟩, replies)
    | .error _ => (⟨s.cache, true⟩, [])

end Lwrt.Dns
