import Lwrt.Applet.Config
import Lwrt.Library.Bytes
import Lwrt.Library.Checked
import Lwrt.Library.Ipv4

/-! The DHCPv4 applet: packet codec, address pool, server loop and client exchange. -/

namespace Lwrt.Dhcp

open Library

def magic : List UInt8 := [99, 130, 83, 99]
def opRequest : UInt8 := 1
def opReply : UInt8 := 2

def optSubnet : UInt8 := 1
def optRouter : UInt8 := 3
def optDns : UInt8 := 6
def optHostname : UInt8 := 12
def optReqip : UInt8 := 50
def optLease : UInt8 := 51
def optMsgtype : UInt8 := 53
def optServerid : UInt8 := 54
def optEnd : UInt8 := 255

def discover : UInt8 := 1
def offer : UInt8 := 2
def request : UInt8 := 3
def ack : UInt8 := 5
def nak : UInt8 := 6

abbrev Mac := Vector UInt8 6
abbrev Xid := Vector UInt8 4

structure Packet where
  op : UInt8
  xid : Xid
  chaddr : Mac
  yiaddr : Ipv4Addr
  msgType : UInt8
  reqIp : Option Ipv4Addr
  hostname : Option Text
deriving DecidableEq

/-! ## Packet codec -/

/-- The option walk from its current position. Each turn consumes a byte, so the length of
the remaining buffer is enough fuel. -/
def optionsFrom : ℕ → List UInt8 → List (UInt8 × List UInt8)
  | 0, _ => []
  | _ + 1, [] => []
  | fuel + 1, code :: rest =>
      if code = optEnd then []
      else if code = 0 then optionsFrom fuel rest
      else match rest with
        | [] => []
        -- a length past the end of the buffer yields the bytes that are there
        | len :: rest => (code, rest.take len.toNat) :: optionsFrom fuel (rest.drop len.toNat)

/-- The options after the magic cookie, as `(code, value)`. -/
def options (buf : List UInt8) : List (UInt8 × List UInt8) :=
  optionsFrom (buf.drop 240).length (buf.drop 240)

/-- The walk of `options` with the cursor `i` and every access to the buffer checked, or nothing
if the fuel does not last. -/
def walkFrom (buf : List UInt8) : ℕ → ℕ → Checked (Option (List (UInt8 × List UInt8)))
  | 0, _ => return none
  | fuel + 1, i =>
      if i < buf.length then do
        let code ← Checked.get buf i
        if code = optEnd then return some []
        else if code = 0 then walkFrom buf fuel (i + 1)
        else match buf[i + 1]? with
          | none => return some []
          | some len =>
              let start := i + 2
              let stop := min (start + len.toNat) buf.length
              let val ← Checked.slice buf start stop
              return (← walkFrom buf fuel (start + len.toNat)).map ((code, val) :: ·)
      else return some []

def ipv4 : List UInt8 → Option Ipv4Addr
  | a :: b :: c :: d :: _ => some ⟨a, b, c, d⟩
  | _ => none

def Packet.readOption (p : Packet) (opt : UInt8 × List UInt8) : Packet :=
  if opt.1 = optMsgtype then { p with msgType := opt.2.head?.getD 0 }
  else if opt.1 = optReqip then { p with reqIp := ipv4 opt.2 }
  else if opt.1 = optHostname then { p with hostname := Utf8.fromUtf8 opt.2 }
  else p

def parse (buf : List UInt8) : Option Packet :=
  if buf.length < 240 ∨ extract buf 236 4 ≠ magic then none
  else do
    let op ← buf[0]?
    let xid ← slice? 4 buf 4
    let chaddr ← slice? 6 buf 28
    let yiaddr ← ipv4 (extract buf 16 4)
    some ((options buf).foldl Packet.readOption
      { op, xid, chaddr, yiaddr, msgType := 0, reqIp := none, hostname := none })

/-- One option, as the closure `opt` of `build_reply` pushes it. -/
def pushOption (code : UInt8) (val : List UInt8) (b : List UInt8) : List UInt8 :=
  b ++ code :: UInt8.ofNat val.length :: val

def leaseBytes (lease : UInt32) : List UInt8 :=
  (Ipv4Addr.ofU32 lease).octets

def replyHeader (req : Packet) (yiaddr server : Ipv4Addr) : List UInt8 :=
  let b := List.replicate 240 0
  let b := b.set 0 opReply
  let b := b.set 1 1
  let b := b.set 2 6
  let b := copyAt b 4 req.xid.toList
  let b := copyAt b 16 yiaddr.octets
  let b := copyAt b 20 server.octets
  let b := copyAt b 28 req.chaddr.toList
  copyAt b 236 magic

def buildReply (req : Packet) (msgType : UInt8) (yiaddr server mask dns : Ipv4Addr)
    (lease : UInt32) : List UInt8 :=
  let b := replyHeader req yiaddr server
  let b := pushOption optMsgtype [msgType] b
  let b := pushOption optServerid server.octets b
  let b := pushOption optLease (leaseBytes lease) b
  let b := pushOption optSubnet mask.octets b
  let b := pushOption optRouter server.octets b
  let b := pushOption optDns dns.octets b
  b ++ [optEnd]

/-! ## Address pool -/

structure Pool where
  start : UInt32
  count : UInt32
  mask : Ipv4Addr
  server : Ipv4Addr
  lease : UInt32
  byMac : Std.TreeMap Mac UInt32
  used : Std.TreeSet UInt32
  names : Std.TreeMap UInt32 Text

namespace Pool

/-- The pool `server` starts with. -/
def new (start count : UInt32) (mask server : Ipv4Addr) (lease : UInt32) : Pool where
  start; count; mask; server; lease
  byMac := ∅
  used := ∅
  names := ∅

def assign (pool : Pool) (mac : Mac) (v : UInt32) : Pool :=
  { pool with byMac := pool.byMac.insert mac v, used := pool.used.insert v }

/-- A request inside the pool for an address nobody holds. The sum wraps, as in a release
build. -/
def grantable (pool : Pool) (v : UInt32) : Bool :=
  pool.start ≤ v && v < pool.start + pool.count && !pool.used.contains v

/-- The first free address of the linear scan. -/
def firstFree (pool : Pool) : Option UInt32 :=
  ((List.range pool.count.toNat).find? fun off =>
    !pool.used.contains (pool.start + UInt32.ofNat off)).map (pool.start + UInt32.ofNat ·)

def leaseFor (pool : Pool) (mac : Mac) (requested : Option Ipv4Addr) : Pool × Option Ipv4Addr :=
  match pool.byMac[mac]? with
  | some ip => (pool, some (Ipv4Addr.ofU32 ip))
  | none =>
      match requested.filter (fun r => pool.grantable r.toU32) with
      | some r => (pool.assign mac r.toU32, some r)
      | none =>
          match pool.firstFree with
          | some v => (pool.assign mac v, some (Ipv4Addr.ofU32 v))
          | none => (pool, none)

def insertName (pool : Pool) (ip : Ipv4Addr) (hostname : Option Text) : Pool :=
  match hostname with
  | some h => { pool with names := pool.names.insert ip.toU32 h }
  | none => pool

def macText (mac : Mac) : Text :=
  [':'].intercalate (mac.toList.map Text.hex2)

def expiry (pool : Pool) (now : UInt64) : UInt64 :=
  now + pool.lease.toUInt64

/-- One line of the lease file, without its line end. -/
def leaseLine (pool : Pool) (now : UInt64) (entry : Mac × UInt32) : Text :=
  Text.decimal (pool.expiry now).toNat ++ ' ' :: (macText entry.1 ++ ' ' ::
    ((Ipv4Addr.ofU32 entry.2).toText ++ ' ' :: pool.names[entry.2]?.getD ['*']))

/-- The text written to the lease file. -/
def persist (pool : Pool) (now : UInt64) : Text :=
  Text.unlines (pool.byMac.toList.map (pool.leaseLine now))

end Pool

/-! ## Server -/

/-- One turn of the server loop: a datagram, the clock, and whether the lease file can be
created. A failed `recv_from` does nothing and is no arrival. -/
structure Arrival where
  datagram : List UInt8
  now : UInt64
  create : Bool

structure Server where
  pool : Pool
  leases : Option Text

/-- The pool that `server` serves under a configuration: none if it is disabled or one of the
addresses is malformed. -/
def Pool.configured (cfg : Config) : Option Pool :=
  if cfg.getOr "dhcp".toList "enabled".toList "1".toList ≠ "1".toList then none
  else do
    let serverIp ← Ipv4Addr.ofText
      (cfg.getOr "lan".toList "ipaddr".toList "192.168.1.1".toList)
    let mask ← Ipv4Addr.ofText (cfg.getOr "lan".toList "netmask".toList "255.255.255.0".toList)
    let start ← Ipv4Addr.ofText (cfg.getOr "dhcp".toList "start".toList "192.168.1.100".toList)
    let count := ((Text.parseUnsigned (2 ^ 32) (cfg.getOr "dhcp".toList "limit".toList
      "100".toList)).map UInt32.ofNat).getD 100
    let lease := ((Text.parseUnsigned (2 ^ 32) (cfg.getOr "dhcp".toList "leasetime".toList
      "43200".toList)).map UInt32.ofNat).getD 43200
    some (Pool.new start.toU32 count mask serverIp lease)

def Server.reply (s : Server) (req : Packet) (msgType : UInt8) (ip : Ipv4Addr)
    (lease : UInt32) : List UInt8 :=
  buildReply req msgType ip s.pool.server s.pool.mask s.pool.server lease

/-- The request in a received datagram, cut to the 1024-byte buffer. -/
def Server.accept (datagram : List UInt8) : Option Packet :=
  (parse (datagram.take 1024)).filter (·.op = opRequest)

def Server.onDiscover (s : Server) (req : Packet) : Server × List (List UInt8) :=
  match s.pool.leaseFor req.chaddr req.reqIp with
  | (pool, some ip) =>
      let s : Server := { s with pool := pool.insertName ip req.hostname }
      (s, [s.reply req offer ip s.pool.lease])
  | (pool, none) => ({ s with pool }, [])

def Server.grant (s : Server) (req : Packet) : Pool × Option Ipv4Addr :=
  match s.pool.byMac[req.chaddr]? with
  | some v => (s.pool, some (Ipv4Addr.ofU32 v))
  | none => s.pool.leaseFor req.chaddr req.reqIp

def Server.onRequest (s : Server) (req : Packet) (now : UInt64) (create : Bool) :
    Server × List (List UInt8) :=
  match s.grant req with
  | (pool, some ip) =>
      let pool := pool.insertName ip req.hostname
      let leases := if create then some (pool.persist now) else s.leases
      let s : Server := { pool, leases }
      (s, [s.reply req ack ip s.pool.lease])
  | (pool, none) =>
      let s : Server := { s with pool }
      (s, [s.reply req nak Ipv4Addr.unspecified 0])

def Server.step (s : Server) (arrival : Arrival) : Server × List (List UInt8) :=
  match Server.accept arrival.datagram with
  | none => (s, [])
  | some req =>
      if req.msgType = discover then s.onDiscover req
      else if req.msgType = request then s.onRequest req arrival.now arrival.create
      else (s, [])

/-! ## Client -/

def buildClient (xid : Xid) (mac : Mac) (msgType : UInt8) (reqIp server : Option Ipv4Addr) :
    List UInt8 :=
  let b := List.replicate 240 0
  let b := b.set 0 opRequest
  let b := b.set 1 1
  let b := b.set 2 6
  let b := copyAt b 4 xid.toList
  let b := b.set 10 0x80
  let b := copyAt b 28 mac.toList
  let b := copyAt b 236 magic
  let b := b ++ [optMsgtype, 1, msgType]
  let b := match reqIp with
    | some ip => b ++ [optReqip, 4] ++ ip.octets
    | none => b
  let b := match server with
    | some ip => b ++ [optServerid, 4] ++ ip.octets
    | none => b
  b ++ [55, 3, optSubnet, optRouter, optDns] ++ [optEnd]

/-- The mutable locals of `parse_ack`. -/
structure AckFields where
  isAck : Bool
  mask : Ipv4Addr
  gw : Option Ipv4Addr
  dns : Option Ipv4Addr

def AckFields.readOption (f : AckFields) (opt : UInt8 × List UInt8) : AckFields :=
  if opt.1 = optMsgtype ∧ opt.2.head? = some ack then { f with isAck := true }
  else if opt.1 = optSubnet then { f with mask := (ipv4 opt.2).getD f.mask }
  else if opt.1 = optRouter then { f with gw := (ipv4 opt.2).or f.gw }
  else if opt.1 = optDns then { f with dns := (ipv4 opt.2).or f.dns }
  else f

def parseAck (buf : List UInt8) (xid : Xid) :
    Option (Ipv4Addr × Option Ipv4Addr × Option Ipv4Addr) :=
  if buf.length < 240 ∨ extract buf 236 4 ≠ magic ∨ extract buf 4 4 ≠ xid.toList ∨
      buf[0]? ≠ some opReply then none
  else
    let f := (options buf).foldl AckFields.readOption
      { isAck := false, mask := ⟨255, 255, 255, 0⟩, gw := none, dns := none }
    if f.isAck then some (f.mask, f.gw, f.dns) else none

/-- Where a run of `client` stands. `failed` is an exit with status 1. -/
inductive Client where
  | start
  | waitOffer
  | waitAck (offered : Packet)
  | configured (addr mask : Ipv4Addr) (gw dns : Option Ipv4Addr)
  | failed
deriving DecidableEq

/-- What a client does next: send its DISCOVER (which can fail), read a datagram (and, if
it is the awaited ACK, configure the interface, which can fail), or time out. -/
inductive ClientEvent where
  | begin (sent : Bool)
  | recv (datagram : List UInt8) (configures : Bool)
  | timeout

def Client.step (xid : Xid) (mac : Mac) : Client → ClientEvent → Client × List (List UInt8)
  | .start, .begin sent =>
      if sent then (.waitOffer, [buildClient xid mac discover none none]) else (.failed, [])
  | .waitOffer, .recv datagram _ =>
      match parse (datagram.take 1024) with
      | some p =>
          if p.op = opReply ∧ p.msgType = offer ∧ p.xid = xid then
            (.waitAck p, [buildClient xid mac request (some p.yiaddr) (some p.yiaddr)])
          else (.waitOffer, [])
      | none => (.waitOffer, [])
  | .waitOffer, .timeout => (.failed, [])
  | .waitAck offered, .recv datagram configures =>
      match parseAck (datagram.take 1024) xid with
      | some (mask, gw, dns) =>
          if configures then (.configured offered.yiaddr mask gw dns, []) else (.failed, [])
      | none => (.waitAck offered, [])
  | .waitAck _, .timeout => (.failed, [])
  | s, _ => (s, [])

end Lwrt.Dhcp
