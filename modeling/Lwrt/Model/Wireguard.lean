import Lwrt.Library.Ipv4
import Lwrt.Model.Nftables

/-! The kernel's side of WireGuard: the device and the peers that a message sets, by the rules for
netlink attributes. Attribute numbers are those of the kernel's interface. -/

namespace Lwrt.Wireguard

open Library Nl
open Nftables (attr? nested? str?)

structure Peer where
  publicKey : List UInt8
  keepalive : Option UInt16
  endpoint : Option (Ipv4Addr × UInt16)
  allowed : List (Ipv4Addr × UInt8)
deriving DecidableEq, Repr

/-- The peers with their numbers. -/
structure Device where
  ifname : List UInt8
  flags : UInt32
  privateKey : List UInt8
  listenPort : UInt16
  peers : List (ℕ × Peer)
deriving DecidableEq, Repr

/-! ## Payloads -/

def u16 (payload : List UInt8) : Option UInt16 :=
  if payload.length = 2 then some (UInt16.ofNat (ofLeBytes payload)) else none

def u32 (payload : List UInt8) : Option UInt32 :=
  if payload.length = 4 then some (UInt32.ofNat (ofLeBytes payload)) else none

def addr : List UInt8 → Option Ipv4Addr
  | [a, b, c, d] => some ⟨a, b, c, d⟩
  | _ => none

/-- A `sockaddr_in`: `AF_INET`, then port and address in network order. -/
def sockaddr (payload : List UInt8) : Option (Ipv4Addr × UInt16) :=
  if payload.length = 16 ∧ ofLeBytes (extract payload 0 2) = 2 then
    (addr (extract payload 4 4)).map (·, UInt16.ofNat (ofBeBytes (extract payload 2 2)))
  else none

/-- An attribute that may be missing. -/
def optional {α : Type} (decode : List UInt8 → Option α) : Option (List UInt8) → Option (Option α)
  | none => some none
  | some payload => (decode payload).map some

/-! ## Peers -/

def decodeAllowed (attrs : List (UInt16 × List UInt8)) : Option (Ipv4Addr × UInt8) := do
  let family ← (attr? attrs 1).bind u16
  let ip ← (attr? attrs 2).bind addr
  match family, attr? attrs 3 with
  | 2, some [mask] => some (ip, mask)
  | _, _ => none

/-- The types of the entries in the list of allowed addresses have no meaning. -/
def decodePeer (attrs : List (UInt16 × List UInt8)) : Option Peer := do
  let publicKey ← attr? attrs 1
  let keepalive ← optional u16 (attr? attrs 5)
  let endpoint ← optional sockaddr (attr? attrs 4)
  let allowed ← ((nested? attrs 9).getD []).mapM fun item => decodeAllowed (forEachAttr item.2)
  return { publicKey, keepalive, endpoint, allowed }

def decodePeers (items : List (UInt16 × List UInt8)) : Option (List (ℕ × Peer)) :=
  items.mapM fun item => (decodePeer (forEachAttr item.2)).map (item.1.toNat, ·)

/-- One message with the command `WG_CMD_SET_DEVICE` in version 1. -/
def decodeDevice (buf : NlBuf) : Option Device :=
  match messages buf with
  | some [part] =>
      if extract part 16 2 = [1, 1] then do
        let attrs := forEachAttr (part.drop 20)
        let ifname ← str? attrs 2
        let flags ← (attr? attrs 5).bind u32
        let privateKey ← attr? attrs 3
        let listenPort ← (attr? attrs 6).bind u16
        let peers ← decodePeers ((nested? attrs 8).getD [])
        return { ifname, flags, privateKey, listenPort, peers }
      else none
  | _ => none

end Lwrt.Wireguard
