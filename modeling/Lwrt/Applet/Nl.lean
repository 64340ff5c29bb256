import Lwrt.Library.Bytes
import Lwrt.Library.Endian
import Lwrt.Library.Utf8

/-! Netlink messages: an append-only builder whose length fields are filled in when a scope
closes, the walk over the attributes of a body and the split of a buffer into messages. -/

namespace Lwrt.Nl

open Library

def nlmsgError : UInt16 := 0x2
def nlmFRequest : UInt16 := 0x1
def nlmFAck : UInt16 := 0x4
def nlmFExcl : UInt16 := 0x200
def nlmFCreate : UInt16 := 0x400
def nlaFNested : UInt16 := 0x8000

def align4 (n : ℕ) : ℕ :=
  (n + 3) / 4 * 4

/-- The buffer of the builder. -/
abbrev NlBuf := List UInt8

/-- The offset of an open attribute or message. -/
abbrev Scope := ℕ

namespace NlBuf

def pad (b : NlBuf) : NlBuf :=
  b ++ List.replicate (align4 b.length - b.length) 0

def bytes (b : NlBuf) (p : List UInt8) : NlBuf :=
  b ++ p

/-- The length field counts header and payload, not the padding. -/
def attr (b : NlBuf) (typ : UInt16) (payload : List UInt8) : NlBuf :=
  pad (b ++ toLe16 (UInt16.ofNat (4 + payload.length)) ++ toLe16 typ ++ payload)

/-- The targets are little-endian. -/
def attrU16Ne (b : NlBuf) (typ v : UInt16) : NlBuf :=
  b.attr typ (toLe16 v)

def attrU32Be (b : NlBuf) (typ : UInt16) (v : UInt32) : NlBuf :=
  b.attr typ (toBe32 v)

def attrU32Le (b : NlBuf) (typ : UInt16) (v : UInt32) : NlBuf :=
  b.attr typ (toLe32 v)

/-- A string attribute with its terminating zero; `s` are the bytes of the string. -/
def attrStr (b : NlBuf) (typ : UInt16) (s : List UInt8) : NlBuf :=
  pad (b ++ toLe16 (UInt16.ofNat (4 + s.length + 1)) ++ toLe16 typ ++ s ++ [0])

def beginNested (b : NlBuf) (typ : UInt16) : NlBuf × Scope :=
  (b ++ [0, 0] ++ toLe16 (typ ||| nlaFNested), b.length)

def endNested (b : NlBuf) (scope : Scope) : NlBuf :=
  pad (copyAt b scope (toLe16 (UInt16.ofNat (b.length - scope))))

/-- The process id of the header is zero. -/
def beginMessage (b : NlBuf) (msgType flags : UInt16) (seq : UInt32) : NlBuf × Scope :=
  (b ++ [0, 0, 0, 0] ++ toLe16 msgType ++ toLe16 flags ++ toLe32 seq ++ toLe32 0, b.length)

def endMessage (b : NlBuf) (scope : Scope) : NlBuf :=
  pad (copyAt b scope (toLe32 (UInt32.ofNat (b.length - scope))))

end NlBuf

/-- The loop of `for_each_attr` from offset `i`. The offset grows in every turn, so the length
of the body is enough fuel. -/
def attrsFrom (body : List UInt8) : ℕ → ℕ → List (UInt16 × List UInt8)
  | 0, _ => []
  | fuel + 1, i =>
      if i + 4 ≤ body.length then
        let len := ofLeBytes (extract body i 2)
        let typ := UInt16.ofNat (ofLeBytes (extract body (i + 2) 2)) &&& 0x3fff
        if len < 4 ∨ body.length < i + len then []
        else (typ, extract body (i + 4) (len - 4)) :: attrsFrom body fuel (i + align4 len)
      else []

/-- The attributes that `for_each_attr` passes to its callback, in order. -/
def forEachAttr (body : List UInt8) : List (UInt16 × List UInt8) :=
  attrsFrom body body.length 0

/-- The loop that the tests of the firewall walk a batch with, from offset `pos`. It keeps the
bytes of every message, and fails where one of their assertions does. -/
def messagesFrom (buf : List UInt8) : ℕ → ℕ → Option (List (List UInt8))
  | 0, _ => none
  | fuel + 1, pos =>
      if pos + 16 ≤ buf.length then
        let len := ofLeBytes (extract buf pos 4)
        if 16 ≤ len ∧ pos + len ≤ buf.length then
          (messagesFrom buf fuel (pos + align4 len)).map (extract buf pos len :: ·)
        else none
      else if pos = buf.length then some [] else none

/-- The messages that tile a buffer. -/
def messages (buf : List UInt8) : Option (List (List UInt8)) :=
  messagesFrom buf (buf.length + 1) 0

/-- `recv_msg` on what its `recv` gives. -/
def recvMsg (received : Except Int32 (List UInt8)) : Except Int32 (List UInt8) :=
  received.map (·.take 8192)

/-- `recv_ack` on what its `recv` gives: the errno of the call, or a datagram, which is received
into 4096 zeros. -/
def recvAck (received : Except Int32 (List UInt8)) : Except Int32 Unit :=
  match received with
  | .error e => .error e
  | .ok datagram =>
      let n := (datagram.take 4096).length
      let buf := copyAt (List.replicate 4096 0) 0 (datagram.take 4096)
      if n < 16 then .ok ()
      else if ofLeBytes (extract buf 4 2) = nlmsgError.toNat then
        let err := (UInt32.ofNat (ofLeBytes (extract buf 16 4))).toInt32
        if err ≠ 0 then .error (-err) else .ok ()
      else .ok ()

end Lwrt.Nl
