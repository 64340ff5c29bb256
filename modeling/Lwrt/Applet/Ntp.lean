import Lwrt.Applet.Config
import Lwrt.Library.Bytes
import Lwrt.Library.Endian

/-! The SNTP client: one query to a server, whose transmit timestamp sets the clock. -/

namespace Lwrt.Ntp

open Library Text

/-- Seconds between the NTP epoch (1900-01-01) and the Unix epoch (1970-01-01). -/
def ntpUnixOffset : UInt64 :=
  2208988800

structure Timespec where
  tvSec : ℤ
  tvNsec : ℤ
deriving DecidableEq

/-- The widths of `time_t` and of `long`, which differ between the versions of the C library. -/
structure Abi where
  timeT : ℕ
  long : ℕ
  timeT_le : 32 ≤ timeT
  long_le : 32 ≤ long

/-- What the program meets: the datagram that answers a request to a server, or the error of a call
on the socket; and the error of `clock_settime`, if it fails. -/
structure Host where
  query : Text → List UInt8 → Except Text (List UInt8)
  settime : Timespec → Option Text

/-- LI=0, VN=4, Mode=3 (client) in the first octet. -/
def request : List UInt8 :=
  0x23 :: List.replicate 47 0

/-- `u32::from_be_bytes` of four bytes. -/
def u32At (resp : List UInt8) (i : ℕ) : UInt32 :=
  UInt32.ofNat (ofBeBytes (extract resp i 4))

def checkedSub (a b : UInt64) : Option UInt64 :=
  if b ≤ a then some (a - b) else none

/-- The fraction is in units of 1/2^32 s. -/
def nanos (frac : UInt64) : UInt64 :=
  (frac * 1000000000) >>> 32

/-- `CLOCK_REALTIME := unix.nanos`. -/
def setClock (abi : Abi) (host : Host) (secs : UInt64) (nanos : Int64) : Except Text Timespec :=
  let ts : Timespec := ⟨Int.bmod secs.toNat (2 ^ abi.timeT), Int.bmod nanos.toInt (2 ^ abi.long)⟩
  match host.settime ts with
  | none => .ok ts
  | some e => .error e

/-- Query one server: the clock afterwards, and the seconds it was set to. -/
def syncOnce (abi : Abi) (host : Host) (server : Text) (clock : Timespec) :
    Timespec × Except Text UInt64 :=
  match host.query server request with
  | .error e => (clock, .error e)
  | .ok datagram =>
      let resp := datagram.take 48
      if resp.length < 48 then (clock, .error "short reply".toList)
      else
        let secs := (u32At resp 40).toUInt64
        let frac := (u32At resp 44).toUInt64
        if secs = 0 then (clock, .error "null timestamp".toList)
        else
          match checkedSub secs ntpUnixOffset with
          | none => (clock, .error "pre-1970 timestamp".toList)
          | some unix =>
              match setClock abi host unix (nanos frac).toInt64 with
              | .error e => (clock, .error e)
              | .ok ts => (ts, .ok unix)

/-- The servers of the command line or of the configuration. -/
def servers (cfg : Config) (args : List Text) : List Text :=
  match args with
  | h :: _ => [h]
  | [] =>
      ((cfg.getOr "ntp".toList "server".toList "pool.ntp.org".toList).splitOnP
        fun c => c = ',' || c = ' ').filter (· ≠ [])

/-- Server after server, until one sets the clock. -/
def runServers (abi : Abi) (host : Host) : List Text → Timespec → Timespec × ℕ
  | [], clock => (clock, 1)
  | server :: rest, clock =>
      match syncOnce abi host server clock with
      | (clock, .ok _) => (clock, 0)
      | (clock, .error _) => runServers abi host rest clock

def run (abi : Abi) (host : Host) (cfg : Config) (args : List Text) (clock : Timespec) :
    Timespec × ℕ :=
  runServers abi host (servers cfg args) clock

end Lwrt.Ntp
