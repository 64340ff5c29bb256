import Lwrt.Library.Text

/-! The configuration file: sections in brackets, `key = value` lines, `#` comments. -/

namespace Lwrt

open Library Text

/-- Section name to key to value. -/
structure Config where
  sections : Std.TreeMap Text (Std.TreeMap Text Text)

namespace Config

/-- A line without its comment and without surrounding whitespace. -/
def content (raw : Text) : Text :=
  trim (before '#' raw)

/-- The name between the brackets of a section header. -/
def bracketed (line : Text) : Option Text :=
  (stripPrefix '[' line).bind (stripSuffix ']')

/-- One turn of the parse loop, on the configuration so far and the current section. -/
def parseLine (st : Config × Text) (raw : Text) : Config × Text :=
  let line := content raw
  if line = [] then st
  else match bracketed line with
    | some name => (⟨st.1.sections.insertIfNew (trim name) ∅⟩, trim name)
    | none =>
        match splitOnce '=' line with
        | some (k, v) =>
            let entry := st.1.sections[st.2]?.getD ∅
            (⟨st.1.sections.insert st.2 (entry.insert (trim k) (trim v))⟩, st.2)
        | none => st

def parse (text : Text) : Config :=
  ((lines text).foldl parseLine (⟨∅⟩, [])).1

def get (cfg : Config) (sect key : Text) : Option Text :=
  cfg.sections[sect]?.bind (·[key]?)

def getOr (cfg : Config) (sect key fallback : Text) : Text :=
  (cfg.get sect key).getD fallback

/-- The built-in configuration. -/
def default : Text :=
  "# LWRT default configuration
[system]
hostname = lwrt

[admin]
# Web UI password. Set this to require login (recommended). You may instead
# store password_sha256 = <hex of sha256(password)> to avoid a cleartext pw.
# password = changeme

[lan]
ifname = br-lan
ipaddr = 192.168.1.1
netmask = 255.255.255.0

[dhcp]
enabled = 1
start = 192.168.1.100
limit = 100
leasetime = 43200

[wan]
ifname = eth0.2
proto = dhcp

[wifi]
ssid = LWRT
encryption = psk2
key = changeme0
channel = auto

[wireguard]
enabled = 0
listen_port = 51820
address = 10.7.0.1/24

[firewall]
masq = 1
# port forwards: comma-separated proto:wan_dport:dest_ip:dest_port
# forward = tcp:8080:192.168.1.10:80, udp:5000:192.168.1.20:5000
".toList

def withDefaults : Config :=
  parse default

/-- `file` is the content of the configuration file, if it can be read. -/
def load (file : Option Text) : Config :=
  match file with
  | some text => parse text
  | none => withDefaults

end Config

end Lwrt
