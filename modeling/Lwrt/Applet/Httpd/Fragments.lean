import Mathlib.Tactic.Ring
import Lwrt.Applet.Config

/-! The HTML that the admin UI sends. Every dynamic text goes through `hesc`. -/

namespace Lwrt.Httpd

open Library Text

/-! ## Helpers -/

def hescChar (c : Char) : Text :=
  if c = '&' then "&amp;".toList
  else if c = '<' then "&lt;".toList
  else if c = '>' then "&gt;".toList
  else if c = '"' then "&quot;".toList
  else if c = '\'' then "&#39;".toList
  else [c]

/-- HTML-escape untrusted text before it enters a fragment. -/
def hesc (s : Text) : Text :=
  s.flatMap hescChar

def fmtUptime (secs : ℕ) : Text :=
  let d := secs / 86400
  let h := secs % 86400 / 3600
  let m := secs % 3600 / 60
  let hm := decimal h ++ "h ".toList ++ decimal m ++ "m".toList
  if 0 < d then decimal d ++ "d ".toList ++ hm else hm

def row (k v : Text) : Text :=
  "<div class=row><span class=k>".toList ++ hesc k ++ "</span><span>".toList ++ hesc v ++
    "</span></div>".toList

/-! ## Fragments -/

/-- The files a fragment reads besides the configuration; `none` is a failed read. -/
structure Files where
  uptime : Option Text
  wanDns : Option Text
  leases : Option Text

/-- The whole seconds in `/proc/uptime`. -/
def uptimeSecs (text : Option Text) : ℕ :=
  (text.bind fun s => parseUnsigned (2 ^ 64) (before '.' s)).getD 0

def fragStatus (cfg : Config) (files : Files) : Text :=
  let host := cfg.getOr "system".toList "hostname".toList "lwrt".toList
  let lan := cfg.getOr "lan".toList "ipaddr".toList "192.168.1.1".toList
  let dns := trim (files.wanDns.getD [])
  let clients := (files.leases.map fun t => (lines t).length).getD 0
  let wg := cfg.getOr "wireguard".toList "enabled".toList "0".toList = ['1']
  "<div class=card>".toList ++ row "Hostname".toList host ++ row "LAN address".toList lan ++
    row "Uptime".toList (fmtUptime (uptimeSecs files.uptime)) ++
    row "DHCP clients".toList (decimal clients) ++
    row "Upstream DNS".toList (if dns = [] then "—".toList else dns) ++
    row "WireGuard VPN".toList (if wg then "enabled".toList else "off".toList) ++
    "</div><div class=card><button class=act hx-post=/ui/reboot hx-target=#content ".toList ++
      "hx-confirm=\"Reboot the router?\">Reboot router</button></div>".toList

/-- The table row of a lease, from the fields of its line. -/
def leaseRow (f : List Text) : Option Text :=
  match f with
  | _ :: mac :: ip :: name :: _ =>
      some ("<tr><td>".toList ++ hesc name ++ "<td>".toList ++ hesc ip ++ "<td>".toList ++ hesc mac ++
        "</tr>".toList)
  | _ => none

def fragClients (files : Files) : Text :=
  let rows := (lines (files.leases.getD [])).filterMap fun l => leaseRow (splitWhitespace l)
  if rows = [] then "<div class=card><p class=k>No active DHCP leases.</p></div>".toList
  else "<div class=card><table><tr><th>Name<th>IP<th>MAC</tr>".toList ++ rows.flatten ++
    "</table></div>".toList

def opt (value current label : Text) : Text :=
  "<option value=".toList ++ value ++ (if value = current then " selected".toList else []) ++ ['>'] ++
    label ++ "</option>".toList

def fragSettings (cfg : Config) : Text :=
  let host := hesc (cfg.getOr "system".toList "hostname".toList "lwrt".toList)
  let lan := hesc (cfg.getOr "lan".toList "ipaddr".toList "192.168.1.1".toList)
  let ssid := hesc (cfg.getOr "wifi".toList "ssid".toList "LWRT".toList)
  let proto := cfg.getOr "wan".toList "proto".toList "dhcp".toList
  let dhcpOn := cfg.getOr "dhcp".toList "enabled".toList ['1'] = ['1']
  "<div class=card><form hx-post=/ui/settings hx-target=#content>".toList ++
    "<label>Hostname<input name=hostname value=\"".toList ++ host ++ "\"></label>".toList ++
    "<label>LAN IP address<input name=lan_ipaddr value=\"".toList ++ lan ++ "\"></label>".toList ++
    "<label>Wi-Fi network name (SSID)<input name=wifi_ssid value=\"".toList ++ ssid ++ "\"></label>".toList ++
    "<label>Wi-Fi password<input name=wifi_key type=password ".toList ++
    "placeholder=\"leave blank to keep current\"></label>".toList ++
    "<label>WAN protocol<select name=wan_proto>".toList ++
    opt "dhcp".toList proto "DHCP (automatic)".toList ++ opt "static".toList proto "Static IP".toList ++
    opt "pppoe".toList proto "PPPoE".toList ++ "</select></label>".toList ++
    "<label class=chk><input type=checkbox name=dhcp_enabled".toList ++
    (if dhcpOn then " checked".toList else []) ++ "> Run DHCP server on LAN</label>".toList ++
    "<p><button class=act type=submit>Save</button></p>".toList ++
    "</form></div>".toList

/-- A small inline result or notice. -/
def note (msg : Text) (err : Bool) : Text :=
  "<div class=card><p class=".toList ++ (if err then "note err".toList else "note ok".toList) ++
    ['>'] ++ hesc msg ++ "</p></div>".toList

/-! ## Page shell -/

def shellInner (csrf : Option Text) (host : Text) : Text :=
  ((csrf.map fun t => "<meta name=csrf content=\"".toList ++ hesc t ++ "\">".toList).getD []) ++
    "<header><span class=dot></span><b>LWRT</b><span>".toList ++ hesc host ++ "</span></header>".toList ++
    "<nav>".toList ++
    "<button class=on hx-get=/ui/status hx-target=#content>Status</button>".toList ++
    "<button hx-get=/ui/clients hx-target=#content>Clients</button>".toList ++
    "<button hx-get=/ui/settings hx-target=#content>Settings</button>".toList ++
    "</nav>".toList ++
    "<main><div id=content hx-get=/ui/status hx-trigger=load>loading…</div></main>".toList

def loginInner (err : Option Text) : Text :=
  "<header><span class=dot></span><b>LWRT</b></header>".toList ++
    "<main><div class=card><h3>Sign in</h3>".toList ++
    "<p class=k>Enter the admin password.</p>".toList ++
    "<form hx-post=/ui/login hx-target=#root>".toList ++
    "<input name=password type=password placeholder=Password autofocus>".toList ++
    "<p><button class=act type=submit>Log in</button></p>".toList ++
    ((err.map fun e => "<p class=err>".toList ++ hesc e ++ "</p>".toList).getD []) ++
    "</form></div></main>".toList

def css : Text :=
  String.toList <|
    ":root\x7b--bg:#0f1419;--card:#1a212b;--fg:#e6edf3;--mut:#7d8590;--acc:#2f81f7;--ok:#3fb950;-" ++
    "-err:#f85149\x7d*\x7bbox-sizing:border-box\x7dbody\x7bmargin:0;font:14px/1.5 system-ui,sans-" ++
    "serif;background:var(--bg);color:var(--fg)\x7dheader\x7bbackground:var(--card);padding:14px " ++
    "20px;display:flex;align-items:center;gap:10px;border-bottom:1px solid #30363d\x7dheader b" ++
    "\x7bfont-size:18px\x7dheader span\x7bcolor:var(--mut)\x7dnav\x7bdisplay:flex;gap:4px;padding" ++
    ":10px 20px;flex-wrap:wrap;background:var(--card);border-bottom:1px solid #30363d\x7dnav butt" ++
    "on\x7bbackground:none;border:1px solid #30363d;color:var(--fg);padding:6px 14px;border-radiu" ++
    "s:6px;cursor:pointer\x7dnav button.on\x7bbackground:var(--acc);border-color:var(--acc);color" ++
    ":#fff\x7dmain\x7bpadding:20px;max-width:760px;margin:0 auto\x7d.card\x7bbackground:var(--car" ++
    "d);border:1px solid #30363d;border-radius:10px;padding:18px;margin-bottom:16px\x7d.row\x7bdi" ++
    "splay:flex;justify-content:space-between;padding:6px 0;border-bottom:1px solid #21262d\x7d.r" ++
    "ow:last-child\x7bborder:0\x7d.k\x7bcolor:var(--mut)\x7dlabel\x7bdisplay:block;margin:12px 0;" ++
    "color:var(--mut)\x7dlabel.chk\x7bdisplay:flex;align-items:center;gap:8px;color:var(--fg)\x7d" ++
    "input,select\x7bwidth:100%;background:#0d1117;color:var(--fg);border:1px solid #30363d;borde" ++
    "r-radius:8px;padding:9px;font:14px system-ui;margin-top:4px\x7dinput[type=checkbox]\x7bwidth" ++
    ":auto;margin:0\x7dbutton.act\x7bbackground:var(--acc);border:0;color:#fff;padding:9px 18px;b" ++
    "order-radius:6px;cursor:pointer;font-size:14px\x7dtable\x7bwidth:100%;border-collapse:collap" ++
    "se\x7dtd,th\x7btext-align:left;padding:6px;border-bottom:1px solid #21262d\x7d.dot\x7bwidth:" ++
    "8px;height:8px;border-radius:50%;background:var(--ok);display:inline-block;margin-right:6px" ++
    "\x7d.note\x7bmargin:0\x7d.ok\x7bcolor:var(--ok)\x7d.err\x7bcolor:var(--err)\x7dh3\x7bmargin-" ++
    "top:0\x7d"

/-- The HTMX-compatible script. -/
def shim : Text :=
  String.toList <|
    "(function()\x7b\nfunction tgt(el)\x7bvar t=el.getAttribute('hx-target');return t?document.qu" ++
    "erySelector(t):el;\x7d\nfunction proc(root)\x7broot.querySelectorAll('[hx-get],[hx-post]').f" ++
    "orEach(function(el)\x7b\nif(el._hx)return;el._hx=1;\nvar verb=el.hasAttribute('hx-post')?'PO" ++
    "ST':'GET';\nvar url=el.getAttribute('hx-'+verb.toLowerCase());\nvar trig=el.getAttribute('hx" ++
    "-trigger')||(el.tagName==='FORM'?'submit':'click');\nif(trig==='load')\x7breq(el,verb,url);r" ++
    "eturn;\x7d\nif(el.tagName==='FORM')\x7bel.addEventListener('submit',function(e)\x7be.prevent" ++
    "Default();\nreq(el,'POST',url,new URLSearchParams(new FormData(el)).toString());\x7d);return" ++
    ";\x7d\nel.addEventListener(trig,function(e)\x7be.preventDefault();\nif(el.parentElement&&el." ++
    "parentElement.tagName==='NAV')\x7b\nArray.prototype.forEach.call(el.parentElement.children,f" ++
    "unction(c)\x7bc.classList.remove('on');\x7d);\nel.classList.add('on');\x7d\nreq(el,verb,url)" ++
    ";\x7d);\x7d);\x7d\nfunction req(el,verb,url,body)\x7b\nvar c=el.getAttribute('hx-confirm');i" ++
    "f(c&&!confirm(c))return;\nvar o=\x7bmethod:verb,headers:\x7b\x7d\x7d;\nvar m=document.queryS" ++
    "elector('meta[name=csrf]');\nif(verb==='POST'&&m)o.headers['X-CSRF-Token']=m.content;\nif(bo" ++
    "dy)\x7bo.body=body;o.headers['Content-Type']='application/x-www-form-urlencoded';\x7d\nfetch" ++
    "(url,o).then(function(r)\x7breturn r.text();\x7d).then(function(h)\x7bvar t=tgt(el);t.innerH" ++
    "TML=h;proc(t);\x7d);\x7d\nwindow.addEventListener('DOMContentLoaded',function()\x7bproc(docu" ++
    "ment);\x7d);\n\x7d)();"

def fullPage (rootInner : Text) : Text :=
  "<!doctype html><html lang=en><head><meta charset=utf-8>".toList ++
    "<meta name=viewport content=\"width=device-width,initial-scale=1\">".toList ++
    "<title>LWRT</title><style>".toList ++ css ++ "</style></head>".toList ++
    "<body><div id=root>".toList ++ rootInner ++ "</div><script>".toList ++ shim ++
    "</script></body></html>".toList

end Lwrt.Httpd
