import Lwrt.Applet.Httpd.Fragments
import Lwrt.Library.Html

/-! # Text in pages

The pages are markup with slots for text, which no text can leave. -/

namespace Lwrt.Httpd

open Library Text Html

/-! ## The escape function -/

theorem plain_hescChar (c : Char) : Plain (hescChar c) := by
  rw [hescChar]
  split_ifs with hamp hlt hgt hquot hapos
  · decide
  · decide
  · decide
  · decide
  · decide
  · intro d hd
    rw [List.mem_singleton.mp hd]
    simp [isMarkup, hlt, hgt, hquot, hapos]

theorem plain_hesc (s : Text) : Plain (hesc s) := by
  intro c hc
  obtain ⟨d, -, hcd⟩ := List.mem_flatMap.mp hc
  exact plain_hescChar d c hcd

theorem decode_hesc (s : Text) : decode (hesc s) = s := by
  induction s with
  | nil => rfl
  | cons c s ih =>
      have hcons : hesc (c :: s) = hescChar c ++ hesc s := rfl
      rw [hcons, hescChar]
      split_ifs with hamp hlt hgt hquot hapos
      · rw [hamp]
        exact congrArg _ ih
      · rw [hlt]
        exact congrArg _ ih
      · rw [hgt]
        exact congrArg _ ih
      · rw [hquot]
        exact congrArg _ ih
      · rw [hapos]
        exact congrArg _ ih
      · have hplain : decode (c :: hesc s) = c :: decode (hesc s) := by
          simp [decode, hamp]
        rw [List.singleton_append, hplain, ih]

/-- A page has the markup of a template, and values can be read from its slots. -/
structure Escaped (page : Text) (t : Template) (vs : List Text) : Prop where
  markup : skeleton page = t.skeleton
  slots : readSlots t page = vs

theorem escaped_render {ps : List Piece} (h : (template ps).Delimited) :
    Escaped (render hesc ps) (template ps) (values ps) where
  markup := skeleton_render plain_hesc ps
  slots := readSlots_render plain_hesc decode_hesc ps h

/-! ## The status page -/

def rowPieces (k v : Text) : List Piece :=
  [.markup "<div class=row><span class=k>".toList, .slot k, .markup "</span><span>".toList, .slot v,
    .markup "</span></div>".toList]

theorem row_eq (k v : Text) : row k v = render hesc (rowPieces k v) := by
  unfold row rowPieces
  simp only [render_markup, render_slot, append_render_nil, List.append_assoc]

def statusPieces (host lan uptime clients dns wg : Text) : List Piece :=
  [.markup "<div class=card>".toList] ++ rowPieces "Hostname".toList host ++
    rowPieces "LAN address".toList lan ++ rowPieces "Uptime".toList uptime ++
    rowPieces "DHCP clients".toList clients ++ rowPieces "Upstream DNS".toList dns ++
    rowPieces "WireGuard VPN".toList wg ++
    [.markup ("</div><div class=card><button class=act hx-post=/ui/reboot hx-target=#content ".toList ++
      "hx-confirm=\"Reboot the router?\">Reboot router</button></div>".toList)]

def statusTemplate : Template :=
  template (statusPieces [] [] [] [] [] [])

/-- The texts on the status page, with their labels. -/
def statusValues (cfg : Config) (files : Files) : List Text :=
  let dns := trim (files.wanDns.getD [])
  ["Hostname".toList, cfg.getOr "system".toList "hostname".toList "lwrt".toList,
    "LAN address".toList, cfg.getOr "lan".toList "ipaddr".toList "192.168.1.1".toList,
    "Uptime".toList, fmtUptime (uptimeSecs files.uptime),
    "DHCP clients".toList, decimal ((files.leases.map fun t => (lines t).length).getD 0),
    "Upstream DNS".toList, if dns = [] then "—".toList else dns,
    "WireGuard VPN".toList,
      if cfg.getOr "wireguard".toList "enabled".toList "0".toList = ['1'] then "enabled".toList
      else "off".toList]

theorem statusTemplate_delimited : statusTemplate.Delimited = true := by
  decide +kernel

theorem fragStatus_escaped (cfg : Config) (files : Files) :
    Escaped (fragStatus cfg files) statusTemplate (statusValues cfg files) := by
  have hpage : fragStatus cfg files = render hesc (statusPieces
      (cfg.getOr "system".toList "hostname".toList "lwrt".toList)
      (cfg.getOr "lan".toList "ipaddr".toList "192.168.1.1".toList)
      (fmtUptime (uptimeSecs files.uptime))
      (decimal ((files.leases.map fun t => (lines t).length).getD 0))
      (if trim (files.wanDns.getD []) = [] then "—".toList else trim (files.wanDns.getD []))
      (if cfg.getOr "wireguard".toList "enabled".toList "0".toList = ['1'] then "enabled".toList
        else "off".toList)) := by
    unfold fragStatus statusPieces
    simp only [render_append, row_eq, render_markup, append_render_nil, List.append_assoc]
  rw [hpage]
  exact escaped_render statusTemplate_delimited

/-! ## The settings page -/

/-- The rest of the form, with what is selected and checked. -/
def settingsRest (proto : Text) (dhcpOn : Bool) : Text :=
  "<label>Wi-Fi password<input name=wifi_key type=password ".toList ++
    "placeholder=\"leave blank to keep current\"></label>".toList ++
    "<label>WAN protocol<select name=wan_proto>".toList ++
    opt "dhcp".toList proto "DHCP (automatic)".toList ++ opt "static".toList proto "Static IP".toList ++
    opt "pppoe".toList proto "PPPoE".toList ++ "</select></label>".toList ++
    "<label class=chk><input type=checkbox name=dhcp_enabled".toList ++
    (if dhcpOn then " checked".toList else []) ++ "> Run DHCP server on LAN</label>".toList ++
    "<p><button class=act type=submit>Save</button></p>".toList ++
    "</form></div>".toList

def settingsPieces (host lan ssid rest : Text) : List Piece :=
  [.markup ("<div class=card><form hx-post=/ui/settings hx-target=#content>".toList ++
      "<label>Hostname<input name=hostname value=\"".toList), .slot host,
    .markup ("\"></label>".toList ++ "<label>LAN IP address<input name=lan_ipaddr value=\"".toList),
    .slot lan,
    .markup ("\"></label>".toList ++
      "<label>Wi-Fi network name (SSID)<input name=wifi_ssid value=\"".toList), .slot ssid,
    .markup "\"></label>".toList, .markup rest]

/-- The choices of the settings page. -/
def settingsTemplate (proto : Text) (dhcpOn : Bool) : Template :=
  template (settingsPieces [] [] [] (settingsRest proto dhcpOn))

theorem skeleton_opt (value current label : Text) :
    skeleton (opt value current label) = skeleton (opt value [] label) := by
  have hchoice : ∀ c : Prop, ∀ [Decidable c],
      skeleton (if c then " selected".toList else []) = [] := by
    intro c _
    split
    · decide
    · rfl
  unfold opt
  simp only [skeleton_append, hchoice]

theorem skeleton_settingsRest (proto : Text) (dhcpOn : Bool) :
    skeleton (settingsRest proto dhcpOn) = skeleton (settingsRest [] false) := by
  have hchecked : ∀ b : Bool, skeleton (if b then " checked".toList else []) = [] := by
    decide
  unfold settingsRest
  simp only [skeleton_append, hchecked]
  rw [skeleton_opt "dhcp".toList proto, skeleton_opt "static".toList proto,
    skeleton_opt "pppoe".toList proto]

def settingsValues (cfg : Config) : List Text :=
  [cfg.getOr "system".toList "hostname".toList "lwrt".toList,
    cfg.getOr "lan".toList "ipaddr".toList "192.168.1.1".toList,
    cfg.getOr "wifi".toList "ssid".toList "LWRT".toList]

theorem fragSettings_escaped (cfg : Config) :
    Escaped (fragSettings cfg)
      (settingsTemplate (cfg.getOr "wan".toList "proto".toList "dhcp".toList)
        (cfg.getOr "dhcp".toList "enabled".toList ['1'] = ['1']))
      (settingsValues cfg) := by
  have hpage : fragSettings cfg = render hesc (settingsPieces
      (cfg.getOr "system".toList "hostname".toList "lwrt".toList)
      (cfg.getOr "lan".toList "ipaddr".toList "192.168.1.1".toList)
      (cfg.getOr "wifi".toList "ssid".toList "LWRT".toList)
      (settingsRest (cfg.getOr "wan".toList "proto".toList "dhcp".toList)
        (cfg.getOr "dhcp".toList "enabled".toList ['1'] = ['1']))) := by
    unfold fragSettings settingsPieces settingsRest
    simp only [render_markup, render_slot, append_render_nil, List.append_assoc, decide_eq_true_eq]
  rw [hpage]
  exact escaped_render rfl

/-! ## The lease table -/

/-- The lease lines that have a hardware address, an address and a name, in fields. -/
def shownLeases (files : Files) : List (List Text) :=
  ((lines (files.leases.getD [])).map splitWhitespace).filter fun f => 4 ≤ f.length

/-- The texts of a row: name, address and hardware address. -/
def leaseValues (f : List Text) : List Text :=
  [f.getD 3 [], f.getD 2 [], f.getD 1 []]

def leasePieces (f : List Text) : List Piece :=
  [.markup "<tr><td>".toList, .slot (f.getD 3 []), .markup "<td>".toList, .slot (f.getD 2 []),
    .markup "<td>".toList, .slot (f.getD 1 []), .markup "</tr>".toList]

def clientsPieces (leases : List (List Text)) : List Piece :=
  if leases = [] then
    [.markup "<div class=card><p class=k>No active DHCP leases.</p></div>".toList]
  else
    .markup "<div class=card><table><tr><th>Name<th>IP<th>MAC</tr>".toList ::
      leases.flatMap leasePieces ++ [.markup "</table></div>".toList]

/-- The template of the table depends on the number of rows. -/
def clientsTemplate (n : ℕ) : Template :=
  template (clientsPieces (List.replicate n []))

theorem leaseRow_eq (f : List Text) :
    leaseRow f = if 4 ≤ f.length then some (render hesc (leasePieces f)) else none := by
  unfold leaseRow leasePieces
  split
  · rw [if_pos (by simp)]
    simp only [render_markup, render_slot, append_render_nil, List.append_assoc]
    rfl
  · rename_i hshort
    rw [if_neg]
    intro hlong
    match f, hlong, hshort with
    | a :: b :: c :: d :: rest, _, hshort => exact hshort a b c d rest rfl

theorem rows_eq (files : Files) :
    (lines (files.leases.getD [])).filterMap (fun l => leaseRow (splitWhitespace l)) =
      (shownLeases files).map fun f => render hesc (leasePieces f) := by
  rw [shownLeases]
  induction lines (files.leases.getD []) with
  | nil => rfl
  | cons l ls ih =>
      rw [List.filterMap_cons, leaseRow_eq, List.map_cons, List.filter_cons]
      by_cases hlong : 4 ≤ (splitWhitespace l).length
      · simp [hlong, ih]
      · simp [hlong, ih]

theorem template_leases (leases : List (List Text)) :
    template (leases.flatMap leasePieces) =
      template ((List.replicate leases.length []).flatMap leasePieces) := by
  induction leases with
  | nil => rfl
  | cons f leases ih =>
      rw [List.flatMap_cons, template_append, ih, List.length_cons, List.replicate_succ,
        List.flatMap_cons, template_append]
      rfl

theorem leases_delimited (leases : List (List Text)) :
    (template (leases.flatMap leasePieces)).Delimited := by
  induction leases with
  | nil => rfl
  | cons f leases ih =>
      rw [List.flatMap_cons, template_append]
      have hrow : (template (leasePieces f)).Delimited := rfl
      exact Template.Delimited.append hrow ih

theorem values_leases (leases : List (List Text)) :
    values (leases.flatMap leasePieces) = leases.flatMap leaseValues := by
  induction leases with
  | nil => rfl
  | cons f leases ih =>
      rw [List.flatMap_cons, values_append, ih, List.flatMap_cons]
      rfl

theorem clientsPieces_spec (leases : List (List Text)) :
    template (clientsPieces leases) = clientsTemplate leases.length ∧
      (template (clientsPieces leases)).Delimited ∧
      values (clientsPieces leases) = leases.flatMap leaseValues := by
  cases leases with
  | nil => exact ⟨rfl, rfl, rfl⟩
  | cons f leases =>
      have hpieces : ∀ g gs, clientsPieces (g :: gs) =
          [.markup "<div class=card><table><tr><th>Name<th>IP<th>MAC</tr>".toList] ++
            (g :: gs).flatMap leasePieces ++ [.markup "</table></div>".toList] := fun _ _ => rfl
      refine ⟨?_, ?_, ?_⟩
      · rw [clientsTemplate, List.length_cons, List.replicate_succ, hpieces, hpieces]
        simp only [template_append]
        rw [template_leases, List.length_cons, List.replicate_succ]
      · rw [hpieces]
        simp only [template_append]
        exact Template.Delimited.append
          (Template.Delimited.append rfl (leases_delimited (f :: leases))) rfl
      · rw [hpieces, values_append, values_append, values_leases]
        exact List.append_nil _

theorem fragClients_escaped (files : Files) :
    Escaped (fragClients files) (clientsTemplate (shownLeases files).length)
      ((shownLeases files).flatMap leaseValues) := by
  have hpage : fragClients files = render hesc (clientsPieces (shownLeases files)) := by
    unfold fragClients
    rw [rows_eq]
    cases shownLeases files with
    | nil => exact (append_render_nil hesc _).symm
    | cons f leases =>
        rw [if_neg (by simp)]
        unfold clientsPieces
        rw [if_neg (by simp), List.cons_append, render_markup, render_append, render_markup,
          append_render_nil, List.append_assoc]
        congr 2
        induction f :: leases with
        | nil => rfl
        | cons g gs ih =>
            rw [List.map_cons, List.flatten_cons, ih, List.flatMap_cons, render_append]
  obtain ⟨htemplate, hdelimited, hvalues⟩ := clientsPieces_spec (shownLeases files)
  rw [hpage, ← htemplate, ← hvalues]
  exact escaped_render hdelimited

/-! ## The shell and notes -/

def metaPieces : Option Text → List Piece
  | some token => [.markup "<meta name=csrf content=\"".toList, .slot token, .markup "\">".toList]
  | none => []

def shellPieces (csrf : Option Text) (host : Text) : List Piece :=
  metaPieces csrf ++
    [.markup "<header><span class=dot></span><b>LWRT</b><span>".toList, .slot host,
      .markup "</span></header>".toList,
      .markup ("<nav>".toList ++
        "<button class=on hx-get=/ui/status hx-target=#content>Status</button>".toList ++
        "<button hx-get=/ui/clients hx-target=#content>Clients</button>".toList ++
        "<button hx-get=/ui/settings hx-target=#content>Settings</button>".toList ++
        "</nav>".toList ++
        "<main><div id=content hx-get=/ui/status hx-trigger=load>loading…</div></main>".toList)]

/-- The shell has a token or not. -/
def shellTemplate (token : Bool) : Template :=
  template (shellPieces (if token then some [] else none) [])

theorem shellInner_escaped (csrf : Option Text) (host : Text) :
    Escaped (shellInner csrf host) (shellTemplate csrf.isSome) (csrf.toList ++ [host]) := by
  have hpage : shellInner csrf host = render hesc (shellPieces csrf host) := by
    unfold shellInner shellPieces
    cases csrf with
    | none =>
        simp only [metaPieces, Option.map_none, Option.getD_none, List.nil_append, render_markup,
          render_slot, append_render_nil, List.append_assoc]
    | some token =>
        simp only [metaPieces, Option.map_some, Option.getD_some, List.cons_append, List.nil_append,
          render_markup, render_slot, append_render_nil, List.append_assoc]
  rw [hpage]
  cases csrf with
  | none => exact escaped_render rfl
  | some token => exact escaped_render rfl

def notePieces (msg : Text) (err : Bool) : List Piece :=
  [.markup "<div class=card><p class=".toList,
    .markup (if err then "note err".toList else "note ok".toList), .markup ['>'], .slot msg,
    .markup "</p></div>".toList]

def noteTemplate (err : Bool) : Template :=
  template (notePieces [] err)

theorem note_escaped (msg : Text) (err : Bool) :
    Escaped (note msg err) (noteTemplate err) [msg] := by
  have hpage : note msg err = render hesc (notePieces msg err) := by
    unfold note notePieces
    simp only [render_markup, render_slot, append_render_nil, List.append_assoc]
  rw [hpage]
  exact escaped_render rfl

/-! ## All pages -/

theorem skeleton_settingsTemplate (proto : Text) (dhcpOn : Bool) :
    (settingsTemplate proto dhcpOn).skeleton = (settingsTemplate [] false).skeleton := by
  have hsplit : ∀ rest, template (settingsPieces [] [] [] rest) =
      (template (settingsPieces [] [] [] [])).dropLast ++ [some rest] := fun _ => rfl
  have hlast : ∀ rest : Text, Template.skeleton [some rest] = skeleton rest := fun rest => by
    simp [Template.skeleton]
  rw [settingsTemplate, settingsTemplate, hsplit (settingsRest proto dhcpOn),
    hsplit (settingsRest [] false), Template.skeleton_append, Template.skeleton_append, hlast,
    hlast, skeleton_settingsRest]

theorem skeleton_noteTemplate (err : Bool) :
    (noteTemplate err).skeleton = (noteTemplate false).skeleton := by
  cases err
  · rfl
  · decide +kernel

/-- The markup of the pages depends on the number of shown leases and on whether there is a token,
not on any text, and each text can be read back from its slot. -/
theorem dynamic_text_escaped :
    ((∃ t, ∀ cfg files, skeleton (fragStatus cfg files) = t) ∧
      (∃ t, ∀ cfg, skeleton (fragSettings cfg) = t) ∧
      (∃ t : ℕ → Text, ∀ files, skeleton (fragClients files) = t (shownLeases files).length) ∧
      (∃ t : Bool → Text, ∀ csrf host, skeleton (shellInner csrf host) = t csrf.isSome) ∧
      (∃ t, ∀ msg err, skeleton (note msg err) = t)) ∧
    (∀ cfg files, readSlots statusTemplate (fragStatus cfg files) = statusValues cfg files) ∧
    (∀ cfg, readSlots
        (settingsTemplate (cfg.getOr "wan".toList "proto".toList "dhcp".toList)
          (cfg.getOr "dhcp".toList "enabled".toList ['1'] = ['1']))
        (fragSettings cfg) = settingsValues cfg) ∧
    (∀ files, readSlots (clientsTemplate (shownLeases files).length) (fragClients files) =
      (shownLeases files).flatMap leaseValues) ∧
    (∀ csrf host, readSlots (shellTemplate csrf.isSome) (shellInner csrf host) =
      csrf.toList ++ [host]) ∧
    ∀ msg err, readSlots (noteTemplate err) (note msg err) = [msg] := by
  refine ⟨⟨?_, ?_, ?_, ?_, ?_⟩, ?_, ?_, ?_, ?_, ?_⟩
  · exact ⟨_, fun cfg files => (fragStatus_escaped cfg files).markup⟩
  · exact ⟨_, fun cfg => (fragSettings_escaped cfg).markup.trans (skeleton_settingsTemplate _ _)⟩
  · exact ⟨fun n => (clientsTemplate n).skeleton, fun files => (fragClients_escaped files).markup⟩
  · exact ⟨fun token => (shellTemplate token).skeleton,
      fun csrf host => (shellInner_escaped csrf host).markup⟩
  · exact ⟨_, fun msg err => (note_escaped msg err).markup.trans (skeleton_noteTemplate err)⟩
  · exact fun cfg files => (fragStatus_escaped cfg files).slots
  · exact fun cfg => (fragSettings_escaped cfg).slots
  · exact fun files => (fragClients_escaped files).slots
  · exact fun csrf host => (shellInner_escaped csrf host).slots
  · exact fun msg err => (note_escaped msg err).slots

end Lwrt.Httpd
