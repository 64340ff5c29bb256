import Lwrt.Verification.Dhcp.Leases
import Lwrt.Verification.Dhcp.Parameters
import Lwrt.Verification.Httpd.Fidelity

/-! # From the settings page to the clients

What the address of the router that is entered on the settings page means to the clients of a DHCP
server that starts under the saved settings. -/

namespace Lwrt.Httpd

open Library Text Config

/-! ## Saved settings -/

section Saved

variable {stored : Option Text} {body : List UInt8}

/-- A value that the form sets is what the saved file says. -/
theorem get_saved (hregular : Regular (stored.getD Config.default))
    (hinert : ∀ u ∈ retained (formUpdates (parseForm body)), Inert u.value) {u : Update}
    (hu : u ∈ formUpdates (parseForm body)) (hplain : PlainValue u.value) :
    (load (some (mergedSettings stored body))).get u.sect u.key = some u.value := by
  have htame := tame_formUpdates hinert
  have hu : u ∈ retained (formUpdates (parseForm body)) :=
    List.mem_filter.mpr ⟨hu, by simp [hplain.trimmed, hplain.ne_nil]⟩
  obtain ⟨hplace, hrest⟩ := hregular.seen (u := u) (htame.words _ hu).1.1
  rw [load, mergedSettings, get_applySettings_of_mem htame hu, Landing.outcome, if_pos hplace,
    hrest, Option.getD_none, hplain.effective]

/-- A key that is not on the form keeps its value. -/
theorem get_saved_of_ne
    (hinert : ∀ u ∈ retained (formUpdates (parseForm body)), Inert u.value) {key : Text}
    (hkey : ∀ a ∈ managed, a.2 ≠ key) (s : Text) :
    (load (some (mergedSettings stored body))).get s key = (load stored).get s key := by
  have hne : ∀ u ∈ retained (formUpdates (parseForm body)), u.key ≠ key :=
    fun u hu => hkey _ (mem_managed_of_retained u hu)
  rw [load_eq stored, load, mergedSettings, get_applySettings_of_ne (tame_formUpdates hinert) hne]

/-! ## The pool -/

theorem plain_toText (ip : Ipv4Addr) : PlainValue ip.toText where
  ne_nil := (Dhcp.Pool.isToken_toText ip).1
  newline := (Dhcp.Pool.isToken_toText ip).newline_not_mem
  hash := Ipv4Addr.not_mem_toText (by decide) (by decide)
  trimmed := trim_token (Dhcp.Pool.isToken_toText ip)

/-- The text of the DHCP checkbox. -/
def boxText (form : Form) : Text :=
  if form.any (·.1 = "dhcp_enabled".toList) then ['1'] else ['0']

theorem plain_boxText (form : Form) : PlainValue (boxText form) := by
  rw [boxText]
  split <;> decide

section Regular

variable (hregular : Regular (stored.getD Config.default))
  (hinert : ∀ u ∈ retained (formUpdates (parseForm body)), Inert u.value)
include hregular hinert

theorem get_saved_ipaddr {ip : Ipv4Addr}
    (hip : field (parseForm body) "lan_ipaddr".toList = some ip.toText) :
    (load (some (mergedSettings stored body))).get "lan".toList "ipaddr".toList =
      some ip.toText := by
  refine get_saved (u := ⟨"lan".toList, "ipaddr".toList, ip.toText⟩) hregular hinert ?_
    (plain_toText ip)
  refine List.mem_append_left _ (List.mem_filterMap.mpr
    ⟨("lan".toList, "ipaddr".toList, "lan_ipaddr".toList), ?_, ?_⟩)
  · simp [formFields]
  · rw [hip]
    rfl

theorem get_saved_enabled :
    (load (some (mergedSettings stored body))).get "dhcp".toList "enabled".toList =
      some (boxText (parseForm body)) := by
  refine get_saved (u := ⟨"dhcp".toList, "enabled".toList, boxText (parseForm body)⟩) hregular
    hinert ?_ (plain_boxText (parseForm body))
  exact List.mem_append_right _ (List.mem_singleton.mpr rfl)

/-- The address of the router and the checkbox are what the form says, and the rest of the pool is
as before. -/
theorem configured_saved {ip : Ipv4Addr}
    (hip : field (parseForm body) "lan_ipaddr".toList = some ip.toText) {pool : Dhcp.Pool}
    (hpool : Dhcp.Pool.configured (load stored) = some pool) :
    Dhcp.Pool.configured (load (some (mergedSettings stored body))) =
      if (parseForm body).any (·.1 = "dhcp_enabled".toList) then some { pool with server := ip }
      else none := by
  have hkept : ∀ key ∈ ["netmask".toList, "start".toList, "limit".toList, "leasetime".toList],
      ∀ s fallback, (load (some (mergedSettings stored body))).getOr s key fallback =
        (load stored).getOr s key fallback := by
    intro key hkey s fallback
    have hother : ∀ a ∈ managed, a.2 ≠ key := by
      revert key
      decide +kernel
    rw [getOr, getOr, get_saved_of_ne hinert hother]
  rw [Dhcp.Pool.configured] at hpool
  split at hpool
  case isTrue => cases hpool
  case isFalse =>
    simp only [Option.bind_eq_bind, Option.bind_eq_some_iff, Option.some.injEq] at hpool
    obtain ⟨server, -, mask, hmask, start, hstart, rfl⟩ := hpool
    rw [Dhcp.Pool.configured, getOr, get_saved_enabled hregular hinert, getOr,
      get_saved_ipaddr hregular hinert hip, hkept _ (by simp), hkept _ (by simp),
      hkept _ (by simp), hkept _ (by simp), hmask, hstart]
    simp only [Option.getD_some, Ipv4Addr.ofText_toText, Option.bind_eq_bind, Option.bind_some]
    cases hform : (parseForm body).any (·.1 = "dhcp_enabled".toList) with
    | true =>
        rw [boxText, hform]
        rfl
    | false =>
        rw [boxText, hform]
        rfl

end Regular

end Saved

/-! ## The clients -/

/-- In every run from the start of a server with this pool, the clients that are configured have
this mask and this router, and one that is still running can be, unless the pool is exhausted. -/
structure Announces (pool : Dhcp.Pool) (mask router : Ipv4Addr) : Prop where
  told : ∀ {ι : Type} [DecidableEq ι] (c : Dhcp.Clients ι) (n : Dhcp.Net ι),
    Relation.ReflTransGen (Dhcp.Net.Step c) (.starting pool) n →
      ∀ i addr mask' gw dns, n.client i = .configured addr mask' gw dns →
        mask' = mask ∧ gw = some router ∧ dns = some router
  leased : ∀ {ι : Type} [DecidableEq ι] (c : Dhcp.Clients ι) (n : Dhcp.Net ι),
    Relation.ReflTransGen (Dhcp.Net.Step c) (.starting pool) n →
      ∀ i, (n.client i).Running → n.server.pool.CanServe (c.mac i) →
        ∃ n', Relation.ReflTransGen (Dhcp.Net.Step c) n n' ∧
          ∃ v, n'.server.pool.byMac[c.mac i]? = some v ∧
            n'.client i = .configured (Ipv4Addr.ofU32 v) mask (some router) (some router)

theorem announces_configured {cfg : Config} {pool : Dhcp.Pool}
    (h : Dhcp.Pool.configured cfg = some pool) : Announces pool pool.mask pool.server where
  told := fun c _ hrun => (Dhcp.Net.told_run c (Dhcp.Net.told_starting c pool) hrun).configured
  leased := by
    intro ι _ c n hrun i hrunning hserve
    have hreach : Reachable Dhcp.Net.Init (Dhcp.Net.Step c) n :=
      ⟨_, Dhcp.Net.init_starting h, hrun⟩
    have htold := Dhcp.Net.told_run c (Dhcp.Net.told_starting c pool) hrun
    obtain ⟨n', hmore, v, hv, hclient⟩ := Dhcp.Net.getsLease_of_running c hreach hrunning hserve
    obtain ⟨-, -, hmask, hserver⟩ := Dhcp.Pool.config_of_emptied htold.server
    rw [hmask, hserver] at hclient
    exact ⟨n', hmore, v, hv, hclient⟩

end Lwrt.Httpd
