import Lwrt.Verification.Dns.Hostnames
import Lwrt.Verification.Httpd.Markup

/-! # The clients page

The DHCP server writes the lease file, and the admin UI shows it. -/

namespace Lwrt.Httpd

open Library Text Dhcp

/-- What the page shows of a binding. -/
def shownBinding (pool : Pool) (e : Mac × UInt32) : List Text :=
  [pool.nameOf e.2, (Ipv4Addr.ofU32 e.2).toText, Pool.macText e.1]

/-- The lines of a file with tokens for names are all shown. -/
theorem shownLeases_persist {files : Files} {pool : Pool} {now : UInt64}
    (hfile : files.leases = some (pool.persist now))
    (h : ∀ e ∈ pool.byMac.toList, IsToken (pool.nameOf e.2)) :
    shownLeases files = pool.byMac.toList.map fun e =>
      [decimal (pool.expiry now).toNat, Pool.macText e.1, (Ipv4Addr.ofU32 e.2).toText,
        pool.nameOf e.2] := by
  have hfields : (lines (pool.persist now)).map splitWhitespace =
      pool.byMac.toList.map fun e =>
        [decimal (pool.expiry now).toNat, Pool.macText e.1, (Ipv4Addr.ofU32 e.2).toText,
          pool.nameOf e.2] := by
    rw [pool.lines_persist now h, List.map_map]
    apply List.map_congr_left
    intro e he
    exact pool.splitWhitespace_leaseLine now e (h e he)
  rw [shownLeases, hfile, Option.getD_some, hfields, List.filter_eq_self]
  intro f hf
  obtain ⟨e, -, rfl⟩ := List.mem_map.mp hf
  rfl

theorem fragClients_persist {files : Files} {pool : Pool} {now : UInt64}
    (hfile : files.leases = some (pool.persist now))
    (h : ∀ e ∈ pool.byMac.toList, IsToken (pool.nameOf e.2)) :
    Escaped (fragClients files) (clientsTemplate pool.byMac.toList.length)
      (pool.byMac.toList.flatMap (shownBinding pool)) := by
  have hpage := fragClients_escaped files
  rw [shownLeases_persist hfile h, List.length_map, List.flatMap_map] at hpage
  exact hpage

end Lwrt.Httpd
