import Lwrt.Library.Text

/-! Process 1 as a supervisor: the table of service processes. -/

namespace Lwrt.Init

open Library

/-- Long-running services init keeps alive. Each is this binary with an applet name. -/
def services : List (List Text) :=
  [["log".toList], ["ubus".toList], ["dhcp".toList, "server".toList], ["dns".toList],
    ["httpd".toList]]

/-- The tracked processes, each with the index of its service. -/
abbrev Pids := List (ℤ × ℕ)

/-- `spawn` in the parent: `forked` is what `fork` returned there. -/
def spawn (forked : ℤ) : Option ℤ :=
  if forked = -1 then none else some forked

/-- Spawn a service and push its process, if there is one. -/
def track (pids : Pids) (idx : ℕ) (forked : ℤ) : Pids :=
  match spawn forked with
  | some pid => pids ++ [(pid, idx)]
  | none => pids

/-- The first loop of `supervise`, with what each `fork` returns. -/
def startAll (forks : ℕ → ℤ) : Pids :=
  (List.range services.length).foldl (fun pids idx => track pids idx (forks idx)) []

/-- The rest of a turn of the second loop, once `waitpid` returned `dead`. -/
def reap (pids : Pids) (dead forked : ℤ) : Pids :=
  if dead ≤ 0 then pids
  else match pids.find? fun entry => entry.1 = dead with
    | some entry => track (pids.eraseP fun entry => entry.1 = dead) entry.2 forked
    | none => pids

end Lwrt.Init
