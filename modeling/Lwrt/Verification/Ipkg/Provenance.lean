import Lwrt.Library.Machine
import Lwrt.Verification.Ipkg.Removal

/-! # Where files come from, over every run of commands -/

namespace Lwrt.Ipkg

open Library Text Utf8

/-- One call of the program. -/
structure Invocation where
  host : Host
  fuel : ℕ
  args : List Text

/-- An install that passed the check, with the disk as it stood. -/
structure Accepted where
  host : Host
  fuel : ℕ
  repo : Text
  name : Text
  fs : FileSystem
  body : List UInt8

/-- The disk that a command starts on. -/
def Invocation.disk (inv : Invocation) (fs : FileSystem) : FileSystem :=
  if inv.host.setup then
    fs.createDirAll (Path.resolve inv.host.cwd (state ++ "/installed".toList))
  else fs

def Invocation.accepted (inv : Invocation) (fs : FileSystem) : List Accepted :=
  match inv.args with
  | cmd :: name :: _ =>
      if cmd = "install".toList then
        ((fetch inv.host (repoOf inv.host fs) name (inv.disk fs)).map fun body =>
          ⟨inv.host, inv.fuel, repoOf inv.host fs, name, inv.disk fs, body⟩).toList
      else []
  | _ => []

/-- The disk from command to command, with the packages that were accepted. -/
def step : Machine FileSystem Invocation Accepted :=
  fun fs inv => ((run inv.host inv.fuel inv.args fs).1, inv.accepted fs)

/-- A file of a package that was accepted: what a member of its archive holds, or the first part of
it; or a file of the program, for a package whose name is a path. -/
def Accepted.Gives (a : Accepted) (p : Path) (content : List UInt8) : Prop :=
  (∃ m ∈ (walk a.body a.fuel 0).1, m.kind = .file ∧ target m.name = p ∧ content <+: m.data) ∨
    p = listPlace a.name ∨ p = controlPlace a.name

/-! ## One install -/

theorem stored_prefix {o : Outcome} {bytes b : List UInt8} (h : o.stored bytes = some b) :
    b <+: bytes := by
  cases o with
  | done =>
      cases h
      exact List.prefix_rfl
  | full n =>
      cases h
      exact List.take_prefix n bytes
  | refused => cases h

/-- What is created comes from a member. -/
theorem mem_touched {host : Host} {i : ℕ} {ms : List Member} {t : Text × List UInt8}
    (h : t ∈ touched host i ms) :
    ∃ m ∈ ms, m.kind = .file ∧ m.name = t.1 ∧ t.2 <+: m.data := by
  induction ms generalizing i with
  | nil => cases h
  | cons m ms ih =>
      have hrest : t ∈ touched host (i + 1) ms →
          ∃ m' ∈ m :: ms, m'.kind = .file ∧ m'.name = t.1 ∧ t.2 <+: m'.data := by
        intro h
        obtain ⟨m', hm', hspec⟩ := ih h
        exact ⟨m', List.mem_cons_of_mem m hm', hspec⟩
      rw [touched] at h
      split at h
      · rename_i hkind
        rcases List.mem_append.mp h with h | h
        · rw [Option.mem_toList, Option.map_eq_some_iff] at h
          obtain ⟨b, hb, rfl⟩ := h
          exact ⟨m, List.mem_cons_self, hkind, rfl, stored_prefix hb⟩
        · split at h
          · exact hrest h
          · cases h
      · exact hrest h

theorem files_stateAfter {host : Host} {ms : List Member} {e : Extraction} {p : Path}
    {content : List UInt8} (h : (stateAfter (visitAll host 0 ms e)).files p = some content) :
    e.fs.files p = some content ∨
      ∃ m ∈ ms, m.kind = .file ∧ target m.name = p ∧ content <+: m.data := by
  rw [files_visitAll] at h
  rcases Option.or_eq_some_iff.mp h with h | ⟨-, h⟩
  · obtain ⟨t, ht, heq⟩ := List.mem_map.mp (WriteLog.mem_of_final h)
    obtain ⟨rfl, rfl⟩ := Prod.mk.inj heq
    obtain ⟨m, hm, hkind, hname, hprefix⟩ := mem_touched ht
    exact Or.inr ⟨m, hm, hkind, by rw [hname], hprefix⟩
  · exact Or.inl h

/-- The bookkeeping touches two files. -/
theorem files_record_of_ne {name : Text} {p : Path} (hlist : p ≠ listPlace name)
    (hcontrol : p ≠ controlPlace name) (host : Host) (control : Option (List UInt8))
    (files : List Text) (fs : FileSystem) :
    (record host name control files fs).files p = fs.files p := by
  simp only [record, resolve_listPath, resolve_controlPath]
  cases control with
  | none => exact FileSystem.files_write_of_ne _ _ _ hlist
  | some ctrl =>
      exact (FileSystem.files_write_of_ne _ _ _ hcontrol).trans
        (FileSystem.files_write_of_ne _ _ _ hlist)

/-- However an install ends, a file is as it was or comes from the package. -/
theorem files_install_origin {host : Host} {fuel : ℕ} {repo name : Text} {fs : FileSystem}
    {body : List UInt8} (hfetch : fetch host repo name fs = some body) {p : Path}
    {content : List UInt8} (h : (install host fuel repo name fs).1.files p = some content) :
    fs.files p = some content ∨ Accepted.Gives ⟨host, fuel, repo, name, fs, body⟩ p content := by
  have hvisits : (stateAfter (visitAll host 0 (walk body fuel 0).1 ⟨fs, none, []⟩)).files p =
      some content → fs.files p = some content ∨
        Accepted.Gives ⟨host, fuel, repo, name, fs, body⟩ p content :=
    fun h => (files_stateAfter h).imp id Or.inl
  rw [install_of_fetch hfetch] at h
  cases hvisit : visitAll host 0 (walk body fuel 0).1 ⟨fs, none, []⟩ with
  | error fs₁ =>
      rw [hvisit] at h hvisits
      exact hvisits h
  | ok e =>
      rw [hvisit] at h hvisits
      cases hstop : (walk body fuel 0).2 with
      | panicked =>
          rw [hstop] at h
          exact hvisits h
      | running =>
          rw [hstop] at h
          exact hvisits h
      | ended =>
          rw [hstop] at h
          by_cases hplace : p = listPlace name ∨ p = controlPlace name
          · exact Or.inr (Or.inr hplace)
          · obtain ⟨hlist, hcontrol⟩ := not_or.mp hplace
            simp only [files_record_of_ne hlist hcontrol] at h
            exact hvisits h

/-! ## One command -/

theorem files_disk (inv : Invocation) (fs : FileSystem) : (inv.disk fs).files = fs.files := by
  rw [Invocation.disk]
  split <;> rfl

theorem files_update {host : Host} {repo : Text} {fs : FileSystem} {p : Path} (hp : Outside p) :
    (update host repo fs).1.files p = fs.files p := by
  have hplace : p ≠ Path.resolve host.cwd packages := by
    rintro rfl
    rw [Path.resolve_of_head? (by decide)] at hp
    exact hp (by decide)
  rw [update]
  split
  · exact FileSystem.files_write_of_ne _ _ _ hplace
  · rfl

theorem files_of_remove {cwd : Path} {name : Text} {fs : FileSystem} {p : Path}
    {content : List UInt8} (h : (remove cwd name fs).1.files p = some content) :
    fs.files p = some content := by
  rw [files_remove] at h
  split at h
  · cases h
  · exact h

/-- What a command does to the disk that it starts on. -/
theorem step_cases (fs : FileSystem) (inv : Invocation) :
    (step fs inv).1 = inv.disk fs ∨
      (step fs inv).1 = (update inv.host (repoOf inv.host fs) (inv.disk fs)).1 ∨
      (∃ name rest, inv.args = "install".toList :: name :: rest ∧
        (step fs inv).1 = (install inv.host inv.fuel (repoOf inv.host fs) name (inv.disk fs)).1) ∨
      ∃ name, (step fs inv).1 = (remove inv.host.cwd name (inv.disk fs)).1 := by
  obtain ⟨host, fuel, args⟩ := inv
  cases args with
  | nil => exact Or.inl rfl
  | cons cmd rest =>
      simp only [step, run]
      split
      · exact Or.inr (Or.inl rfl)
      · split
        · exact Or.inl rfl
        · split
          · rename_i hinstall
            cases rest with
            | nil => exact Or.inl rfl
            | cons name rest =>
                exact Or.inr (Or.inr (Or.inl ⟨name, rest, by rw [hinstall], rfl⟩))
          · split
            · cases rest with
              | nil => exact Or.inl rfl
              | cons name rest => exact Or.inr (Or.inr (Or.inr ⟨name, rfl⟩))
            · exact Or.inl rfl

theorem mem_accepted {inv : Invocation} {fs : FileSystem} {name : Text} {rest : List Text}
    (hargs : inv.args = "install".toList :: name :: rest) {body : List UInt8}
    (hfetch : fetch inv.host (repoOf inv.host fs) name (inv.disk fs) = some body) :
    ⟨inv.host, inv.fuel, repoOf inv.host fs, name, inv.disk fs, body⟩ ∈ (step fs inv).2 := by
  simp [step, Invocation.accepted, hargs, hfetch]

/-- Only what the stanza of the index vouches for is accepted. -/
theorem vouches_of_mem_step {fs : FileSystem} {inv : Invocation} {a : Accepted}
    (h : a ∈ (step fs inv).2) :
    ∃ index stanza, Vouches a.host a.repo a.name a.fs index stanza a.body := by
  simp only [step, Invocation.accepted] at h
  split at h
  · split at h
    · rw [Option.mem_toList, Option.map_eq_some_iff] at h
      obtain ⟨body, hbody, rfl⟩ := h
      exact (fetch_eq_some_iff _ _ _ _ _).mp hbody
    · cases h
  · cases h

/-- Outside the package manager's directory, one command leaves a file as it was, deletes it or
takes it from a package that was accepted. -/
theorem files_step {fs : FileSystem} {inv : Invocation} {p : Path} (hp : Outside p)
    {content : List UInt8} (h : (step fs inv).1.files p = some content) :
    fs.files p = some content ∨ ∃ a ∈ (step fs inv).2, a.Gives p content := by
  have hdisk := congrFun (files_disk inv fs) p
  rcases step_cases fs inv with hsame | hupdate | ⟨name, rest, hargs, hinstall⟩ | ⟨name, hremove⟩
  · rw [hsame, hdisk] at h
    exact Or.inl h
  · rw [hupdate, files_update hp, hdisk] at h
    exact Or.inl h
  · rw [hinstall] at h
    cases hfetch : fetch inv.host (repoOf inv.host fs) name (inv.disk fs) with
    | none =>
        rw [install_of_fetch_none hfetch, hdisk] at h
        exact Or.inl h
    | some body =>
        rcases files_install_origin hfetch h with h | h
        · rw [hdisk] at h
          exact Or.inl h
        · exact Or.inr ⟨_, mem_accepted hargs hfetch, h⟩
  · rw [hremove] at h
    have hbefore := files_of_remove h
    rw [hdisk] at hbefore
    exact Or.inl hbefore

/-! ## Every run of commands -/

/-- Every package that was accepted is vouched for, and every file outside the package manager's
directory was there at the start or comes from one of them. -/
structure Sourced (fs₀ fs : FileSystem) (accepted : List Accepted) : Prop where
  vouched : ∀ a ∈ accepted, ∃ index stanza, Vouches a.host a.repo a.name a.fs index stanza a.body
  origin : ∀ p, Outside p → ∀ content, fs.files p = some content →
    fs₀.files p = some content ∨ ∃ a ∈ accepted, a.Gives p content

theorem Sourced.step {fs₀ fs : FileSystem} {accepted : List Accepted}
    (h : Sourced fs₀ fs accepted) (inv : Invocation) :
    Sourced fs₀ (step fs inv).1 (accepted ++ (step fs inv).2) := by
  constructor
  · intro a ha
    rcases List.mem_append.mp ha with ha | ha
    · exact h.vouched a ha
    · exact vouches_of_mem_step ha
  · intro p hp content hcontent
    rcases files_step hp hcontent with hbefore | ⟨a, ha, hgives⟩
    · refine (h.origin p hp content hbefore).imp id ?_
      rintro ⟨a, ha, hgives⟩
      exact ⟨a, List.mem_append_left _ ha, hgives⟩
    · exact Or.inr ⟨a, List.mem_append_right _ ha, hgives⟩

/-- No run of commands, whatever the servers answer and the device does, brings in a file from
elsewhere. -/
theorem sourced_run (fs₀ : FileSystem) (invs : List Invocation) :
    Sourced fs₀ (step.run fs₀ invs).1 (step.run fs₀ invs).2 := by
  apply step.run_invariant (motive := Sourced fs₀) invs (fun fs out inv _ h => h.step inv) fs₀ []
  constructor
  · intro a ha
    cases ha
  · intro p _ content h
    exact Or.inl h

end Lwrt.Ipkg
