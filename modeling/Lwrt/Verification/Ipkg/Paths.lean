import Lwrt.Verification.Ipkg.Walk

/-! # Where the members of an archive go -/

namespace Lwrt.Ipkg

open Library Text Path

theorem filter_splitOn_cons_slash {p : Text → Bool} (hp : p [] = false) (s : Text) :
    (('/' :: s).splitOn '/').filter p = (s.splitOn '/').filter p := by
  have hsplit : ('/' :: s).splitOn '/' = [] :: s.splitOn '/' :=
    List.splitOn_append_cons_self [] s
  rw [hsplit, List.filter_cons_of_neg (by simp [hp])]

theorem filter_splitOn_dropWhile {p : Text → Bool} (hp : p [] = false) (s : Text) :
    ((s.dropWhile (· = '/')).splitOn '/').filter p = (s.splitOn '/').filter p := by
  induction s with
  | nil => rfl
  | cons c s ih =>
      by_cases hc : c = '/'
      · rw [hc, filter_splitOn_cons_slash hp, ← ih, List.dropWhile_cons_of_pos (by simp)]
      · rw [List.dropWhile_cons_of_neg (by simpa using hc)]

theorem filter_splitOn_trimDotSlash (s : Text) :
    ((trimDotSlash s).splitOn '/').filter isName = (s.splitOn '/').filter isName := by
  fun_induction trimDotSlash s with
  | case1 s ih =>
      rw [ih, show '.' :: '/' :: s = ['.'] ++ '/' :: s from rfl, List.splitOn_append_cons_self]
      rfl
  | case2 s _ => rfl

/-! ## Install paths -/

/-- A component that an install path keeps. -/
def isKept (c : Text) : Bool :=
  c ≠ "..".toList ∧ c ≠ []

/-- The components of an install path. -/
def kept (name : Text) : List Text :=
  (((trimDotSlash name).dropWhile (· = '/')).splitOn '/').filter isKept

theorem sanitize_eq (name : Text) : sanitize name = '/' :: ['/'].intercalate (kept name) :=
  rfl

theorem kept_spec {name c : Text} (h : c ∈ kept name) : '/' ∉ c ∧ isKept c = true := by
  rw [kept, List.mem_filter, List.splitOn_eq_splitOnP] at h
  refine ⟨?_, h.2⟩
  intro hmem
  simpa using not_mem_of_mem_splitOnP _ _ c h.1 '/' hmem

theorem splitOn_intercalate_kept {name : Text} (h : kept name ≠ []) :
    (['/'].intercalate (kept name)).splitOn '/' = kept name :=
  List.splitOn_intercalate '/' (fun _ hc => (kept_spec hc).1) h

theorem filter_kept (name : Text) : (kept name).filter isKept = kept name :=
  List.filter_eq_self.mpr fun _ hc => (kept_spec hc).2

/-- Components joined under the root. -/
theorem resolve_join {cs : List Text} (hslash : ∀ c ∈ cs, '/' ∉ c) (hparent : ['.', '.'] ∉ cs) :
    resolve [] ('/' :: ['/'].intercalate cs) = cs.filter isName := by
  have hroot : ('/' :: ['/'].intercalate cs).splitOn '/' =
      [] :: (['/'].intercalate cs).splitOn '/' :=
    List.splitOn_append_cons_self [] _
  by_cases hnil : cs = []
  · rw [hnil]
    rfl
  · rw [List.splitOn_intercalate '/' hslash hnil] at hroot
    rw [resolve_root (by simp [hroot, hparent]), hroot]
    rfl

theorem splitOn_sanitize (name : Text) :
    (sanitize name).splitOn '/' = [] :: (['/'].intercalate (kept name)).splitOn '/' :=
  List.splitOn_append_cons_self [] _

/-- A member goes to the names in its name. -/
theorem target_eq (name : Text) : target name = (name.splitOn '/').filter isName := by
  have hparent : ['.', '.'] ∉ kept name := fun h => absurd (kept_spec h).2 (by decide)
  have hkeep : ∀ c, (isName c && isKept c) = isName c := by
    intro c
    rw [Bool.and_eq_left_iff_imp]
    intro hc
    simp only [isName, decide_eq_true_eq] at hc
    exact decide_eq_true ⟨hc.2.2, hc.1⟩
  rw [target, sanitize_eq, resolve_join (fun _ hc => (kept_spec hc).1) hparent, kept,
    List.filter_filter]
  simp only [hkeep]
  rw [filter_splitOn_dropWhile rfl, filter_splitOn_trimDotSlash]

/-- Without `..`, a name means to the root directory what it means to the installer. -/
theorem resolve_root_eq_target {name : Text} (h : ['.', '.'] ∉ name.splitOn '/') :
    resolve [] name = target name := by
  rw [resolve_root h, target_eq]

/-- Nothing but the root, or a path from it without an empty component and without `..`. -/
def Confined (path : Text) : Prop :=
  path = ['/'] ∨
    ∃ rest, path = '/' :: rest ∧ ∀ c ∈ rest.splitOn '/', c ≠ [] ∧ c ≠ "..".toList

theorem confined_sanitize (name : Text) : Confined (sanitize name) := by
  by_cases hnil : kept name = []
  · exact Or.inl (by rw [sanitize_eq, hnil, List.intercalate_nil])
  · refine Or.inr ⟨_, sanitize_eq name, ?_⟩
    intro c hc
    rw [splitOn_intercalate_kept hnil] at hc
    have hkept := of_decide_eq_true (kept_spec hc).2
    exact ⟨hkept.2, hkept.1⟩

/-- The prefixes `./` are taken off one by one. -/
theorem exists_trimDotSlash (name : Text) :
    ∃ k, name = (List.replicate k "./".toList).flatten ++ trimDotSlash name ∧
      ¬ "./".toList <+: trimDotSlash name := by
  fun_induction trimDotSlash name with
  | case1 s ih =>
      obtain ⟨k, hs, hprefix⟩ := ih
      exact ⟨k + 1, congrArg (fun t => '.' :: '/' :: t) hs, hprefix⟩
  | case2 s hs =>
      refine ⟨0, rfl, ?_⟩
      rintro ⟨t, rfl⟩
      exact hs t rfl

/-- The components of an install path are those of the name that are kept. -/
theorem filter_splitOn_sanitize (name : Text) :
    ((sanitize name).splitOn '/').filter isKept = kept name := by
  rw [splitOn_sanitize, List.filter_cons_of_neg (by decide)]
  by_cases hnil : kept name = []
  · rw [hnil]
    rfl
  · rw [splitOn_intercalate_kept hnil, filter_kept]

theorem kept_sanitize (name : Text) : kept (sanitize name) = kept name := by
  have htrim : trimDotSlash (sanitize name) = sanitize name := by
    rw [sanitize_eq, trimDotSlash]
    simp
  rw [kept, htrim, filter_splitOn_dropWhile rfl, filter_splitOn_sanitize]

/-- From every working directory an install path leads down along its names. -/
theorem resolve_sanitize (name : Text) (cwd : Path) :
    resolve cwd (sanitize name) = ((sanitize name).splitOn '/').filter isName := by
  rw [resolve_of_head? rfl, resolve_root]
  intro hmem
  rw [splitOn_sanitize] at hmem
  by_cases hnil : kept name = []
  · rw [hnil] at hmem
    exact absurd hmem (by decide)
  · rw [splitOn_intercalate_kept hnil] at hmem
    have hkept : ['.', '.'] ∈ kept name := by
      simpa using hmem
    exact absurd (kept_spec hkept).2 (by decide)

/-- An install path is confined, keeps the components of the name behind the prefixes `./` but for
empty ones and `..`, means the same place below the root everywhere, and is its own install
path. -/
theorem sanitize_confines (name : Text) :
    Confined (sanitize name) ∧
    (∃ k rest, name = (List.replicate k "./".toList).flatten ++ rest ∧ ¬ "./".toList <+: rest ∧
      ((sanitize name).splitOn '/').filter isKept = (rest.splitOn '/').filter isKept) ∧
    (∀ cwd, resolve cwd (sanitize name) = ((sanitize name).splitOn '/').filter isName) ∧
    sanitize (sanitize name) = sanitize name := by
  obtain ⟨k, hname, hprefix⟩ := exists_trimDotSlash name
  refine ⟨confined_sanitize name, ⟨k, trimDotSlash name, hname, hprefix, ?_⟩,
    resolve_sanitize name, ?_⟩
  · rw [filter_splitOn_sanitize, kept, filter_splitOn_dropWhile rfl]
  · rw [sanitize_eq (sanitize name), kept_sanitize, ← sanitize_eq]

end Lwrt.Ipkg
