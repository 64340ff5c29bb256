import Lwrt.Verification.Ipkg.Removal

/-! # What a failed install leaves behind -/

namespace Lwrt.Ipkg

open Library Text Utf8

/-- Every file outside the package manager's directory is as it was, or the manifest of the package
lists every file that was created. -/
def LeavesNoTrace (host : Host) (fuel : ℕ) (repo name : Text) (fs : FileSystem)
    (ms : List Member) : Prop :=
  (∀ p, Outside p → (install host fuel repo name fs).1.files p = fs.files p) ∨
    ∃ text, (install host fuel repo name fs).1.readToString (listPlace name) = some text ∧
      ∀ t ∈ touched host 0 ms, t.1 ∈ lines text

/-- The files that the members create, up to the failure, hold what was there already; or the
manifest that was there, or that the archive carries, lists them. -/
def Harmless (host : Host) (name : Text) (fs : FileSystem) (ms : List Member) : Prop :=
  (∀ p, Outside p → ∀ b, (writeLog (touched host 0 ms)).final p = some b → fs.files p = some b) ∨
    ∃ text, (((writeLog (touched host 0 ms)).final (listPlace name)).or
        (fs.files (listPlace name))).bind fromUtf8 = some text ∧
      ∀ t ∈ touched host 0 ms, t.1 ∈ lines text

/-- A failed install is one whose visits fail, and it leaves the disk as they do. -/
theorem install_eq_stateAfter {host : Host} {fuel : ℕ} {repo name : Text} {fs : FileSystem}
    {blob : List UInt8} (hfetch : fetch host repo name fs = some blob) {n : ℕ} (hn : n ≠ 0)
    (hcode : (install host fuel repo name fs).2 = .code n) :
    (install host fuel repo name fs).1 =
      stateAfter (visitAll host 0 (walk blob fuel 0).1 ⟨fs, none, []⟩) := by
  rw [install_of_fetch hfetch] at hcode ⊢
  cases hvisit : visitAll host 0 (walk blob fuel 0).1 ⟨fs, none, []⟩ with
  | error fs => rfl
  | ok e =>
      simp only [hvisit] at hcode
      cases hstop : (walk blob fuel 0).2 with
      | ended =>
          simp only [hstop, Exit.code.injEq] at hcode
          exact absurd hcode.symm hn
      | panicked => simp [hstop] at hcode
      | running => simp [hstop] at hcode

/-- A failed install leaves no trace if and only if its writes were harmless. -/
theorem leavesNoTrace_iff {host : Host} {fuel : ℕ} {repo name : Text} {fs : FileSystem}
    {blob : List UInt8} (hfetch : fetch host repo name fs = some blob) {n : ℕ} (hn : n ≠ 0)
    (hcode : (install host fuel repo name fs).2 = .code n) :
    LeavesNoTrace host fuel repo name fs (walk blob fuel 0).1 ↔
      Harmless host name fs (walk blob fuel 0).1 := by
  have hfiles := files_visitAll host 0 (walk blob fuel 0).1 ⟨fs, none, []⟩
  rw [LeavesNoTrace, Harmless, install_eq_stateAfter hfetch hn hcode, FileSystem.readToString,
    hfiles]
  apply or_congr
  · apply forall_congr'
    intro p
    apply forall_congr'
    intro _
    rw [hfiles]
    cases (writeLog (touched host 0 (walk blob fuel 0).1)).final p with
    | none => simp
    | some b =>
        rw [Option.some_or]
        constructor
        · intro h c hc
          rw [← hc]
          exact h.symm
        · intro h
          exact (h b rfl).symm
  · rfl

/-! ### A device that is full after the first file -/

def confFile : Ustar.Entry :=
  plain "./etc/hello.conf".toList (byte '0') [120, 121, 122] (by decide) (by decide) (by decide)

def pairArchive : List UInt8 :=
  Ustar.archive [helloFile, confFile] []

theorem length_pairArchive : (okResponse ++ pairArchive).length < 2 ^ 31 := by
  have hresponse : okResponse.length = 19 := by decide
  simp [pairArchive, Ustar.length_archive, Ustar.length_encode, helloFile, confFile, plain,
    hresponse]

/-- The second file does not fit. -/
def fullHost : Host :=
  serve pairArchive length_pairArchive
    { quietHost with write := fun i => if i = 0 then .done else .full 1 }

def pairDisk : FileSystem :=
  publish pairArchive emptyDisk

theorem fetch_pair : fetch fullHost feed "hello".toList pairDisk = some pairArchive :=
  fetch_published _ emptyDisk pairArchive length_pairArchive

theorem walk_pairArchive :
    walk pairArchive 3 0 = ([memberOf helloFile, memberOf confFile], .ended) :=
  walk_served length_pairArchive (by decide)

theorem install_pair_code : (install fullHost 3 feed "hello".toList pairDisk).2 = .code 1 := by
  rw [install_of_fetch fetch_pair, walk_pairArchive]
  rfl

theorem leavesNoTrace_iff_pair :
    LeavesNoTrace fullHost 3 feed "hello".toList pairDisk (walk pairArchive 3 0).1 ↔
      Harmless fullHost "hello".toList pairDisk (walk pairArchive 3 0).1 :=
  leavesNoTrace_iff fetch_pair (by decide) install_pair_code

/-- The first file stays, and no manifest knows of it. -/
theorem pair_leaves_trace :
    ¬LeavesNoTrace fullHost 3 feed "hello".toList pairDisk (walk pairArchive 3 0).1 := by
  have hfiles := files_visitAll fullHost 0 [memberOf helloFile, memberOf confFile]
    ⟨pairDisk, none, []⟩
  rw [LeavesNoTrace, install_eq_stateAfter fetch_pair (by decide) install_pair_code,
    walk_pairArchive, FileSystem.readToString, hfiles]
  rintro (hsame | ⟨text, htext, -⟩)
  · have hhello := hsame ["usr".toList, "bin".toList, "hello".toList] (by decide)
    rw [hfiles] at hhello
    revert hhello
    decide
  · have hlist : ((writeLog (touched fullHost 0 [memberOf helloFile, memberOf confFile])).final
        (listPlace "hello".toList)).or (pairDisk.files (listPlace "hello".toList)) = none := by
      decide
    rw [hlist] at htext
    cases htext

end Lwrt.Ipkg
