import Lwrt.Applet.Httpd.Threads

/-! # The stored configuration under concurrent requests

A save truncates the file and writes it again in steps. As long as nothing else touches the
file in between and the write does not fail, every thread sees complete versions only. -/

namespace Lwrt.Httpd

open Library Text

/-! ## Versions of the file -/

def Event.store (file : Option (List UInt8)) : Event → Option (List UInt8)
  | .published contents => some contents
  | _ => file

/-- The version that is stored after some events, from the first one. -/
def current (file : Option (List UInt8)) (out : List Event) : Option (List UInt8) :=
  out.foldl Event.store file

def Event.version : Event → Option (Option (List UInt8))
  | .published contents => some (some contents)
  | _ => none

/-- All complete versions, the first one included. -/
def versions (file : Option (List UInt8)) (out : List Event) : List (Option (List UInt8)) :=
  file :: out.filterMap Event.version

/-- The configurations that requests were handled with. -/
def handledConfigs (out : List Event) : List Config :=
  out.filterMap fun e =>
    match e with
    | .handled cfg => some cfg
    | _ => none

def loadedContents (out : List Event) : List (Option (List UInt8)) :=
  out.filterMap fun e =>
    match e with
    | .loaded content => some content
    | _ => none

/-- The files that failed saves left. -/
def failedFiles (out : List Event) : List (Option (List UInt8)) :=
  out.filterMap fun e =>
    match e with
    | .failed stored => some stored
    | _ => none

def configOf (version : Option (List UInt8)) : Config :=
  Config.load (readToString version)

theorem current_append (file : Option (List UInt8)) (a b : List Event) :
    current file (a ++ b) = current (current file a) b :=
  List.foldl_append

theorem versions_subset_append (file : Option (List UInt8)) (a b : List Event) :
    versions file a ⊆ versions file (a ++ b) := by
  rw [versions, versions, List.filterMap_append, ← List.cons_append]
  exact List.subset_append_left _ _

theorem current_mem_versions (file : Option (List UInt8)) (out : List Event) :
    current file out ∈ versions file out := by
  induction out generalizing file with
  | nil => simp [current, versions]
  | cons e out ih =>
      have h := ih (Event.store file e)
      cases e with
      | published contents => exact List.mem_cons_of_mem _ h
      | _ => exact h

/-! ## Atomicity -/

/-- What an event has to show, given the ones before it. -/
def Event.Fits (file : Option (List UInt8)) (earlier : List Event) : Event → Prop
  | .loaded content => content = current file earlier
  | .handled cfg => ∃ v ∈ versions file earlier, cfg = configOf v
  | .published _ => True
  | .failed stored => stored = current file earlier

/-- Every load sees the complete version that is stored, no request is handled without
authorisation if every version asks for it, and a save that fails changes nothing. -/
structure Atomic (file : Option (List UInt8)) (out : List Event) : Prop where
  loads : ∀ earlier content later, out = earlier ++ .loaded content :: later →
    content = current file earlier
  locked : (∀ v ∈ versions file out, authRequired (configOf v)) →
    ∀ cfg ∈ handledConfigs out, authRequired cfg
  failures : ∀ earlier stored later, out = earlier ++ .failed stored :: later →
    stored = current file earlier

theorem atomic_of_each {file : Option (List UInt8)} {out : List Event}
    (h : Each (Event.Fits file) out) : Atomic file out where
  loads := fun earlier content later hout => h earlier (.loaded content) later hout
  locked := by
    intro hversions cfg hcfg
    obtain ⟨e, he, hmatch⟩ := List.mem_filterMap.mp hcfg
    obtain ⟨earlier, later, rfl⟩ := List.append_of_mem he
    cases e with
    | handled cfg' =>
        obtain rfl := Option.some.inj hmatch
        obtain ⟨v, hv, rfl⟩ := h earlier _ later rfl
        exact hversions v (versions_subset_append _ _ _ hv)
    | _ => cases hmatch
  failures := fun earlier stored later hout => h earlier (.failed stored) later hout

/-! ## Runs without interference -/

def NoWriter (threads : ℕ → Option Phase) : Prop :=
  ∀ j contents written, threads j ≠ some (.writing contents written)

/-- No thread but `i` is between its truncation of the file and the last byte. -/
def NoOtherWriter (threads : ℕ → Option Phase) (i : ℕ) : Prop :=
  ∀ j, j ≠ i → ∀ contents written, threads j ≠ some (.writing contents written)

def NoOtherReader (threads : ℕ → Option Phase) (i : ℕ) : Prop :=
  ∀ j, j ≠ i → ∀ why buf, threads j ≠ some (.reading why buf)

/-- No step that opens, reads or writes the file falls between the truncation of another
save and its last byte, the file is not truncated under a reader, and no write fails once
the file is truncated. -/
def Quiet (s : Server) : Action → Prop
  | .openRead i _ => NoOtherWriter s.threads i
  | .read i _ _ => NoOtherWriter s.threads i
  | .truncate i => NoOtherWriter s.threads i ∧ NoOtherReader s.threads i
  | .fail _ => NoWriter s.threads
  | _ => True

theorem NoOtherWriter.noWriter {threads : ℕ → Option Phase} {i : ℕ} (h : NoOtherWriter threads i)
    (hi : ∀ contents written, threads i ≠ some (.writing contents written)) : NoWriter threads := by
  intro j
  by_cases hj : j = i
  · rw [hj]
    exact hi
  · exact h j hj

/-- The file and the threads are in step with the versions. -/
structure Coherent (first : Option (List UInt8)) (file : Option (List UInt8))
    (threads : ℕ → Option Phase) (out : List Event) : Prop where
  idle : NoWriter threads → file = current first out
  reading : ∀ j why buf, threads j = some (.reading why buf) →
    NoWriter threads ∧ ∃ content, current first out = some content ∧ buf <+: content
  writing : ∀ j contents written, threads j = some (.writing contents written) →
    file = some (contents.take written) ∧ written < contents.length ∧
      ∀ k contents' written', threads k = some (.writing contents' written') → k = j
  ready : ∀ j req cfg, threads j = some (.ready req cfg) →
    ∃ v ∈ versions first out, cfg = configOf v
  fits : Each (Event.Fits first) out

theorem Server.put_file (s : Server) (i : ℕ) (phase : Phase) : (s.put i phase).file = s.file :=
  rfl

theorem Server.put_threads (s : Server) (i : ℕ) (phase : Phase) (j : ℕ) :
    (s.put i phase).threads j = if j = i then some phase else s.threads j :=
  rfl

theorem Server.put_threads_of_ne (s : Server) {i j : ℕ} (h : j ≠ i) (phase : Phase) :
    (s.put i phase).threads j = s.threads j :=
  if_neg h

/-- Only the thread at hand changes. -/
theorem Server.put_eq_some {s : Server} {i j : ℕ} {phase p : Phase}
    (h : (s.put i phase).threads j = some p) :
    j = i ∧ p = phase ∨ j ≠ i ∧ s.threads j = some p := by
  rw [put_threads] at h
  by_cases hj : j = i
  · rw [if_pos hj, Option.some.injEq] at h
    exact Or.inl ⟨hj, h.symm⟩
  · rw [if_neg hj] at h
    exact Or.inr ⟨hj, h⟩

/-- A thread that does not write moves to a phase where it does not write. -/
structure Moves (s : Server) (i : ℕ) (phase : Phase) : Prop where
  before : ∀ contents written, s.threads i ≠ some (.writing contents written)
  after : ∀ contents written, phase ≠ .writing contents written

theorem Moves.noWriter_iff {s : Server} {i : ℕ} {phase : Phase} (h : Moves s i phase) :
    NoWriter (s.put i phase).threads ↔ NoWriter s.threads := by
  constructor
  · intro hno j contents written hj
    have hne : j ≠ i := by
      rintro rfl
      exact h.before contents written hj
    exact hno j contents written (by rw [Server.put_threads, if_neg hne, hj])
  · intro hno j contents written hj
    rcases Server.put_eq_some hj with ⟨-, heq⟩ | ⟨-, hold⟩
    · exact h.after contents written heq.symm
    · exact hno j contents written hold

theorem Coherent.put {first : Option (List UInt8)} {s : Server} {out evs : List Event}
    (h : Coherent first s.file s.threads out) {i : ℕ} {phase : Phase} (hmoves : Moves s i phase)
    (hreading : ∀ why buf, phase = .reading why buf →
      NoWriter s.threads ∧ ∃ content, current first out = some content ∧ buf <+: content)
    (hready : ∀ req cfg, phase = .ready req cfg → ∃ v ∈ versions first out, cfg = configOf v)
    (hcurrent : current first (out ++ evs) = current first out)
    (hfits : Each (Event.Fits first) (out ++ evs)) :
    Coherent first s.file (s.put i phase).threads (out ++ evs) where
  idle := by
    intro hno
    rw [hcurrent]
    exact h.idle (hmoves.noWriter_iff.mp hno)
  reading := by
    intro j why buf hj
    rw [hcurrent, hmoves.noWriter_iff]
    rcases Server.put_eq_some hj with ⟨-, heq⟩ | ⟨-, hold⟩
    · exact hreading why buf heq.symm
    · exact h.reading j why buf hold
  writing := by
    intro j contents written hj
    rcases Server.put_eq_some hj with ⟨-, heq⟩ | ⟨-, hold⟩
    · exact absurd heq.symm (hmoves.after contents written)
    · obtain ⟨hfile, hlt, honly⟩ := h.writing j contents written hold
      refine ⟨hfile, hlt, ?_⟩
      intro k contents' written' hk
      rcases Server.put_eq_some hk with ⟨-, heq⟩ | ⟨-, hold'⟩
      · exact absurd heq.symm (hmoves.after contents' written')
      · exact honly k contents' written' hold'
  ready := by
    intro j req cfg hj
    rcases Server.put_eq_some hj with ⟨-, heq⟩ | ⟨-, hold⟩
    · obtain ⟨v, hv, hcfg⟩ := hready req cfg heq.symm
      exact ⟨v, versions_subset_append _ _ _ hv, hcfg⟩
    · obtain ⟨v, hv, hcfg⟩ := h.ready j req cfg hold
      exact ⟨v, versions_subset_append _ _ _ hv, hcfg⟩
  fits := hfits

/-- A silent move. -/
theorem Coherent.move {first : Option (List UInt8)} {s : Server} {out : List Event}
    (h : Coherent first s.file s.threads out) {i : ℕ} {phase : Phase} (hmoves : Moves s i phase)
    (hreading : ∀ why buf, phase = .reading why buf →
      NoWriter s.threads ∧ ∃ content, current first out = some content ∧ buf <+: content)
    (hready : ∀ req cfg, phase = .ready req cfg → ∃ v ∈ versions first out, cfg = configOf v) :
    Coherent first s.file (s.put i phase).threads out := by
  have hsame : current first (out ++ []) = current first out := by rw [List.append_nil]
  have hput := h.put hmoves hreading hready hsame (by rw [List.append_nil]; exact h.fits)
  rwa [List.append_nil] at hput

/-! ## Each kind of step -/

section

variable {first : Option (List UInt8)} {s : Server} {out : List Event}
  (h : Coherent first s.file s.threads out)

include h

/-- The file was read to its end. -/
theorem Coherent.received {i : ℕ} {why : Purpose} {content : Option (List UInt8)} (files : Files)
    (hbefore : ∀ contents written, s.threads i ≠ some (.writing contents written))
    (hcontent : content = current first out) :
    Coherent first s.file (s.put i (received content files why)).threads
      (out ++ loadEvent why content) := by
  have hfits : Each (Event.Fits first) (out ++ loadEvent why content) := by
    rw [loadEvent]
    split
    · exact h.fits.snoc hcontent
    · simpa using h.fits
  have hcurrent : current first (out ++ loadEvent why content) = current first out := by
    rw [loadEvent, current_append]
    split <;> rfl
  refine h.put ⟨hbefore, ?_⟩ ?_ ?_ hcurrent hfits
  · intro contents written heq
    cases why <;> cases heq
  · intro why' buf heq
    cases why <;> cases heq
  · intro req cfg heq
    cases why with
    | handle req' =>
        cases heq
        exact ⟨content, hcontent ▸ current_mem_versions first out, rfl⟩
    | _ => cases heq

/-- A request is routed. -/
theorem Coherent.routed {i : ℕ} {req : Request} {cfg : Config} (files : Files) (task : Task)
    (hi : s.threads i = some (.ready req cfg)) :
    Coherent first s.file (s.put i (task.phase files)).threads (out ++ [.handled cfg]) := by
  have hcurrent : current first (out ++ [.handled cfg]) = current first out := by
    rw [current_append]
    rfl
  refine h.put ⟨by simp [hi], ?_⟩ ?_ ?_ hcurrent (h.fits.snoc (h.ready i req cfg hi))
  all_goals
    intro _ _ heq
    cases task <;> cases heq

end

/-- The new file has `written` bytes of its contents. -/
theorem Coherent.progress {first old : Option (List UInt8)} {s : Server} {out : List Event}
    (h : Coherent first old s.threads out) {i : ℕ} {contents : List UInt8} {written : ℕ}
    (hfile : s.file = some (contents.take written)) (hle : written ≤ contents.length)
    (hothers : NoOtherWriter s.threads i) (hreaders : NoOtherReader s.threads i) :
    Coherent first (s.progress i contents written).1.file (s.progress i contents written).1.threads
      (out ++ (s.progress i contents written).2) := by
  rw [Server.progress]
  by_cases hdone : written = contents.length
  · rw [if_pos hdone, Server.put_file, hfile, hdone, List.take_length]
    refine ⟨?_, ?_, ?_, ?_, h.fits.snoc trivial⟩
    · intro _
      rw [current_append]
      rfl
    · intro j why buf hj
      rcases Server.put_eq_some hj with ⟨-, heq⟩ | ⟨hne, hold⟩
      · cases heq
      · exact absurd hold (hreaders j hne why buf)
    · intro j contents' written' hj
      rcases Server.put_eq_some hj with ⟨-, heq⟩ | ⟨hne, hold⟩
      · cases heq
      · exact absurd hold (hothers j hne contents' written')
    · intro j req cfg hj
      rcases Server.put_eq_some hj with ⟨-, heq⟩ | ⟨-, hold⟩
      · cases heq
      · obtain ⟨v, hv, hcfg⟩ := h.ready j req cfg hold
        exact ⟨v, versions_subset_append _ _ _ hv, hcfg⟩
  · rw [if_neg hdone, List.append_nil, Server.put_file, hfile]
    have hlt : written < contents.length := by omega
    refine ⟨?_, ?_, ?_, ?_, h.fits⟩
    · intro hno
      exact absurd (by rw [Server.put_threads, if_pos rfl]) (hno i contents written)
    · intro j why buf hj
      rcases Server.put_eq_some hj with ⟨-, heq⟩ | ⟨hne, hold⟩
      · cases heq
      · exact absurd hold (hreaders j hne why buf)
    · intro j contents' written' hj
      rcases Server.put_eq_some hj with ⟨rfl, heq⟩ | ⟨hne, hold⟩
      · cases heq
        refine ⟨rfl, hlt, ?_⟩
        intro k contents'' written'' hk
        rcases Server.put_eq_some hk with ⟨hkj, -⟩ | ⟨hne, hold⟩
        · exact hkj
        · exact absurd hold (hothers k hne contents'' written'')
      · exact absurd hold (hothers j hne contents' written')
    · intro j req cfg hj
      rcases Server.put_eq_some hj with ⟨-, heq⟩ | ⟨-, hold⟩
      · cases heq
      · exact h.ready j req cfg hold

/-- The next chunk after what is in the file. -/
theorem writeAt_take (contents : List UInt8) (written n : ℕ) (h : written ≤ contents.length) :
    writeAt (contents.take written) written (extract contents written n) =
      contents.take (written + (extract contents written n).length) := by
  have hlen : (contents.take written).length = written := by simp [h]
  have hchunk : extract contents written n =
      extract contents written (extract contents written n).length := by
    simp [extract]
  rw [writeAt, copyAt, hlen, Nat.sub_self, List.replicate_zero, List.append_nil,
    List.take_of_length_le (by omega), List.drop_of_length_le (by omega), List.append_nil,
    List.take_add, ← extract, ← hchunk]

section Step

variable {first : Option (List UInt8)} {s : Server} {out : List Event}

theorem Coherent.openRead {i : ℕ} {files : Files} (hquiet : Quiet s (.openRead i files))
    (h : Coherent first s.file s.threads out) :
    Coherent first (step s (.openRead i files)).1.file (step s (.openRead i files)).1.threads
      (out ++ (step s (.openRead i files)).2) := by
  simp only [step]
  split
  case h_2 => rwa [List.append_nil]
  case h_1 why hi =>
    have hno := hquiet.noWriter (by simp [hi])
    have hidle := h.idle hno
    cases hfile : s.file with
    | none =>
        simp only []
        rw [← hfile]
        exact h.received files (by simp [hi]) (by rw [← hidle, hfile])
    | some content =>
        simp only [List.append_nil]
        refine h.move ⟨by simp [hi], by simp⟩ ?_ (by simp)
        intro why' buf heq
        cases heq
        exact ⟨hno, content, by rw [← hidle, hfile], List.nil_prefix⟩

/-- What is read so far stays a prefix of the file. -/
theorem Coherent.read {i n : ℕ} {files : Files} (hquiet : Quiet s (.read i n files))
    (h : Coherent first s.file s.threads out) :
    Coherent first (step s (.read i n files)).1.file (step s (.read i n files)).1.threads
      (out ++ (step s (.read i n files)).2) := by
  simp only [step]
  split
  case h_2 => rwa [List.append_nil]
  case h_1 why buf hi =>
    have hno := hquiet.noWriter (by simp [hi])
    have hidle := h.idle hno
    obtain ⟨-, content, hcontent, hbuf⟩ := h.reading i why buf hi
    have hfile : s.file = some content := by rw [hidle, hcontent]
    have hgetD : s.file.getD [] = content := by rw [hfile]; rfl
    split
    case isTrue hend =>
      -- the end of the file: everything was read
      rw [hgetD] at hend
      have heq : buf = content := hbuf.eq_of_length_le hend
      exact h.received files (by simp [hi]) (by rw [heq, hcontent])
    case isFalse =>
      rw [List.append_nil]
      refine h.move ⟨by simp [hi], by simp⟩ ?_ (by simp)
      intro why' buf' heq
      cases heq
      refine ⟨hno, content, hcontent, ?_⟩
      obtain ⟨rest, rfl⟩ := hbuf
      rw [hgetD, extract, List.drop_left, List.prefix_append_right_inj]
      exact List.take_prefix _ _

theorem Coherent.write {i n : ℕ} (h : Coherent first s.file s.threads out) :
    Coherent first (step s (.write i n)).1.file (step s (.write i n)).1.threads
      (out ++ (step s (.write i n)).2) := by
  simp only [step]
  split
  case h_2 => rwa [List.append_nil]
  case h_1 contents written hi =>
    obtain ⟨hfile, hlt, honly⟩ := h.writing i contents written hi
    have hchunk := writeAt_take contents written (n + 1) (le_of_lt hlt)
    have hle : written + (extract contents written (n + 1)).length ≤ contents.length := by
      simp only [extract, List.length_take, List.length_drop]
      omega
    have hreaders : NoOtherReader s.threads i :=
      fun j _ why buf hj => (h.reading j why buf hj).1 i contents written hi
    rw [hfile, Option.getD_some, hchunk]
    exact Coherent.progress (s := { s with file := some (contents.take _) }) h rfl hle
      (fun j hj c w hw => hj (honly j c w hw)) hreaders

theorem Coherent.fail {i : ℕ} (hquiet : Quiet s (.fail i))
    (h : Coherent first s.file s.threads out) :
    Coherent first (step s (.fail i)).1.file (step s (.fail i)).1.threads
      (out ++ (step s (.fail i)).2) := by
  have hidle := h.idle hquiet
  simp only [step]
  split
  case h_1 contents hi =>
    refine h.put ⟨by simp [hi], by simp⟩ (by simp) (by simp) ?_ (h.fits.snoc hidle)
    rw [current_append]
    rfl
  case h_2 contents written hi => exact absurd hi (hquiet i contents written)
  case h_3 => rwa [List.append_nil]

/-- A quiet step keeps file, threads and versions together. -/
theorem coherent_step (a : Action) (hquiet : Quiet s a) (h : Coherent first s.file s.threads out) :
    Coherent first (step s a).1.file (step s a).1.threads (out ++ (step s a).2) := by
  have hstay : Coherent first s.file s.threads (out ++ []) := by rwa [List.append_nil]
  cases a with
  | connect i req =>
      simp only [step]
      cases hi : s.threads i with
      | none =>
          rw [List.append_nil]
          exact h.move ⟨by simp [hi], by simp⟩ (by simp) (by simp)
      | some phase => exact hstay
  | openRead i files => exact h.openRead hquiet
  | read i n files => exact h.read hquiet
  | route i wait pause random files =>
      simp only [step]
      split
      · rename_i req cfg hi
        exact h.routed files _ hi
      · exact hstay
  | truncate i =>
      obtain ⟨hwriters, hreaders⟩ := hquiet
      simp only [step]
      split
      · rename_i contents hi
        exact Coherent.progress (s := { s with file := some [] }) h (by rw [List.take_zero])
          (Nat.zero_le _) hwriters hreaders
      · exact hstay
  | write i n => exact h.write
  | fail i => exact h.fail hquiet

end Step

/-! ## Whole runs -/

theorem coherent_start (file : Option (List UInt8)) :
    Coherent file (Server.start file).file (Server.start file).threads [] where
  idle := fun _ => rfl
  reading := fun _ _ _ h => by cases h
  writing := fun _ _ _ h => by cases h
  ready := fun _ _ _ h => by cases h
  fits := .nil

/-- The thread that takes a step. -/
def Action.thread : Action → ℕ
  | .connect i _ => i
  | .openRead i _ => i
  | .read i _ _ => i
  | .route i _ _ _ _ => i
  | .truncate i => i
  | .write i _ => i
  | .fail i => i

def Action.fails : Action → Bool
  | .fail _ => true
  | _ => false

theorem Server.progress_threads_of_ne (s : Server) {i j : ℕ} (h : j ≠ i) (contents : List UInt8)
    (written : ℕ) : (s.progress i contents written).1.threads j = s.threads j := by
  rw [progress]
  split
  · exact s.put_threads_of_ne h _
  · exact s.put_threads_of_ne h _

/-- A step changes no thread but its own. -/
theorem step_threads_of_ne (s : Server) (a : Action) {j : ℕ} (h : j ≠ a.thread) :
    (step s a).1.threads j = s.threads j := by
  cases a with
  | truncate i =>
      simp only [step]
      split
      · exact Server.progress_threads_of_ne _ h _ _
      · rfl
  | write i n =>
      simp only [step]
      split
      · exact Server.progress_threads_of_ne _ h _ _
      · rfl
  | openRead i files =>
      simp only [step]
      split
      · split <;> exact s.put_threads_of_ne h _
      · rfl
  | read i n files =>
      simp only [step]
      split
      · split <;> exact s.put_threads_of_ne h _
      · rfl
  | _ =>
      simp only [step]
      split <;> first | rfl | exact Server.put_threads_of_ne _ h _

/-- A connection that runs alone is quiet as long as its write does not fail. -/
theorem meets_quiet_of_alone {i : ℕ} {s : Server} (hs : ∀ j, j ≠ i → s.threads j = none)
    {actions : List Action} (h : ∀ a ∈ actions, a.thread = i ∧ a.fails = false) :
    Machine.Meets step Quiet s actions := by
  induction actions generalizing s with
  | nil => trivial
  | cons a actions ih =>
      obtain ⟨ha, hfail⟩ := h a (by simp)
      have hwriters : NoOtherWriter s.threads i := fun j hj contents written hw => by
        rw [hs j hj] at hw
        cases hw
      have hreaders : NoOtherReader s.threads i := fun j hj why buf hr => by
        rw [hs j hj] at hr
        cases hr
      refine ⟨?_, ih ?_ (fun b hb => h b (by simp [hb]))⟩
      · cases a with
        | openRead k files =>
            obtain rfl : k = i := ha
            exact hwriters
        | read k n files =>
            obtain rfl : k = i := ha
            exact hwriters
        | truncate k =>
            obtain rfl : k = i := ha
            exact ⟨hwriters, hreaders⟩
        | fail k => cases hfail
        | _ => trivial
      · intro j hj
        rw [step_threads_of_ne s a (by rw [ha]; exact hj), hs j hj]

/-- A form is posted and saved, without a password. -/
def sampleSave : List Action :=
  [.connect 0 ⟨"POST".toList, "/ui/settings".toList, [], none, none⟩,
    .openRead 0 ⟨none, none, none⟩, .read 0 9 ⟨none, none, none⟩,
    .route 0 0 0 [] ⟨none, none, none⟩,
    .openRead 0 ⟨none, none, none⟩, .read 0 9 ⟨none, none, none⟩,
    .truncate 0, .write 0 9, .write 0 9, .write 0 9]

/-- A login, a form posted with its token, and a request without one that reads the file
right after it was truncated. -/
def tornRun : List Action :=
  [.connect 0 ⟨"POST".toList, "/ui/login".toList, Utf8.encode "password=x".toList, none, none⟩,
    .openRead 0 ⟨none, none, none⟩, .read 0 99 ⟨none, none, none⟩, .read 0 99 ⟨none, none, none⟩,
    .route 0 0 0 [7] ⟨none, none, none⟩,
    .connect 1 ⟨"POST".toList, "/ui/settings".toList, [], some "07".toList, some "07".toList⟩,
    .openRead 1 ⟨none, none, none⟩, .read 1 99 ⟨none, none, none⟩, .read 1 99 ⟨none, none, none⟩,
    .route 1 0 0 [] ⟨none, none, none⟩,
    .openRead 1 ⟨none, none, none⟩, .read 1 99 ⟨none, none, none⟩, .read 1 99 ⟨none, none, none⟩,
    .truncate 1,
    .connect 2 ⟨"GET".toList, "/ui/settings".toList, [], none, none⟩,
    .openRead 2 ⟨none, none, none⟩, .read 2 99 ⟨none, none, none⟩,
    .route 2 0 0 [] ⟨none, none, none⟩, .write 1 999]

/-- A save whose write fails right after the truncation. -/
def failedRun : List Action :=
  [.connect 0 ⟨"POST".toList, "/ui/settings".toList, [], none, none⟩,
    .openRead 0 ⟨none, none, none⟩, .read 0 99 ⟨none, none, none⟩, .read 0 99 ⟨none, none, none⟩,
    .route 0 0 0 [] ⟨none, none, none⟩,
    .openRead 0 ⟨none, none, none⟩, .read 0 99 ⟨none, none, none⟩, .read 0 99 ⟨none, none, none⟩,
    .truncate 0, .fail 0]

end Lwrt.Httpd
