import Mathlib.Data.List.Nodup
import Lwrt.Applet.Init
import Lwrt.Library.Machine

/-! # Supervised services

The loop of process 1 beside the kernel: every process it tracks is a child that was not reaped.
A service is lost exactly when a fork for it fails. -/

namespace Lwrt.Init

open Library

/-- Process 1, and its children that were not reaped. -/
structure World where
  pids : Pids
  /-- The loop ended. -/
  left : Bool
  children : List ℤ

/-- One turn of the loop: the value of `STOP`, the orphans that became children since the last
turn, and what `waitpid` and `fork` return. -/
structure Turn where
  stop : Bool
  orphans : List ℤ
  dead : ℤ
  forked : ℤ

namespace World

/-- The children of which `waitpid` chooses one. -/
def waiting (w : World) (t : Turn) : List ℤ :=
  t.orphans ++ w.children

/-- A tracked process is reaped in this turn. -/
def ServiceDies (w : World) (t : Turn) : Prop :=
  w.left = false ∧ t.stop = false ∧ 0 < t.dead ∧ t.dead ∈ w.pids.map Prod.fst

instance (w : World) (t : Turn) : Decidable (w.ServiceDies t) :=
  inferInstanceAs (Decidable (_ ∧ _))

/-- The children after `waitpid`. -/
def remaining (w : World) (t : Turn) : List ℤ :=
  if 0 < t.dead then (w.waiting t).filter (· ≠ t.dead) else w.waiting t

def next (w : World) (t : Turn) : World :=
  if w.left || t.stop then { w with left := true, children := w.waiting t }
  else
    { w with
      pids := reap w.pids t.dead t.forked
      children :=
        if w.ServiceDies t then (spawn t.forked).toList ++ w.remaining t else w.remaining t }

/-- What the kernel promises: a reaped process was a child, and a new one has a pid that no
child has. -/
def Legal (w : World) (t : Turn) : Prop :=
  (0 < t.dead → t.dead ∈ w.waiting t) ∧
    (w.ServiceDies t → t.forked = -1 ∨ (0 < t.forked ∧ t.forked ∉ w.remaining t))

instance (w : World) (t : Turn) : Decidable (w.Legal t) :=
  inferInstanceAs (Decidable (_ ∧ _))

/-- The start of `supervise`, with the children that process 1 has already. -/
def start (children : List ℤ) (forks : ℕ → ℤ) : World where
  pids := startAll forks
  left := false
  children := (startAll forks).map Prod.fst ++ children

end World

/-- The forks of the first loop yield new processes, or fail. -/
structure LegalStart (children : List ℤ) (forks : ℕ → ℤ) : Prop where
  fresh : ∀ idx < services.length, forks idx = -1 ∨ (0 < forks idx ∧ forks idx ∉ children)
  distinct : ∀ i < services.length, ∀ j < services.length, forks i ≠ -1 → forks i = forks j → i = j

/-- One turn after the other. -/
def supervise : Machine World Turn Empty :=
  fun w t => (w.next t, [])

/-- The state after some turns. -/
def World.after (w : World) (turns : List Turn) : World :=
  (Machine.run supervise w turns).1

/-- Every service has exactly one tracked process, which is a child that was not reaped, and no
process stands for two services. -/
structure Tracked (w : World) : Prop where
  each : ∀ idx < services.length, ∃! pid, (pid, idx) ∈ w.pids
  alive : ∀ entry ∈ w.pids, entry.1 ∈ w.children
  distinct : (w.pids.map Prod.fst).Nodup

/-! ## The table -/

/-- What holds of the table in every state, whether forks fail or not. -/
structure Sound (w : World) : Prop where
  distinct : (w.pids.map Prod.fst).Nodup
  once : (w.pids.map Prod.snd).Nodup
  known : ∀ entry ∈ w.pids, entry.2 < services.length
  alive : ∀ entry ∈ w.pids, entry.1 ∈ w.children

/-- Every service has a process. -/
def Covered (pids : Pids) : Prop :=
  ∀ idx < services.length, idx ∈ pids.map Prod.snd

theorem Sound.tracked_iff {w : World} (h : Sound w) : Tracked w ↔ Covered w.pids := by
  constructor
  · intro ht idx hidx
    obtain ⟨pid, hmem, -⟩ := ht.each idx hidx
    exact List.mem_map_of_mem hmem
  · intro hc
    refine ⟨?_, h.alive, h.distinct⟩
    intro idx hidx
    obtain ⟨entry, hmem, rfl⟩ := List.mem_map.mp (hc idx hidx)
    refine ⟨entry.1, hmem, ?_⟩
    intro pid hpid
    exact congrArg Prod.fst (List.inj_on_of_nodup_map h.once hpid hmem rfl)

/-- One turn on a table. -/
theorem reap_cases (pids : Pids) (dead forked : ℤ) :
    (reap pids dead forked = pids ∧ ¬(0 < dead ∧ dead ∈ pids.map Prod.fst)) ∨
      ∃ front idx back, 0 < dead ∧ pids = front ++ (dead, idx) :: back ∧
        reap pids dead forked = track (front ++ back) idx forked := by
  rw [reap]
  split
  · rename_i hdead
    exact Or.inl ⟨rfl, fun h => absurd h.1 (by omega)⟩
  · rename_i hdead
    cases hfind : pids.find? fun entry => entry.1 = dead with
    | none =>
        refine Or.inl ⟨rfl, ?_⟩
        rintro ⟨-, hmem⟩
        obtain ⟨entry, hentry, heq⟩ := List.mem_map.mp hmem
        exact absurd heq (by simpa using List.find?_eq_none.mp hfind entry hentry)
    | some entry =>
        obtain ⟨hp, front, back, hpids, hfront⟩ := List.find?_eq_some_iff_append.mp hfind
        obtain ⟨pid, idx⟩ := entry
        have hpid : pid = dead := of_decide_eq_true hp
        subst hpid
        refine Or.inr ⟨front, idx, back, by omega, hpids, ?_⟩
        rw [hpids, List.eraseP_append_right _ (by simpa using hfront),
          List.eraseP_cons_of_pos (by simp)]

theorem track_failed (pids : Pids) (idx : ℕ) : track pids idx (-1) = pids := rfl

theorem track_forked {forked : ℤ} (h : forked ≠ -1) (pids : Pids) (idx : ℕ) :
    track pids idx forked = pids ++ [(forked, idx)] := by
  rw [track, spawn, if_neg h]

/-! ## One turn -/

section Turn

variable {w : World} {t : Turn}

theorem mem_remaining {pid : ℤ} (h : pid ∈ w.children) (hne : 0 < t.dead → pid ≠ t.dead) :
    pid ∈ w.remaining t := by
  have hwaiting : pid ∈ w.waiting t := List.mem_append_right _ h
  rw [World.remaining]
  split
  · rename_i hdead
    exact List.mem_filter.mpr ⟨hwaiting, by simpa using hne hdead⟩
  · exact hwaiting

/-- What a turn does: nothing to the table, or one service dies and is spawned again. -/
inductive TurnSpec (w : World) (t : Turn) : World → Prop
  | finished (hlive : ¬w.ServiceDies t) :
      TurnSpec w t { w with left := true, children := w.waiting t }
  | other (hlive : ¬w.ServiceDies t) (hdead : ¬(0 < t.dead ∧ t.dead ∈ w.pids.map Prod.fst)) :
      TurnSpec w t { w with children := w.remaining t }
  | lost (hdies : w.ServiceDies t) (hfork : t.forked = -1) (front back : Pids) (idx : ℕ)
      (hpids : w.pids = front ++ (t.dead, idx) :: back) :
      TurnSpec w t { w with pids := front ++ back, children := w.remaining t }
  | respawned (hdies : w.ServiceDies t) (hfork : t.forked ≠ -1) (front back : Pids) (idx : ℕ)
      (hpids : w.pids = front ++ (t.dead, idx) :: back) :
      TurnSpec w t
        { w with
          pids := front ++ back ++ [(t.forked, idx)]
          children := t.forked :: w.remaining t }

theorem next_spec (w : World) (t : Turn) : TurnSpec w t (w.next t) := by
  rw [World.next]
  by_cases hrun : (w.left || t.stop) = true
  · rw [if_pos hrun]
    refine .finished fun hdies => ?_
    rw [hdies.1, hdies.2.1] at hrun
    exact absurd hrun (by decide)
  · rw [if_neg hrun]
    obtain ⟨hleft, hstop⟩ : w.left = false ∧ t.stop = false := by
      simpa using hrun
    rcases reap_cases w.pids t.dead t.forked with
      ⟨hreap, hdead⟩ | ⟨front, idx, back, hdead, hpids, hreap⟩
    · have hlive : ¬w.ServiceDies t := fun hdies => hdead ⟨hdies.2.2.1, hdies.2.2.2⟩
      rw [if_neg hlive, hreap]
      exact .other hlive hdead
    · have hdies : w.ServiceDies t := ⟨hleft, hstop, hdead, by simp [hpids]⟩
      rw [if_pos hdies, hreap]
      by_cases hfork : t.forked = -1
      · rw [hfork, track_failed]
        exact .lost hdies hfork front back idx hpids
      · rw [track_forked hfork, spawn, if_neg hfork]
        exact .respawned hdies hfork front back idx hpids

theorem mem_pids {pids front back : Pids} {dead entry : ℤ × ℕ}
    (hpids : pids = front ++ dead :: back) (h : entry ∈ front ++ back) : entry ∈ pids := by
  rw [hpids]
  rcases List.mem_append.mp h with h | h
  · exact List.mem_append_left _ h
  · exact List.mem_append_right _ (List.mem_cons_of_mem _ h)

/-- The other entries, beside the one of a process that died. -/
theorem Sound.others (h : Sound w) {front back : Pids} {idx : ℕ}
    (hpids : w.pids = front ++ (t.dead, idx) :: back) :
    ((front ++ back).map Prod.fst).Nodup ∧ ((front ++ back).map Prod.snd).Nodup ∧
      idx ∉ (front ++ back).map Prod.snd ∧ ∀ entry ∈ front ++ back, entry.1 ∈ w.remaining t := by
  have hperm : w.pids.Perm ((t.dead, idx) :: (front ++ back)) := by
    rw [hpids]
    exact List.perm_middle
  have hfst := (hperm.map Prod.fst).nodup_iff.mp h.distinct
  have hsnd := (hperm.map Prod.snd).nodup_iff.mp h.once
  rw [List.map_cons, List.nodup_cons] at hfst hsnd
  refine ⟨hfst.2, hsnd.2, hsnd.1, ?_⟩
  intro entry hentry
  refine mem_remaining (h.alive entry (hperm.mem_iff.mpr (List.mem_cons_of_mem _ hentry))) ?_
  rintro - heq
  have hmem := List.mem_map_of_mem (f := Prod.fst) hentry
  rw [heq] at hmem
  exact hfst.1 hmem

theorem Sound.next (h : Sound w) (hlegal : w.Legal t) : Sound (w.next t) := by
  have hspec := next_spec w t
  generalize w.next t = w' at hspec ⊢
  cases hspec with
  | finished hlive =>
      exact ⟨h.distinct, h.once, h.known,
        fun entry hentry => List.mem_append_right _ (h.alive entry hentry)⟩
  | other hlive hdead =>
      refine ⟨h.distinct, h.once, h.known, ?_⟩
      intro entry hentry
      refine mem_remaining (h.alive entry hentry) ?_
      intro hpos heq
      exact hdead ⟨hpos, heq ▸ List.mem_map_of_mem hentry⟩
  | lost hdies hfork front back idx hpids =>
      obtain ⟨hfst, hsnd, -, halive⟩ := h.others hpids
      exact ⟨hfst, hsnd, fun entry hentry => h.known entry (mem_pids hpids hentry), halive⟩
  | respawned hdies hfork front back idx hpids =>
      obtain ⟨hfst, hsnd, hidx, halive⟩ := h.others hpids
      have hnew : t.forked ∉ w.remaining t := ((hlegal.2 hdies).resolve_left hfork).2
      refine ⟨?_, ?_, ?_, ?_⟩
      · rw [List.map_append]
        refine List.nodup_append.mpr ⟨hfst, by simp, ?_⟩
        intro pid hpid new hmem heq
        obtain ⟨entry, hentry, rfl⟩ := List.mem_map.mp hpid
        have hforked : new = t.forked := by simpa using hmem
        exact hnew (hforked ▸ heq ▸ halive entry hentry)
      · rw [List.map_append]
        refine List.nodup_append.mpr ⟨hsnd, by simp, ?_⟩
        intro i hi j hj heq
        have hj : j = idx := by simpa using hj
        exact hidx (hj ▸ heq ▸ hi)
      · intro entry hentry
        rcases List.mem_append.mp hentry with hentry | hentry
        · exact h.known entry (mem_pids hpids hentry)
        · rw [List.mem_singleton.mp hentry]
          exact h.known (t.dead, idx) (by simp [hpids])
      · intro entry hentry
        rcases List.mem_append.mp hentry with hentry | hentry
        · exact List.mem_cons_of_mem _ (halive entry hentry)
        · rw [List.mem_singleton.mp hentry]
          exact List.mem_cons_self

/-- A turn keeps all services unless one dies and its fork fails. -/
theorem Sound.covered_next_iff (h : Sound w) (hcovered : Covered w.pids) :
    Covered (w.next t).pids ↔ (w.ServiceDies t → t.forked ≠ -1) := by
  have hspec := next_spec w t
  generalize w.next t = w' at hspec ⊢
  cases hspec with
  | finished hlive => exact iff_of_true hcovered fun hdies => absurd hdies hlive
  | other hlive hdead => exact iff_of_true hcovered fun hdies => absurd hdies hlive
  | lost hdies hfork front back idx hpids =>
      refine iff_of_false ?_ fun hforks => hforks hdies hfork
      intro hc
      exact (h.others hpids).2.2.1 (hc idx (h.known (t.dead, idx) (by simp [hpids])))
  | respawned hdies hfork front back idx hpids =>
      refine iff_of_true ?_ fun _ => hfork
      intro i hi
      have hmem := hcovered i hi
      rw [hpids] at hmem
      simp only [List.map_append, List.map_cons, List.map_nil, List.mem_append, List.mem_cons,
        List.not_mem_nil, or_false] at hmem ⊢
      tauto

end Turn

/-! ## The start -/

/-- The first loop tracks the services whose fork succeeds. -/
theorem startAll_eq (forks : ℕ → ℤ) :
    startAll forks =
      ((List.range services.length).filter (fun idx => forks idx ≠ -1)).map fun idx =>
        (forks idx, idx) := by
  have hfold : ∀ (idxs : List ℕ) (pids : Pids),
      idxs.foldl (fun pids idx => track pids idx (forks idx)) pids =
        pids ++ (idxs.filter (fun idx => forks idx ≠ -1)).map fun idx => (forks idx, idx) := by
    intro idxs
    induction idxs with
    | nil => simp
    | cons idx idxs ih =>
        intro pids
        rw [List.foldl_cons, ih]
        by_cases hfork : forks idx = -1
        · simp [hfork, track_failed]
        · simp [hfork, track_forked hfork]
  rw [startAll, hfold, List.nil_append]

theorem mem_startAll {forks : ℕ → ℤ} {entry : ℤ × ℕ} :
    entry ∈ startAll forks ↔
      entry.2 < services.length ∧ forks entry.2 ≠ -1 ∧ entry.1 = forks entry.2 := by
  rw [startAll_eq, List.mem_map]
  constructor
  · rintro ⟨idx, hidx, rfl⟩
    obtain ⟨hrange, hfork⟩ := List.mem_filter.mp hidx
    exact ⟨List.mem_range.mp hrange, by simpa using hfork, rfl⟩
  · rintro ⟨hidx, hfork, heq⟩
    exact ⟨entry.2, List.mem_filter.mpr ⟨List.mem_range.mpr hidx, by simpa using hfork⟩,
      by rw [← heq]⟩

theorem sound_start {children : List ℤ} {forks : ℕ → ℤ} (h : LegalStart children forks) :
    Sound (.start children forks) where
  distinct := by
    have hnodup := (List.nodup_range (n := services.length)).filter fun idx => forks idx ≠ -1
    rw [World.start, startAll_eq, List.map_map]
    refine hnodup.map_on ?_
    intro i hi j hj heq
    obtain ⟨hi, hfork⟩ := List.mem_filter.mp hi
    exact h.distinct i (List.mem_range.mp hi) j (List.mem_range.mp (List.mem_filter.mp hj).1)
      (by simpa using hfork) heq
  once := by
    have hnodup := (List.nodup_range (n := services.length)).filter fun idx => forks idx ≠ -1
    rw [World.start, startAll_eq, List.map_map]
    exact hnodup.map_on fun i _ j _ heq => heq
  known := fun entry hentry => (mem_startAll.mp hentry).1
  alive := fun entry hentry => List.mem_append_left _ (List.mem_map_of_mem hentry)

theorem covered_start_iff (forks : ℕ → ℤ) :
    Covered (startAll forks) ↔ ∀ idx < services.length, forks idx ≠ -1 := by
  constructor
  · intro h idx hidx
    obtain ⟨entry, hentry, rfl⟩ := List.mem_map.mp (h idx hidx)
    exact (mem_startAll.mp hentry).2.1
  · intro h idx hidx
    exact List.mem_map.mpr ⟨(forks idx, idx), mem_startAll.mpr ⟨hidx, h idx hidx, rfl⟩, rfl⟩

/-! ## Whole runs -/

/-- The fork for a service that died in this turn succeeds. -/
def Respawned (w : World) (t : Turn) : Prop :=
  w.ServiceDies t → t.forked ≠ -1

theorem World.after_cons (w : World) (t : Turn) (turns : List Turn) :
    w.after (t :: turns) = (w.next t).after turns :=
  rfl

theorem Sound.tracked_after_iff {w : World} (h : Sound w) {turns : List Turn}
    (hlegal : Machine.Meets supervise World.Legal w turns) :
    (∀ done rest, turns = done ++ rest → Tracked (w.after done)) ↔
      Covered w.pids ∧ Machine.Meets supervise Respawned w turns := by
  induction turns generalizing w with
  | nil =>
      constructor
      · intro hall
        exact ⟨h.tracked_iff.mp (hall [] [] rfl), trivial⟩
      · rintro ⟨hcovered, -⟩ done rest hsplit
        rw [(List.append_eq_nil_iff.mp hsplit.symm).1]
        exact h.tracked_iff.mpr hcovered
  | cons t turns ih =>
      have hnext := h.next hlegal.1
      constructor
      · intro hall
        have hcovered : Covered w.pids := h.tracked_iff.mp (hall [] _ rfl)
        obtain ⟨hafter, hmeets⟩ := (ih hnext hlegal.2).mp fun done rest hsplit =>
          hall (t :: done) rest (by rw [hsplit, List.cons_append])
        exact ⟨hcovered, (h.covered_next_iff hcovered).mp hafter, hmeets⟩
      · rintro ⟨hcovered, hfirst, hmeets⟩ done rest hsplit
        cases done with
        | nil => exact h.tracked_iff.mpr hcovered
        | cons u done =>
            obtain ⟨rfl, htail⟩ := List.cons.inj hsplit
            rw [World.after_cons]
            exact (ih hnext hlegal.2).mpr ⟨(h.covered_next_iff hcovered).mpr hfirst, hmeets⟩ done
              rest htail

/-- In a run of `supervise` every service is tracked after every turn exactly if no fork for a
service fails: not at the start, and not when a service died. -/
theorem services_tracked_iff {children : List ℤ} {forks : ℕ → ℤ}
    (hstart : LegalStart children forks) {turns : List Turn}
    (hlegal : Machine.Meets supervise World.Legal (.start children forks) turns) :
    (∀ done rest, turns = done ++ rest → Tracked ((World.start children forks).after done)) ↔
      (∀ idx < services.length, forks idx ≠ -1) ∧
        Machine.Meets supervise Respawned (.start children forks) turns := by
  rw [(sound_start hstart).tracked_after_iff hlegal, ← covered_start_iff]
  rfl

/-- An orphan exits, then the web server does and is spawned again. -/
def calmTurns : List Turn :=
  [⟨false, [50], 50, 0⟩, ⟨false, [], 14, 60⟩]

def serviceForks (idx : ℕ) : ℤ :=
  10 + idx

theorem services_tracked_calm :
    (∀ done rest, calmTurns = done ++ rest → Tracked ((World.start [7] serviceForks).after done)) ↔
      (∀ idx < services.length, serviceForks idx ≠ -1) ∧
        Machine.Meets supervise Respawned (.start [7] serviceForks) calmTurns := by
  apply services_tracked_iff
  · refine ⟨by decide, ?_⟩
    intro i _ j _ _ heq
    simp only [serviceForks] at heq
    omega
  · refine ⟨by decide, by decide, trivial⟩

/-- The web server exits while no process can be created. -/
theorem failedFork_not_tracked :
    LegalStart [] serviceForks ∧
      (World.start [] serviceForks).Legal ⟨false, [], 14, -1⟩ ∧
        ¬Tracked ((World.start [] serviceForks).after [⟨false, [], 14, -1⟩]) := by
  refine ⟨⟨by decide, ?_⟩, by decide, ?_⟩
  · intro i _ j _ _ heq
    simp only [serviceForks] at heq
    omega
  · intro h
    obtain ⟨pid, hpid, -⟩ := h.each 4 (by decide)
    have hlost : 4 ∉ (((World.start [] serviceForks).after [⟨false, [], 14, -1⟩]).pids.map
        Prod.snd) := by decide
    exact hlost (List.mem_map_of_mem hpid)

end Lwrt.Init
