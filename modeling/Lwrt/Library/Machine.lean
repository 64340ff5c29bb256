import Mathlib.Data.List.Basic
import Mathlib.Data.List.Induction
import Mathlib.Logic.Relation

/-! Reactive programs and transition systems. A `Machine` consumes one event at a time
and emits outputs; a step relation describes several parties acting in any order. -/

namespace Lwrt.Library

/-- One iteration of a receive loop: the next state and what was emitted. -/
abbrev Machine (σ ε ω : Type*) := σ → ε → σ × List ω

/-- The steps of two sequences, each in its own order. -/
inductive Interleaving {α : Type*} : List α → List α → List α → Prop
  | nil : Interleaving [] [] []
  | left {a : α} {as bs cs : List α} (h : Interleaving as bs cs) :
      Interleaving (a :: as) bs (a :: cs)
  | right {b : α} {as bs cs : List α} (h : Interleaving as bs cs) :
      Interleaving as (b :: bs) (b :: cs)

theorem Interleaving.pairs {α : Type*} {a a' b b' : α} {cs : List α}
    (h : Interleaving [a, a'] [b, b'] cs) :
    cs = [a, a', b, b'] ∨ cs = [a, b, a', b'] ∨ cs = [a, b, b', a'] ∨ cs = [b, a, a', b'] ∨
      cs = [b, a, b', a'] ∨ cs = [b, b', a, a'] := by
  grind [cases Interleaving]

namespace Machine

variable {σ ε ω : Type*} (step : Machine σ ε ω)

/-- The loop run over a finite sequence of events, with everything emitted so far. -/
def run : σ → List ε → σ × List ω
  | s, [] => (s, [])
  | s, e :: es => ((run (step s e).1 es).1, (step s e).2 ++ (run (step s e).1 es).2)

@[simp] theorem run_nil (s : σ) : run step s [] = (s, []) := rfl

@[simp] theorem run_cons (s : σ) (e : ε) (es : List ε) :
    run step s (e :: es) =
      ((run step (step s e).1 es).1, (step s e).2 ++ (run step (step s e).1 es).2) := rfl

theorem run_append (s : σ) (es fs : List ε) :
    run step s (es ++ fs) =
      ((run step (run step s es).1 fs).1,
        (run step s es).2 ++ (run step (run step s es).1 fs).2) := by
  induction es generalizing s with
  | nil => simp
  | cons e es ih => simp [ih]

theorem run_concat (s : σ) (es : List ε) (e : ε) :
    run step s (es ++ [e]) =
      ((step (run step s es).1 e).1, (run step s es).2 ++ (step (run step s es).1 e).2) := by
  rw [run_append, run_cons, run_nil, List.append_nil]

/-- Every event of a run meets a condition on the state it arrives in. -/
def Meets (guard : σ → ε → Prop) : σ → List ε → Prop
  | _, [] => True
  | s, e :: es => guard s e ∧ Meets guard (step s e).1 es

/-- A property of the state and of everything emitted so far, kept by every event that
meets the condition, holds after the run. -/
theorem run_invariant_of_meets {guard : σ → ε → Prop} {motive : σ → List ω → Prop}
    (hstep : ∀ s out e, guard s e → motive s out → motive (step s e).1 (out ++ (step s e).2))
    {es : List ε} {s : σ} (hes : Meets step guard s es) (out : List ω) (h : motive s out) :
    motive (run step s es).1 (out ++ (run step s es).2) := by
  induction es generalizing s out with
  | nil => simpa using h
  | cons e es ih =>
      have hnext := ih hes.2 (out ++ (step s e).2) (hstep s out e hes.1 h)
      simpa only [run_cons, List.append_assoc] using hnext

/-- A condition on the events alone. -/
theorem meets_of_forall (guard : ε → Prop) {es : List ε} (h : ∀ e ∈ es, guard e) (s : σ) :
    Meets step (fun _ e => guard e) s es := by
  induction es generalizing s with
  | nil => trivial
  | cons e es ih => exact ⟨h e (by simp), ih (fun f hf => h f (by simp [hf])) _⟩

/-- Two conditions that agree where an invariant holds are met by the same runs, if steps that meet
them keep it. -/
theorem meets_congr {P Q : σ → ε → Prop} (inv : σ → Prop)
    (hiff : ∀ s e, inv s → (P s e ↔ Q s e)) (hkeep : ∀ s e, inv s → Q s e → inv (step s e).1)
    {s : σ} (h : inv s) (es : List ε) : Meets step P s es ↔ Meets step Q s es := by
  induction es generalizing s with
  | nil => exact Iff.rfl
  | cons e es ih =>
      rw [Meets, Meets, hiff s e h]
      constructor
      · intro hmeets
        exact ⟨hmeets.1, (ih (hkeep s e h hmeets.1)).mp hmeets.2⟩
      · intro hmeets
        exact ⟨hmeets.1, (ih (hkeep s e h hmeets.1)).mpr hmeets.2⟩

/-- A property of the state and of everything emitted so far, kept by every event of the
run, holds after it. -/
theorem run_invariant {motive : σ → List ω → Prop} (es : List ε)
    (hstep : ∀ s out, ∀ e ∈ es, motive s out → motive (step s e).1 (out ++ (step s e).2))
    (s : σ) (out : List ω) (h : motive s out) :
    motive (run step s es).1 (out ++ (run step s es).2) :=
  run_invariant_of_meets step (fun s out e he => hstep s out e he)
    (meets_of_forall step (· ∈ es) (fun _ he => he) s) out h

end Machine

/-- Every element of a trace is as `P` says, given the elements before it. -/
def Each {ω : Type*} (P : List ω → ω → Prop) (out : List ω) : Prop :=
  ∀ earlier x later, out = earlier ++ x :: later → P earlier x

namespace Each

variable {ω : Type*} {P : List ω → ω → Prop}

theorem nil : Each P [] :=
  fun _ _ _ h => by simp at h

theorem snoc {out : List ω} (h : Each P out) {x : ω} (hx : P out x) : Each P (out ++ [x]) := by
  intro earlier y later hsplit
  rcases List.eq_nil_or_concat later with rfl | ⟨later', z, rfl⟩
  · obtain ⟨rfl, hyx⟩ := List.append_inj' hsplit rfl
    rw [← (List.cons.inj hyx).1]
    exact hx
  · rw [List.concat_eq_append, ← List.cons_append, ← List.append_assoc] at hsplit
    exact h earlier y later' (List.append_inj' hsplit rfl).1

end Each

namespace Machine

variable {σ ε ω : Type*} (step : Machine σ ε ω)

/-- One event of a run: the state it arrived in and what was emitted for it. -/
structure Entry (σ ε ω : Type*) where
  before : σ
  event : ε
  emitted : List ω

/-- A run together with its events one by one. -/
def history (s : σ) (es : List ε) : σ × List (Entry σ ε ω) :=
  run (fun s e => ((step s e).1, [⟨s, e, (step s e).2⟩])) s es

@[simp]
theorem history_nil (s : σ) : history step s [] = (s, []) := rfl

theorem history_append_singleton (s : σ) (es : List ε) (e : ε) :
    history step s (es ++ [e]) =
      ((step (history step s es).1 e).1,
        (history step s es).2 ++
          [⟨(history step s es).1, e, (step (history step s es).1 e).2⟩]) := by
  induction es generalizing s with
  | nil => rfl
  | cons e' es ih =>
      simp only [history, List.cons_append, run_cons] at ih ⊢
      rw [ih]
      rfl

theorem history_append (s : σ) (es₁ es₂ : List ε) :
    history step s (es₁ ++ es₂) =
      ((history step (history step s es₁).1 es₂).1,
        (history step s es₁).2 ++ (history step (history step s es₁).1 es₂).2) := by
  induction es₂ using List.reverseRecOn with
  | nil => simp
  | append_singleton es₂ e ih =>
      rw [← List.append_assoc, history_append_singleton, ih, history_append_singleton,
        List.append_assoc]

/-- The entries of a history are its events, one by one. -/
theorem map_event_history (s : σ) (es : List ε) : (history step s es).2.map Entry.event = es := by
  induction es using List.reverseRecOn with
  | nil => rfl
  | append_singleton es e ih => rw [history_append_singleton, List.map_append, ih]; rfl

/-- Each entry of a history belongs to one event of the run. -/
theorem exists_of_history_eq_append {s : σ} {es : List ε} {earlier later : List (Entry σ ε ω)}
    {x : Entry σ ε ω} (h : (history step s es).2 = earlier ++ x :: later) :
    ∃ es₁ es₂, es = es₁ ++ x.event :: es₂ ∧ history step s es₁ = (x.before, earlier) := by
  induction es using List.reverseRecOn generalizing later with
  | nil => simp at h
  | append_singleton es e ih =>
      rw [history_append_singleton] at h
      rcases List.eq_nil_or_concat later with rfl | ⟨later', y, rfl⟩
      · obtain ⟨hearlier, hx⟩ := List.append_inj' h rfl
        rw [← (List.cons.inj hx).1, ← hearlier]
        exact ⟨es, [], rfl, rfl⟩
      · rw [List.concat_eq_append, ← List.cons_append, ← List.append_assoc] at h
        obtain ⟨es₁, es₂, rfl, hbefore⟩ := ih (List.append_inj' h rfl).1
        exact ⟨es₁, es₂ ++ [e], by simp, hbefore⟩

/-- A property of the state and the events so far that every event keeps holds after the run,
and held when each of its events arrived. -/
theorem history_invariant {motive : σ → List (Entry σ ε ω) → Prop}
    (hstep : ∀ s log e, motive s log → motive (step s e).1 (log ++ [⟨s, e, (step s e).2⟩]))
    {s : σ} (h : motive s []) (es : List ε) :
    motive (history step s es).1 (history step s es).2 ∧
      Each (fun earlier x => motive x.before earlier ∧ x.emitted = (step x.before x.event).2)
        (history step s es).2 := by
  induction es using List.reverseRecOn with
  | nil => exact ⟨h, .nil⟩
  | append_singleton es e ih =>
      rw [history_append_singleton]
      exact ⟨hstep _ _ e ih.1, ih.2.snoc ⟨ih.1, rfl⟩⟩

end Machine

/-- The states a step relation reaches from an initial one. -/
def Reachable {σ : Type*} (init : σ → Prop) (step : σ → σ → Prop) (s : σ) : Prop :=
  ∃ s₀, init s₀ ∧ Relation.ReflTransGen step s₀ s

namespace Reachable

variable {σ : Type*} {init : σ → Prop} {step : σ → σ → Prop}

theorem start {s : σ} (h : init s) : Reachable init step s :=
  ⟨s, h, .refl⟩

theorem next {s t : σ} (h : Reachable init step s) (hst : step s t) :
    Reachable init step t := by
  obtain ⟨s₀, h₀, hs⟩ := h
  exact ⟨s₀, h₀, hs.tail hst⟩

/-- An inductive invariant holds in every reachable state. -/
theorem invariant {motive : σ → Prop} (hinit : ∀ s, init s → motive s)
    (hstep : ∀ s t, motive s → step s t → motive t) {s : σ}
    (h : Reachable init step s) : motive s := by
  obtain ⟨s₀, h₀, hs⟩ := h
  induction hs with
  | refl => exact hinit s₀ h₀
  | tail _ hst ih => exact hstep _ _ ih hst

end Reachable

end Lwrt.Library
