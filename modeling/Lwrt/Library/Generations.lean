import Mathlib.Data.List.Induction

/-! Two generations of a record: once the current one is full it becomes the old one, and the old
one before it is dropped. -/

namespace Lwrt.Library

structure Generations (α : Type*) where
  old : List α
  current : List α

namespace Generations

variable {α β : Type*}

def empty : Generations α :=
  ⟨[], []⟩

/-- Both generations, oldest first. -/
def entries (g : Generations α) : List α :=
  g.old ++ g.current

section Push

variable (enc : α → List β) (limit : ℕ)

/-- The current generation is full once its entries take up `limit`. -/
def push (g : Generations α) (x : α) : Generations α :=
  if limit ≤ (g.current.flatMap enc).length then ⟨g.current, [x]⟩ else ⟨g.old, g.current ++ [x]⟩

/-- What the generations hold of everything that was pushed. -/
structure Holds (g : Generations α) (pushed : List α) : Prop where
  /-- The last entries; when some were dropped, the old generation is full. -/
  last : ∃ dropped, pushed = dropped ++ g.entries ∧
    (dropped ≠ [] → limit ≤ (g.old.flatMap enc).length)
  bounded : ∀ n, (∀ x ∈ pushed, (enc x).length ≤ n) → (g.current.flatMap enc).length < limit + n

end Push

variable {enc : α → List β} {limit : ℕ}

theorem Holds.empty (hlimit : 0 < limit) : Holds enc limit (.empty : Generations α) [] where
  last := ⟨[], rfl, fun h => absurd rfl h⟩
  bounded n _ := Nat.add_pos_left hlimit n

theorem Holds.push (hlimit : 0 < limit) {g : Generations α} {pushed : List α}
    (h : Holds enc limit g pushed) (x : α) :
    Holds enc limit (g.push enc limit x) (pushed ++ [x]) := by
  obtain ⟨dropped, hpushed, hfull⟩ := h.last
  rw [Generations.push]
  split
  · rename_i hfilled
    refine ⟨⟨dropped ++ g.old, ?_, fun _ => hfilled⟩, ?_⟩
    · rw [hpushed, entries, entries]
      simp only [List.append_assoc]
    · intro n hn
      have hx := hn x (by simp)
      simp only [List.flatMap_cons, List.flatMap_nil, List.append_nil]
      omega
  · rename_i hroom
    refine ⟨⟨dropped, ?_, hfull⟩, ?_⟩
    · rw [hpushed, entries, entries]
      simp only [List.append_assoc]
    · intro n hn
      have hx := hn x (by simp)
      rw [List.flatMap_append, List.length_append]
      simp only [List.flatMap_cons, List.flatMap_nil, List.append_nil]
      omega

/-- After any number of entries. -/
theorem Holds.foldl_push (enc : α → List β) {limit : ℕ} (hlimit : 0 < limit) (pushed : List α) :
    Holds enc limit (pushed.foldl (Generations.push enc limit) .empty) pushed := by
  induction pushed using List.reverseRecOn with
  | nil => exact .empty hlimit
  | append_singleton pushed x ih =>
      rw [List.foldl_append]
      exact ih.push hlimit x

end Generations

end Lwrt.Library
