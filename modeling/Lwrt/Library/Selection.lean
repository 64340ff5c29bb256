import Mathlib.Data.List.Basic

/-! Selections from a list: the values that a relation gives for its entries, in order, where an
entry without a value is left out. -/

namespace Lwrt.Library

variable {α β : Type*}

/-- `ys` holds one value for every entry of `xs` that has one. -/
inductive Selects (R : α → β → Prop) : List α → List β → Prop where
  | nil : Selects R [] []
  | keep {x xs y ys} (h : R x y) (rest : Selects R xs ys) : Selects R (x :: xs) (y :: ys)
  | skip {x xs ys} (h : ∀ y, ¬ R x y) (rest : Selects R xs ys) : Selects R (x :: xs) ys

variable {R : α → β → Prop} {f : α → Option β}

theorem Selects.tail_of_forall_not {x : α} {xs : List α} {ys : List β} (hx : ∀ y, ¬ R x y)
    (hs : Selects R (x :: xs) ys) : Selects R xs ys := by
  cases hs with
  | keep hxy _ => exact absurd hxy (hx _)
  | skip _ rest => exact rest

/-- A function that has a value wherever the relation has one finds no fewer values. -/
theorem Selects.length_le (h : ∀ x y, R x y → (f x).isSome) {xs : List α} {ys : List β}
    (hs : Selects R xs ys) : ys.length ≤ (xs.filterMap f).length := by
  induction hs with
  | nil => exact Nat.le_refl 0
  | keep hxy _ ih =>
      obtain ⟨z, hz⟩ := Option.isSome_iff_exists.mp (h _ _ hxy)
      rw [List.filterMap_cons_some hz]
      exact Nat.succ_le_succ ih
  | @skip x _ _ _ _ ih =>
      cases hf : f x with
      | none => rwa [List.filterMap_cons_none hf]
      | some z =>
          rw [List.filterMap_cons_some hf]
          exact Nat.le_succ_of_le ih

/-- Such a function selects what the relation does when all its values are related. -/
theorem selects_filterMap_iff (h : ∀ x y, R x y → (f x).isSome) (xs : List α) :
    Selects R xs (xs.filterMap f) ↔ ∀ x ∈ xs, ∀ y, f x = some y → R x y := by
  induction xs with
  | nil => exact iff_of_true .nil (by simp)
  | cons x xs ih =>
      rw [List.forall_mem_cons, ← ih]
      cases hf : f x with
      | none =>
          rw [List.filterMap_cons_none hf]
          have hx : ∀ y, ¬ R x y := by
            intro y hy
            simpa [hf] using h x y hy
          constructor
          · intro hs
            exact ⟨by simp, hs.tail_of_forall_not hx⟩
          · intro hs
            exact .skip hx hs.2
      | some y =>
          rw [List.filterMap_cons_some hf]
          constructor
          · intro hs
            cases hs with
            | keep hxy rest => exact ⟨fun z hz => Option.some.inj hz ▸ hxy, rest⟩
            | skip _ rest =>
                -- the values of `xs` alone are too few
                have hlen := rest.length_le h
                rw [List.length_cons] at hlen
                omega
          · intro hs
            exact .keep (hs.1 y rfl) hs.2

end Lwrt.Library
