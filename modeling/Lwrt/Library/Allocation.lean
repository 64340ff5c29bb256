import Mathlib.Data.Finset.Card
import Mathlib.Logic.Function.Basic

/-! Exclusive allocations: each client holds at most one resource and no resource has two
holders. -/

namespace Lwrt.Library

/-- Who holds what. No resource is held twice. -/
structure Allocation (κ ρ : Type*) where
  holds : κ → Option ρ
  exclusive : ∀ k k' r, holds k = some r → holds k' = some r → k = k'

namespace Allocation

variable {κ ρ : Type*}

/-- Hand a resource that nobody holds to `k`. -/
def grant [DecidableEq κ] (a : Allocation κ ρ) (k : κ) (r : ρ) (hr : ∀ k', a.holds k' ≠ some r) :
    Allocation κ ρ where
  holds := Function.update a.holds k (some r)
  exclusive := by
    intro k₁ k₂ x h₁ h₂
    by_cases e₁ : k₁ = k
    · by_cases e₂ : k₂ = k
      · rw [e₁, e₂]
      · subst e₁
        simp only [Function.update_self, Option.some.injEq] at h₁
        rw [Function.update_of_ne e₂, ← h₁] at h₂
        exact absurd h₂ (hr k₂)
    · by_cases e₂ : k₂ = k
      · subst e₂
        simp only [Function.update_self, Option.some.injEq] at h₂
        rw [Function.update_of_ne e₁, ← h₂] at h₁
        exact absurd h₁ (hr k₁)
      · rw [Function.update_of_ne e₁] at h₁
        rw [Function.update_of_ne e₂] at h₂
        exact a.exclusive k₁ k₂ x h₁ h₂

/-- Two standing grants are to the same client exactly when they are of the same
resource. -/
theorem same_client_iff (a : Allocation κ ρ) {k k' : κ} {r r' : ρ} (h : a.holds k = some r)
    (h' : a.holds k' = some r') : k = k' ↔ r = r' := by
  constructor
  · rintro rfl
    exact Option.some.inj (h.symm.trans h')
  · rintro rfl
    exact a.exclusive k k' r h h'

/-! ## Finite stocks -/

section Stock

variable [DecidableEq ρ] (a : Allocation κ ρ) {clients : Finset κ} {stock : Finset ρ}
  (hstock : ∀ k ∈ clients, ∃ r ∈ stock, a.holds k = some r)

include hstock

theorem card_image_holds : (clients.image a.holds).card = clients.card := by
  apply Finset.card_image_of_injOn
  intro k hk k' _ heq
  obtain ⟨r, -, hr⟩ := hstock k hk
  exact a.exclusive k k' r hr (heq ▸ hr)

theorem image_holds_subset : clients.image a.holds ⊆ stock.image some := by
  intro x hx
  obtain ⟨k, hk, rfl⟩ := Finset.mem_image.mp hx
  obtain ⟨r, hr, heq⟩ := hstock k hk
  exact Finset.mem_image.mpr ⟨r, hr, heq.symm⟩

/-- Clients whose resources all come from one stock are no more than its resources. -/
theorem card_le_card : clients.card ≤ stock.card := by
  rw [← a.card_image_holds hstock,
    ← Finset.card_image_of_injective stock (Option.some_injective ρ)]
  exact Finset.card_le_card (a.image_holds_subset hstock)

/-- They hold the whole of it exactly if they are as many. -/
theorem covers_iff_card (hclients : ∀ k r, a.holds k = some r → k ∈ clients) :
    (∀ r ∈ stock, ∃ k, a.holds k = some r) ↔ clients.card = stock.card := by
  have hsub := a.image_holds_subset hstock
  rw [← a.card_image_holds hstock,
    ← Finset.card_image_of_injective stock (Option.some_injective ρ)]
  constructor
  · intro hall
    refine congrArg Finset.card (hsub.antisymm ?_)
    intro x hx
    obtain ⟨r, hr, rfl⟩ := Finset.mem_image.mp hx
    obtain ⟨k, hk⟩ := hall r hr
    exact Finset.mem_image.mpr ⟨k, hclients k r hk, hk⟩
  · intro hcard r hr
    have hmem : some r ∈ clients.image a.holds := by
      rw [Finset.eq_of_subset_of_card_le hsub hcard.ge]
      exact Finset.mem_image_of_mem some hr
    obtain ⟨k, -, hk⟩ := Finset.mem_image.mp hmem
    exact ⟨k, hk⟩

end Stock

end Allocation

end Lwrt.Library
