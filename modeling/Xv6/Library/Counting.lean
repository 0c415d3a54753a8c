import Mathlib.Algebra.BigOperators.Group.Finset.Piecewise
import Mathlib.Data.Fintype.Card

/-!
# Counting under a change at one point

A total over a finite set, taken of a function that is changed at one point, moves
by the contribution of that point. In the form of an equation without subtraction
it is used in both directions: what is added by an update, and what it takes away.
-/

namespace Counting

open Function Finset

variable {α β : Type*} [DecidableEq α]

theorem sum_apply_update (s : Finset α) {a : α} (ha : a ∈ s) (f : α → β) (b : β) (g : β → ℕ) :
    ∑ x ∈ s, g (update f a b x) + g (f a) = ∑ x ∈ s, g (f x) + g b := by
  have hrest : ∑ x ∈ s.erase a, g (update f a b x) = ∑ x ∈ s.erase a, g (f x) := by
    apply sum_congr rfl
    intro x hx
    rw [update_of_ne (ne_of_mem_erase hx)]
  rw [← add_sum_erase s _ ha, ← add_sum_erase s (fun x => g (f x)) ha, hrest, update_self]
  omega

theorem sum_add_one (s : Finset α) {a : α} (ha : a ∈ s) {f g : α → ℕ} {c : Prop} [Decidable c]
    (h : ∀ x, g x = f x + if x = a ∧ c then 1 else 0) :
    ∑ x ∈ s, g x = ∑ x ∈ s, f x + if c then 1 else 0 := by
  have hone : ∑ x ∈ s, (if x = a ∧ c then 1 else 0) = if c then 1 else 0 := by
    by_cases hc : c
    · simp [hc, ha]
    · simp [hc]
  rw [← hone, ← sum_add_distrib]
  exact sum_congr rfl fun x _ => h x

theorem sum_add_two (s : Finset α) {a b : α} (ha : a ∈ s) (hb : b ∈ s) {f g : α → ℕ}
    {c c' : Prop} [Decidable c] [Decidable c']
    (h : ∀ x, g x = (f x + if x = a ∧ c then 1 else 0) + if x = b ∧ c' then 1 else 0) :
    ∑ x ∈ s, g x = (∑ x ∈ s, f x + if c then 1 else 0) + if c' then 1 else 0 := by
  rw [sum_add_one s hb h, sum_add_one s ha fun _ => rfl]

theorem card_filter_update [Fintype α] (f : α → β) (a : α) (b : β) (c : β → Prop)
    [DecidablePred c] :
    (Finset.univ.filter fun x => c (update f a b x)).card + (if c (f a) then 1 else 0) =
      (Finset.univ.filter fun x => c (f x)).card + if c b then 1 else 0 := by
  rw [card_filter, card_filter]
  exact sum_apply_update Finset.univ (mem_univ a) f b fun y => if c y then 1 else 0

end Counting
