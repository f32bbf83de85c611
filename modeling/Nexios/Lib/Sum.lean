import Mathlib.Algebra.BigOperators.Fin
import Mathlib.Algebra.Order.BigOperators.Group.Finset

/-!
# Totals under a change in one place

When a family of counts changes at one index only, its total changes by the difference there. The
rules avoid subtraction: old value and new value stand on opposite sides.
-/

open Function

namespace Nexios

open Finset

variable {ι β : Type*} [DecidableEq ι]

theorem total_of_eq_off {S : Finset ι} {f g : ι → ℕ} {i : ι} (hi : i ∈ S)
    (h : ∀ j ∈ S, j ≠ i → g j = f j) : ∑ j ∈ S, g j + f i = ∑ j ∈ S, f j + g i := by
  have hrest : ∑ j ∈ S.erase i, g j = ∑ j ∈ S.erase i, f j := by
    apply sum_congr rfl
    intro j hj
    exact h j (mem_of_mem_erase hj) (ne_of_mem_erase hj)
  have hg := add_sum_erase S g hi
  have hf := add_sum_erase S f hi
  omega

/-- The total of `w` over the entries of a table, one of which is overwritten. -/
theorem total_update [Fintype ι] (w : β → ℕ) (f : ι → β) (i : ι) (b : β) :
    ∑ j, w (update f i b j) + w (f i) = ∑ j, w (f j) + w b := by
  have hs := total_of_eq_off (S := univ) (f := fun j => w (f j))
    (g := fun j => w (update f i b j)) (mem_univ i) ?_
  · simpa only [update_self] using hs
  · intro j _ hj
    simp only [update_of_ne hj]

end Nexios
