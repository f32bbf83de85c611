import Mathlib.Logic.Function.Basic
import Mathlib.Tactic.SplitIfs

/-!
# A function that differs at one point
-/

open Function

namespace Nexios

variable {α β : Type*} [DecidableEq α] {f : α → β} {a i : α} {b x : β}

theorem update_field {γ : Type*} (π : β → γ) (h : π b = π (f a)) (i : α) :
    π (update f a b i) = π (f i) := by
  rw [apply_update (fun _ => π), h, update_eq_self a fun i => π (f i)]

theorem eq_or_of_update (h : update f a b i = x) : i = a ∧ b = x ∨ i ≠ a ∧ f i = x := by
  rw [update_apply] at h
  split_ifs at h with hi
  · exact .inl ⟨hi, h⟩
  · exact .inr ⟨hi, h⟩

end Nexios
