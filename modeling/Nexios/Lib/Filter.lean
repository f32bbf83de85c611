import Mathlib.Data.List.Perm.Basic

/-!
# Changing what a filter selects

What happens to the elements of a list that satisfy a predicate when the predicate becomes narrower,
or wider by one element.
-/

namespace Nexios

variable {α : Type*} {p q : α → Bool} {l : List α} {x : α}

theorem filter_sublist_filter (h : ∀ y ∈ l, p y → q y) :
    (l.filter p).Sublist (l.filter q) := by
  have he : l.filter p = (l.filter q).filter p := by
    rw [List.filter_filter]
    refine List.filter_congr (fun y hy => ?_)
    cases hp : p y with
    | false => rfl
    | true => rw [h y hy hp, Bool.and_true]
  rw [he]
  exact List.filter_sublist

theorem filter_perm_cons [DecidableEq α] (hl : l.Nodup) (hx : x ∈ l) (hp : p x = false)
    (hq : q x) (h : ∀ y, y ≠ x → q y = p y) : (l.filter q).Perm (x :: l.filter p) := by
  have hnodup : (x :: l.filter p).Nodup := by
    refine List.nodup_cons.mpr ⟨fun hmem => ?_, hl.filter _⟩
    rw [(List.mem_filter.mp hmem).2] at hp
    cases hp
  refine (List.perm_ext_iff_of_nodup (hl.filter _) hnodup).mpr (fun y => ?_)
  by_cases hy : y = x
  · subst hy
    simp [hx, hq]
  · simp [h y hy, hy]

end Nexios
