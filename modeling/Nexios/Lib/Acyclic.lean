import Mathlib.Order.WellFoundedSet

/-!
# Descending from a point with finitely many successors

A walk along `r` that starts at `a` and only meets finitely many points must end, whatever way it
takes, exactly when no point it can meet lies on a cycle. `Acc (flip r) a` states the first half in
the form that well-founded recursion uses.
-/

namespace Nexios

open Relation

variable {α : Type*} {r : α → α → Prop} {a b : α}

theorem acc_of_reflTransGen (h : Acc (flip r) a) (hab : ReflTransGen r a b) : Acc (flip r) b := by
  induction hab with
  | refl => exact h
  | tail _ hbc ih => exact ih.inv hbc

theorem not_transGen_self_of_acc (h : Acc (flip r) a) : ¬ TransGen r a a := by
  induction h with
  | intro a _ ih =>
    intro hcycle
    obtain ⟨b, hab, hba⟩ := (TransGen.head'_iff).mp hcycle
    exact ih b hab (.tail' hba hab)

theorem acc_of_no_cycle (hfin : {x | ReflTransGen r a x}.Finite)
    (hno : ∀ x, ReflTransGen r a x → ¬ TransGen r x x) : Acc (flip r) a := by
  let below : {x // ReflTransGen r a x} → {x // ReflTransGen r a x} → Prop :=
    fun x y => TransGen r y.1 x.1
  have : Finite {x // ReflTransGen r a x} := hfin
  have hirrefl : Std.Irrefl below := ⟨fun x => hno x.1 x.2⟩
  have hwf : WellFounded below := Finite.wellFounded_of_trans_of_irrefl below
  have hacc : ∀ x : {x // ReflTransGen r a x}, Acc (flip r) x.1 := by
    intro x
    induction x using hwf.induction with
    | _ x ih =>
      constructor
      intro y hxy
      exact ih ⟨y, x.2.tail hxy⟩ (.single hxy)
  exact hacc ⟨a, .refl⟩

theorem acc_iff_no_cycle (hfin : {x | ReflTransGen r a x}.Finite) :
    Acc (flip r) a ↔ ∀ x, ReflTransGen r a x → ¬ TransGen r x x := by
  constructor
  · intro h x hx
    exact not_transGen_self_of_acc (acc_of_reflTransGen h hx)
  · exact acc_of_no_cycle hfin

end Nexios
