import Mathlib.Algebra.GroupWithZero.Nat
import Mathlib.Data.List.Basic
import Mathlib.Tactic.Cases

/-!
# Finite runs of a partial step function

`Run step ok s as t` says that the actions `as` lead from `s` to `t`, each one being enabled and
meeting the condition `ok` in the state in which it is taken. With `ok` always true these are all
interleavings; a narrower `ok` describes the runs that respect a discipline.

Invariants are proved once per step and lifted to runs by `Run.invariant`. The executable
counterpart `exec` replays a concrete list of actions and checks the condition at each.
-/

namespace Nexios

abbrev Byte := BitVec 8
abbrev Word := BitVec 64

/-! ## Index types

The parties and resources of a run are numbered by `Fin n`. The library has the facts behind the
literals of these types and behind membership in their lists as well. Those with the names here take
precedence, so that a definition that contains one is the same whatever a module imports. -/

instance (priority := 2000) neZero_succ (k : ℕ) : NeZero (k + 1) := ⟨k.succ_ne_zero⟩

instance (priority := 3000) neZero_one : NeZero 1 := neZero_succ 0

instance (priority := 3000) neZero_two : NeZero 2 := neZero_succ 1

instance (priority := 3000) neZero_three : NeZero 3 := neZero_succ 2

instance (priority := 2000) lawfulBEq_fin (n : ℕ) : LawfulBEq (Fin n) := inferInstance

/-! ## Runs -/

variable {σ α : Type*}

inductive Run (step : σ → α → Option σ) (ok : σ → α → Prop) : σ → List α → σ → Prop
  | nil (s : σ) : Run step ok s [] s
  | cons {s t u : σ} {a : α} {as : List α} (hok : ok s a) (hs : step s a = some t)
      (hr : Run step ok t as u) : Run step ok s (a :: as) u

def anyStep (_ : σ) (_ : α) : Prop := True

instance (s : σ) (a : α) : Decidable (anyStep s a) := isTrue trivial

def exec (step : σ → α → Option σ) (ok : σ → α → Prop) [∀ s a, Decidable (ok s a)] :
    σ → List α → Option σ
  | s, [] => some s
  | s, a :: as => if ok s a then (step s a).bind (fun t => exec step ok t as) else none

namespace Run

variable {step : σ → α → Option σ} {ok ok' : σ → α → Prop} {s t u : σ} {as bs : List α}
  {I Q : σ → Prop}

theorem single {a : α} (hok : ok s a) (hs : step s a = some t) : Run step ok s [a] t :=
  .cons hok hs (.nil t)

theorem append (h : Run step ok s as t) (h' : Run step ok t bs u) : Run step ok s (as ++ bs) u := by
  induction h with
  | nil _ => exact h'
  | cons hok hs _ ih => exact .cons hok hs (ih h')

theorem mono (hle : ∀ s a, ok s a → ok' s a) (h : Run step ok s as t) : Run step ok' s as t := by
  induction h with
  | nil s => exact .nil s
  | cons hok hs _ ih => exact .cons (hle _ _ hok) hs ih

theorem any (h : Run step ok s as t) : Run step anyStep s as t := h.mono (fun _ _ _ => trivial)

/-- Whatever every step meeting `ok` preserves holds at the end of a run. -/
theorem invariant (hstep : ∀ s a t, I s → ok s a → step s a = some t → I t) (h : Run step ok s as t)
    (hs : I s) : I t := by
  induction h with
  | nil _ => exact hs
  | cons hok hst _ ih => exact ih (hstep _ _ _ hs hok hst)

/-- The same for a relation between the first and the last state. -/
theorem relation {R : σ → σ → Prop} (hrefl : ∀ s, R s s) (htrans : ∀ s t u, R s t → R t u → R s u)
    (hstep : ∀ s a t, ok s a → step s a = some t → R s t) (h : Run step ok s as t) : R s t := by
  induction h with
  | nil s => exact hrefl s
  | cons hok hst _ ih => exact htrans _ _ _ (hstep _ _ _ hok hst) ih

/-- If the steps that meet `ok` keep `I`, the others lead from `I` to `J`, and all steps keep `J`,
then a run from `I` ends in `J` unless all its steps meet `ok`. -/
theorem meets_or (ok : σ → α → Prop) {J : σ → Prop}
    (hgood : ∀ s a t, I s → ok s a → step s a = some t → I t)
    (hbad : ∀ s a t, I s → ¬ ok s a → step s a = some t → J t)
    (hstay : ∀ s a t, J s → step s a = some t → J t) (h : Run step anyStep s as t) (hs : I s) :
    Run step ok s as t ∨ J t := by
  induction h with
  | nil s => exact .inl (.nil s)
  | @cons s _ _ a _ _ hst hr ih =>
    by_cases hok : ok s a
    · exact (ih (hgood _ _ _ hs hok hst)).imp_left (.cons hok hst)
    · exact .inr (hr.invariant (fun _ _ _ hj _ => hstay _ _ _ hj) (hbad _ _ _ hs hok hst))

theorem of_exec [∀ s a, Decidable (ok s a)] (he : exec step ok s as = some t) :
    Run step ok s as t := by
  induction as generalizing s with
  | nil =>
    have hst : s = t := by simpa only [exec, Option.some.injEq] using he
    exact hst ▸ .nil s
  | cons a as ih =>
    rw [exec] at he
    split_ifs at he with hok
    obtain ⟨r, hr, hrest⟩ := Option.bind_eq_some_iff.mp he
    exact .cons hok hr (ih hrest)

/-- A concrete run to a state with a property that can be decided. -/
theorem exists_of_exec [∀ s a, Decidable (ok s a)] {P : σ → Prop} [DecidablePred P]
    (he : (exec step ok s as).any (fun t => decide (P t))) :
    ∃ t, Run step ok s as t ∧ P t := by
  cases ht : exec step ok s as with rw [ht] at he
  | none => cases he
  | some t => exact ⟨t, of_exec ht, of_decide_eq_true he⟩

/-- A concrete run, with what follows for its last state from a property that can be decided. -/
theorem exists_imp_of_exec [∀ s a, Decidable (ok s a)] (P : σ → Prop) [DecidablePred P]
    (he : (exec step ok s as).any (fun t => decide (P t)))
    (h : ∀ t, Run step ok s as t → P t → Q t) : ∃ t, Run step ok s as t ∧ Q t := by
  obtain ⟨t, hr, ht⟩ := exists_of_exec he
  exact ⟨t, hr, h t hr ht⟩

theorem exists_and_of_exec [∀ s a, Decidable (ok s a)] {P : σ → Prop} [DecidablePred P]
    (he : (exec step ok s as).any (fun t => decide (P t)))
    (h : ∀ t, Run step ok s as t → P t → Q t) : ∃ t, Run step ok s as t ∧ P t ∧ Q t :=
  exists_imp_of_exec P he fun t hr ht => ⟨ht, h t hr ht⟩

/-- A block of actions that can be repeated: if it leads from `P k` to `P (k + 1)`, then repeating
it `n` times leads from `P k` to `P (k + n)`. -/
theorem iterate {P : ℕ → σ → Prop} {block : List α}
    (hblock : ∀ k s, P k s → ∃ t, Run step ok s block t ∧ P (k + 1) t) (n k : ℕ) (hs : P k s) :
    ∃ bs t, Run step ok s bs t ∧ P (k + n) t := by
  induction n generalizing k s with
  | zero => exact ⟨[], s, .nil s, hs⟩
  | succ n ih =>
    obtain ⟨t, hrun, ht⟩ := hblock k s hs
    obtain ⟨cs, u, hrest, hu⟩ := ih (k + 1) ht
    refine ⟨block ++ cs, u, hrun.append hrest, ?_⟩
    have he : k + 1 + n = k + (n + 1) := by omega
    rwa [← he]

end Run

end Nexios
