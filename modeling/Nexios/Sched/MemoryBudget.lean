import Mathlib.Data.Fin.VecNotation
import Nexios.Lib.Run

/-!
# Memory budgets

`reserve_memory_pages`, `release_memory_pages`, `charge_task_memory` and `credit_task_memory` by any
number of callers, one atomic access of the shared words a step. The exchanges keep the check and
the update together, but the sums are taken modulo 2⁶⁴: a charge that wraps around is accepted, and
so is a release of pages that nobody has reserved.
-/

open Function Option

namespace Nexios.Sched

/-- Where a caller is; between calls, with the answer of the last one. -/
inductive BudgetPc (k : ℕ)
  | idle (answer : Option Bool)
  | reserveLoad (count : BitVec 64)
  | reserve (count cur : BitVec 64)
  | release (count : BitVec 64)
  | chargeLoad (t : Fin k) (pages : BitVec 64)
  | charge (t : Fin k) (pages used : BitVec 64)
  | creditLoad (t : Fin k) (pages : BitVec 64)
  | credit (t : Fin k) (pages used : BitVec 64)
  deriving DecidableEq

structure BudgetState (n k : ℕ) where
  /-- `memory_budget_pages_` of the scheduler -/
  budget : BitVec 64
  /-- `memory_budget_pages_` of a task; 0 is no limit -/
  limit : Fin k → BitVec 64
  used : Fin k → BitVec 64
  pc : Fin n → BudgetPc k
  /-- reserved and not released -/
  outstanding : ℕ
  /-- charged to the task and not credited -/
  charged : Fin k → ℕ

inductive BudgetAction (n k : ℕ)
  | reserve (i : Fin n) (count : BitVec 64)
  | release (i : Fin n) (count : BitVec 64)
  | charge (i : Fin n) (t : Fin k) (pages : BitVec 64)
  | credit (i : Fin n) (t : Fin k) (pages : BitVec 64)
  | next (i : Fin n)
  deriving DecidableEq

namespace BudgetState

variable {n k : ℕ}

def setPc (s : BudgetState n k) (i : Fin n) (p : BudgetPc k) : BudgetState n k :=
  { s with pc := update s.pc i p }

/-- `next` of `credit_task_memory` -/
def credited (used pages : BitVec 64) : BitVec 64 := if used < pages then 0 else used - pages

/-- An exchange that fails leaves the value it has found. -/
def next (s : BudgetState n k) (i : Fin n) : Option (BudgetState n k) :=
  match s.pc i with
  | .idle _ => none
  | .reserveLoad count => s.setPc i (.reserve count s.budget)
  | .reserve count cur =>
    if cur < count then s.setPc i (.idle (some false))
    else if s.budget = cur then
      some { s.setPc i (.idle (some true)) with
        budget := cur - count
        outstanding := s.outstanding + count.toNat }
    else s.setPc i (.reserve count s.budget)
  | .release count =>
    some { s.setPc i (.idle none) with
      budget := s.budget + count
      outstanding := s.outstanding - count.toNat }
  | .chargeLoad t pages => s.setPc i (.charge t pages (s.used t))
  | .charge t pages used =>
    if s.limit t < used + pages then s.setPc i (.idle (some false))
    else if s.used t = used then
      some { s.setPc i (.idle (some true)) with
        used := update s.used t (used + pages)
        charged := update s.charged t (s.charged t + pages.toNat) }
    else s.setPc i (.charge t pages (s.used t))
  | .creditLoad t pages => s.setPc i (.credit t pages (s.used t))
  | .credit t pages used =>
    if used = 0 then s.setPc i (.idle none)
    else if s.used t = used then
      some { s.setPc i (.idle none) with
        used := update s.used t (credited used pages)
        charged := update s.charged t (s.charged t - pages.toNat) }
    else s.setPc i (.credit t pages (s.used t))

def call (s : BudgetState n k) (i : Fin n) (p : BudgetPc k) : Option (BudgetState n k) :=
  match s.pc i with
  | .idle _ => s.setPc i p
  | _ => none

def step (s : BudgetState n k) : BudgetAction n k → Option (BudgetState n k)
  | .reserve i count => s.call i (.reserveLoad count)
  | .release i count => s.call i (.release count)
  | .charge i t pages =>
    s.call i (if s.limit t = 0 then .idle (some true) else .chargeLoad t pages)
  | .credit i t pages => s.call i (.creditLoad t pages)
  | .next i => s.next i

def fits (s : BudgetState n k) : BudgetPc k → Bool
  | .release count => count.toNat ≤ s.outstanding
  | .charge _ pages used => used.toNat + pages.toNat < 2 ^ 64
  | _ => true

/-- The condition on a step: only reserved pages are released, and no charge wraps around. -/
def Fits (s : BudgetState n k) (a : BudgetAction n k) : Prop := ∀ i, a = .next i → s.fits (s.pc i)
  deriving Decidable

structure Start (s : BudgetState n k) : Prop where
  pc : ∀ i, s.pc i = .idle none
  outstanding : s.outstanding = 0
  used : ∀ t, s.used t = 0 ∧ s.charged t = 0

structure Within (b : ℕ) (s : BudgetState n k) : Prop where
  budget : s.budget.toNat + s.outstanding = b
  used : ∀ t, (s.used t).toNat = s.charged t ∧ s.charged t ≤ (s.limit t).toNat

variable {s s' : BudgetState n k} {i : Fin n} {a : BudgetAction n k} {b : ℕ} {p : BudgetPc k}

theorem credited_toNat (used pages : BitVec 64) :
    (credited used pages).toNat = used.toNat - pages.toNat := by
  unfold credited
  split_ifs with hless
  · exact (Nat.sub_eq_zero_of_le (le_of_lt hless)).symm
  · exact BitVec.toNat_sub_of_le (BitVec.not_lt.mp hless)

section

variable (h : Within b s)
include h

theorem Within.setPc (hs : some (s.setPc i p) = some s') : Within b s' := by
  cases hs
  exact { h with }

theorem Within.call (hs : s.call i p = some s') : Within b s' := by
  unfold BudgetState.call at hs
  split at hs
  · exact h.setPc hs
  · cases hs

theorem Within.setUsed {t : Fin k} {u : BitVec 64} {c : ℕ} (hu : u.toNat = c)
    (hc : c ≤ (s.limit t).toNat) (v : Fin k) :
    (update s.used t u v).toNat = update s.charged t c v ∧
      update s.charged t c v ≤ (s.limit v).toNat := by
  by_cases hv : v = t
  · subst hv
    rw [update_self, update_self]
    exact ⟨hu, hc⟩
  · rw [update_of_ne hv, update_of_ne hv]
    exact h.used v

theorem Within.next (hok : s.fits (s.pc i)) (hb : b < 2 ^ 64) (hs : s.next i = some s') :
    Within b s' := by
  obtain ⟨hbudget, hused⟩ := id h
  cases hpc : s.pc i with simp only [fits, BudgetState.next, hpc, decide_eq_true_eq] at hok hs
  | idle => cases hs
  | reserveLoad | chargeLoad | creditLoad => exact h.setPc hs
  | reserve count cur =>
    split_ifs at hs with hless heq <;> try exact h.setPc hs
    cases hs
    refine ⟨?_, hused⟩
    bv_omega
  | release count =>
    cases hs
    refine ⟨?_, hused⟩
    bv_omega
  | charge t pages used =>
    split_ifs at hs with hover heq <;> try exact h.setPc hs
    cases hs
    subst heq
    have hsum : (s.used t + pages).toNat = (s.used t).toNat + pages.toNat := Nat.mod_eq_of_lt hok
    refine ⟨hbudget, h.setUsed ?_ ?_⟩
    · rw [hsum, (hused t).1]
    · rw [← (hused t).1, ← hsum]
      exact not_lt.mp hover
  | credit t pages used =>
    split_ifs at hs with hzero heq <;> try exact h.setPc hs
    cases hs
    subst heq
    refine ⟨hbudget, h.setUsed ?_ ((Nat.sub_le _ _).trans (hused t).2)⟩
    rw [credited_toNat, (hused t).1]

theorem Within.step (hok : s.Fits a) (hb : b < 2 ^ 64) (hs : s.step a = some s') : Within b s' := by
  cases a with
  | next i => exact h.next (hok i rfl) hb hs
  | _ => exact h.call hs

end

/-- In every run in which only reserved pages are released and no charge wraps around, the pages
reserved are within the budget, and the pages charged to a task within its limit. -/
theorem budgets_kept {as : List (BudgetAction n k)} (h₀ : s.Start) (hr : Run step Fits s as s') :
    s'.outstanding ≤ s.budget.toNat ∧ ∀ t, s'.limit t ≠ 0 → s'.charged t ≤ (s'.limit t).toNat := by
  have hstart : Within s.budget.toNat s := by
    refine ⟨by rw [h₀.outstanding, Nat.add_zero], fun t => ?_⟩
    rw [(h₀.used t).1, (h₀.used t).2]
    exact ⟨rfl, Nat.zero_le _⟩
  have h := hr.invariant (I := Within s.budget.toNat)
    (fun _ _ _ hi hok hs => hi.step hok s.budget.isLt hs) hstart
  exact ⟨h.budget ▸ Nat.le_add_left _ _, fun t _ => (h.used t).2⟩

/-- A budget of 10 pages and a task with a limit of 10, with two callers. -/
def tenPages : BudgetState 2 1 :=
  ⟨10, fun _ => 10, fun _ => 0, fun _ => .idle none, 0, fun _ => 0⟩

/-- Two callers race for the budget: the exchange of the first fails, and its retry finds too
little. -/
theorem budgets_kept_race : ∃ s', Run step Fits tenPages
    [.reserve 0 6, .next 0, .reserve 1 5, .next 1, .next 1, .next 0, .next 0, .charge 1 0 10, .next 1,
      .next 1] s' ∧
    s'.pc 0 = .idle (some false) ∧ s'.outstanding ≤ 10 ∧ s'.charged 0 ≤ 10 := by
  refine Run.exists_imp_of_exec (fun s' => s'.pc 0 = .idle (some false) ∧ s'.limit 0 = 10)
    (by decide +kernel) ?_
  rintro s' hr ⟨hanswer, hlimit⟩
  obtain ⟨hreserved, hcharged⟩ := budgets_kept ⟨fun _ => rfl, rfl, fun _ => ⟨rfl, rfl⟩⟩ hr
  have hten := hcharged 0
  rw [hlimit] at hten
  exact ⟨hanswer, hreserved, hten (by decide)⟩

/-- A release of 5 pages that nobody has reserved lets 15 pages be reserved, and a charge of 2⁶⁴ - 1
pages on top of one is accepted. -/
theorem budgets_exceeded :
    (∃ s', Run step anyStep tenPages
      [.release 0 5, .next 0, .reserve 0 15, .next 0, .next 0] s' ∧ s'.outstanding = 15) ∧
    ∃ s', Run step anyStep tenPages
      [.charge 0 0 1, .next 0, .next 0, .charge 0 0 (-1), .next 0, .next 0] s' ∧
      s'.charged 0 = 2 ^ 64 ∧ s'.used 0 = 0 := by
  constructor
  all_goals exact Run.exists_of_exec (by decide +kernel)

end BudgetState

end Nexios.Sched
