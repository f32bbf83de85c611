import Mathlib.Algebra.Group.Nat.Defs
import Mathlib.Logic.Function.Basic
import Mathlib.Tactic.SplitIfs

/-!
# Budgets of aperiodic servers

`SporadicServer`: an execution budget that is consumed tick by tick and restored by replenishments
kept in a ring of eight entries (sporadic mode), or topped up at period boundaries (the other two
modes). Times and amounts are ticks.
-/

namespace Nexios.Sched

inductive ServerMode
  | sporadic
  | deferrable
  | background
  deriving DecidableEq

inductive ServerState
  | idle
  | active
  | exhausted
  deriving DecidableEq

structure Replenishment where
  time : ℕ
  amount : ℕ
  deriving DecidableEq

def maxReplenishments : ℕ := 8

structure SporadicServer where
  budgetC : ℕ
  periodT : ℕ
  basePriority : ℕ
  bgPriority : ℕ
  budgetGranularity : ℕ
  mode : ServerMode
  budgetRemaining : ℕ
  consumedSinceActive : ℕ
  activationTime : ℕ
  consumeCounter : ℕ
  lastPeriodicTick : ℕ
  state : ServerState
  /-- the ring, indexed below `maxReplenishments` -/
  replenishments : ℕ → Replenishment
  replenishmentHead : ℕ
  replenishmentTail : ℕ
  replenishmentCount : ℕ
  coalesceCount : ℕ

namespace SporadicServer

variable {ss : SporadicServer} {now : ℕ}

variable (ss : SporadicServer)

def isBackground : Bool := ss.mode = .background

def isActive : Bool := ss.state = .active

def currentPriority : ℕ :=
  if ss.mode = .background then ss.bgPriority
  else if ss.state = .exhausted then ss.bgPriority else ss.basePriority

def onActivation (now : ℕ) : SporadicServer :=
  match ss.state with
  | .exhausted => ss
  | .active => ss
  | .idle => { ss with state := .active, activationTime := now, consumedSinceActive := 0 }

def scheduleReplenishment (time amount : ℕ) : SporadicServer :=
  if ss.replenishmentCount = maxReplenishments then
    let i := (ss.replenishmentTail + maxReplenishments - 1) % maxReplenishments
    let newest := ss.replenishments i
    { ss with
      replenishments := Function.update ss.replenishments i
        ⟨max time newest.time, min (newest.amount + amount) ss.budgetC⟩
      coalesceCount := ss.coalesceCount + 1 }
  else
    { ss with
      replenishments := Function.update ss.replenishments ss.replenishmentTail ⟨time, amount⟩
      replenishmentTail := (ss.replenishmentTail + 1) % maxReplenishments
      replenishmentCount := ss.replenishmentCount + 1 }

/-- What both the end of a burst and the end of the budget do in sporadic mode; the sum of the two
64-bit times can wrap around. -/
def scheduleConsumed : SporadicServer :=
  if ss.mode = .sporadic ∧ 0 < ss.consumedSinceActive then
    ss.scheduleReplenishment ((ss.activationTime + ss.periodT) % 2 ^ 64) ss.consumedSinceActive
  else ss

variable {ss} in
theorem scheduleConsumed_eq (hmode : ss.mode = .sporadic) (hused : 0 < ss.consumedSinceActive)
    (hwrap : ss.activationTime + ss.periodT < 2 ^ 64) : ss.scheduleConsumed =
      ss.scheduleReplenishment (ss.activationTime + ss.periodT) ss.consumedSinceActive := by
  rw [scheduleConsumed, if_pos ⟨hmode, hused⟩, Nat.mod_eq_of_lt hwrap]

def onCompletion : SporadicServer :=
  if ss.state = .active then
    { ss.scheduleConsumed with state := .idle, consumedSinceActive := 0 }
  else ss

def consume : SporadicServer × Bool :=
  if ss.state = .idle then (ss, false)
  else if ss.budgetRemaining = 0 then ({ ss with state := .exhausted }, false)
  else
    let ss := if 1 < ss.budgetGranularity then { ss with consumeCounter := ss.consumeCounter + 1 }
      else ss
    if 1 < ss.budgetGranularity ∧ ss.consumeCounter % ss.budgetGranularity ≠ 0 then (ss, true)
    else
      let ss := { ss with
        budgetRemaining := ss.budgetRemaining - 1
        consumedSinceActive := ss.consumedSinceActive + 1 }
      if ss.budgetRemaining = 0 then ({ ss.scheduleConsumed with state := .exhausted }, false)
      else (ss, true)

/-- The periodic top-up of the modes without replenishments; it catches up at most two periods. -/
def topUp (now : ℕ) : SporadicServer :=
  if ss.mode ≠ .sporadic ∧ 0 < ss.periodT ∧ ss.lastPeriodicTick + ss.periodT ≤ now then
    let steps := if ss.lastPeriodicTick + 2 * ss.periodT ≤ now then 2 else 1
    { ss with
      lastPeriodicTick := ss.lastPeriodicTick + steps * ss.periodT
      budgetRemaining := ss.budgetC
      state := if ss.state = .exhausted then .active else ss.state }
  else ss

def popReplenishment : SporadicServer :=
  { ss with
    replenishmentHead := (ss.replenishmentHead + 1) % maxReplenishments
    replenishmentCount := ss.replenishmentCount - 1 }

/-- The loop over the due entries, which runs at most once per entry. -/
def replenishDue (now : ℕ) : ℕ → SporadicServer → SporadicServer
  | 0, ss => ss
  | fuel + 1, ss =>
    if ss.replenishmentCount = 0 then ss
    else
      let r := ss.replenishments ss.replenishmentHead
      if now < r.time then ss
      else
        let ss := ss.popReplenishment
        let newBudget := min (ss.budgetRemaining + r.amount) ss.budgetC
        replenishDue now fuel { ss with
          budgetRemaining := newBudget
          state := if 0 < newBudget ∧ ss.state = .exhausted then .active else ss.state }

def processReplenishments (now : ℕ) : SporadicServer :=
  replenishDue now ss.replenishmentCount (ss.topUp now)

/-! ## Which transitions change the priority -/

theorem onActivation_currentPriority (now : ℕ) :
    (ss.onActivation now).currentPriority = ss.currentPriority := by
  unfold onActivation
  cases hstate : ss.state with
  | idle => simp [currentPriority, hstate]
  | active => rfl
  | exhausted => rfl

theorem onCompletion_currentPriority : ss.onCompletion.currentPriority = ss.currentPriority := by
  unfold onCompletion
  split_ifs with hactive
  · have hbase : ss.scheduleConsumed.mode = ss.mode ∧
        ss.scheduleConsumed.bgPriority = ss.bgPriority ∧
        ss.scheduleConsumed.basePriority = ss.basePriority := by
      unfold scheduleConsumed scheduleReplenishment
      split_ifs <;> exact ⟨rfl, rfl, rfl⟩
    simp [currentPriority, hbase, hactive]
  · rfl

end SporadicServer

end Nexios.Sched
