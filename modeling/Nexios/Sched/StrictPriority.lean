import Nexios.Sched.WellFormed

/-!
# Dispatch by priority

`rate_monotonic_schedule` picks the first task of the highest level, and does so without a look at
the current task. With no task in the deadline lists and the starvation breaker silent, the pick has
the highest effective priority of all tasks that wait on the CPU. Whether the decision as a whole
respects the priorities depends on the current task: a task that is still running is replaced by a
task of any lower level that waits.
-/

open Function Option

namespace Nexios.Sched.Scheduler

variable {n k : ℕ} {le : Fin n → Fin n → Prop} {bucket : Fin n → ℕ → Prop}
  {s s' s₁ s₂ : Scheduler n k} {here c : Cpu k} {t u cur next : Fin n}

/-! ## The pick -/

/-- A state in which the CPU decides by priority alone: the queues are proper and every task is
queued at its effective priority, the tasks concerned are registered, the current one is within the
range of priorities, the idle task is not queued, no task of the CPU is eligible for the deadline
list, and the starvation breaker forces no pick. -/
structure ByPriority (here : Cpu k) (s : Scheduler n k) : Prop where
  inv : Inv (fun _ _ => True) (fun t p => p = s.eff t) s
  owned : ∀ t, s.rq.inReadyQueue t = true ∨ s.idle here = some t ∨ s.current here = some t →
    s.owned t
  level : ∀ t, s.current here = some t → s.eff t ≤ priorityCeiling
  idle : ∀ t, s.idle here = some t → s.rq.inReadyQueue t = false
  noEdf : ∀ t, s.home t = here → (s.tcb t).edfEligible = false
  silent : (s.breaker here).map Prod.snd = some none

/-! ### What stays as it is -/

section

variable (h : Inv le bucket s)
include h

omit h in
theorem Quiet.id_eq (h : Quiet s s') (t : Fin n) : (s'.tcb t).id = (s.tcb t).id := by
  rw [h.tcb t]

end

/-- One CPU with its idle task, a running task of priority `p` and a task of priority 10. -/
def oneWaits (p : ℕ) : Scheduler 3 0 :=
  { unqueued (fun t =>
      { Tcb.plain (t + 1) with
        state := if t = 1 then .running else .ready
        priority := if t = 0 then 0 else if t = 1 then p else 10 }) [0, 1, 2] 1 with
    current := fun _ => some 1
    idle := fun _ => some 0 }

structure Waiting (p : ℕ) (s : Scheduler 3 0) : Prop where
  byPriority : ByPriority 0 s
  tasks : s.allTasks.length = 3
  current : s.current 0 = some 1
  running : (s.tcb 1).state = .running
  settled : s.settle 0 1 false = some s
  eff : s.eff = (oneWaits p).eff

theorem exists_waiting (p : ℕ) (P : Scheduler 3 0 → Prop) [DecidablePred P]
    (he : (exec step Guarded (oneWaits p) [.setTaskReady 0 2]).any (fun s => Decidable.decide
      (P s ∧ (∀ t, s.owned t = true ∧ s.eff t ≤ priorityCeiling ∧ (s.tcb t).edfEligible = false ∧
          (s.idle 0 = some t → s.rq.inReadyQueue t = false)) ∧
        (s.breaker 0).map Prod.snd = some none ∧ s.allTasks.length = 3 ∧ s.current 0 = some 1 ∧
        (s.tcb 1).state = .running ∧ s.armed 0 = none))) : ∃ s, Waiting p s ∧ P s := by
  obtain ⟨s, hrun, hP, htask, hsilent, htasks, hcurrent, hrunning, harmed⟩ :=
    Run.exists_of_exec he
  have hstart : (oneWaits p).Start :=
    ⟨fun _ => rfl, fun _ => rfl, fun _ => rfl, fun _ => rfl, fun _ => rfl, nofun⟩
  have hfits : Fits (fun _ _ => True) (fun t q => q = (oneWaits p).eff t) (oneWaits p) :=
    ⟨(fits_true _).decides, fun _ => rfl⟩
  obtain ⟨hinv, hkeys⟩ : Inv (fun _ _ => True) (fun t q => q = (oneWaits p).eff t) s ∧
      SameKeys (oneWaits p) s := by
    cases hrun with
    | cons hok hs hr =>
      cases hr
      exact (hstart.inv hfits).step hok nofun hs
  refine ⟨s, ⟨⟨hkeys.eff ▸ hinv, fun t _ => (htask t).1, fun t _ => (htask t).2.1,
    fun t => (htask t).2.2.2, fun t _ => (htask t).2.2.1, hsilent⟩, htasks, hcurrent, hrunning, ?_,
    hkeys.eff⟩, hP⟩
  unfold settle clearArm
  simp [parkCurrent, harmed]

end Nexios.Sched.Scheduler
