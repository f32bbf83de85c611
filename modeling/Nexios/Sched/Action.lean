import Nexios.Sched.DispatchInvariant

/-!
# The steps of the scheduler

Every entry point that links or unlinks a task is an action, taken under the scheduler lock; the
CPUs take them in any order. An action has no result where the source stops in a panic or writes
beyond an array.
-/

namespace Nexios.Sched

variable {n k : ℕ}

inductive Action (n k : ℕ)
  | enqueueReady (here : Cpu k) (t : Fin n)
  | dequeueReady (t : Fin n)
  | setTaskReady (here : Cpu k) (t : Fin n)
  | movePriority (t : Fin n) (old new : ℕ)
  | setAffinity (here : Cpu k) (t : Fin n) (mask : BitVec 64) (admitted : Bool)
  | balance (t : Fin n) (c : Cpu k)
  | mailboxPublish (c : Cpu k) (t : Fin n)
  | mailboxDrain (here : Cpu k)
  | schedule (here : Cpu k) (park frameOk : Bool)
  | reschedule (here : Cpu k)
  | applySwitch (here : Cpu k)
  | dropArm (here : Cpu k)

namespace Scheduler

variable {le : Fin n → Fin n → Prop} {bucket : Fin n → ℕ → Prop} {s s' : Scheduler n k}
  {a : Action n k}

def step (s : Scheduler n k) : Action n k → Option (Scheduler n k)
  | .enqueueReady here t => s.enqueueReady here t
  | .dequeueReady t => s.dequeueReady t
  | .setTaskReady here t => s.setTaskReady here t
  | .movePriority t old new => s.movePriority t old new
  | .setAffinity here t mask admitted => s.setAffinity here t mask admitted
  | .balance t c => s.balance t c
  | .mailboxPublish c t => s.mailboxPublish c t
  | .mailboxDrain here => s.mailboxDrain here
  | .schedule here park frameOk => s.rateMonotonicSchedule here park frameOk
  | .reschedule here => s.reschedule here
  | .applySwitch here => some (s.applySwitch here)
  | .dropArm here => s.dropArm here

/-- No membership flag is cleared while the task is linked: a task that is put back into the queues
is known to the id table or not queued, a task of a CPU that is not up is not queued when it is
woken, and a mailbox that is drained names no task twice and no queued task. -/
def Guarded (s : Scheduler n k) : Action n k → Prop
  | .enqueueReady _ t => s.EnqueueOk t
  | .setTaskReady here t => WakeOk here s t
  | .mailboxDrain here => s.DrainOk (s.mailbox here)
  | .schedule here _ _ => ScheduleOk here s
  | .dropArm here => ArmOk here s
  | _ => True

instance (s : Scheduler n k) (a : Action n k) : Decidable (s.Guarded a) := by
  unfold Guarded
  split <;> infer_instance

theorem Kept.keys (h : Kept le bucket s s') : Inv le bucket s' ∧ SameKeys s s' :=
  ⟨h.inv, h.quiet.sameKeys⟩

theorem Inv.step (h : Inv le bucket s) (hok : s.Guarded a)
    (hmove : ∀ t old new, a = .movePriority t old new → old ≠ new →
      s.edf.inEdfQueue t = false → bucket t new)
    (he : s.step a = some s') : Inv le bucket s' ∧ SameKeys s s' := by
  cases a with
  | enqueueReady here t => exact (h.enqueueReady hok he).1.keys
  | dequeueReady t =>
    obtain ⟨s₁, hs₁, hkept, -⟩ := h.dequeueReady t
    obtain rfl : s₁ = s' := Option.some.inj (hs₁.symm.trans he)
    exact hkept.keys
  | setTaskReady here t => exact (h.setTaskReady hok he).1.keys
  | movePriority t old new => exact (h.movePriority (hmove t old new rfl) he).keys
  | setAffinity here t mask admitted => exact h.setAffinity he
  | balance t c => exact h.balance he
  | mailboxPublish c t => exact (h.mailboxPublish he).1.keys
  | mailboxDrain here => exact (h.mailboxDrain hok he).keys
  | schedule here park frameOk => exact (h.rateMonotonicSchedule hok he).keys
  | reschedule here => exact (h.reschedule he).keys
  | applySwitch here =>
    obtain rfl : s.applySwitch here = s' := Option.some.inj he
    exact h.applySwitch here
  | dropArm here => exact (h.dropArm hok he).keys

end Scheduler

end Nexios.Sched
