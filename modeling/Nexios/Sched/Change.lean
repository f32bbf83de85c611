import Nexios.Sched.Action

/-!
# Priorities, deadlines and budgets

The steps that change the key of a task, its absolute deadline or its effective priority:
`set_priority`, priority inheritance and its end, deadline-monotonic assignment, demotion after a
missed deadline, the accounting of a tick, the scan of the deadlines and the server of a task. With
them come the changes of eligibility, which move a task between the two kinds of queues.

A loop of the source over all tasks is a step for each task.
-/

namespace Nexios.Sched

variable {n k : ℕ}

/-- `CONFIG_DEADLINE_MONITOR_TASK`, and `CONFIG_DEADLINE_ACTION == 2`. -/
structure Config where
  monitorTask : Bool
  demotes : Bool

def dmPrioMin : ℕ := 2

def dmPrioMax : ℕ := 120

def periodLog (period : ℕ) : ℕ :=
  ((List.range 63).find? (fun lz => period >>> (lz + 1) = 0)).getD 63

def deadlinePriority (period : ℕ) : ℕ :=
  if dmPrioMax - dmPrioMin ≤ periodLog period then dmPrioMin else dmPrioMax - periodLog period

namespace Tcb

def setPriority (t : Tcb) (p : ℕ) : Tcb := { t with priority := p, basePriority := p }

def lend (t : Tcb) (p : ℕ) : Tcb := { t with priority := p }

def demoted (t : Tcb) : Tcb := { t with priority := t.priority / 2 }

/-- The next deadline; the clock is a machine word. -/
def rearm (t : Tcb) : Tcb :=
  { t with deadlineTicks := (t.deadlineTicks + t.periodTicks) % 2 ^ 64, deadlineMissed := false }

def onServer (f : SporadicServer → SporadicServer) (t : Tcb) : Tcb :=
  { t with sporadicServer := t.sporadicServer.map f }

/-- The conditions of `scan_deadlines` on a task whose deadline has passed. -/
def overdue (t : Tcb) (now : ℕ) : Bool :=
  t.state ≠ .terminated && t.periodTicks ≠ 0 && t.deadlineTicks ≠ 0 && !t.deadlineMissed &&
    t.deadlineTicks < now

def rollsOver (t : Tcb) : Bool :=
  t.runnable && t.remainingTicks = 0 && 0 < t.periodTicks

end Tcb

namespace Scheduler

def setPriority (s : Scheduler n k) (t : Fin n) (p : ℕ) : Option (Scheduler n k) :=
  if p = (s.tcb t).priority then some s
  else if s.rq.inReadyQueue t then
    -- The queues are told before the field is written.
    (s.movePriority t (s.tcb t).priority p).map (fun s => s.modify t (fun a => a.setPriority p))
  else some (s.modify t (fun a => a.setPriority p))

variable (here : Cpu k) (s : Scheduler n k)

/-- The pattern of all places that lend a priority and take it back. -/
def inherit (t : Fin n) (p : ℕ) : Option (Scheduler n k) :=
  let s' := s.modify t (fun a => a.lend p)
  if s.eff t ≠ s'.eff t ∧ s.rq.inReadyQueue t then s'.movePriority t (s.eff t) (s'.eff t)
  else some s'

def assignDeadlinePriority (t : Fin n) : Option (Scheduler n k) :=
  let p := deadlinePriority (s.tcb t).periodTicks
  if !(s.tcb t).isRtTask ∨ p = (s.tcb t).priority then some s
  else
    let s := s.modify t (fun a => a.setPriority p)
    if s.edf.inEdfQueue t then
      (s.edf.resort s.earlier (s.home t) t).map (fun edf => { s with edf })
    else if s.rq.inReadyQueue t then
      (s.rq.movePriority (s.home t) t (s.rq.rqPriority t) p).map (fun rq => { s with rq })
    else some s

/-- `deadline_miss_handler` and the watchdog with the action DEMOTE: the ready queue is told
whatever queue the task is in. -/
def demote (t : Fin n) : Option (Scheduler n k) :=
  if 1 < (s.tcb t).priority then
    let s' := s.modify t Tcb.demoted
    if s.eff t ≠ s'.eff t then
      (s'.rq.movePriority (s'.home t) t (s.eff t) (s'.eff t)).map (fun rq => { s' with rq })
    else some s'
  else some s

def migrateDispatchQueue (t : Fin n) :
    Option (Scheduler n k) :=
  if s.current here = some t then some s
  else
    (s.rq.removeQueued (s.home t) t).bind (fun rq =>
      let s' := s.withQueues rq (s.edf.remove (s.home t) t)
      if s.queued t then s'.enqueueReady here t else some s')

def setSchedPolicy (t : Fin n) (policy : SchedPolicy) :
    Option (Scheduler n k) :=
  if policy = .edf ∧ (!(s.tcb t).isRtTask ∨ (s.tcb t).deadlineTicks = 0) then some s
  else (s.modify t (fun a => { a with schedPolicy := policy })).migrateDispatchQueue here t

def setEdfExempt (t : Fin n) (exempt : Bool) :
    Option (Scheduler n k) :=
  (s.modify t (fun a => { a with edfExempt := exempt })).migrateDispatchQueue here t

/-- The part of a tick's accounting that starts a new period: the deadline list is re-sorted before
the deadline moves. -/
def rollOver (cfg : Config) (s : Scheduler n k) (t : Fin n) : Option (Scheduler n k) :=
  (s.edf.resort s.earlier (s.home t) t).map (fun edf =>
    { s with edf }.modify t (fun a =>
      { (if cfg.monitorTask then a else a.rearm) with remainingTicks := a.periodTicks }))

def account (cfg : Config) (here : Cpu k) (s : Scheduler n k) (t : Fin n) :
    Option (Scheduler n k) :=
  if (s.tcb t).state = .terminated ∨ s.home t ≠ here ∨ !(s.tcb t).runnable then some s
  else if (s.tcb t).rollsOver then s.rollOver cfg t
  else some (s.modify t (fun a => { a with remainingTicks := a.remainingTicks - 1 }))

/-- `scan_deadlines` for one task. -/
def scanDeadline (cfg : Config) (now : ℕ) (s : Scheduler n k) (t : Fin n) :
    Option (Scheduler n k) :=
  if (s.tcb t).overdue now then
    (if cfg.demotes then s.demote t else some s).map (fun s => s.modify t Tcb.rearm)
  else some s

def replenish (now : ℕ) (s : Scheduler n k) (t : Fin n) :
    Option (Scheduler n k) :=
  if s.home t ≠ here then some s
  else
    let s' := s.modify t (fun a => a.onServer (fun ss => ss.processReplenishments now))
    if s.eff t ≠ s'.eff t ∧ s.current here ≠ some t then s'.movePriority t (s.eff t) (s'.eff t)
    else some s'

def consume (here : Cpu k) (s : Scheduler n k) : Scheduler n k :=
  match s.current here with
  | none => s
  | some t =>
    if s.home t = here ∧ (s.tcb t).sporadicServer.any SporadicServer.isActive then
      s.modify t (fun a => a.onServer (fun ss => ss.consume.1))
    else s

end Scheduler

/-- The steps of the scheduler with the changes of keys. -/
inductive Change (n k : ℕ)
  | act (a : Action n k)
  /-- writes to fields that are no part of a key -/
  | note (t : Fin n) (state : TaskState) (remaining : ℕ) (missed : Bool)
  | setPriority (t : Fin n) (p : ℕ)
  | inherit (t : Fin n) (p : ℕ)
  | assignDeadlinePriority (t : Fin n)
  | demote (t : Fin n)
  | setSchedPolicy (here : Cpu k) (t : Fin n) (policy : SchedPolicy)
  | setEdfExempt (here : Cpu k) (t : Fin n) (exempt : Bool)
  | account (here : Cpu k) (t : Fin n)
  | scanDeadline (now : ℕ) (t : Fin n)
  | replenish (here : Cpu k) (now : ℕ) (t : Fin n)
  | consume (here : Cpu k)
  | onActivation (t : Fin n) (now : ℕ)
  | onCompletion (t : Fin n)

namespace Scheduler

def change (cfg : Config) (s : Scheduler n k) : Change n k → Option (Scheduler n k)
  | .act a => s.step a
  | .note t state remaining missed =>
    some (s.modify t (fun a =>
      { a with state := state, remainingTicks := remaining, deadlineMissed := missed }))
  | .setPriority t p => s.setPriority t p
  | .inherit t p => s.inherit t p
  | .assignDeadlinePriority t => s.assignDeadlinePriority t
  | .demote t => s.demote t
  | .setSchedPolicy here t policy => s.setSchedPolicy here t policy
  | .setEdfExempt here t exempt => s.setEdfExempt here t exempt
  | .account here t => s.account cfg here t
  | .scanDeadline now t => s.scanDeadline cfg now t
  | .replenish here now t => s.replenish here now t
  | .consume here => some (s.consume here)
  | .onActivation t now => some (s.modify t (fun a => a.onServer (fun ss => ss.onActivation now)))
  | .onCompletion t => some (s.modify t (fun a => a.onServer SporadicServer.onCompletion))

end Scheduler

end Nexios.Sched
