import Nexios.Sched.Task

/-!
# Moving tasks into and out of the queues

The entry points that link and unlink tasks: `enqueue_ready`, `dequeue_ready`, `move_priority`,
`set_task_ready` with its three cases, the wake mailboxes, and the change of affinity. `here` is the
CPU that executes an operation.
-/

open Function

namespace Nexios.Sched.Scheduler

variable {n k : ℕ}

variable (here : Cpu k) (s : Scheduler n k)

/-- The routing half of `enqueue_ready`. -/
def enqueueReadyInner (t : Fin n) : Option (Scheduler n k) := do
  let target := s.clampedTarget t
  if (s.tcb t).edfEligible then
    let rq ← s.rq.removeQueued target t
    let edf ← s.edf.insert s.earlier target t
    some (s.withQueues rq edf)
  else
    let edf := s.edf.remove target t
    let rq ← s.rq.enqueue target t (s.eff t)
    some (s.withQueues rq edf)

/-- The current task is taken out of the queues; it stays runnable by the flag `ready_deferred_`. -/
def deferReady (target : Cpu k) (t : Fin n) (live : Bool) :
    Option (Scheduler n k) := do
  let rq ← s.rq.removeQueued target t
  let edf := s.edf.remove target t
  let s := if live then (s.setState t .ready).setDeferred t true else s
  some (s.withQueues rq edf)

/-- A task that the id table does not know is refused, and its flag is cleared. -/
def enqueueReady (t : Fin n) : Option (Scheduler n k) :=
  if !s.owned t then
    some { s with rq := { s.rq with inReadyQueue := update s.rq.inReadyQueue t false } }
  else if s.current here = some t ∧ s.home t = here then
    s.deferReady (s.home t) t (s.tcb t).live
  else s.enqueueReadyInner t

def invalidatePendingSwitchTo (id : ℕ) : Scheduler n k :=
  { s with armed := fun c => if s.armed c = some id then none else s.armed c }

def dequeueReady (t : Fin n) : Option (Scheduler n k) := do
  let edf := s.edf.remove (s.home t) t
  let rq ← s.rq.remove (s.home t) t
  some (((s.setDeferred t false).withQueues rq edf).invalidatePendingSwitchTo (s.tcb t).id)

def movePriority (s : Scheduler n k) (t : Fin n) (old new : ℕ) : Option (Scheduler n k) :=
  if s.edf.inEdfQueue t then do
    let edf ← s.edf.resort s.earlier (s.home t) t
    some { s with edf }
  else do
    let rq ← s.rq.movePriority (s.home t) t old new
    some { s with rq }

def mailboxPublish (c : Cpu k) (t : Fin n) : Option (Scheduler n k) :=
  if mailboxSlots ≤ (s.mailbox c).length then none
  else
    some { s with
      mailbox := update s.mailbox c
        (⟨t, (s.tcb t).id, (s.tcb t).generation⟩ :: s.mailbox c) }

def setTaskReady (t : Fin n) : Option (Scheduler n k) :=
  let wakeLive := (s.tcb t).live
  let s := s.setState t .ready
  let target := s.clampedTarget t
  if target ≠ here then
    if (target : ℕ) < s.upCpus ∧ 1 < s.upCpus then s.mailboxPublish target t
    else if s.current here = some t then s.deferReady target t wakeLive
    else do
      -- The flag is cleared whether or not the task is linked.
      let rq ← { s.rq with
        inReadyQueue := update s.rq.inReadyQueue t false }.enqueue target t (s.eff t)
      some { s with rq }
  else s.enqueueReady here t

/-- The entry still names the task it was published for, and that task is alive. -/
def entryLive (m : MailboxEntry n) : Bool :=
  (s.tcb m.task).id = m.id && (s.tcb m.task).generation = m.generation && (s.tcb m.task).live

/-- One round of the loop of `mailbox_drain`: flags and list links are reset, then the task is
queued. -/
def drainEntry (m : MailboxEntry n) :
    Option (Scheduler n k) :=
  if s.entryLive m then
    let s := s.setState m.task .ready
    { s with
      rq := { s.rq with inReadyQueue := update s.rq.inReadyQueue m.task false }
      edf := { s.edf with
        inEdfQueue := update s.edf.inEdfQueue m.task false
        links := (s.edf.links.setNext m.task none).setPrev m.task none } }.enqueueReady here m.task
  else some s

def mailboxDrain : Option (Scheduler n k) :=
  (s.mailbox here).foldlM (drainEntry here) { s with mailbox := update s.mailbox here [] }

def affinityAllowedMask (up : ℕ) : BitVec 64 :=
  if 64 ≤ up then ~~~0#64 else if up = 0 then 0#64 else (1#64 <<< up) - 1#64

/-- The mask that `set_affinity_err` stores: online CPUs only, and CPU 0 for user tasks. -/
def affinityMask (t : Fin n) (mask : BitVec 64) : BitVec 64 :=
  let allowed := affinityAllowedMask s.upCpus
  let mask := if mask &&& allowed = 0 then 1#64 else mask
  let mask := mask &&& allowed
  if (s.tcb t).isUser && mask ≠ 1#64 then 1#64 else mask

def setMask (t : Fin n) (mask : BitVec 64) : Scheduler n k :=
  s.modify t (fun tcb => { tcb with cpuAffinity := mask })

/-- `quiesce_enter`: all pending switches are cancelled. -/
def quiesceEnter : Scheduler n k := { s with armed := fun _ => none }

/-- The end of `set_affinity_err`: the mask is stored and the task is queued again. -/
def storeMask (t : Fin n) (mask : BitVec 64) (wasQueued : Bool) : Option (Scheduler n k) :=
  let s := s.setMask t mask
  if wasQueued || (s.owned t && (s.tcb t).state = .ready && !s.queued t) then s.enqueueReady here t
  else some s

/-- `set_affinity_err` within the quiesce window. `admitted` is the answer of the admission test,
which is asked when the target CPU changes. -/
def changeAffinity (t : Fin n) (mask : BitVec 64) (admitted : Bool) : Option (Scheduler n k) :=
  let mask := s.affinityMask t mask
  if s.isCurrentOnAnyCpu t ∧ s.current here ≠ some t then some s
  else if (s.tcb t).cpuAffinity = mask then some s
  else if maskTarget k mask ≠ s.home t ∧ admitted = false then some s
  else if s.queued t then (s.dequeueReady t).bind (fun s => s.storeMask here t mask true)
  else s.storeMask here t mask false

def setAffinity (t : Fin n) (mask : BitVec 64) (admitted : Bool) : Option (Scheduler n k) :=
  s.quiesceEnter.changeAffinity here t mask admitted

/-- What the balancer asks of a task before it moves it to CPU `c`. -/
def movable (t : Fin n) (c : Cpu k) : Bool :=
  s.rq.inReadyQueue t && ((s.tcb t).state = .ready || (s.tcb t).state = .blocked) &&
    !(s.tcb t).isUser && !s.isIdleTask t && !(s.tcb t).isRtTask && !s.isCurrentOnAnyCpu t &&
    s.owned t && (s.tcb t).cpuAffinity.getLsbD c

/-- A move of `balancer_tick`. -/
def balance (t : Fin n) (c : Cpu k) : Option (Scheduler n k) :=
  if s.movable t c then do
    let rq ← s.rq.remove (s.home t) t
    let rq ← rq.enqueue c t (s.eff t)
    some ((s.quiesceEnter.setMask t (1#64 <<< (c : ℕ))).withQueues rq s.edf)
  else some s.quiesceEnter

end Nexios.Sched.Scheduler
