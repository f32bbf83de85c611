import Nexios.Sched.EdfList
import Nexios.Sched.SporadicServer

/-!
# Tasks and the state of the scheduler

The fields of a task control block that the scheduler reads, except those that the queues own, and
the scheduler's own data: the queues of all CPUs, the current and the idle task of each CPU, the
pending switch of each CPU (`scheduler_next_task_id`, set by `switch_to_task` and applied at the end
of an interrupt), the wake mailboxes, the id table and the task registry.

Control blocks are never freed here, so the checks of `magic` and of stale pointers pass.
-/

namespace Nexios.Sched

variable {n k : ℕ}

inductive TaskState
  | ready
  | running
  | blocked
  | waiting
  | terminated
  | reaped
  deriving DecidableEq

inductive SchedPolicy
  | auto
  | fixed
  | edf
  deriving DecidableEq

def noPeriod : ℕ := 0xFFFFFFFF

structure Tcb where
  id : ℕ
  generation : ℕ
  state : TaskState
  priority : ℕ
  basePriority : ℕ
  sporadicServer : Option SporadicServer
  deadlineTicks : ℕ
  periodTicks : ℕ
  remainingTicks : ℕ
  deadlineMissed : Bool
  schedPolicy : SchedPolicy
  edfExempt : Bool
  readyDeferred : Bool
  isUser : Bool
  cpuAffinity : BitVec 64

namespace Tcb

def runnable (t : Tcb) : Bool := t.state = .ready || t.state = .running

def live (t : Tcb) : Bool := !(t.state = .terminated || t.state = .reaped)

def effectivePriority (t : Tcb) : ℕ :=
  match t.sporadicServer with
  | some ss => ss.currentPriority
  | none => t.priority

def edfEligible (t : Tcb) : Bool :=
  if t.deadlineTicks = 0 then false
  else if t.periodTicks = 0 || t.periodTicks = noPeriod then false
  else if t.schedPolicy = .fixed then false
  else if t.sporadicServer.any SporadicServer.isBackground then false
  else if t.schedPolicy = .edf then true
  else !t.edfExempt

def edfEarlier (a b : Tcb) : Bool :=
  if a.deadlineTicks ≠ b.deadlineTicks then a.deadlineTicks < b.deadlineTicks
  else if a.effectivePriority ≠ b.effectivePriority then
    b.effectivePriority < a.effectivePriority
  else a.id < b.id

def isRtTask (t : Tcb) : Bool := t.periodTicks ≠ 0 && t.periodTicks ≠ noPeriod

end Tcb

/-- `__builtin_ctzll`, used on non-zero words only. -/
def ctz (w : BitVec 64) : ℕ := ((List.range 64).find? (fun i => w.getLsbD i)).getD 64

def maskTarget (k : ℕ) (mask : BitVec 64) : Cpu k :=
  let c := ctz (if mask = 0 then 1 else mask)
  if h : c < k + 1 then ⟨c, h⟩ else 0

def Tcb.queueTarget (k : ℕ) (t : Tcb) : Cpu k := maskTarget k t.cpuAffinity

structure MailboxEntry (n : ℕ) where
  task : Fin n
  id : ℕ
  generation : ℕ
  deriving DecidableEq

def mailboxSlots : ℕ := 4

def starvationBreakerTicks : ℕ := 20

structure Scheduler (n k : ℕ) where
  tcb : Fin n → Tcb
  rq : RunQueues n k
  edf : EdfLists n k
  current : Cpu k → Option (Fin n)
  idle : Cpu k → Option (Fin n)
  /-- the id of the task a pending switch leads to -/
  armed : Cpu k → Option ℕ
  /-- newest entry first -/
  mailbox : Cpu k → List (MailboxEntry n)
  idTable : ℕ → Option (Fin n)
  allTasks : List (Fin n)
  /-- `sched_up_cpus()` -/
  upCpus : ℕ
  /-- `none` is `STARVABLE_NONE` -/
  starveLevel : Cpu k → Option ℕ
  starveTicks : Cpu k → ℕ
  needResched : Cpu k → Bool

/-- A ready kernel task of priority 10 on CPU 0, without server, deadline and period. -/
def Tcb.plain (id : ℕ) : Tcb where
  id := id
  generation := 1
  state := .ready
  priority := 10
  basePriority := 10
  sporadicServer := none
  deadlineTicks := 0
  periodTicks := 0
  remainingTicks := 0
  deadlineMissed := false
  schedPolicy := .auto
  edfExempt := false
  readyDeferred := false
  isUser := false
  cpuAffinity := 1#64

/-- The tasks are registered, and none of them is current or in a queue. -/
def Scheduler.unqueued (tcb : Fin n → Tcb) (tasks : List (Fin n)) (cpus : ℕ) : Scheduler n k where
  tcb := tcb
  rq := ⟨⟨fun _ => none, fun _ => none⟩, fun _ => false, fun _ => 0, fun _ => .empty, fun _ => .empty⟩
  edf := ⟨⟨fun _ => none, fun _ => none⟩, fun _ => false, fun _ => none⟩
  current _ := none
  idle _ := none
  armed _ := none
  mailbox _ := []
  idTable id := tasks.find? fun t => (tcb t).id = id
  allTasks := tasks
  upCpus := cpus
  starveLevel _ := none
  starveTicks _ := 0
  needResched _ := false

namespace Scheduler

variable {s : Scheduler n k} {t : Fin n}

variable (s : Scheduler n k)

def modify (t : Fin n) (f : Tcb → Tcb) : Scheduler n k :=
  { s with tcb := Function.update s.tcb t (f (s.tcb t)) }

def setState (t : Fin n) (st : TaskState) : Scheduler n k :=
  s.modify t (fun tcb => { tcb with state := st })

def setDeferred (t : Fin n) (deferred : Bool) : Scheduler n k :=
  s.modify t (fun tcb => { tcb with readyDeferred := deferred })

def withQueues (rq : RunQueues n k) (edf : EdfLists n k) : Scheduler n k :=
  { s with rq := rq, edf := edf }

def eff (t : Fin n) : ℕ := (s.tcb t).effectivePriority

def earlier (t u : Fin n) : Bool := (s.tcb t).edfEarlier (s.tcb u)

/-- The CPU whose queues hold the task, `queue_target` -/
def home (t : Fin n) : Cpu k := (s.tcb t).queueTarget k

def findTask (id : ℕ) : Option (Fin n) := s.idTable id

/-- The id table knows the task: `find_task(task.id) == &task`. -/
def owned (t : Fin n) : Bool := s.findTask (s.tcb t).id = some t

def isIdleTask (t : Fin n) : Bool := (List.finRange (k + 1)).any (s.idle · = some t)

def isCurrentOnAnyCpu (t : Fin n) : Bool :=
  (List.finRange (k + 1)).any (s.current · = some t)

def clampedTarget (t : Fin n) : Cpu k :=
  if (s.tcb t).isUser && s.home t ≠ 0 then 0 else s.home t

def queued (t : Fin n) : Bool := s.rq.inReadyQueue t || s.edf.inEdfQueue t

end Scheduler

end Nexios.Sched
