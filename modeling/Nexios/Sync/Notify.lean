import Nexios.Sync.WakeOne

/-!
# Notifications

`Notify::notify`, `wait`, `try_wait` and their error-returning variants, which differ only in what
they answer to a second waiter. A notification has room for one value and one waiter. A waiter
stores BLOCKED under the spinlock; a `notify` stores its value and wakes the waiter, which takes the
spinlock once more to fetch the value. With interrupts disabled a waiter takes its registration back
instead. A wake-up for another CPU goes through a mailbox, as with the mutexes.

`delivered` and `returned` record the calls of `notify` and the values that callers have got; no
call reads them, nor the numbers in the program counters.
-/

namespace Nexios.Sync

open Sched (TaskState)

variable {n : ℕ}

/-- Where a task is in `wait` or `wait_err`. -/
inductive NotifyPc
  | idle
  /-- `wait` has found another waiter -/
  | retrying
  /-- registered after `since` calls of `notify`; `wokenBy` is the one that has woken the task -/
  | waiting (since : ℕ) (wokenBy : Option ℕ)
  /-- the registration has been taken back -/
  | rollingBack (since : ℕ) (wokenBy : Option ℕ)
  deriving DecidableEq

namespace NotifyPc

def wokenBy : NotifyPc → Option ℕ
  | .waiting _ wokenBy => wokenBy
  | _ => none

/-- The wake-up of the call `i` of `notify` reaches the task. -/
def wake (i : ℕ) : NotifyPc → NotifyPc
  | .waiting since none => .waiting since (some i)
  | p => p

end NotifyPc

/-- A call of `notify`; `woke` is the waiter that it has woken. -/
structure Delivery (n : ℕ) where
  value : BitVec 64
  woke : Option (Fin n)
  deriving DecidableEq

/-- The end of a call of `wait` or `try_wait`; `source` is the call of `notify` that the value is
from. -/
structure Returned (n : ℕ) where
  task : Fin n
  value : BitVec 64
  source : Option ℕ
  since : ℕ
  wokenBy : Option ℕ
  deriving DecidableEq

def notifyInvalid : BitVec 64 := 0

structure NotifyState (n : ℕ) where
  tasks : TaskTable n
  /-- `notify_value_` -/
  value : BitVec 64
  /-- `waiter_` and `waiter_gen_` -/
  waiter : Option (Waiter n)
  pc : Fin n → NotifyPc
  /-- wake-ups on their way to another CPU, with the call of `notify` that has sent them -/
  mail : List (Waiter n × ℕ)
  delivered : List (Delivery n)
  returned : List (Returned n)

inductive NotifyAction (n : ℕ)
  | notify (value : BitVec 64) (remote : Bool)
  | wait (t : Fin n) (err : Bool)
  /-- the next round of the loop of `wait` -/
  | retry (t : Fin n)
  /-- the state of the waiter is no longer BLOCKED -/
  | resume (t : Fin n)
  /-- the waiter finds interrupts disabled -/
  | rollback (t : Fin n)
  /-- the waiter stores RUNNING and leaves without a value -/
  | restore (t : Fin n)
  | tryWait (t : Fin n)
  | drain (w : Waiter n) (i : ℕ)
  | terminate (t : Fin n)
  | recycle (t : Fin n) (priority : ℕ)
  deriving DecidableEq

namespace NotifyState

variable (s : NotifyState n)

def setTasks (ts : TaskTable n) : NotifyState n := { s with tasks := ts }

def setPc (t : Fin n) (p : NotifyPc) : NotifyState n :=
  { s with pc := Function.update s.pc t p }

/-- The call of `notify` that the value is from, which is always the last one. -/
def source : Option ℕ :=
  if s.value = 0 then none else some (s.delivered.length - 1)

def leave (r : Returned n) : NotifyState n :=
  { s.setPc r.task .idle with returned := r :: s.returned }

/-- A caller takes the value, which it has waited for since the call `since`. -/
def collect (t : Fin n) (since : ℕ) (wokenBy : Option ℕ) : NotifyState n :=
  { s.leave ⟨t, s.value, s.source, since, wokenBy⟩ with value := 0 }

def register (t : Fin n) : NotifyState n :=
  { (s.setPc t (.waiting s.delivered.length none)).setTasks (s.tasks.setState t .blocked) with
    waiter := some (s.tasks.waiter t) }

/-- A round of `wait`, or `wait_err`, which does not try again. -/
def wait (t : Fin n) (err : Bool) : NotifyState n :=
  if s.waiter = none then
    if s.value ≠ 0 then s.collect t s.delivered.length none else s.register t
  else s.setPc t (if err then .idle else .retrying)

def tryWait (t : Fin n) : NotifyState n :=
  if s.waiter = none ∧ s.value ≠ 0 then s.collect t s.delivered.length none else s

/-- READY is stored for the waiter `w`, for the call `i` of `notify`. -/
def ready (s : NotifyState n) (w : Waiter n) (i : ℕ) : NotifyState n :=
  (s.setTasks (s.tasks.setState w.task .ready)).setPc w.task ((s.pc w.task).wake i)

/-- `set_task_ready` on the waiter. -/
def wake (w : Waiter n) (remote : Bool) : NotifyState n :=
  { s.ready w s.delivered.length with
    mail := if remote then (w, s.delivered.length) :: s.mail else s.mail }

def notify (value : BitVec 64) (remote : Bool) : NotifyState n :=
  match s.waiter with
  | none => { s with value := value, delivered := s.delivered ++ [⟨value, none⟩] }
  | some w =>
    if s.tasks.awakeable w then
      { s.wake w remote with
        value := value
        waiter := none
        delivered := s.delivered ++ [⟨value, some w.task⟩] }
    else
      { s with value := value, waiter := none, delivered := s.delivered ++ [⟨value, none⟩] }

/-- `same_waiter` decides whether the registration is still there. -/
def rollback (t : Fin n) (since : ℕ) (wokenBy : Option ℕ) : NotifyState n :=
  { s.setPc t (.rollingBack since wokenBy) with
    waiter := if s.waiter = some (s.tasks.waiter t) then none else s.waiter }

def restore (t : Fin n) (since : ℕ) (wokenBy : Option ℕ) : NotifyState n :=
  (s.setTasks (s.tasks.setState t .running)).leave ⟨t, notifyInvalid, none, since, wokenBy⟩

def drain (w : Waiter n) (i : ℕ) : NotifyState n :=
  let s₁ := { s with mail := s.mail.erase (w, i) }
  if s.tasks.awakeable w then s₁.ready w i else s₁

def step : NotifyAction n → Option (NotifyState n)
  | .notify value remote => some (s.notify value remote)
  | .wait t err => if s.tasks.runs t ∧ s.pc t = .idle then some (s.wait t err) else none
  | .retry t => if s.tasks.runs t ∧ s.pc t = .retrying then some (s.wait t false) else none
  | .resume t =>
    match s.pc t with
    | .waiting since wokenBy =>
      if s.tasks.live t ∧ (s.tasks t).state ≠ .blocked then some (s.collect t since wokenBy)
      else none
    | _ => none
  | .rollback t =>
    match s.pc t with
    | .waiting since wokenBy =>
      if s.tasks.live t then some (s.rollback t since wokenBy) else none
    | _ => none
  | .restore t =>
    match s.pc t with
    | .rollingBack since wokenBy =>
      if s.tasks.live t then some (s.restore t since wokenBy) else none
    | _ => none
  | .tryWait t => if s.tasks.runs t ∧ s.pc t = .idle then some (s.tryWait t) else none
  | .drain w i => if (w, i) ∈ s.mail then some (s.drain w i) else none
  | .terminate t =>
    if s.tasks.live t then some (s.setTasks (s.tasks.setState t .terminated)) else none
  | .recycle t priority =>
    if s.tasks.live t then none
    else some ((s.setTasks (s.tasks.recycle t priority)).setPc t .idle)

/-- The notification is as `init` leaves it. -/
structure Start (s : NotifyState n) : Prop where
  value : s.value = 0
  waiter : s.waiter = none
  pc : ∀ t, s.pc t = .idle
  mail : s.mail = []
  delivered : s.delivered = []
  returned : s.returned = []

end NotifyState

end Nexios.Sync
