import Nexios.Lib.Splice
import Nexios.Lib.WaitArray
import Nexios.Sched.Task

/-!
# Blocked senders

A sender that finds a message queue full blocks: `IPC::block_sender` links it into the list of the
queue, before the first sender of a lower priority, and raises the priority of the queue's owner.
`IPC::wake_sender` takes the first sender out when a message has been received, and sets the
priority of the receiver; a sender that cannot wait takes itself out; the destruction of a queue
releases all. The queues of tasks are owned by their tasks, those of endpoints by nobody.

The end of a send also wakes its destination, if that is BLOCKED in some operation of IPC. A wake-up
for another CPU goes through a mailbox and stores READY once more when that CPU drains it.

Mutexes raise and restore priorities as `inherit_priority` and `restore_priority` do for mutexes
that are locked once. Each call is one step.
-/

open Function

namespace Nexios.Ipc

open Sched (TaskState)

variable {n m k : ℕ}

/-- `n` tasks, `m` message queues and `k` mutexes. -/
structure SenderState (n m k : ℕ) where
  state : Fin n → TaskState
  priority : Fin n → ℕ
  /-- `base_priority` -/
  base : Fin n → ℕ
  /-- `blocked_next` -/
  next : Fin n → Option (Fin n)
  /-- `blocked_on_queue` -/
  onQueue : Fin n → Option (Fin m)
  replyWait : Fin n → Bool
  /-- `blocked_in_recv` -/
  inRecv : Fin n → Bool
  /-- `waiting_on_mutex` -/
  onMutex : Fin n → Option (Fin k)
  /-- `blocked_senders_head` and `blocked_senders_tail` -/
  head : Fin m → Option (Fin n)
  tail : Fin m → Option (Fin n)
  owner : Fin m → Option (Fin n)
  mutexOwner : Fin k → Option (Fin n)
  waiters : Fin k → List (Fin n)
  holderPriority : Fin k → ℕ
  /-- wake-ups on their way to another CPU -/
  mail : List (Fin n)

inductive SenderAction (n m k : ℕ)
  /-- a blocking send to a full queue -/
  | block (q : Fin m) (t : Fin n)
  /-- the receiver `r` has taken a message from the queue -/
  | wake (q : Fin m) (r : Fin n) (remote : Bool)
  /-- `unblock_sender_rollback` -/
  | rollback (q : Fin m) (t : Fin n)
  /-- `~MessageQueue` and `Endpoint::dispose` -/
  | destroy (q : Fin m) (remote : Bool)
  /-- the end of `send` to the task `d` -/
  | send (d : Fin n) (remote : Bool)
  /-- the end of `send_via_cap` to an endpoint of the receiver `d` -/
  | sendViaCap (d : Fin n) (remote : Bool)
  /-- a task prepares for a wait in `send_sync` or in a receive, or ends one -/
  | flags (t : Fin n) (replyWait inRecv : Bool)
  /-- a task blocks elsewhere -/
  | sleep (t : Fin n)
  /-- a task that has blocked elsewhere is woken -/
  | rouse (t : Fin n)
  | drain (t : Fin n)
  | terminate (t : Fin n)
  | mutexLock (x : Fin k) (t : Fin n)
  | mutexWait (x : Fin k) (t : Fin n)
  | mutexUnlock (x : Fin k) (t : Fin n)
  deriving DecidableEq

namespace SenderState

variable (s : SenderState n m k)

def setState (t : Fin n) (st : TaskState) : SenderState n m k :=
  { s with state := update s.state t st }

def setPriority (t : Fin n) (p : ℕ) : SenderState n m k :=
  { s with priority := update s.priority t p }

def setOnQueue (t : Fin n) (q : Option (Fin m)) : SenderState n m k :=
  { s with onQueue := update s.onQueue t q }

/-- `set_task_ready` -/
def ready (s : SenderState n m k) (t : Fin n) (remote : Bool) : SenderState n m k :=
  { s.setState t .ready with mail := if remote then t :: s.mail else s.mail }

def senders (q : Fin m) : Fifo (Fin n) := ⟨s.next, s.head q, s.tail q⟩

def setSenders (q : Fin m) (f : Fifo (Fin n)) : SenderState n m k :=
  { s with
    next := f.next
    head := update s.head q f.head
    tail := update s.tail q f.tail }

/-- The owner of a queue gets at least the priority `p`. -/
def boostOwner (q : Fin m) (p : ℕ) : SenderState n m k :=
  match s.owner q with
  | none => s
  | some o => if s.priority o < p then s.setPriority o p else s

/-- `block_sender`; `none` if the walk along the list does not end. -/
def blockSender (q : Fin m) (t : Fin n) : Option (SenderState n m k) :=
  let s₁ := (s.setState t .blocked).setOnQueue t (some q)
  ((s₁.senders q).insert (n + 1) (fun u => s₁.priority u < s₁.priority t) t).map fun f =>
    (s₁.setSenders q f).boostOwner q (s₁.priority t)

/-- The greatest priority in a list of senders, and at least `p`. -/
def maxPriority (p : ℕ) (l : List (Fin n)) : ℕ :=
  l.foldl (fun p u => if p < s.priority u then s.priority u else p) p

def wakeSender (q : Fin m) (r : Fin n) (remote : Bool) :
    Option (SenderState n m k) :=
  match s.head q with
  | none => some s
  | some t =>
    let s₁ := (s.setSenders q ((s.senders q).pop t)).setOnQueue t none
    let s₂ := if s₁.state t ≠ .terminated then s₁.ready t remote else s₁
    (Fifo.elements s₂.next (n + 1) (s₂.head q)).map fun l =>
      s₂.setPriority r (s₂.maxPriority (s₂.base r) l)

/-- `unblock_sender_rollback`, after its check. -/
def unblockSenderRollback (q : Fin m) (t : Fin n) :
    Option (SenderState n m k) :=
  ((s.senders q).remove (n + 1) t).map fun f =>
    ((s.setSenders q f).setOnQueue t none).setState t .running

/-- The loop over the senders of a queue that goes away. Each visit clears a link, so that there are
at most `n + 1`. -/
def releaseFrom (remote : Bool) : ℕ → Option (Fin n) → SenderState n m k → SenderState n m k
  | 0, _, s => s
  | _ + 1, none, s => s
  | fuel + 1, some t, s =>
    let s₁ := { s.setOnQueue t none with next := update s.next t none }
    releaseFrom remote fuel (s.next t)
      (if s.state t ≠ .terminated ∧ s.state t ≠ .reaped then s₁.ready t remote else s₁)

def resetOwner (q : Fin m) : SenderState n m k :=
  match s.owner q with
  | none => s
  | some o => s.setPriority o (s.base o)

def destroyQueue (q : Fin m) (remote : Bool) : SenderState n m k :=
  let s₁ := releaseFrom remote (n + 1) (s.head q) s
  { s₁ with
    head := update s₁.head q none
    tail := update s₁.tail q none }.resetOwner q

def awaitsIpc (d : Fin n) : Bool :=
  s.state d = .blocked && (s.replyWait d || (s.onQueue d).isSome || s.inRecv d)

def wakeReceiver (d : Fin n) (remote : Bool) : SenderState n m k :=
  if s.awaitsIpc d then s.ready d remote else s

def sendEnd (d : Fin n) (remote : Bool) : SenderState n m k :=
  let s₁ :=
    if s.replyWait d then
      let s' := { s with replyWait := update s.replyWait d false }
      if s.state d = .blocked then s'.ready d remote else s'
    else s
  s₁.wakeReceiver d remote

/-! ## Mutexes -/

/-- The owner `o` of the mutex `x` is lent the priority `p`. -/
def lend (x : Fin k) (o : Fin n) (p : ℕ) : SenderState n m k :=
  { s.setPriority o p with
    holderPriority := update s.holderPriority x
      (if s.holderPriority x = 0 then s.priority o else s.holderPriority x) }

/-- The recursion of `reevaluate` along owners that wait for mutexes themselves. -/
def reevaluate : ℕ → SenderState n m k → Fin k → Option (SenderState n m k)
  | 0, _, _ => none
  | fuel + 1, s, x =>
    match s.mutexOwner x with
    | none => some s
    | some o =>
      let p := s.maxPriority 0 (s.waiters x)
      if s.priority o < p then
        match s.onMutex o with
        | none => some (s.lend x o p)
        | some y => reevaluate fuel (s.lend x o p) y
      else some s

def inheritPriority (x : Fin k) (t : Fin n) : Option (SenderState n m k) :=
  match s.mutexOwner x with
  | none => some s
  | some o =>
    let p := s.maxPriority (s.priority t) (s.waiters x)
    if s.priority o < p then
      match s.onMutex o with
      | none => some (s.lend x o p)
      | some y => reevaluate (n * n + 1) (s.lend x o p) y
    else some s

def restorePriority (x : Fin k) : SenderState n m k :=
  match s.mutexOwner x with
  | none => s
  | some o =>
    let saved := s.holderPriority x
    let remaining := s.maxPriority 0 (s.waiters x)
    if saved = 0 then s
    else if saved < remaining then s.setPriority o remaining
    else
      { s.setPriority o saved with
        holderPriority := update s.holderPriority x 0 }

/-- The task `t` waits for a mutex that is locked. -/
def mutexWait (x : Fin k) (t : Fin n) : Option (SenderState n m k) :=
  (s.inheritPriority x t).map fun s =>
    { s.setState t .blocked with
      waiters := update s.waiters x (s.waiters x ++ [t])
      onMutex := update s.onMutex t (some x) }

/-- The mutex goes to the waiter of the greatest priority, or becomes free. -/
def mutexUnlock (x : Fin k) : SenderState n m k :=
  match WaitArray.best (fun _ => true) s.priority (s.waiters x) with
  | none =>
    let s₁ := s.restorePriority x
    { s₁ with mutexOwner := update s₁.mutexOwner x none }
  | some (i, w) =>
    let s₁ := { s with
      onMutex := update s.onMutex w none
      waiters := update s.waiters x (WaitArray.swapRemove (s.waiters x) i) }.restorePriority x
    { s₁ with mutexOwner := update s₁.mutexOwner x (some w) }.ready w false

/-! ## Steps -/

def live (t : Fin n) : Bool :=
  s.state t ≠ .terminated && s.state t ≠ .reaped

/-- The task can make a call: it runs, and is not in `Mutex::lock`. -/
def runs (t : Fin n) : Bool :=
  (s.state t = .ready || s.state t = .running) && (s.onMutex t).isNone

def step : SenderAction n m k → Option (SenderState n m k)
  | .block q t => if s.runs t ∧ s.owner q ≠ some t then s.blockSender q t else none
  | .wake q r remote => if s.runs r then s.wakeSender q r remote else none
  | .rollback q t => if s.onQueue t = some q then s.unblockSenderRollback q t else none
  | .destroy q remote => some (s.destroyQueue q remote)
  | .send d remote => if s.state d ≠ .terminated then some (s.sendEnd d remote) else none
  | .sendViaCap d remote => some (s.wakeReceiver d remote)
  | .flags t replyWait inRecv =>
    if s.runs t then
      some { s with
        replyWait := update s.replyWait t replyWait
        inRecv := update s.inRecv t inRecv }
    else none
  | .sleep t => if s.runs t then some (s.setState t .blocked) else none
  | .rouse t =>
    if s.state t = .blocked ∧ s.onQueue t = none ∧ s.onMutex t = none then some (s.setState t .ready)
    else none
  | .drain t =>
    if t ∈ s.mail then
      let s₁ := { s with mail := s.mail.erase t }
      some (if s.live t then s₁.setState t .ready else s₁)
    else none
  | .terminate t => if s.live t then some (s.setState t .terminated) else none
  | .mutexLock x t =>
    if s.runs t ∧ s.mutexOwner x = none then
      some { s with mutexOwner := update s.mutexOwner x (some t) }
    else none
  | .mutexWait x t =>
    if s.runs t ∧ s.mutexOwner x ≠ none ∧ s.mutexOwner x ≠ some t then s.mutexWait x t else none
  | .mutexUnlock x t => if s.runs t ∧ s.mutexOwner x = some t then some (s.mutexUnlock x) else none

/-- Nobody is blocked on a queue or waits for a mutex, and every task has its base priority. -/
structure Start (s : SenderState n m k) : Prop where
  onQueue : ∀ t, s.onQueue t = none
  next : ∀ t, s.next t = none
  head : ∀ q, s.head q = none
  tail : ∀ q, s.tail q = none
  onMutex : ∀ t, s.onMutex t = none
  waiters : ∀ x, s.waiters x = []
  mutexOwner : ∀ x, s.mutexOwner x = none
  holderPriority : ∀ x, s.holderPriority x = 0
  priority : ∀ t, s.priority t = s.base t

end SenderState

end Nexios.Ipc
