import Nexios.Sync.WakeOne

/-!
# Message queues

`Queue::send` and `receive` with their variants. A queue treats senders and receivers alike: each
side has an array of waiters, the task that called last, and the priority that this task had before
it was boosted by a waiter of the other side. A waiter stores BLOCKED under the spinlock, so a round
of a blocking call is one step; the next round follows when the state is no longer BLOCKED.
-/

open Function

namespace Nexios.Sync

open Sched (TaskState)

variable {n : ℕ}

def maxMsgSize : ℕ := 32

def maxMsgCount : ℕ := 32

inductive Role
  | sender
  | receiver
  deriving DecidableEq

def Role.other : Role → Role
  | .sender => .receiver
  | .receiver => .sender

/-- What a call is to do: `buf` is the size of the buffer for the message, if there is one. -/
inductive Request
  | send (data : List UInt8)
  | receive (buf : Option ℕ)
  deriving DecidableEq

def Request.role : Request → Role
  | .send _ => .sender
  | .receive _ => .receiver

inductive Outcome
  | sent (bytes : ℕ)
  | received (data : List UInt8) (bytes : ℕ)
  | blocked
  | failed
  deriving DecidableEq

structure Side (n : ℕ) where
  waiters : List (Waiter n)
  /-- `last_sender_` or `last_receiver_`, with its generation -/
  last : Option (Waiter n)
  /-- `send_holder_prio_` or `recv_holder_prio_` -/
  holderPrio : ℕ
  deriving DecidableEq

structure QueueState (n : ℕ) where
  tasks : TaskTable n
  msgs : List (List UInt8)
  side : Role → Side n
  /-- the blocking call that a task is in, and whether it is one that returns errors -/
  pc : Fin n → Option (Request × Bool)
  /-- the waiters that have been woken -/
  woken : List (Waiter n)

namespace QueueState

variable (s : QueueState n) (r : Role)

def setTasks (ts : TaskTable n) : QueueState n := { s with tasks := ts }

def onSide (f : Side n → Side n) : QueueState n :=
  { s with side := update s.side r (f (s.side r)) }

def setPc (t : Fin n) (c : Option (Request × Bool)) : QueueState n :=
  { s with pc := update s.pc t c }

def setLast (t : Fin n) : QueueState n :=
  s.onSide r (fun d => { d with last := some (s.tasks.waiter t) })

/-! ## Boosts -/

/-- `peer_stale` -/
def stale (w : Waiter n) : Bool :=
  (s.tasks w.task).state = .reaped || !s.tasks.current w

def forget : QueueState n :=
  s.onSide r (fun d => { d with last := none, holderPrio := 0 })

/-- The last caller of the role `r` is boosted by the task `t`, which has to wait. -/
def boost (t : Fin n) : QueueState n :=
  match (s.side r).last with
  | none => s
  | some w =>
    if s.stale w then s.forget r
    else if s.tasks.prio w < (s.tasks t).priority then
      (s.onSide r (fun d =>
        { d with holderPrio := if d.holderPrio = 0 then s.tasks.prio w else d.holderPrio })).setTasks
        (s.tasks.setPriority w.task (s.tasks t).priority)
    else s

def restore : QueueState n :=
  match (s.side r).last with
  | none => s
  | some w =>
    if (s.side r).holderPrio = 0 then s
    else if s.stale w then s.forget r
    else (s.onSide r (fun d => { d with holderPrio := 0 })).setTasks
      (s.tasks.setPriority w.task (s.side r).holderPrio)

def boostReceiver (t : Fin n) : QueueState n := s.boost .receiver t

def boostSender (t : Fin n) : QueueState n := s.boost .sender t

def restoreReceiver : QueueState n := s.restore .receiver

def restoreSender : QueueState n := s.restore .sender

/-! ## Waiters -/

def addWaiter (t : Fin n) : QueueState n :=
  s.onSide r (fun d => { d with waiters := d.waiters ++ [s.tasks.waiter t] })

def removeWaiterOf (t : Fin n) : QueueState n :=
  match (s.side r).waiters.findIdx? (· = s.tasks.waiter t) with
  | none => s
  | some i => s.onSide r (fun d => { d with waiters := WaitArray.swapRemove d.waiters i })

def removeSendWaiter (t : Fin n) : QueueState n := s.removeWaiterOf .sender t

def removeRecvWaiter (t : Fin n) : QueueState n := s.removeWaiterOf .receiver t

def removeWaiter (t : Fin n) : QueueState n :=
  (s.removeSendWaiter t).removeRecvWaiter t

def wakeOne (s : QueueState n) (r : Role) : QueueState n :=
  let w := s.tasks.wakeOne (s.side r).waiters
  { s.onSide r (fun d => { d with waiters := w.1 }) with
    tasks := s.tasks.setReady w.2
    woken := w.2.toList ++ s.woken }

def wakeSendOne : QueueState n := s.wakeOne .sender

def wakeRecvOne : QueueState n := s.wakeOne .receiver

/-! ## Calls -/

def boostPeer (t : Fin n) : Request → QueueState n
  | .send _ => s.boostReceiver t
  | .receive _ => s.boostSender t

def restorePeer : Request → QueueState n
  | .send _ => s.restoreReceiver
  | .receive _ => s.restoreSender

def wakePeer : Request → QueueState n
  | .send _ => s.wakeRecvOne
  | .receive _ => s.wakeSendOne

def tooLarge : Request → Bool
  | .send data => maxMsgSize < data.length
  | .receive _ => false

def canMove : Request → Bool
  | .send _ => s.msgs.length < maxMsgCount
  | .receive _ => s.msgs ≠ []

def moved : Request → List (List UInt8)
  | .send data => s.msgs ++ [data]
  | .receive _ => s.msgs.tail

def outcome : Request → Outcome
  | .send data => .sent data.length
  | .receive none => .received [] (s.msgs.headD []).length
  | .receive (some size) =>
    let data := (s.msgs.headD []).take size
    .received data data.length

def move (t : Fin n) (q : Request) : QueueState n :=
  ({ s.setLast q.role t with msgs := s.moved q }).restorePeer q

def transfer (t : Fin n) (q : Request) : QueueState n :=
  (s.move t q).wakePeer q

/-- A round of a blocking call. The variants that return errors look at the table of waiters before
they boost. -/
def round (t : Fin n) (q : Request) (err : Bool) : QueueState n × Outcome :=
  if s.canMove q then ((s.transfer t q).setPc t none, s.outcome q)
  else
    let s := s.setLast q.role t
    if err ∧ maxWaiters ≤ (s.side q.role).waiters.length then (s.setPc t none, .failed)
    else
      let s := s.boostPeer t q
      if maxWaiters ≤ (s.side q.role).waiters.length then (s.setPc t none, .failed)
      else
        (((s.addWaiter q.role t).setTasks (s.tasks.setState t .blocked)).setPc t (some (q, err)),
          .blocked)

/-- `send` and `receive`, or `send_err` and `receive_err` -/
def call (t : Fin n) (q : Request) (err : Bool) : QueueState n × Outcome :=
  if tooLarge q then (s, .failed) else s.round t q err

/-- `try_send` and `try_receive`, and their variants that return errors -/
def tryCall (t : Fin n) (q : Request) : QueueState n × Outcome :=
  if tooLarge q ∨ s.canMove q = false then (s, .failed) else (s.transfer t q, s.outcome q)

def rollback (t : Fin n) (r : Role) : QueueState n :=
  ((s.removeWaiterOf r t).setTasks (s.tasks.setState t .running)).setPc t none

end QueueState

inductive QueueAction (n : ℕ)
  | call (t : Fin n) (q : Request) (err : Bool)
  | retry (t : Fin n)
  | rollback (t : Fin n)
  | tryCall (t : Fin n) (q : Request)
  | removeWaiter (t : Fin n)
  /-- another wake-up of the task -/
  | ready (t : Fin n)
  | terminate (t : Fin n)
  | reap (t : Fin n)
  | recycle (t : Fin n) (priority : ℕ)

namespace QueueState

def step (s : QueueState n) : QueueAction n → Option (QueueState n)
  | .call t q err => if s.tasks.runs t ∧ s.pc t = none then some (s.call t q err).1 else none
  | .retry t =>
    match s.pc t with
    | none => none
    | some (q, err) => if s.tasks.runs t then some (s.round t q err).1 else none
  | .rollback t =>
    match s.pc t with
    | none => none
    | some (q, _) => if (s.tasks t).state = .blocked then some (s.rollback t q.role) else none
  | .tryCall t q => if s.tasks.runs t ∧ s.pc t = none then some (s.tryCall t q).1 else none
  | .removeWaiter t => some (s.removeWaiter t)
  | .ready t => if s.tasks.live t then some (s.setTasks (s.tasks.setState t .ready)) else none
  | .terminate t =>
    if s.tasks.live t then some (s.setTasks (s.tasks.setState t .terminated)) else none
  | .reap t =>
    if (s.tasks t).state = .terminated then
      some ((s.removeWaiter t).setTasks (s.tasks.setState t .reaped))
    else none
  | .recycle t priority =>
    if (s.tasks t).state = .reaped then
      some ((s.setTasks (s.tasks.recycle t priority)).setPc t none)
    else none

/-- The queue is as `init` leaves it. -/
structure Start (s : QueueState n) : Prop where
  live : ∀ t, s.tasks.live t = true
  msgs : s.msgs = []
  side : ∀ r, s.side r = ⟨[], none, 0⟩
  pc : ∀ t, s.pc t = none
  woken : s.woken = []

/-! ## The roles in general -/

variable {s : QueueState n} {t : Fin n} {q : Request} {r r' : Role}

theorem boostPeer_eq (s : QueueState n) (t : Fin n) (q : Request) :
    s.boostPeer t q = s.boost q.role.other t := by
  cases q with
  | send data => rfl
  | receive buf => rfl

theorem restorePeer_eq (s : QueueState n) (q : Request) :
    s.restorePeer q = s.restore q.role.other := by
  cases q with
  | send data => rfl
  | receive buf => rfl

theorem wakePeer_eq (s : QueueState n) (q : Request) : s.wakePeer q = s.wakeOne q.role.other := by
  cases q with
  | send data => rfl
  | receive buf => rfl

@[simp] theorem setTasks_side (ts : TaskTable n) : (s.setTasks ts).side = s.side := rfl

@[simp] theorem onSide_self (f : Side n → Side n) : (s.onSide r f).side r = f (s.side r) :=
  update_self ..

theorem onSide_ne (f : Side n → Side n) (h : r' ≠ r) : (s.onSide r f).side r' = s.side r' :=
  update_of_ne h ..

theorem onSide_field {β : Type*} (π : Side n → β) {f : Side n → Side n}
    (h : π (f (s.side r)) = π (s.side r)) (r' : Role) :
    π ((s.onSide r f).side r') = π (s.side r') :=
  update_field π h r'

theorem other_ne (r : Role) : r.other ≠ r := by
  cases r with
  | sender => exact nofun
  | receiver => exact nofun

theorem eq_other_of_ne (h : r' ≠ r) : r' = r.other := by
  cases r with
  | sender =>
    cases r' with
    | sender => exact absurd rfl h
    | receiver => rfl
  | receiver =>
    cases r' with
    | sender => rfl
    | receiver => exact absurd rfl h

end QueueState

end Nexios.Sync
