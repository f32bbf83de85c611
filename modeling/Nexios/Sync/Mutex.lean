import Nexios.Lib.WaitArray
import Nexios.Sched.Task

/-!
# Mutexes

`Mutex::lock`, `lock_err`, `try_lock` and `unlock` with priority inheritance and priority ceilings,
for any number of tasks and mutexes. A step is what a task does while it has the spinlock of a
mutex, or one access outside of it: a waiter stores BLOCKED after it has released the spinlock
(`Pc.registered`), and looks at the mutex again when it is no longer BLOCKED (`Pc.blocked`). An
`unlock` that hands the mutex over keeps the spinlock while it wakes the new owner (`State.waking`);
a wake-up for another CPU goes through a mailbox and stores READY once more when that CPU drains it
(`State.mail`).

Other wake-ups, the death of tasks and the reuse of control blocks are steps of their own. Ownership
is by the address of the control block, without a generation, so a control block is reused here only
when its task owns no mutex.
-/

open Function

namespace Nexios.Sync

open Sched (TaskState)

variable {n m : ℕ}

structure Waiter (n : ℕ) where
  task : Fin n
  generation : ℕ
  deriving DecidableEq

def maxWaiters : ℕ := 32

def maxHeldCeilings : ℕ := 16

structure Mutex (n : ℕ) where
  owner : Option (Fin n)
  holderPriority : ℕ
  lockCount : ℕ
  priorityCeiling : ℕ
  waiters : List (Waiter n)

structure Tcb (m : ℕ) where
  state : TaskState
  generation : ℕ
  priority : ℕ
  basePriority : ℕ
  waitingOnMutex : Option (Fin m)
  heldCeilings : List ℕ
  systemCeiling : ℕ

inductive LockCall
  | lock
  | lockErr
  deriving DecidableEq

/-- Where a task is in a blocking call; `retry` counts the rounds of the loop, and `ceiling` is
whether it waits because of the system ceiling. -/
inductive Pc (m : ℕ)
  | idle
  | registered (x : Fin m) (call : LockCall) (retry : ℕ) (ceiling : Bool)
  | blocked (x : Fin m) (call : LockCall) (retry : ℕ) (ceiling : Bool)
  | retrying (x : Fin m) (call : LockCall) (retry : ℕ)
  deriving DecidableEq

/-- The mutex in whose array the task is, or was when it went to sleep. -/
def Pc.waitsFor : Pc m → Option (Fin m)
  | .registered x _ _ _ | .blocked x _ _ _ => some x
  | _ => none

structure State (n m : ℕ) where
  tcb : Fin n → Tcb m
  mutex : Fin m → Mutex n
  pc : Fin n → Pc m
  /-- the task that an `unlock` has chosen and not woken yet; the spinlock is held -/
  waking : Fin m → Option (Fin n)
  /-- wake-ups on their way to another CPU -/
  mail : List (Waiter n)
  /-- how often a task has acquired a mutex and not released it -/
  acquired : Fin n → Fin m → ℕ

namespace State

variable {s s' : State n m} {t u : Fin n} {x y : Fin m}

variable (s : State n m)

def modify (t : Fin n) (f : Tcb m → Tcb m) : State n m :=
  { s with tcb := update s.tcb t (f (s.tcb t)) }

def onMutex (x : Fin m) (f : Mutex n → Mutex n) : State n m :=
  { s with mutex := update s.mutex x (f (s.mutex x)) }

def setPc (t : Fin n) (p : Pc m) : State n m :=
  { s with pc := update s.pc t p }

def setState (t : Fin n) (st : TaskState) : State n m :=
  s.modify t (fun tcb => { tcb with state := st })

def setAcquired (t : Fin n) (x : Fin m) (k : ℕ) : State n m :=
  { s with acquired := update s.acquired t (update (s.acquired t) x k) }

def prio (t : Fin n) : ℕ := (s.tcb t).priority

def owner (s : State n m) (x : Fin m) : Option (Fin n) := (s.mutex x).owner

def waiters (s : State n m) (x : Fin m) : List (Waiter n) := (s.mutex x).waiters

def live (t : Fin n) : Bool :=
  (s.tcb t).state ≠ .terminated && (s.tcb t).state ≠ .reaped

def runs (t : Fin n) : Bool :=
  ((s.tcb t).state = .ready || (s.tcb t).state = .running) && s.pc t = .idle

def waiter (t : Fin n) : Waiter n := ⟨t, (s.tcb t).generation⟩

def awakeable (w : Waiter n) : Bool :=
  (s.tcb w.task).generation = w.generation && s.live w.task

def selectBestWaiter (x : Fin m) : Option (ℕ × Waiter n) :=
  WaitArray.best s.awakeable (fun w => s.prio w.task) (s.waiters x)

def enlist (x : Fin m) (t : Fin n) : State n m :=
  (if s.waiter t ∈ s.waiters x then s
    else s.onMutex x (fun mu => { mu with waiters := mu.waiters ++ [s.waiter t] })).modify t
      (fun tcb => { tcb with waitingOnMutex := some x })

/-- `add_waiter` fails. -/
def waitersFull (x : Fin m) (t : Fin n) : Bool :=
  s.waiter t ∉ s.waiters x && maxWaiters ≤ (s.waiters x).length

/-! ## Priority inheritance -/

def maxPrio (x : Fin m) (p : ℕ) : ℕ :=
  (s.waiters x).foldl (fun p w => max p (s.prio w.task)) p

/-- The owner `o` of the mutex `x` is lent the priority `p`; the mutex saves the one it had. -/
def lend (x : Fin m) (o : Fin n) (p : ℕ) : State n m :=
  (s.onMutex x (fun mu =>
    { mu with
      holderPriority := if mu.holderPriority = 0 then s.prio o else mu.holderPriority })).modify o
    (fun tcb => { tcb with priority := p })

/-- The recursion of `reevaluate` along the chain of owners that wait themselves. Every round but
the last raises a priority to that of another task, so there are at most `n * n` of them. -/
def reevaluate : ℕ → State n m → Fin m → Option (State n m)
  | 0, _, _ => none
  | fuel + 1, s, x =>
    match s.owner x with
    | none => some s
    | some o =>
      let p := s.maxPrio x 0
      if s.prio o < p then
        match (s.tcb o).waitingOnMutex with
        | none => some (s.lend x o p)
        | some y => reevaluate fuel (s.lend x o p) y
      else some s

def inheritPriority (x : Fin m) (t : Fin n) : Option (State n m) :=
  match s.owner x with
  | none => some s
  | some o =>
    let p := s.maxPrio x (s.prio t)
    if s.prio o < p then
      match (s.tcb o).waitingOnMutex with
      | none => some (s.lend x o p)
      | some y => reevaluate (n * n + 1) (s.lend x o p) y
    else some s

def restorePriority (x : Fin m) : State n m :=
  match s.owner x with
  | none => s
  | some o =>
    let saved := (s.mutex x).holderPriority
    let remaining := s.maxPrio x 0
    if saved = 0 then s
    else if saved < remaining then s.modify o (fun tcb => { tcb with priority := remaining })
    else
      (s.onMutex x (fun mu => { mu with holderPriority := 0 })).modify o
        (fun tcb => { tcb with priority := saved })

/-! ## Priority ceilings -/

def ceilingBlocks (x : Fin m) (t : Fin n) : Bool :=
  0 < (s.mutex x).priorityCeiling && 0 < (s.tcb t).systemCeiling &&
    s.prio t ≤ (s.tcb t).systemCeiling

end State

namespace Tcb

def pushCeiling (c : ℕ) (tcb : Tcb m) : Tcb m :=
  if 0 < c ∧ tcb.heldCeilings.length < maxHeldCeilings then
    { tcb with
      heldCeilings := tcb.heldCeilings ++ [c]
      systemCeiling := max tcb.systemCeiling c }
  else tcb

/-- The first entry `c` is removed, and the system ceiling computed again. -/
def popCeiling (c : ℕ) (tcb : Tcb m) : Tcb m :=
  if c = 0 ∨ tcb.heldCeilings = [] then tcb
  else
    { tcb with
      heldCeilings := tcb.heldCeilings.erase c
      systemCeiling := (tcb.heldCeilings.erase c).foldl max 0 }

end Tcb

namespace State

variable {s s' : State n m} {t u : Fin n} {x y : Fin m}

/-! ## Taking and releasing -/

variable (s : State n m)

def acquire (x : Fin m) (t : Fin n) (push : Bool) : State n m :=
  let s₁ := s.onMutex x (fun mu => { mu with owner := some t, lockCount := 1 })
  let s₂ := if push then s₁.modify t (Tcb.pushCeiling (s.mutex x).priorityCeiling) else s₁
  s₂.setAcquired t x (s.acquired t x + 1)

def reacquire (x : Fin m) (t : Fin n) : State n m :=
  (s.onMutex x (fun mu => { mu with lockCount := mu.lockCount + 1 })).setAcquired t x
    (s.acquired t x + 1)

def register (t : Fin n) (x : Fin m) (call : LockCall) (retry : ℕ) (ceiling : Bool) : State n m :=
  if s.waitersFull x t then s.setPc t (.retrying x call (retry + 1))
  else (s.enlist x t).setPc t (.registered x call retry ceiling)

/-- A round of the loop of `lock` and `lock_err`. The first gives up in a panic, the second with an
error, which it also does when the waiter array is full. -/
def attempt (t : Fin n) (x : Fin m) (call : LockCall) (retry : ℕ) :
    Option (State n m) :=
  if maxWaiters < retry then
    match call with
    | .lock => none
    | .lockErr => some (s.setPc t .idle)
  else if s.owner x = some t then some ((s.reacquire x t).setPc t .idle)
  else if s.ceilingBlocks x t then
    if call = .lockErr ∧ maxWaiters ≤ (s.waiters x).length then some (s.setPc t .idle)
    else some (s.register t x call retry true)
  else if s.owner x = none then some ((s.acquire x t true).setPc t .idle)
  else if call = .lockErr ∧ maxWaiters ≤ (s.waiters x).length then some (s.setPc t .idle)
  else (s.inheritPriority x t).map (fun s => s.register t x call retry false)

/-- The wait has ended: after one for the ceiling the owner is looked at before the next round. -/
def again (t : Fin n) (x : Fin m) (call : LockCall) (retry : ℕ) (ceiling : Bool) :
    Option (State n m) :=
  if ceiling ∧ s.owner x = some t then some ((s.reacquire x t).setPc t .idle)
  else s.attempt t x call (retry + 1)

def tryLock (t : Fin n) (x : Fin m) : State n m :=
  if s.owner x = some t then s.reacquire x t
  else if s.owner x = none then s.acquire x t false
  else s

abbrev dequeued (x : Fin m) (i : ℕ) (w : Waiter n) : State n m :=
  (s.modify w.task (fun tcb => { tcb with waitingOnMutex := none })).onMutex x
    (fun mu => { mu with waiters := WaitArray.swapRemove mu.waiters i })

/-- The waiter `i` of the array is made the owner. -/
def handOver (t : Fin n) (x : Fin m) (i : ℕ) (w : Waiter n) : State n m :=
  let s₁ := (s.modify w.task (fun tcb => { tcb with waitingOnMutex := none })).onMutex x
    (fun mu => { mu with waiters := WaitArray.swapRemove mu.waiters i })
  let s₂ := (s₁.restorePriority x).modify t (Tcb.popCeiling (s.mutex x).priorityCeiling)
  { s₂.onMutex x (fun mu => { mu with owner := some w.task, lockCount := 0 }) with
    waking := update s.waking x (some w.task) }

def free (t : Fin n) (x : Fin m) : State n m :=
  ((s.restorePriority x).onMutex x (fun mu => { mu with owner := none, lockCount := 0 })).modify t
    (Tcb.popCeiling (s.mutex x).priorityCeiling)

def unlock (t : Fin n) (x : Fin m) : State n m :=
  if s.owner x ≠ some t then s
  else if 1 < (s.mutex x).lockCount then
    (s.onMutex x (fun mu => { mu with lockCount := mu.lockCount - 1 })).setAcquired t x
      (s.acquired t x - 1)
  else
    match s.selectBestWaiter x with
    | some (i, w) => (s.handOver t x i w).setAcquired t x (s.acquired t x - 1)
    | none => (s.free t x).setAcquired t x (s.acquired t x - 1)

/-- `set_task_ready` on the new owner. -/
def wake (x : Fin m) (t : Fin n) (remote : Bool) : State n m :=
  { s.setState t .ready with
    waking := update s.waking x none
    mail := if remote then s.waiter t :: s.mail else s.mail }

def drain (w : Waiter n) : State n m :=
  let s₁ := { s with mail := s.mail.erase w }
  if s.awakeable w then s₁.setState w.task .ready else s₁

def removeWaiter (t : Fin n) (x : Fin m) : State n m :=
  match (s.waiters x).findIdx? (· = s.waiter t) with
  | none => s
  | some i =>
    (s.onMutex x (fun mu => { mu with waiters := WaitArray.swapRemove mu.waiters i })).modify t
      (fun tcb => { tcb with waitingOnMutex := none })

/-- The control block of a task that is gone and owns no mutex is given to a new task. -/
def recycle (t : Fin n) (priority : ℕ) : State n m :=
  (s.modify t (fun tcb => ⟨.ready, tcb.generation + 1, priority, priority, none, [], 0⟩)).setPc t
    .idle

end State

inductive Action (n m : ℕ)
  | lock (t : Fin n) (x : Fin m) (call : LockCall)
  | block (t : Fin n)
  | resume (t : Fin n)
  | retry (t : Fin n)
  | tryLock (t : Fin n) (x : Fin m)
  | unlock (t : Fin n) (x : Fin m)
  | wake (x : Fin m) (remote : Bool)
  | drain (w : Waiter n)
  | removeWaiter (t : Fin n) (x : Fin m)
  /-- another wake-up of the task -/
  | ready (t : Fin n)
  | terminate (t : Fin n)
  | recycle (t : Fin n) (priority : ℕ)

namespace State

def step (s : State n m) : Action n m → Option (State n m)
  | .lock t x call => if s.runs t ∧ s.waking x = none then s.attempt t x call 0 else none
  | .block t =>
    match s.pc t with
    | .registered x call retry ceiling =>
      if s.live t then some ((s.setState t .blocked).setPc t (.blocked x call retry ceiling))
      else none
    | _ => none
  | .resume t =>
    match s.pc t with
    | .blocked x call retry ceiling =>
      if s.live t ∧ (s.tcb t).state ≠ .blocked ∧ s.waking x = none then
        s.again t x call retry ceiling
      else none
    | _ => none
  | .retry t =>
    match s.pc t with
    | .retrying x call retry =>
      if s.live t ∧ s.waking x = none then s.attempt t x call retry else none
    | _ => none
  | .tryLock t x => if s.runs t ∧ s.waking x = none then some (s.tryLock t x) else none
  | .unlock t x => if s.runs t ∧ s.waking x = none then some (s.unlock t x) else none
  | .wake x remote => (s.waking x).map (fun t => s.wake x t remote)
  | .drain w => if w ∈ s.mail then some (s.drain w) else none
  | .removeWaiter t x => if s.waking x = none then some (s.removeWaiter t x) else none
  | .ready t => if s.live t then some (s.setState t .ready) else none
  | .terminate t => if s.live t then some (s.setState t .terminated) else none
  | .recycle t priority =>
    if s.live t = false ∧ ∀ x, s.owner x ≠ some t then some (s.recycle t priority) else none

structure Start (s : State n m) : Prop where
  tcb : ∀ t, (s.tcb t).priority = (s.tcb t).basePriority ∧ (s.tcb t).waitingOnMutex = none ∧
    (s.tcb t).heldCeilings = [] ∧ (s.tcb t).systemCeiling = 0 ∧ s.live t = true
  mutex : ∀ x, s.owner x = none ∧ (s.mutex x).holderPriority = 0 ∧ s.waiters x = []
  pc : ∀ t, s.pc t = .idle
  waking : ∀ x, s.waking x = none
  mail : s.mail = []
  acquired : ∀ t x, s.acquired t x = 0

/-- Running tasks of the given priorities, and unused mutexes of the given ceilings. -/
def unused (prio : Fin n → ℕ) (ceiling : Fin m → ℕ) : State n m where
  tcb t := ⟨.running, 1, prio t, prio t, none, [], 0⟩
  mutex x := ⟨none, 0, 0, ceiling x, []⟩
  pc _ := .idle
  waking _ := none
  mail := []
  acquired _ _ := 0

theorem start_unused (prio : Fin n → ℕ) (ceiling : Fin m → ℕ) : (unused prio ceiling).Start :=
  ⟨fun _ => ⟨rfl, rfl, rfl, rfl, rfl⟩, fun _ => ⟨rfl, rfl, rfl⟩, fun _ => rfl, fun _ => rfl, rfl,
    fun _ _ => rfl⟩

/-! ## Fields that an operation leaves alone -/

variable {s s' s₁ : State n m} {t u o : Fin n} {x y : Fin m} {β : Type*} {call : LockCall}

@[simp] theorem modify_mutex (f : Tcb m → Tcb m) : (s.modify t f).mutex = s.mutex := rfl

@[simp] theorem onMutex_tcb (f : Mutex n → Mutex n) : (s.onMutex x f).tcb = s.tcb := rfl

@[simp] theorem modify_self (f : Tcb m → Tcb m) : (s.modify t f).tcb t = f (s.tcb t) :=
  update_self ..

theorem modify_ne (f : Tcb m → Tcb m) (h : u ≠ t) : (s.modify t f).tcb u = s.tcb u :=
  update_of_ne h ..

@[simp] theorem onMutex_self (f : Mutex n → Mutex n) : (s.onMutex x f).mutex x = f (s.mutex x) :=
  update_self ..

theorem onMutex_ne (f : Mutex n → Mutex n) (h : y ≠ x) : (s.onMutex x f).mutex y = s.mutex y :=
  update_of_ne h ..

theorem modify_field (π : Tcb m → β) {f : Tcb m → Tcb m} (h : π (f (s.tcb t)) = π (s.tcb t))
    (u : Fin n) : π ((s.modify t f).tcb u) = π (s.tcb u) :=
  update_field π h u

theorem onMutex_field (π : Mutex n → β) {f : Mutex n → Mutex n}
    (h : π (f (s.mutex x)) = π (s.mutex x)) (y : Fin m) :
    π ((s.onMutex x f).mutex y) = π (s.mutex y) :=
  update_field π h y

/-- Only priorities differ, those of the tasks and those that the mutexes have saved. -/
structure Lent (s s' : State n m) : Prop where
  tcb : ∀ t, ∃ p, s'.tcb t = { s.tcb t with priority := p }
  mutex : ∀ x, ∃ p, s'.mutex x = { s.mutex x with holderPriority := p }
  pc : s'.pc = s.pc
  waking : s'.waking = s.waking
  mail : s'.mail = s.mail
  acquired : s'.acquired = s.acquired

namespace Lent

theorem refl (s : State n m) : Lent s s :=
  ⟨fun _ => ⟨_, rfl⟩, fun _ => ⟨_, rfl⟩, rfl, rfl, rfl, rfl⟩

theorem trans (h : Lent s s₁) (h' : Lent s₁ s') : Lent s s' := by
  refine ⟨fun t => ?_, fun x => ?_, h'.pc.trans h.pc, h'.waking.trans h.waking,
    h'.mail.trans h.mail, h'.acquired.trans h.acquired⟩
  · obtain ⟨p, hp⟩ := h.tcb t
    obtain ⟨q, hq⟩ := h'.tcb t
    exact ⟨q, by rw [hq, hp]⟩
  · obtain ⟨p, hp⟩ := h.mutex x
    obtain ⟨q, hq⟩ := h'.mutex x
    exact ⟨q, by rw [hq, hp]⟩

theorem modify (s : State n m) (t : Fin n) (p : ℕ) :
    Lent s (s.modify t (fun tcb => { tcb with priority := p })) := by
  refine ⟨fun u => ?_, fun _ => ⟨_, rfl⟩, rfl, rfl, rfl, rfl⟩
  by_cases hu : u = t
  · exact ⟨p, by rw [hu, modify_self]⟩
  · exact ⟨_, modify_ne _ hu⟩

theorem onMutex (s : State n m) (x : Fin m) (p : ℕ) :
    Lent s (s.onMutex x (fun mu => { mu with holderPriority := p })) := by
  refine ⟨fun _ => ⟨_, rfl⟩, fun y => ?_, rfl, rfl, rfl, rfl⟩
  by_cases hy : y = x
  · exact ⟨p, by rw [hy, onMutex_self]⟩
  · exact ⟨_, onMutex_ne _ hy⟩

theorem lend (s : State n m) (x : Fin m) (o : Fin n) (p : ℕ) : Lent s (s.lend x o p) :=
  (onMutex s x _).trans (modify _ o p)

section

variable (h : Lent s s')
include h

theorem tcb_field (π : Tcb m → β) (hπ : ∀ i p, π { i with priority := p } = π i) (t : Fin n) :
    π (s'.tcb t) = π (s.tcb t) := by
  obtain ⟨p, hp⟩ := h.tcb t
  rw [hp, hπ]

theorem mutex_field (π : Mutex n → β) (hπ : ∀ mu p, π { mu with holderPriority := p } = π mu)
    (x : Fin m) : π (s'.mutex x) = π (s.mutex x) := by
  obtain ⟨p, hp⟩ := h.mutex x
  rw [hp, hπ]

theorem owner_eq (x : Fin m) : s'.owner x = s.owner x :=
  h.mutex_field Mutex.owner (fun _ _ => rfl) x

theorem waiters_eq (x : Fin m) : s'.waiters x = s.waiters x :=
  h.mutex_field Mutex.waiters (fun _ _ => rfl) x

theorem lockCount_eq (x : Fin m) : (s'.mutex x).lockCount = (s.mutex x).lockCount :=
  h.mutex_field Mutex.lockCount (fun _ _ => rfl) x

theorem ceiling_eq (x : Fin m) : (s'.mutex x).priorityCeiling = (s.mutex x).priorityCeiling :=
  h.mutex_field Mutex.priorityCeiling (fun _ _ => rfl) x

theorem waiter_eq (t : Fin n) : s'.waiter t = s.waiter t :=
  congrArg (Waiter.mk t) (h.tcb_field Tcb.generation (fun _ _ => rfl) t)

end

theorem reevaluate {fuel : ℕ} (h : s.reevaluate fuel x = some s') : Lent s s' := by
  induction fuel generalizing s x with
  | zero => cases h
  | succ fuel ih =>
    rw [State.reevaluate] at h
    split at h
    · cases h
      exact refl _
    simp only at h
    split_ifs at h
    · split at h
      · cases h
        exact lend ..
      · exact (lend ..).trans (ih h)
    · cases h
      exact refl _

theorem inheritPriority (h : s.inheritPriority x t = some s') : Lent s s' := by
  rw [State.inheritPriority] at h
  split at h
  · cases h
    exact refl _
  simp only at h
  split_ifs at h
  · split at h
    · cases h
      exact lend ..
    · exact (lend ..).trans (reevaluate h)
  · cases h
    exact refl _

theorem restorePriority (s : State n m) (x : Fin m) : Lent s (s.restorePriority x) := by
  rw [State.restorePriority]
  split
  · exact refl s
  · simp only
    split_ifs
    · exact refl s
    · exact modify ..
    · exact (onMutex s x 0).trans (modify ..)

end Lent

theorem handOver_mutex (s : State n m) (t : Fin n) (x : Fin m) (i : ℕ) (w : Waiter n) :
    ∃ p, (s.handOver t x i w).mutex x =
      { s.mutex x with
        owner := some w.task
        holderPriority := p
        lockCount := 0
        waiters := WaitArray.swapRemove (s.waiters x) i } := by
  obtain ⟨p, hp⟩ := (Lent.restorePriority (s.dequeued x i w) x).mutex x
  refine ⟨p, ?_⟩
  simp only [handOver, onMutex_self, modify_mutex]
  rw [hp]
  simp only [onMutex_self]
  rfl

inductive Round (s : State n m) (t : Fin n) (x : Fin m) : LockCall → State n m → Prop
  | refused : Round s t x .lockErr (s.setPc t .idle)
  | owned (call : LockCall) (howner : s.owner x = some t) :
      Round s t x call ((s.reacquire x t).setPc t .idle)
  | free (call : LockCall) (howner : s.owner x = none) :
      Round s t x call ((s.acquire x t true).setPc t .idle)
  | ceiling (call : LockCall) (retry : ℕ) (howner : s.owner x ≠ some t)
      (hblocks : s.ceilingBlocks x t) : Round s t x call (s.register t x call retry true)
  | contended (call : LockCall) (retry : ℕ) {o : Fin n} {s₁ : State n m}
      (howner : s.owner x = some o) (hne : o ≠ t) (hblocks : s.ceilingBlocks x t = false)
      (hinherit : s.inheritPriority x t = some s₁) :
      Round s t x call (s₁.register t x call retry false)

theorem round_of_attempt {retry : ℕ} (h : s.attempt t x call retry = some s') :
    Round s t x call s' := by
  unfold attempt at h
  split_ifs at h with hretry howner hblocks hfull hnone hfull
  · cases call with
    | lock => cases h
    | lockErr =>
      cases h
      exact .refused
  · cases h
    exact .owned call howner
  · obtain ⟨rfl, -⟩ := hfull
    cases h
    exact .refused
  · cases h
    exact .ceiling call retry howner hblocks
  · cases h
    exact .free call hnone
  · obtain ⟨rfl, -⟩ := hfull
    cases h
    exact .refused
  · obtain ⟨s₁, hs₁, rfl⟩ := Option.map_eq_some_iff.mp h
    obtain ⟨o, ho⟩ := Option.ne_none_iff_exists'.mp hnone
    have hne : o ≠ t := fun he => howner (he ▸ ho)
    exact .contended call retry ho hne (Bool.eq_false_iff.mpr hblocks) hs₁

theorem step_lock (h : s.step (.lock t x call) = some s') :
    s.runs t = true ∧ s.waking x = none ∧ Round s t x call s' := by
  simp only [step] at h
  split_ifs at h with hruns
  exact ⟨hruns.1, hruns.2, round_of_attempt h⟩

theorem step_resume (h : s.step (.resume t) = some s') :
    ∃ x call retry ceiling, s.pc t = .blocked x call retry ceiling ∧ s.live t = true ∧
      (s.tcb t).state ≠ .blocked ∧ s.waking x = none ∧ Round s t x call s' := by
  simp only [step] at h
  split at h
  · rename_i x call retry ceiling hpc
    split_ifs at h with hlive
    refine ⟨x, call, retry, ceiling, hpc, hlive.1, hlive.2.1, hlive.2.2, ?_⟩
    unfold again at h
    split_ifs at h with howner
    · cases h
      exact .owned call howner.2
    · exact round_of_attempt h
  · cases h

theorem step_retry (h : s.step (.retry t) = some s') :
    ∃ x call retry, s.pc t = .retrying x call retry ∧ s.live t = true ∧ s.waking x = none ∧
      Round s t x call s' := by
  simp only [step] at h
  split at h
  · rename_i x call retry hpc
    split_ifs at h with hlive
    exact ⟨x, call, retry, hpc, hlive.1, hlive.2, round_of_attempt h⟩
  · cases h

theorem step_block (h : s.step (.block t) = some s') :
    ∃ x call retry ceiling, s.pc t = .registered x call retry ceiling ∧ s.live t = true ∧
      s' = (s.setState t .blocked).setPc t (.blocked x call retry ceiling) := by
  simp only [step] at h
  split at h
  · rename_i x call retry ceiling hpc
    split_ifs at h with hlive
    exact ⟨x, call, retry, ceiling, hpc, hlive, (Option.some.inj h).symm⟩
  · cases h

end State

end Nexios.Sync
