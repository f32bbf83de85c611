import Nexios.Sync.WakeOne

/-!
# Semaphores

`Semaphore::wait`, `wait_err`, `try_wait`, `post` and `post_err` with priority inheritance. A waiter
stores BLOCKED under the spinlock, so a call is one step; it returns when the state is no longer
BLOCKED. The death of tasks, the reuse of control blocks and other wake-ups are steps of their own.
-/

namespace Nexios.Sync

open Sched (TaskState)

variable {n : ℕ}

inductive SyncError
  | ok
  | maxWaiters
  | queueEmpty
  | bufferFull
  deriving DecidableEq

structure Semaphore (n : ℕ) where
  count : ℕ
  maxCount : ℕ
  waiters : List (Waiter n)
  owner : Option (Fin n)
  holderPriority : ℕ
  deriving DecidableEq

structure SemState (n : ℕ) where
  tasks : TaskTable n
  sem : Semaphore n
  /-- the waiters that have been woken -/
  woken : List (Waiter n)

namespace SemState

variable (s : SemState n)

def setTasks (ts : TaskTable n) : SemState n := { s with tasks := ts }

def setSem (f : Semaphore n → Semaphore n) : SemState n :=
  { s with sem := f s.sem }

def maxPrio (p : ℕ) : ℕ :=
  s.sem.waiters.foldl (fun p w => max p (s.tasks.prio w)) p

def inheritPriority (t : Fin n) : SemState n :=
  match s.sem.owner with
  | none => s
  | some o =>
    let p := s.maxPrio (s.tasks t).priority
    if (s.tasks o).priority < p then
      (s.setSem (fun q =>
        { q with
          holderPriority :=
            if q.holderPriority = 0 then (s.tasks o).priority else q.holderPriority })).setTasks
        (s.tasks.setPriority o p)
    else s

def restorePriority : SemState n :=
  match s.sem.owner with
  | none => s
  | some o =>
    let saved := s.sem.holderPriority
    let remaining := s.maxPrio 0
    if saved = 0 then s
    else if saved < remaining then s.setTasks (s.tasks.setPriority o remaining)
    else (s.setSem (fun q => { q with holderPriority := 0 })).setTasks
      (s.tasks.setPriority o saved)

/-- A token is taken; `wait` makes the task that takes the last one the owner. -/
def take (owner : Option (Fin n)) : SemState n :=
  s.setSem (fun q => { q with count := q.count - 1, owner := owner })

/-- A round of `wait`, or `wait_err`, which looks at the table before it lends the priority. -/
def wait (t : Fin n) (err : Bool) : SemState n × SyncError :=
  if 0 < s.sem.count then
    (s.take (if s.sem.count = 1 then some t else s.sem.owner), .ok)
  else if err ∧ maxWaiters ≤ s.sem.waiters.length then (s, .maxWaiters)
  else
    let s := s.inheritPriority t
    if maxWaiters ≤ s.sem.waiters.length then (s, .maxWaiters)
    else
      ((s.setSem (fun q => { q with waiters := q.waiters ++ [s.tasks.waiter t] })).setTasks
        (s.tasks.setState t .blocked), .ok)

def tryWait : SemState n × SyncError :=
  if 0 < s.sem.count then (s.take s.sem.owner, .ok) else (s, .queueEmpty)

def removeWaiter (t : Fin n) : SemState n :=
  match s.sem.waiters.findIdx? (· = s.tasks.waiter t) with
  | none => s
  | some i => s.setSem (fun q => { q with waiters := WaitArray.swapRemove q.waiters i })

def rollback (t : Fin n) : SemState n :=
  (s.removeWaiter t).setTasks (s.tasks.setState t .running)

/-- `wake_one` on the array: a single waiter is treated on its own. -/
def wakeOneOf (ts : TaskTable n) (l : List (Waiter n)) : List (Waiter n) × Option (Waiter n) :=
  match WaitArray.purge ts.current l with
  | [] => ([], none)
  | [w] => ([], if ts.awakeable w then some w else none)
  | w :: v :: l =>
    match WaitArray.best (fun _ => true) ts.prio (w :: v :: l) with
    | none => (w :: v :: l, none)
    | some (i, b) =>
      (WaitArray.swapRemove (w :: v :: l) i, if ts.awakeable b then some b else none)

def wakeOne : SemState n :=
  let r := wakeOneOf s.tasks s.sem.waiters
  { tasks := s.tasks.setReady r.2
    sem := { s.sem with waiters := r.1 }
    woken := r.2.toList ++ s.woken }

def give : SemState n :=
  s.setSem (fun q =>
    { q with count := q.count + 1, owner := if q.count = 0 then none else q.owner })

def post : SemState n :=
  if s.sem.waiters ≠ [] then s.wakeOne.restorePriority
  else if s.sem.count < s.sem.maxCount then s.give
  else s

def postErr : SemState n × SyncError :=
  if s.sem.waiters ≠ [] then (s.wakeOne.restorePriority, .ok)
  else if s.sem.count < s.sem.maxCount then (s.give, .ok)
  else (s, .bufferFull)

theorem wakeOneOf_eq (ts : TaskTable n) (l : List (Waiter n)) : wakeOneOf ts l = ts.wakeOne l := by
  unfold wakeOneOf TaskTable.wakeOne TaskTable.choice
  generalize WaitArray.purge ts.current l = l'
  split
  · rfl
  · rfl
  · rename_i w v l''
    cases hb : WaitArray.best (fun _ => true) ts.prio (w :: v :: l'') with
    | none => exact absurd (WaitArray.best_eq_none_iff.mp hb w List.mem_cons_self) Bool.noConfusion
    | some b => rfl

end SemState

inductive SemAction (n : ℕ)
  | wait (t : Fin n) (err : Bool)
  | rollback (t : Fin n)
  | tryWait
  | post
  | removeWaiter (t : Fin n)
  /-- another wake-up of the task -/
  | ready (t : Fin n)
  | terminate (t : Fin n)
  | reap (t : Fin n)
  | recycle (t : Fin n) (priority : ℕ)

namespace SemState

def step (s : SemState n) : SemAction n → Option (SemState n)
  | .wait t err => if s.tasks.runs t then some (s.wait t err).1 else none
  | .rollback t => if (s.tasks t).state = .blocked then some (s.rollback t) else none
  | .tryWait => some s.tryWait.1
  | .post => some s.post
  | .removeWaiter t => some (s.removeWaiter t)
  | .ready t => if s.tasks.live t then some (s.setTasks (s.tasks.setState t .ready)) else none
  | .terminate t =>
    if s.tasks.live t then some (s.setTasks (s.tasks.setState t .terminated)) else none
  | .reap t =>
    if (s.tasks t).state = .terminated then
      some ((s.removeWaiter t).setTasks (s.tasks.setState t .reaped))
    else none
  | .recycle t priority =>
    if (s.tasks t).state = .reaped then some (s.setTasks (s.tasks.recycle t priority)) else none

/-- The semaphore is as `init` leaves it. -/
structure Start (s : SemState n) : Prop where
  waiters : s.sem.waiters = []
  owner : s.sem.owner = none
  holder : s.sem.holderPriority = 0
  woken : s.woken = []

def tokens (s : SemState n) : ℕ := s.sem.count + s.woken.length

/-- A token given to the semaphore can be used: someone waits for it, or there is room. -/
def wanted (s : SemState n) : Bool :=
  s.tasks.hasLive s.sem.waiters || s.sem.count < s.sem.maxCount

theorem restorePriority_tokens (s : SemState n) : s.restorePriority.tokens = s.tokens := by
  unfold restorePriority
  split
  · rfl
  · simp only
    split_ifs
    all_goals rfl

theorem wakeOne_tokens (s : SemState n) :
    s.wakeOne.tokens = s.tokens + (s.tasks.wakeOne s.sem.waiters).2.toList.length := by
  unfold wakeOne tokens
  rw [wakeOneOf_eq]
  simp only [List.length_append]
  omega

theorem post_tokens_of_waiters {s : SemState n} (h : s.sem.waiters ≠ []) :
    s.post.tokens = s.tokens + (s.tasks.wakeOne s.sem.waiters).2.toList.length := by
  rw [post, if_pos h, restorePriority_tokens, wakeOne_tokens]

/-- A post adds one token, up to the maximum, exactly if nobody is in the array, the waiter that is
chosen is alive, or the token is not wanted. -/
theorem post_tokens_iff (s : SemState n) : s.post.tokens = s.tokens + (if s.wanted then 1 else 0) ↔
      s.sem.waiters = [] ∨ s.tasks.Served s.sem.waiters ∨ s.wanted = false := by
  by_cases hwaiters : s.sem.waiters = []
  · have hwanted : s.wanted = decide (s.sem.count < s.sem.maxCount) := by
      simp [wanted, hwaiters, TaskTable.hasLive]
    refine ⟨fun _ => .inl hwaiters, fun _ => ?_⟩
    rw [hwanted, post, if_neg (not_not.mpr hwaiters)]
    by_cases hroom : s.sem.count < s.sem.maxCount
    · have hgive : s.give.tokens = s.tokens + 1 := Nat.add_right_comm ..
      simp [hroom, hgive]
    · simp [hroom]
  · rw [post_tokens_of_waiters hwaiters]
    by_cases hserved : s.tasks.Served s.sem.waiters
    · have hwanted : s.wanted = true := by
        rw [wanted, TaskTable.hasLive_of_served hserved, Bool.true_or]
      obtain ⟨w, hw⟩ := Option.isSome_iff_exists.mp (TaskTable.wakeOne_isSome_iff.mpr hserved)
      simp [hwanted, hw, hserved]
    · have hnone : (s.tasks.wakeOne s.sem.waiters).2 = none := by
        rw [← Option.not_isSome_iff_eq_none]
        exact fun h => hserved (TaskTable.wakeOne_isSome_iff.mp h)
      cases hwanted : s.wanted with
      | true => simp [hnone, hwaiters, hserved]
      | false => simp [hnone]

end SemState

end Nexios.Sync
