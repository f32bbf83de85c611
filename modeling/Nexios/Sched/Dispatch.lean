import Nexios.Sched.Routing

/-!
# The dispatch decision

`next_task`, the starvation breaker, `switch_to_task` and `rate_monotonic_schedule`, and the two
ways a pending switch ends: it is applied (`scheduler_on_context_switch`) or dropped
(`scheduler_validate_pending_switch`).

The special treatment of the test harness and of a stack pointer that belongs to another task is
left out; `frameOk` says that the saved frame of the picked task passes the check before a switch.
-/

open Function

namespace Nexios.Sched.Scheduler

variable {n k : ℕ}

variable (here : Cpu k) (s : Scheduler n k)

/-- The head conditions of `edf_peek_valid_own`. -/
def edfValid (c : Cpu k) (t : Fin n) : Bool :=
  (s.tcb t).edfEligible && (s.tcb t).runnable && s.home t = c

def edfPeekValidOwn :
    Option (Scheduler n k × Option (Fin n)) := do
  let (edf, found) ← EdfLists.peekValid (s.edfValid here) here n s.edf
  some ({ s with edf }, found)

/-- The conditions of `edf_preempt_candidate` on the first task of the list. -/
def edfPreempts (here : Cpu k) (e : Fin n) : Bool :=
  match s.current here with
  | none => true
  | some cur =>
    e ≠ cur && (!(s.tcb cur).runnable || !(s.tcb cur).edfEligible || s.earlier e cur)

def edfPreemptCandidate :
    Option (Scheduler n k × Option (Fin n)) := do
  let (s, found) ← s.edfPeekValidOwn here
  some (s, found.filter (s.edfPreempts here))

/-- A queued task that `next_task` may pick; the others are dropped when they come up. -/
def dispatchable (here : Cpu k) (t : Fin n) : Bool :=
  s.current here ≠ some t && (s.tcb t).runnable && s.home t = here

/-- The candidate loop of `next_task`. -/
def pickHighest (here : Cpu k) : ℕ → Scheduler n k → Option (Scheduler n k × Option (Fin n))
  | fuel, s =>
    match s.rq.peekHighest here with
    | none => some (s, none)
    | some t =>
      let next := { s with rq := (s.rq.dequeueHighest here).1 }
      if s.dispatchable here t then some (next, some t)
      else
        match fuel with
        | 0 => none
        | fuel + 1 => pickHighest here fuel next

def nextTask : Option (Scheduler n k × Option (Fin n)) :=
  if s.allTasks.length ≤ 1 then some (s, s.idle here)
  else do
    let (s, candidate) ← s.edfPreemptCandidate here
    match candidate with
    | some e => some ({ s with edf := s.edf.remove here e }, some e)
    | none =>
      let (s, picked) ← pickHighest here n s
      some (s, picked <|> s.idle here)

/-- The loop of `next_task_below`; each round drops a task or clears a stale bit. -/
def nextTaskBelow (here : Cpu k) (top : ℕ) :
    ℕ → Scheduler n k → Option (Scheduler n k × Option (Fin n))
  | fuel, s =>
    if !(s.rq.bitmap here).hasReady then some (s, none)
    else
      match (s.rq.bitmap here).highestStarvableBelow top with
      | none => some (s, none)
      | some level =>
        let (rq, popped) := s.rq.dequeueLevel here level
        let s := { s with rq }
        match popped.filter (s.dispatchable here), fuel with
        | some t, _ => some (s, some t)
        | none, 0 => none
        | none, fuel + 1 => nextTaskBelow here top fuel s

/-- The level that is watched for starving others, and for how many decisions it has been. -/
def starveNext (here : Cpu k) : Option ℕ × ℕ :=
  let top := (s.rq.bitmap here).getHighestPriority
  if top = 0 ∨ (s.rq.bitmap here).highestStarvableBelow top = none then (some top, 0)
  else if s.starveLevel here = some top then (some top, s.starveTicks here + 1)
  else (some top, 1)

def setStarve (here : Cpu k) (level : Option ℕ) (ticks : ℕ) :
    Scheduler n k :=
  { s with
    starveLevel := update s.starveLevel here level
    starveTicks := update s.starveTicks here ticks }

/-- The forced pick below the top level; a task of the deadline list that preempts goes first. -/
def forceBelow :
    Option (Scheduler n k × Option (Fin n)) := do
  let (s, candidate) ← s.edfPreemptCandidate here
  match candidate with
  | some _ => some (s, none)
  | none => nextTaskBelow here (s.rq.bitmap here).getHighestPriority (n + 128) s

/-- The bounded starvation breaker: after `starvationBreakerTicks` decisions in favour of the same
level while a lower one waits, one task below that level is picked. -/
def breaker : Option (Scheduler n k × Option (Fin n)) :=
  let (level, ticks) := s.starveNext here
  if starvationBreakerTicks ≤ ticks then do
    let (s, forced) ← s.forceBelow here
    some (s.setStarve here none 0, forced)
  else some (s.setStarve here level ticks, none)

/-- The current task of an abandoned switch leaves the ready queue and runs on. -/
def resumeCurrent (cur : Fin n) : Option (Scheduler n k) := do
  let s ← if s.rq.inReadyQueue cur then s.dequeueReady cur else some s
  some (if (s.tcb cur).state = .ready then s.setState cur .running else s)

/-- `restore_preempted_current`: a switch that was armed and is not applied is undone. -/
def restorePreemptedCurrent (cur : Fin n) (armed : ℕ) :
    Option (Scheduler n k) := do
  let s ← s.resumeCurrent cur
  if armed = 0 then some s
  else
    match s.findTask armed with
    | none => some s
    | some target =>
      if target ≠ cur ∧ !s.isIdleTask target ∧ (s.tcb target).runnable then
        s.setTaskReady here target
      else some s

/-- A wake-up that was deferred while the task was current takes effect. -/
def consumeDeferral (cur : Fin n) : Option (Scheduler n k) :=
  if (s.tcb cur).readyDeferred then
    let s := s.setDeferred cur false
    if !s.queued cur && (s.tcb cur).runnable then (s.setState cur .ready).enqueueReadyInner cur
    else some s
  else some s

/-- The part of `switch_to_task` that puts the outgoing task back into the queues. -/
def requeueCurrent (cur : Fin n) :
    Option (Scheduler n k) :=
  if (s.tcb cur).state = .running then
    ((s.setState cur .ready).enqueueReady here cur).bind (fun s => s.consumeDeferral cur)
  else s.consumeDeferral cur

def switchToTask (cur next : Fin n) (frameOk : Bool) :
    Option (Scheduler n k) :=
  if !(s.tcb next).runnable || cur = next then some s
  else if !frameOk then
    if s.isIdleTask next then some s else s.setTaskReady here next
  else do
    let s ← s.requeueCurrent here cur
    let s := s.setState next .running
    some { s with armed := update s.armed here (some (s.tcb next).id) }

def parkCurrent (cur : Fin n) (park : Bool) : Option (Scheduler n k) :=
  if park && (s.tcb cur).state = .running then (s.setState cur .blocked).dequeueReady cur else some s

def clearArm (cur : Fin n) : Option (Scheduler n k) :=
  match s.armed here with
  | none => some s
  | some id =>
    restorePreemptedCurrent here { s with armed := update s.armed here none } cur id

/-- The first part of `rate_monotonic_schedule`. -/
def settle (cur : Fin n) (park : Bool) :
    Option (Scheduler n k) :=
  (s.parkCurrent cur park).bind (fun s => s.clearArm here cur)

/-- The task `rate_monotonic_schedule` goes for: a forced pick of the breaker, or the strict one. -/
def choose : Option (Scheduler n k × Option (Fin n)) := do
  let (s, forced) ← s.breaker here
  match forced with
  | some t => some (s, some t)
  | none => s.nextTask here

/-- The switch to it, unless it is the current task or the current task would yield to idle. -/
def turnTo (cur : Fin n) (next : Option (Fin n)) (frameOk : Bool) : Option (Scheduler n k) :=
  match next with
  | none => some s
  | some next =>
    if next ≠ cur ∧ ¬ (s.idle here = some next ∧ (s.tcb cur).state = .running) then
      s.switchToTask here cur next frameOk
    else some s

def decide (cur : Fin n) (frameOk : Bool) :
    Option (Scheduler n k) := do
  let (s, next) ← s.choose here
  let s ← s.turnTo here cur next frameOk
  some { s with needResched := update s.needResched here false }

/-- `rate_monotonic_schedule` with the lock taken. -/
def rateMonotonicSchedule (park frameOk : Bool) :
    Option (Scheduler n k) :=
  if s.allTasks.length ≤ 1 then some s
  else
    match s.current here with
    | none => some s
    | some cur => (s.settle here cur park).bind (fun s => s.decide here cur frameOk)

def reschedule : Option (Scheduler n k) :=
  if s.allTasks.length ≤ 1 then some s
  else
    match s.current here with
    | none => some s
    | some cur => do
      let arm (s : Scheduler n k) : Scheduler n k :=
        { s with needResched := update s.needResched here true }
      let next := s.rq.peekHighest here
      let (s, candidate) ← s.edfPreemptCandidate here
      match candidate, next with
      | some _, _ => some (arm s)
      | none, none => some s
      | none, some next =>
        if next = cur ∨ (s.idle here = some next ∧ (s.tcb cur).state = .running) ∨
            !(s.tcb next).runnable then some s
        else some (arm s)

/-- `scheduler_on_context_switch` -/
def applySwitch : Scheduler n k :=
  match s.armed here with
  | none => s
  | some id =>
    let s := { s with armed := update s.armed here none }
    match s.findTask id with
    | none => s
    | some t => { s with current := update s.current here (some t) }

def wakeTarget (id : ℕ) : Option (Scheduler n k) :=
  match s.findTask id with
  | none => some s
  | some target =>
    if !s.isIdleTask target ∧ s.current here ≠ some target ∧ (s.tcb target).runnable then
      s.setTaskReady here target
    else some s

/-- The abort path of `scheduler_validate_pending_switch`, taken on CPU 0 only. -/
def dropArm : Option (Scheduler n k) :=
  match s.armed here with
  | none => some s
  | some id =>
    if here ≠ 0 then some s
    else
      let s := { s with armed := update s.armed here none }
      match s.current here with
      | none => s.wakeTarget here id
      | some cur => (s.resumeCurrent cur).bind (fun s => s.wakeTarget here id)

end Nexios.Sched.Scheduler
