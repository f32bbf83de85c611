import Nexios.Lib.Fifo
import Nexios.Sched.Task

/-!
# The reclamation of terminated tasks

The paths by which a control block is torn down and given back to its pool: `terminate_err` with
`release_zombie`, the functions that take zombies off the list (`flush_zombies`,
`drain_zombie_list`, `cleanup_step` and its try-lock form), `reap_orphans`, and the collection of a
child in `sys_waitpid` and of a thread in `sys_thread_join`.

Each call runs in a context, and a context that has a task in its hands is a `Job`: the stages still
to come. An action takes one context one stage further, so the runs are all interleavings.
`reap_orphans` runs in context 0 only, the tail of the boot CPU's tick. A terminate holds the global
lock from the mark to the push; everything else takes it for one stage or not at all. The list is
changed under its leaf lock, so each change is one stage.

A task of the model is one use of a control block: a block that is freed and used again is another
task. `cleanups` and `frees` count what has been done to it. The idle task does not end.
-/

open Function

namespace Nexios.Reap

open Sched (TaskState)

variable {n k m : ℕ}

/-- What the teardown of a control block is about. `magic` is whether the block carries `TCB_MAGIC`:
it is allocated and not freed. `queued` stands for `in_ready_queue_` and `in_edf_queue_`. -/
structure Block where
  magic : Bool
  state : TaskState
  teardownClaimed : Bool
  teardownCompleted : Bool
  queued : Bool
  inTable : Bool
  inRegistry : Bool
  cleanups : ℕ
  frees : ℕ

/-- The fields of a control block that decide who collects it; `joinWaiter` is whether a joiner is
registered. -/
structure Tcb (n : ℕ) extends Block where
  parent : Option (Fin n)
  isThread : Bool
  joinWaiter : Bool
  joinReaped : Bool

namespace Tcb

/-- `id_table_remove` and `all_tasks_.remove` -/
def unlist (x : Tcb n) : Tcb n := { x with inTable := false, inRegistry := false }

/-- `dequeue_ready` -/
def dequeue (x : Tcb n) : Tcb n := { x with queued := false }

/-- `thread_join_try_claim`, where it succeeds; the claim of other tasks is not used. -/
def takeJoin (x : Tcb n) : Tcb n := { x with joinReaped := x.isThread || x.joinReaped }

def created (parent : Option (Fin n)) (isThread : Bool) : Tcb n where
  magic := true
  state := .ready
  parent := parent
  isThread := isThread
  joinWaiter := false
  joinReaped := false
  teardownClaimed := false
  teardownCompleted := false
  queued := true
  inTable := true
  inRegistry := true
  cleanups := 0
  frees := 0

end Tcb

inductive Stage
  /-- the test of `magic` in `flush_zombies` -/
  | check
  /-- `child->state == TERMINATED` -/
  | look
  /-- `thread_join_try_claim`, for a thread -/
  | joinClaim
  | copyStatus
  /-- `remove_child` -/
  | detach
  /-- the removals of `reap_orphans` -/
  | unlist
  /-- `try_claim_teardown` -/
  | claim
  /-- `cleanup` up to `complete_teardown` -/
  | clean
  /-- `complete_teardown` -/
  | finish
  /-- `remove_task` -/
  | remove
  | free
  deriving DecidableEq

inductive Kind
  | flush
  | drain
  | reap
  | waitpid
  | join
  deriving DecidableEq

def Kind.program : Kind → List Stage
  | .flush => [.check, .clean, .finish, .free]
  | .drain => [.claim, .clean, .finish, .free]
  | .reap => [.unlist, .claim, .clean, .finish, .free]
  | .waitpid | .join =>
    [.look, .joinClaim, .copyStatus, .detach, .clean, .finish, .remove, .claim, .free]

inductive Job (n : ℕ)
  | idle
  /-- a terminate that has stored TERMINATED -/
  | unlisting (t : Fin n)
  /-- `release_zombie` before the push -/
  | pushing (t : Fin n)
  /-- the first loop of `reap_orphans` -/
  | collecting (todo : List (Fin n))
  /-- `todo` is what the second loop of `reap_orphans` has left -/
  | hand (kind : Kind) (t : Fin n) (rest : List Stage) (todo : List (Fin n))
  deriving DecidableEq

/-- The next task of the second loop of `reap_orphans`. -/
def Job.next : List (Fin n) → Job n
  | [] => .idle
  | t :: todo => .hand .reap t Kind.reap.program todo

/-- The holder of `scheduler_lock_`. -/
def Job.locks : Job n → Bool
  | .unlisting _ | .pushing _ => true
  | _ => false

/-- `pinned` is `MemPool::is_block_pinned`; a snapshot pins blocks, nothing here does. -/
structure State (n k m : ℕ) where
  tcb : Fin n → Tcb n
  current : Fin (k + 1) → Fin n
  zombies : Fifo (Fin n)
  job : Fin (m + 1) → Job n
  idle : Fin n
  pinned : Fin n → Bool

inductive Sweep
  | flush
  | drain
  | cleanupStep
  deriving DecidableEq

namespace State

variable {s : State n k m}

variable (s : State n k m)

def modify (t : Fin n) (f : Tcb n → Tcb n) : State n k m :=
  { s with tcb := update s.tcb t (f (s.tcb t)) }

def setJob (c : Fin (m + 1)) (j : Job n) : State n k m :=
  { s with job := update s.job c j }

/-- `is_current_on_any_cpu` -/
def Current (t : Fin n) : Prop := ∃ p, s.current p = t
  deriving Decidable

def locked : Prop := ∃ c, (s.job c).locks
  deriving Decidable

/-- `terminate_err` leaves alone a task that runs on another CPU. -/
def refuses (p : Fin (k + 1)) (t : Fin n) : Prop :=
  s.Current t ∧ s.current p ≠ t
  deriving Decidable

def leave (p : Fin (k + 1)) : State n k m :=
  if (s.tcb (s.current p)).state = .running then
    s.modify (s.current p) fun x => { x with state := .ready, queued := true }
  else s

def dispatch (p : Fin (k + 1)) (t : Fin n) : State n k m :=
  let s := (s.leave p).modify t fun x => { x with state := .running, queued := false }
  { s with current := update s.current p t }

/-- `terminate_err` up to `release_zombie`, with the global lock taken. -/
def terminate (c : Fin (m + 1)) (t : Fin n) : State n k m :=
  (s.modify t fun x => { x.dequeue with state := .terminated }).setJob c (.unlisting t)

def sweep (c : Fin (m + 1)) (w : Sweep) : State n k m :=
  match s.zombies.head with
  | none => s
  | some t =>
    if !(s.tcb t).magic then { s with zombies := { s.zombies with head := none, tail := none } }
    else if s.Current t ∨ s.pinned t then
      match w with
      | .flush => { s with zombies := s.zombies.rotate t }
      | .drain =>
        if s.zombies.next t = none ∨ s.zombies.tail = some t then s
        else { s with zombies := s.zombies.rotate t }
      | .cleanupStep => s
    else
      let kind := if w = .flush then Kind.flush else Kind.drain
      ({ s with zombies := s.zombies.pop t }.modify t Tcb.dequeue).setJob c
        (.hand kind t kind.program [])

/-- The children of `t` go to the idle task, which is the first task of the registry. -/
def adopt (t : Fin n) : State n k m :=
  { s with tcb := fun u =>
      if (s.tcb u).parent = some t then { s.tcb u with parent := some s.idle } else s.tcb u }

/-- `can_reap` before the claim of a thread. A pinned task fails the first test, and then the lookup
of its parent decides; id 0 is in no table. -/
def canReap (t : Fin n) : Bool :=
  let orphan : Bool := match (s.tcb t).parent with
    | none => true
    | some q => q = s.idle ∧ (s.tcb q).state = .running
  if orphan && !s.pinned t then true
  else match (s.tcb t).parent with
    | none => true
    | some q => if (s.tcb q).inTable then (s.tcb q).state = .terminated else true

def joinLost (t : Fin n) : Bool := (s.tcb t).isThread && (s.tcb t).joinReaped

/-- The tests that `reap_orphans` makes before it looks at the parent; it runs on CPU 0. -/
def ended (t : Fin n) : Prop :=
  (s.tcb t).magic ∧ (s.tcb t).state = .terminated ∧ s.current 0 ≠ t
  deriving Decidable

/-- `reap_orphans` takes `t`. -/
def reaps (t : Fin n) : Prop :=
  s.ended t ∧ (s.adopt t).canReap t ∧ !(s.joinLost t)
  deriving Decidable

/-- The first loop of `reap_orphans` comes to `t`. -/
def select (t : Fin n) (todo : List (Fin n)) : State n k m :=
  if s.reaps t then ((s.adopt t).modify t Tcb.takeJoin).setJob 0 (.collecting (todo ++ [t]))
  else if s.ended t then s.adopt t
  else s

/-- One stage of the job of `c`. `choice` is what the stage finds: that the copy to user space
succeeds, that `unregister_task` gets the lock it tries. -/
def perform (c : Fin (m + 1)) (choice : Bool) (kind : Kind) (t : Fin n)
    (todo : List (Fin n)) (rest : List Stage) : Stage → Option (State n k m)
  | .check => if (s.tcb t).magic then go s else drop s
  | .look => if (s.tcb t).state = .terminated then go s else drop s
  | .joinClaim => if s.joinLost t then drop s else go (s.modify t Tcb.takeJoin)
  | .copyStatus =>
    if choice then go s
    -- `sys_thread_join` gives its claim back, `sys_waitpid` does not
    else if kind = .join then drop (s.modify t fun x => { x with joinReaped := false })
    else drop s
  | .detach => go (s.modify t fun x => { x with parent := none })
  | .unlist => go (s.modify t fun x => x.dequeue.unlist)
  | .claim =>
    if (s.tcb t).magic ∧ !(s.tcb t).teardownClaimed then
      go (s.modify t fun x => { x with teardownClaimed := true })
    else drop s
  | .clean =>
    if !(s.tcb t).magic ∨ (s.tcb t).teardownCompleted then skip s
    else if s.pinned t then skip (s.modify t fun x => { x with state := .reaped })
    else go (s.modify t fun x => { x with state := .reaped, cleanups := x.cleanups + 1 })
  | .finish =>
    if choice then
      if s.locked then none
      else go (s.modify t fun x =>
        { x.dequeue.unlist with parent := none, teardownCompleted := true })
    else go (s.modify t fun x => { x with parent := none, teardownCompleted := true })
  | .remove =>
    if s.locked then none
    else go (s.modify t fun x => if x.magic then x.dequeue.unlist else { x with inRegistry := false })
  | .free =>
    if s.pinned t then
      -- only `destroy` releases the claim of a block that it keeps
      if kind = .waitpid ∨ kind = .join then
        drop (s.modify t fun x => { x with teardownClaimed := false })
      else drop s
    else drop (s.modify t fun x => { x with magic := false, frees := x.frees + 1 })
where
  go (s : State n k m) : Option (State n k m) := some (s.setJob c (.hand kind t rest todo))
  skip (s : State n k m) : Option (State n k m) := some (s.setJob c (.hand kind t rest.tail todo))
  drop (s : State n k m) : Option (State n k m) := some (s.setJob c (Job.next todo))

def advance (c : Fin (m + 1)) (choice : Bool) : Option (State n k m) :=
  match s.job c with
  | .idle | .collecting _ | .hand _ _ [] _ => none
  | .unlisting t => some ((s.modify t Tcb.unlist).setJob c (.pushing t))
  | .pushing t => some ({ s with zombies := s.zombies.push t }.setJob c .idle)
  | .hand kind t (g :: rest) todo => s.perform c choice kind t todo rest g

end State

def maxReap : ℕ := 64

inductive Action (n k m : ℕ)
  /-- a control block is allocated for a new task -/
  | create (t : Fin n) (parent : Option (Fin n)) (isThread : Bool)
  | dispatch (p : Fin (k + 1)) (t : Fin n)
  /-- the task on CPU `p` blocks -/
  | block (p : Fin (k + 1))
  | wake (t : Fin n)
  /-- a joiner of `t` registers, or leaves -/
  | joiner (t : Fin n) (present : Bool)
  /-- the store of TERMINATED in `sys_exit` or `sys_thread_exit` of the task on CPU `p` -/
  | exit (p : Fin (k + 1))
  /-- `sys_exit` hands over the children of `t` -/
  | rehome (t : Fin n)
  /-- `sys_exit` or `wake_waiting_parent` finds the parent waiting but not blocked -/
  | orphan (t : Fin n)
  /-- `terminate_err`, called on CPU `p` -/
  | terminate (c : Fin (m + 1)) (p : Fin (k + 1)) (t : Fin n)
  | sweep (c : Fin (m + 1)) (w : Sweep)
  /-- `reap_orphans` begins -/
  | reapOrphans
  | select (t : Fin n)
  /-- the first loop of `reap_orphans` ends -/
  | destroy
  /-- the scan of `sys_waitpid`, called by the task on CPU `p`, comes to `t` -/
  | waitpid (c : Fin (m + 1)) (p : Fin (k + 1)) (t : Fin n)
  /-- `sys_thread_join` has resolved its handle -/
  | join (c : Fin (m + 1)) (t : Fin n)
  | advance (c : Fin (m + 1)) (choice : Bool)
  deriving DecidableEq

def step (s : State n k m) : Action n k m → Option (State n k m)
  | .create t parent isThread =>
    if (s.tcb t).magic = false ∧ (s.tcb t).frees = 0 then
      some (s.modify t fun _ => .created parent isThread)
    else none
  | .dispatch p t =>
    if (s.tcb t).queued ∧ (s.tcb t).state = .ready then some (s.dispatch p t) else none
  | .block p =>
    if (s.tcb (s.current p)).state = .running then
      some (s.modify (s.current p) fun x => { x with state := .blocked })
    else none
  | .wake t =>
    if (s.tcb t).magic ∧ (s.tcb t).state = .blocked then
      some (s.modify t fun x => { x with state := .ready, queued := true })
    else none
  | .joiner t present =>
    if (s.tcb t).inTable then some (s.modify t fun x => { x with joinWaiter := present }) else none
  | .exit p =>
    if (s.tcb (s.current p)).state = .running ∧ s.current p ≠ s.idle then
      some (s.modify (s.current p) fun x => { x with state := .terminated })
    else none
  | .rehome t => if (s.tcb t).state = .terminated then some (s.adopt t) else none
  | .orphan t =>
    if (s.tcb t).state = .terminated then some (s.modify t fun x => { x with parent := none })
    else none
  | .terminate c p t =>
    if s.job c = .idle ∧ (s.tcb t).magic ∧ t ≠ s.idle then
      if s.refuses p t then some s
      else if s.locked then none
      else some (s.terminate c t)
    else none
  | .sweep c w => if s.job c = .idle then some (s.sweep c w) else none
  | .reapOrphans => if s.job 0 = .idle then some (s.setJob 0 (.collecting [])) else none
  | .select t =>
    match s.job 0 with
    | .collecting todo =>
      if (s.tcb t).inRegistry ∧ t ∉ todo ∧ todo.length < maxReap then some (s.select t todo)
      else none
    | _ => none
  | .destroy =>
    match s.job 0 with
    | .collecting todo => some (s.setJob 0 (Job.next todo))
    | _ => none
  | .waitpid c p t =>
    if s.job c = .idle ∧ (s.tcb t).inRegistry ∧ (s.tcb t).parent = some (s.current p) ∧
        !((s.tcb t).isThread && (s.tcb t).joinWaiter) then
      some (s.setJob c (.hand .waitpid t Kind.waitpid.program []))
    else none
  | .join c t =>
    if s.job c = .idle ∧ (s.tcb t).inTable ∧ (s.tcb t).isThread then
      some (s.setJob c (.hand .join t Kind.join.program []))
    else none
  | .advance c choice => s.advance c choice

end Nexios.Reap
