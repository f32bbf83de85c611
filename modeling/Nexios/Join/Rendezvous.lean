import Nexios.Sched.Task

/-!
# The join rendezvous

`sys_thread_join` and the hand-off of a terminating thread, `thread_join_note_termination`, at the
grain of their accesses to shared fields. A thread names the task that joins it in `join_waiter_`; a
joiner names the thread in `join_target_id_` and has a latch, `join_status_` with `join_ready_`,
that the hand-off fills. The claim `join_reaped_` decides who reaps a terminated thread.

A call of `sys_thread_join` is a program counter `Pc` of the joiner, the termination of a thread a
`Handoff`; every action takes one of them one step further, so the runs are all interleavings. The
handle of a call stands for the thread it names. Whether the capability is still there, and whether
the copy to user space succeeds, is left open (the Boolean of `Action.advance`); a call without a
status pointer is one whose copies succeed.
-/

open Function

namespace Nexios.Join

open Sched (TaskState)

variable {n : ℕ}

/-- The fields of a control block that the rendezvous reads; `registered` is whether `find_task`
finds the task. -/
structure Tcb (n : ℕ) where
  state : TaskState
  exitCode : BitVec 64
  isThread : Bool
  registered : Bool
  joinWaiter : Option (Fin n)
  joinTargetId : Option (Fin n)
  joinStatus : BitVec 64
  joinReady : Bool
  joinDetached : Bool
  joinReaped : Bool

inductive Handoff (n : ℕ)
  | live
  /-- TERMINATED is stored, the exit code is not -/
  | storeCode (code : BitVec 64)
  | loadSlot
  | checkTarget (joiner : Fin n)
  | storeStatus (joiner : Fin n)
  | storeReady (joiner : Fin n)
  | wake (joiner : Fin n)
  | finished
  deriving DecidableEq

/-- What follows `thread_join_unregister`. -/
inductive After
  | again
  | fail
  | ok
  deriving DecidableEq

/-- The next step of a call of `sys_thread_join`; `slot` is the value of the target's `join_waiter_`
that the pass has read. -/
inductive Pc (n : ℕ)
  | out
  | pass
  | gone
  | checks
  | detach (slot : Option (Fin n))
  | reapDetached
  | walk (slot : Option (Fin n))
  | look (slot : Option (Fin n))
  | collect
  | reap (code : BitVec 64)
  | forget (code : BitVec 64)
  | latch (slot : Option (Fin n))
  | status
  | clearReady (code : BitVec 64)
  | clearId (code : BitVec 64)
  | register (slot : Option (Fin n))
  | storeId
  | block
  | wait
  | unregisterSlot (after : After)
  | unregisterId (after : After)
  deriving DecidableEq

structure Call (n : ℕ) where
  target : Fin n
  detaching : Bool
  deriving DecidableEq

inductive Answer (n : ℕ)
  | failed
  | detached
  | joined (target : Fin n) (status : BitVec 64)
  deriving DecidableEq

structure State (n : ℕ) where
  tcb : Fin n → Tcb n
  handoff : Fin n → Handoff n
  pc : Fin n → Pc n
  call : Fin n → Call n
  answer : Fin n → Option (Answer n)

def walkBound : ℕ := 64

namespace State

variable (s : State n) {t : Fin n}

def modify (t : Fin n) (f : Tcb n → Tcb n) : State n :=
  { s with tcb := update s.tcb t (f (s.tcb t)) }

theorem modify_self (t : Fin n) (f : Tcb n → Tcb n) :
    (s.modify t f).tcb t = f (s.tcb t) := update_self ..

theorem modify_ne {i : Fin n} (f : Tcb n → Tcb n) (h : i ≠ t) :
    (s.modify t f).tcb i = s.tcb i := update_of_ne h ..

theorem modify_field {β : Type*} (π : Tcb n → β) {s : State n} {f : Tcb n → Tcb n}
    (h : π (f (s.tcb t)) = π (s.tcb t)) (i : Fin n) : π ((s.modify t f).tcb i) = π (s.tcb i) :=
  update_field π h i

def setHandoff (t : Fin n) (h : Handoff n) : State n :=
  { s with handoff := update s.handoff t h }

def setPc (j : Fin n) (p : Pc n) : State n :=
  { s with pc := update s.pc j p }

@[simp] theorem setPc_tcb (j : Fin n) (p : Pc n) : (s.setPc j p).tcb = s.tcb := rfl

def leave (j : Fin n) (a : Answer n) : State n :=
  { s.setPc j .out with answer := update s.answer j (some a) }

def target (s : State n) (j : Fin n) : Fin n := (s.call j).target

@[simp] theorem setPc_target (i j : Fin n) (p : Pc n) : (s.setPc j p).target i = s.target i := rfl

@[simp] theorem modify_target (i t : Fin n) (f : Tcb n → Tcb n) :
    (s.modify t f).target i = s.target i := rfl

def detaching (s : State n) (j : Fin n) : Bool := (s.call j).detaching

/-- The wait-for chain from `w` leads to `j`, or is not at its end after `walkBound` tasks. -/
def cyclic (s : State n) (j : Fin n) : ℕ → Fin n → Bool
  | 0, _ => true
  | depth + 1, w =>
    if !(s.tcb w).registered then false
    else match (s.tcb w).joinTargetId with
      | none => false
      | some next => if next = j then true else cyclic s j depth next

def afterUnregister (j : Fin n) : After → State n
  | .again => s.setPc j .pass
  | .fail => s.leave j .failed
  | .ok => s.leave j .detached

/-- `thread_join_unregister` up to the store to `join_target_id_`. -/
def unregisterSlot (j : Fin n) (after : After) : State n :=
  match (s.tcb j).joinTargetId with
  | none => s.afterUnregister j after
  | some t =>
    if (s.tcb t).registered ∧ (s.tcb t).joinWaiter = some j then
      (s.modify t fun x => { x with joinWaiter := none }).setPc j (.unregisterId after)
    else s.setPc j (.unregisterId after)

def checks (j : Fin n) : State n :=
  let t := s.tcb (s.target j)
  if s.detaching j then s.setPc j (.detach t.joinWaiter)
  else if s.target j = j then s.setPc j (.unregisterSlot .fail)
  else if t.joinDetached then s.setPc j (.unregisterSlot .fail)
  else if t.joinWaiter ≠ none ∧ t.joinWaiter ≠ some j then s.setPc j (.unregisterSlot .fail)
  else s.setPc j (.walk t.joinWaiter)

def detach (j : Fin n) (slot : Option (Fin n)) : State n :=
  let t := s.tcb (s.target j)
  if t.state = .terminated then
    -- `thread_join_try_claim`
    if t.joinReaped then s.setPc j (.unregisterSlot .fail)
    else (s.modify (s.target j) fun x => { x with joinReaped := true }).setPc j .reapDetached
  else if slot ≠ none then s.setPc j (.unregisterSlot .fail)
  else if t.joinDetached then s.setPc j (.unregisterSlot .fail)
  else (s.modify (s.target j) fun x => { x with joinDetached := true }).setPc j
    (.unregisterSlot .ok)

/-- The look at the target's state, with the claim of a terminated target. A lost claim falls
through to the latch. -/
def look (j : Fin n) (slot : Option (Fin n)) : State n :=
  let t := s.tcb (s.target j)
  if t.state = .terminated ∧ !t.joinReaped then
    (s.modify (s.target j) fun x => { x with joinReaped := true }).setPc j .collect
  else s.setPc j (.latch slot)

/-- The registration: the compare-exchange on the target's slot, unless an earlier pass made it. -/
def register (j : Fin n) (slot : Option (Fin n)) : State n :=
  let t := s.tcb (s.target j)
  if slot ≠ none then s.setPc j .block
  else if !t.registered then s.setPc j (.unregisterSlot .again)
  else if t.joinWaiter ≠ none then s.setPc j (.unregisterSlot .fail)
  else (s.modify (s.target j) fun x => { x with joinWaiter := some j }).setPc j .storeId

/-- One step of the call of `j`. -/
def advance (j : Fin n) (choice : Bool) : Option (State n) :=
  if (s.tcb j).state = .terminated then none
  else match s.pc j with
  | .out => none
  | .pass =>
    -- `thread_join_resolve`: `choice` is whether the capability is found
    let t := s.tcb (s.target j)
    some (s.setPc j (if choice && t.registered && t.isThread then .checks else .gone))
  | .gone => some (s.setPc j (if (s.tcb j).joinReady then .status else .unregisterSlot .fail))
  | .checks => some (s.checks j)
  | .detach slot => some (s.detach j slot)
  | .reapDetached =>
    some ((s.modify (s.target j) fun x => { x with registered := false }).setPc j
      (.unregisterSlot .ok))
  | .walk slot =>
    some (s.setPc j (if s.cyclic j walkBound (s.target j) then .unregisterSlot .fail
      else .look slot))
  | .look slot => some (s.look j slot)
  | .collect =>
    -- `choice` is whether the copy succeeds; if not, the claim is given back
    if choice then some (s.setPc j (.reap (s.tcb (s.target j)).exitCode))
    else some ((s.modify (s.target j) fun x => { x with joinReaped := false }).setPc j
      (.unregisterSlot .fail))
  | .reap code =>
    some ((s.modify (s.target j) fun x => { x with registered := false }).setPc j (.forget code))
  | .forget code =>
    some ((s.modify j fun x => { x with joinTargetId := none }).leave j (.joined (s.target j) code))
  | .latch slot => some (s.setPc j (if (s.tcb j).joinReady then .status else .register slot))
  | .status =>
    if choice then some (s.setPc j (.clearReady (s.tcb j).joinStatus))
    else some (s.leave j .failed)
  | .clearReady code =>
    some ((s.modify j fun x => { x with joinReady := false }).setPc j (.clearId code))
  | .clearId code =>
    some ((s.modify j fun x => { x with joinTargetId := none }).leave j
      (if s.detaching j then .detached else .joined (s.target j) code))
  | .register slot => some (s.register j slot)
  | .storeId =>
    some ((s.modify j fun x => { x with joinTargetId := some (s.target j) }).setPc j .block)
  | .block => some ((s.modify j fun x => { x with state := .blocked }).setPc j .wait)
  | .wait =>
    if (s.tcb j).state = .blocked ∧ (s.tcb j).joinTargetId ≠ none then none
    else some (s.setPc j .pass)
  | .unregisterSlot after => some (s.unregisterSlot j after)
  | .unregisterId after =>
    some ((s.modify j fun x => { x with joinTargetId := none }).afterUnregister j after)

/-- One step of the termination of `t`, after the store of TERMINATED. -/
def handOff (t : Fin n) : Option (State n) :=
  match s.handoff t with
  | .live => none
  | .storeCode code =>
    some ((s.modify t fun x => { x with exitCode := code }).setHandoff t
      (if (s.tcb t).isThread then .loadSlot else .finished))
  | .loadSlot =>
    some (s.setHandoff t (match (s.tcb t).joinWaiter with
      | none => .finished
      | some j => .checkTarget j))
  | .checkTarget j =>
    if (s.tcb j).joinTargetId = some t then some (s.setHandoff t (.storeStatus j))
    else some ((s.modify t fun x => { x with joinWaiter := none }).setHandoff t .finished)
  | .storeStatus j =>
    some ((s.modify j fun x => { x with joinStatus := (s.tcb t).exitCode }).setHandoff t
      (.storeReady j))
  | .storeReady j =>
    some ((s.modify j fun x => { x with joinReady := true }).setHandoff t (.wake j))
  | .wake j =>
    if (s.tcb j).state = .blocked then
      some ((s.modify j fun x => { x with state := .ready }).setHandoff t .finished)
    else some (s.setHandoff t .finished)
  | .finished => none

/-- The call of `thread_join_unregister` in the cleanup of a dead task. -/
def cleanup (j : Fin n) : State n :=
  match (s.tcb j).joinTargetId with
  | none => s.setPc j .out
  | some t =>
    let s' := if (s.tcb t).registered ∧ (s.tcb t).joinWaiter = some j then
      s.modify t fun x => { x with joinWaiter := none } else s
    (s'.modify j fun x => { x with joinTargetId := none }).setPc j .out

end State

inductive Action (n : ℕ)
  /-- `j` calls `sys_thread_join` with a handle to `t` -/
  | start (j t : Fin n) (detaching : Bool)
  | advance (j : Fin n) (choice : Bool)
  /-- the store of TERMINATED in `sys_thread_exit`, `sys_exit` or `terminate_err` -/
  | terminate (t : Fin n) (code : BitVec 64)
  | handOff (t : Fin n)
  /-- some other waker finds `j` BLOCKED -/
  | wake (j : Fin n)
  /-- `waitpid` or the reaper of orphans wins the claim of `t` -/
  | claim (t : Fin n)
  /-- a terminated task leaves the id table -/
  | unlist (t : Fin n)
  | cleanup (j : Fin n)
  deriving DecidableEq

def step (s : State n) : Action n → Option (State n)
  | .start j t detaching =>
    if s.pc j = .out ∧ (s.tcb j).state ≠ .terminated ∧ (s.tcb j).state ≠ .blocked then
      some { s.setPc j .pass with call := update s.call j ⟨t, detaching⟩ }
    else none
  | .advance j choice => s.advance j choice
  | .terminate t code =>
    if s.handoff t = .live then
      some ((s.modify t fun x => { x with state := .terminated }).setHandoff t (.storeCode code))
    else none
  | .handOff t => s.handOff t
  | .wake j =>
    if (s.tcb j).state = .blocked then some (s.modify j fun x => { x with state := .ready })
    else none
  | .claim t =>
    if (s.tcb t).state = .terminated ∧ (s.tcb t).isThread ∧ !(s.tcb t).joinReaped then
      some (s.modify t fun x => { x with joinReaped := true })
    else none
  | .unlist t =>
    if (s.tcb t).state = .terminated then
      some (s.modify t fun x => { x with registered := false })
    else none
  | .cleanup j => if (s.tcb j).state = .terminated then some (s.cleanup j) else none

/-- Before any call: no task has terminated, no slot is taken and no latch is set. -/
structure Start (s : State n) : Prop where
  alive : ∀ t, (s.tcb t).state ≠ .terminated
  handoff : ∀ t, s.handoff t = .live
  slot : ∀ t, (s.tcb t).joinWaiter = none
  target : ∀ j, (s.tcb j).joinTargetId = none
  ready : ∀ j, (s.tcb j).joinReady = false
  pc : ∀ j, s.pc j = .out
  answer : ∀ j, s.answer j = none

def threads (n : ℕ) : State n where
  tcb _ := ⟨.running, 0, true, true, none, none, 0, false, false, false⟩
  handoff _ := .live
  pc _ := .out
  call j := ⟨j, false⟩
  answer _ := none

theorem threads_start (n : ℕ) : Start (threads n) := by
  constructor <;> intro t <;> simp [threads]

/-- `k` steps of the call of `j`, with nothing going wrong. -/
def advances (j : Fin n) (k : ℕ) : List (Action n) := List.replicate k (.advance j true)

/-- `t` terminates, with `k` steps of its hand-off. -/
def terminates (t : Fin n) (code : BitVec 64) (k : ℕ) : List (Action n) :=
  .terminate t code :: List.replicate k (.handOff t)

end Nexios.Join
