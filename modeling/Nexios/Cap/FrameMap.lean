import Nexios.Cap.Untyped

/-!
# The registry of user frame mappings

`FrameUserMap` maps the pages of a FrameCap into a fixed window of a task. Its table of slots is
only touched under the registry lock, but the pages are mapped and unmapped outside it: a map first
reserves a slot, an unmap first finds one, `invalidate_cap` and `drain_task` first clear one.
Threads interleave between these critical sections and between any two pages.

`Work` is what a thread does outside the lock, `Todo` the rest of its call. The thread that drops
the last reference of a FrameCap starts its disposal.
-/

open Function

namespace Nexios.Cap

/-- Slots of the registry (`CONFIG_CAP_MAX_FRAME_MAPS`). -/
def kMaxMaps : ℕ := 8

/-- `CONFIG_USER_SHM_VA_BASE` and `CONFIG_USER_SHM_REGION_SIZE`. -/
def userShmVaBase : ℕ := 0x62000000
def userShmRegionSize : ℕ := 0x200000

structure MapTask where
  id : ℕ
  generation : ℕ
  pageTable : ℕ
  deriving DecidableEq, Repr

structure MapSlot where
  ownerTaskId : ℕ := 0
  ownerGen : ℕ := 0
  fc : ObjId := 0
  va : ℕ := 0
  pml4 : ℕ := 0
  occupied : Bool := false
  deriving DecidableEq, Repr

/-- A leaf entry. `cap` records on behalf of which capability it was written. -/
structure Pte where
  phys : ℕ
  cap : ObjId
  deriving DecidableEq, Repr

structure MapJob where
  idx : ℕ
  fc : ObjId
  va : ℕ
  pml4 : ℕ
  deriving DecidableEq, Repr

inductive Work
  | mapOpen (job : MapJob)
  | mapPages (job : MapJob) (j : ℕ)
  | mapUndo (job : MapJob) (j k : ℕ)
  | mapClear (job : MapJob)
  | unmapPages (job : MapJob) (task : MapTask) (pages j : ℕ)
  | unmapClear (job : MapJob) (task : MapTask) (pages : ℕ)
  | clearPages (job : MapJob) (pages j : ℕ)
  deriving DecidableEq, Repr

/-- What follows the scan of `invalidate_cap`. -/
inductive AfterScan
  | mark
  | free
  deriving DecidableEq, Repr

inductive Todo
  | mapCheck (task : MapTask) (fc : ObjId)
  | mapClaim (task : MapTask) (fc : ObjId)
  | unmapFind (task : MapTask) (va : ℕ)
  | scan (fc : ObjId) (i : ℕ) (after : AfterScan)
  | drain (task : MapTask) (i : ℕ)
  | release (fc : ObjId)
  deriving DecidableEq, Repr

/-- `ext` counts the references of creators and capability slots, `ret` is the last value that a
call of the thread has returned, `none` for a failure. -/
structure MapState (n : ℕ) where
  next : ObjId := 0
  frame : ObjId → FrameCap := fun _ => ⟨0, 0, false⟩
  refCount : ObjId → ℕ := fun _ => 0
  revoked : ObjId → Bool := fun _ => false
  freed : ObjId → Bool := fun _ => false
  ext : ObjId → ℕ := fun _ => 0
  slots : ℕ → MapSlot := fun _ => {}
  pte : ℕ → ℕ → Option Pte := fun _ _ => none
  work : Fin n → Option Work := fun _ => none
  todo : Fin n → List Todo := fun _ => []
  ret : Fin n → Option ℕ := fun _ => none

def refLimit : ℕ := 2 ^ 32

namespace MapState

variable {n : ℕ}

variable (s : MapState n)

@[simps] def setWork (t : Fin n) (w : Option Work) : MapState n :=
  { s with work := update s.work t w }

@[simps] def setTodo (t : Fin n) (xs : List Todo) : MapState n :=
  { s with todo := update s.todo t xs }

def push (t : Fin n) (x : Todo) : MapState n := s.setTodo t (x :: s.todo t)

@[simps] def setRet (t : Fin n) (r : Option ℕ) : MapState n :=
  { s with ret := update s.ret t r }

@[simps] def setSlot (i : ℕ) (x : MapSlot) : MapState n :=
  { s with slots := update s.slots i x }

def clearSlot (i : ℕ) : MapState n :=
  s.setSlot i { s.slots i with occupied := false }

@[simps] def setPte (pml4 va : ℕ) (x : Option Pte) : MapState n :=
  { s with pte := fun p v => if p = pml4 ∧ v = va then x else s.pte p v }

@[simps] def setRefs (fc : ObjId) (k : ℕ) : MapState n :=
  { s with refCount := update s.refCount fc k }

@[simps] def setExt (fc : ObjId) (k : ℕ) : MapState n :=
  { s with ext := update s.ext fc k }

/-- The increment of a successful `acquire`. -/
def pin (fc : ObjId) : MapState n :=
  s.setRefs fc ((s.refCount fc + 1) % refLimit)

/-- `KernelObject::release`; the last one runs `FrameCap::dispose`. -/
def release (t : Fin n) (fc : ObjId) : MapState n :=
  let s' := s.setRefs fc ((s.refCount fc + (refLimit - 1)) % refLimit)
  if s.refCount fc = 1 then s'.push t (.scan fc 0 .free) else s'

def slotVa (i : ℕ) : ℕ := userShmVaBase + i * userShmRegionSize

def freeSlot : Option ℕ :=
  (List.range kMaxMaps).find? fun i => !(s.slots i).occupied

def findSlot (task : MapTask) (va : ℕ) : Option ℕ :=
  (List.range kMaxMaps).find? fun i => (s.slots i).occupied && (s.slots i).va == va &&
    (s.slots i).ownerTaskId == task.id && (s.slots i).ownerGen == task.generation

/-- The locked part of `invalidate_cap` and `drain_task` that has found the slot `i`. -/
def detach (t : Fin n) (i : ℕ) : MapState n :=
  let slot := s.slots i
  (s.clearSlot i).setWork t
    (some (.clearPages ⟨i, slot.fc, slot.va, slot.pml4⟩ (s.frame slot.fc).count 0))

/-- The parameter checks at the entry of `map`. -/
def mappable (task : MapTask) (fc : ObjId) : Prop :=
  s.revoked fc = false ∧ (s.frame fc).isUser = true ∧ (s.frame fc).phys ≠ 0 ∧
    (s.frame fc).count ≠ 0 ∧ (s.frame fc).count * pageSize ≤ userShmRegionSize ∧ task.pageTable ≠ 0
  deriving Decidable

/-- The locked part of `map`. -/
def claim (t : Fin n) (task : MapTask) (fc : ObjId) : MapState n :=
  match s.freeSlot with
  | none => s.setRet t none
  | some i =>
    if s.revoked fc then s.setRet t none
    else (((s.pin fc).setSlot i
      ⟨task.id, task.generation, fc, slotVa i, task.pageTable, true⟩).setWork t
        (some (.mapOpen ⟨i, fc, slotVa i, task.pageTable⟩)))

def enter (t : Fin n) : Todo → MapState n
  | .mapCheck task fc =>
    if s.mappable task fc then s.push t (.mapClaim task fc)
    else (s.push t (.release fc)).setRet t none
  | .mapClaim task fc => (s.push t (.release fc)).claim t task fc
  | .unmapFind task va =>
    match s.findSlot task va with
    | none => s.setRet t none
    | some i => s.setWork t (some (.unmapPages ⟨i, (s.slots i).fc, va, (s.slots i).pml4⟩ task
        (s.frame (s.slots i).fc).count 0))
  | .scan fc i after =>
    if i < kMaxMaps then
      let s' := s.push t (.scan fc (i + 1) after)
      if (s.slots i).occupied ∧ (s.slots i).fc = fc then s'.detach t i else s'
    else match after with
      | .mark => { s with revoked := update s.revoked fc true }
      | .free => { s with freed := update s.freed fc true }
  | .drain task i =>
    if i < kMaxMaps then
      let s' := s.push t (.drain task (i + 1))
      if (s.slots i).occupied ∧ (s.slots i).ownerTaskId = task.id then s'.detach t i else s'
    else s
  | .release fc => s.release t fc

/-- One page, or one critical section, of the work outside the lock; `noTable` says that no page
table could be allocated. -/
def proceed (t : Fin n) (noTable : Bool) : Work → MapState n
  | .mapOpen job =>
    if s.revoked job.fc ∨ (s.frame job.fc).phys = 0 ∨ (s.frame job.fc).count = 0 then
      s.setWork t (some (.mapClear job))
    else s.setWork t (some (.mapPages job 0))
  | .mapPages job j =>
    if j < (s.frame job.fc).count then
      if noTable then s.setWork t (some (.mapUndo job 0 j))
      else (s.setPte job.pml4 (job.va + j * pageSize)
        (some ⟨(s.frame job.fc).phys + j * pageSize, job.fc⟩)).setWork t
          (some (.mapPages job (j + 1)))
    else (s.setWork t none).setRet t (some job.va)
  | .mapUndo job j k =>
    if j < k then
      (s.setPte job.pml4 (job.va + j * pageSize) none).setWork t (some (.mapUndo job (j + 1) k))
    else s.setWork t (some (.mapClear job))
  | .mapClear job =>
    let slot := s.slots job.idx
    let s' := (s.setWork t none).setRet t none
    if slot.occupied ∧ slot.fc = job.fc ∧ slot.va = job.va then
      (s'.clearSlot job.idx).push t (.release job.fc)
    else s'
  | .unmapPages job task pages j =>
    if j < pages then
      (s.setPte job.pml4 (job.va + j * pageSize) none).setWork t
        (some (.unmapPages job task pages (j + 1)))
    else s.setWork t (some (.unmapClear job task pages))
  | .unmapClear job task _ =>
    let slot := s.slots job.idx
    let s' := (s.setWork t none).setRet t (some job.va)
    if slot.occupied ∧ slot.fc = job.fc ∧ slot.va = job.va ∧ slot.ownerTaskId = task.id ∧
        slot.ownerGen = task.generation then
      (s'.clearSlot job.idx).push t (.release job.fc)
    else s'
  | .clearPages job pages j =>
    if j < pages then
      (s.setPte job.pml4 (job.va + j * pageSize) none).setWork t
        (some (.clearPages job pages (j + 1)))
    else (s.setWork t none).push t (.release job.fc)

def idle (t : Fin n) : Prop := s.work t = none ∧ s.todo t = []
  deriving Decidable

end MapState

inductive MapAction (n : ℕ)
  | create (phys count : ℕ) (isUser : Bool)
  | share (t : Fin n) (fc : ObjId)
  | drop (t : Fin n) (fc : ObjId)
  | map (t : Fin n) (task : MapTask) (fc : ObjId)
  | unmap (t : Fin n) (task : MapTask) (va : ℕ)
  | revoke (t : Fin n) (fc : ObjId)
  | drainTask (t : Fin n) (task : MapTask)
  | resume (t : Fin n) (noTable : Bool)
  deriving DecidableEq, Repr

/-- A call on a capability is made through a reference that somebody holds: a map pins it for its
duration, a revoke or drop takes it over. -/
def MapState.step {n : ℕ} (s : MapState n) : MapAction n → Option (MapState n)
  | .create phys count isUser =>
    some { s with
      next := s.next + 1
      frame := update s.frame s.next ⟨phys, count, isUser⟩
      refCount := update s.refCount s.next 1
      ext := update s.ext s.next 1 }
  | .share t fc =>
    if s.idle t ∧ 0 < s.ext fc ∧ s.revoked fc = false then
      some ((s.pin fc).setExt fc (s.ext fc + 1))
    else none
  | .drop t fc =>
    if s.idle t ∧ 0 < s.ext fc then
      some ((s.setExt fc (s.ext fc - 1)).setTodo t [.release fc])
    else none
  | .map t task fc =>
    if s.idle t ∧ 0 < s.ext fc ∧ s.revoked fc = false then
      some ((s.pin fc).setTodo t [.mapCheck task fc])
    else none
  | .unmap t task va => if s.idle t then some (s.setTodo t [.unmapFind task va]) else none
  | .revoke t fc =>
    if s.idle t ∧ 0 < s.ext fc then
      some ((s.setExt fc (s.ext fc - 1)).setTodo t [.scan fc 0 .mark, .release fc])
    else none
  | .drainTask t task => if s.idle t then some (s.setTodo t [.drain task 0]) else none
  | .resume t noTable =>
    match s.work t, s.todo t with
    | some w, _ => some (s.proceed t noTable w)
    | none, [] => none
    | none, x :: rest => some ((s.setTodo t rest).enter t x)

namespace MapState

variable {n : ℕ}

def init : MapState n := {}

end MapState

end Nexios.Cap
