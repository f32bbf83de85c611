import Nexios.Cap.CNode

/-!
# Untyped memory, frames and retype

An Untyped owns a contiguous run of pages until a retype claims it; a FrameCap owns its pages until
it is disposed. `retype` turns the front of an Untyped into a FrameCap and, when something is left,
the rest into a child Untyped. Calls run one after another. The blocks of the MemPool and the free
slots of a table may run out at any point of a call, so these answers are inputs of the step, as is
the run of free pages that the PMM hands out.

Two counters record how often each page was carved from the PMM and returned to it.
-/

open Function

namespace Nexios.Cap

def pageSize : ℕ := 4096

/-- Bound on the live Untyped objects (`CONFIG_CAP_MAX_UNTYPED`). -/
def maxUntyped : ℕ := 16

structure UntypedMem where
  phys : ℕ
  size : ℕ
  isUser : Bool
  retypeTarget : CapType := .frame
  retyped : Bool := false
  deriving DecidableEq, Repr

structure FrameCap where
  phys : ℕ
  count : ℕ
  isUser : Bool
  deriving DecidableEq, Repr

inductive Payload
  | untyped (u : UntypedMem)
  | frame (f : FrameCap)
  deriving DecidableEq, Repr

def Payload.capType : Payload → CapType
  | .untyped _ => .untyped
  | .frame _ => .frame

/-- Objects, `m` capability spaces, and the page allocator. -/
structure MemState (m : ℕ) where
  next : ObjId := 0
  obj : ObjId → KernelObject := fun _ => {}
  payload : ObjId → Payload := fun _ => .frame ⟨0, 0, false⟩
  alive : ObjId → Bool := fun _ => false
  creator : ObjId → Bool := fun _ => false
  node : Fin m → CNode := fun _ => {}
  liveUntypeds : ℕ := 0
  free : ℕ → Bool
  carved : ℕ → ℕ := fun _ => 0
  returned : ℕ → ℕ := fun _ => 0

/-- Where the resources of a retype run out. -/
structure Exhaustion where
  frameBlock : Bool := false
  childBlock : Bool := false
  targetSlot : Bool := false
  childSlot : Bool := false
  deriving DecidableEq, Repr

namespace MemState

variable {m : ℕ}

variable (s : MemState m)

@[simps] def freePage (p : ℕ) : MemState m :=
  { s with
    free := update s.free p true
    returned := update s.returned p (s.returned p + 1) }

def freePages (s : MemState m) (phys : ℕ) : ℕ → MemState m
  | 0 => s
  | k + 1 => (s.freePages phys k).freePage (phys + k * pageSize)

@[simps] def allocPage (p : ℕ) : MemState m :=
  { s with
    free := update s.free p false
    carved := update s.carved p (s.carved p + 1) }

def allocPages (s : MemState m) (phys : ℕ) : ℕ → MemState m
  | 0 => s
  | k + 1 => (s.allocPages phys k).allocPage (phys + k * pageSize)

@[simps] def setObj (o : ObjId) (k : KernelObject) : MemState m :=
  { s with obj := update s.obj o k }

@[simps] def setPayload (o : ObjId) (x : Payload) : MemState m :=
  { s with payload := update s.payload o x }

@[simps] def setNode (c : Fin m) (n : CNode) : MemState m :=
  { s with node := update s.node c n }

@[simps] def kill (o : ObjId) : MemState m :=
  { s with alive := update s.alive o false }

@[simps] def newObject (x : Payload) : MemState m :=
  { s with
    next := s.next + 1
    obj := update s.obj s.next {}
    payload := update s.payload s.next x
    alive := update s.alive s.next true }

def acquire (s : MemState m) (o : ObjId) : Option (MemState m) :=
  ((s.obj o).acquire).map fun k => s.setObj o k

/-- `UntypedMem::dispose` and `FrameCap::dispose`. -/
def dispose (o : ObjId) : MemState m :=
  match s.payload o with
  | .untyped u =>
    let s := if u.retyped = false ∧ u.phys ≠ 0 then
      (s.kill o).freePages u.phys (u.size / pageSize) else s.kill o
    { s with liveUntypeds := s.liveUntypeds - 1 }
  | .frame f => (s.kill o).freePages f.phys f.count

def release (s : MemState m) (o : ObjId) : MemState m :=
  let (k, last) := (s.obj o).release
  if last then (s.setObj o k).dispose o else s.setObj o k

def allocObject (phys size : ℕ) (isUser : Bool) (target : CapType)
    (noBlock : Bool) : Option (MemState m × ObjId) :=
  if maxUntyped ≤ s.liveUntypeds then none
  else if noBlock then none
  else some ({ s.newObject (.untyped ⟨phys, size, isUser, target, false⟩) with
    liveUntypeds := s.liveUntypeds + 1 }, s.next)

/-- `UntypedMem::create`; `phys` is the answer of the PMM. -/
def createUntyped (size : ℕ) (isUser : Bool) (target : CapType) (phys : ℕ)
    (noBlock : Bool) : MemState m × Option ObjId :=
  if size = 0 ∨ size % pageSize ≠ 0 then (s, none)
  else if target ≠ .frame then (s, none)
  else if maxUntyped ≤ s.liveUntypeds then (s, none)
  else if phys = 0 then (s, none)
  else
    let s := s.allocPages phys (size / pageSize)
    match s.allocObject phys size isUser target noBlock with
    | none => (s.freePages phys (size / pageSize), none)
    | some (s, o) => ({ s with creator := update s.creator o true }, some o)

def createSubrange (phys size : ℕ) (isUser : Bool) (target : CapType)
    (noBlock : Bool) : Option (MemState m × ObjId) :=
  if phys = 0 ∨ size = 0 ∨ size % pageSize ≠ 0 then none
  else if target ≠ .frame then none
  else s.allocObject phys size isUser target noBlock

def createFrame (phys count : ℕ) (isUser : Bool) (noBlock : Bool) :
    Option (MemState m × ObjId) :=
  if noBlock then none else some (s.newObject (.frame ⟨phys, count, isUser⟩), s.next)

/-- `CNode::install`; `full` stands for a table that others have filled up meanwhile. -/
def install (s : MemState m) (c : Fin m) (o : ObjId) (type : CapType) (rights : CapRights)
    (full : Bool) : MemState m × Option ℕ :=
  if type = .null then (s, none)
  else match s.acquire o with
    | none => (s, none)
    | some s => match (if full then none else (s.node c).install o type rights) with
      | some (n, i, _) => (s.setNode c n, some i)
      | none => (s.release o, none)

def remove (s : MemState m) (c : Fin m) (idx : ℕ) : MemState m :=
  match (s.node c).remove idx with
  | none => s
  | some (n, target) => match target with
    | some o => (s.setNode c n).release o
    | none => s.setNode c n

def lookup (s : MemState m) (c : Fin m) (handle : BitVec 64) (want : CapType) (need : CapRights) :
    Option (MemState m × ObjId) :=
  ((s.node c).lookup handle want need).bind fun o => (s.acquire o).map fun s => (s, o)

def untyped (s : MemState m) (o : ObjId) : UntypedMem :=
  match s.payload o with
  | .untyped u => u
  | .frame _ => ⟨0, 0, false, .frame, true⟩

def claimOnce (o : ObjId) : Option (MemState m) :=
  if (s.untyped o).retyped then none
  else some (s.setPayload o (.untyped { s.untyped o with retyped := true }))

def resetClaim (o : ObjId) : MemState m :=
  s.setPayload o (.untyped { s.untyped o with retyped := false })

/-- The FrameCap takes over the whole region of a carve that cannot be completed. -/
def stretch (fc : ObjId) (count : ℕ) : MemState m :=
  match s.payload fc with
  | .frame f => s.setPayload fc (.frame { f with count := count })
  | .untyped _ => s

def carveChild (ut : UntypedMem) (size : ℕ) (noBlock : Bool) :
    Option (MemState m × Option ObjId) :=
  if size = ut.size then some (s, none)
  else (s.createSubrange (ut.phys + size) (ut.size - size) ut.isUser ut.retypeTarget noBlock).map
    fun (s, child) => (s, some child)

/-- The two installs of a retype that has built its objects, with their rollbacks. -/
def installCarved (c : Fin m) (o fc : ObjId) (child : Option ObjId)
    (rights : CapRights) (x : Exhaustion) : MemState m × Option ℕ :=
  match s.install c fc .frame rights x.targetSlot, child with
  | (s, none), none => ((s.release fc).release o, none)
  | (s, none), some ch => (((s.release ch).release fc).release o, none)
  | (s, some idx), none => ((s.release fc).release o, some idx)
  | (s, some idx), some ch =>
    match s.install c ch .untyped (rights ||| CapRights.write) x.childSlot with
    | (s, none) => ((((s.remove c idx).release fc).release ch).release o, none)
    | (s, some _) => (((s.release fc).release ch).release o, some idx)

/-- A retype that has claimed the Untyped `o`. -/
def carve (c : Fin m) (o : ObjId) (size : ℕ) (rights : CapRights)
    (x : Exhaustion) : MemState m × Option ℕ :=
  let ut := s.untyped o
  match s.createFrame ut.phys (size / pageSize) ut.isUser x.frameBlock with
  | none => ((s.resetClaim o).release o, none)
  | some (s, fc) => match s.carveChild ut size x.childBlock with
    | none => (((s.stretch fc (ut.size / pageSize)).release fc).release o, none)
    | some (s, child) => s.installCarved c o fc child rights x

/-- The checks that must not consume the Untyped. -/
def retypable (c : Fin m) (ut : UntypedMem) (target : CapType) (size : ℕ) : Prop :=
  target = ut.retypeTarget ∧ size ≠ 0 ∧ size % pageSize = 0 ∧ size ≤ ut.size ∧
    (s.node c).occupiedCount + (if size = ut.size then 1 else 2) ≤ cslotCount
  deriving Decidable

def retype (c : Fin m) (handle : BitVec 64) (target : CapType) (size : ℕ)
    (rights : CapRights) (x : Exhaustion) : MemState m × Option ℕ :=
  if CNode.policyAllows (s.node c).policyWord kCapBrokerAllowRetype = false then (s, none)
  else match s.lookup c handle .untyped CapRights.write with
    | none => (s, none)
    | some (s, o) =>
      if s.retypable c (s.untyped o) target size then
        match s.claimOnce o with
        | none => (s.release o, none)
        | some s => s.carve c o size rights x
      else (s.release o, none)

/-- The slot part of `revoke`, the mark, and the release of the slot's reference. -/
def revoke (s : MemState m) (c : Fin m) (handle : BitVec 64) : MemState m :=
  match (s.node c).revokeSlot handle with
  | none => s
  | some (n, target) => match target with
    | some o => ((s.setNode c n).setObj o (s.obj o).revoke).release o
    | none => s.setNode c n

end MemState

inductive MemAction (m : ℕ)
  | createUntyped (size : ℕ) (isUser : Bool) (target : CapType) (phys : ℕ) (noBlock : Bool)
  | install (c : Fin m) (o : ObjId) (rights : CapRights) (full : Bool)
  | retype (c : Fin m) (handle : BitVec 64) (target : CapType) (size : ℕ) (rights : CapRights)
      (x : Exhaustion)
  | remove (c : Fin m) (idx : ℕ)
  | revoke (c : Fin m) (handle : BitVec 64)
  | releaseCreator (o : ObjId)
  deriving DecidableEq, Repr

/-- A step is enabled when the PMM hands out free pages only, and when the caller of an install or
a release holds the creator reference that it uses. -/
def MemState.step {m : ℕ} (s : MemState m) : MemAction m → Option (MemState m)
  | .createUntyped size isUser target phys noBlock =>
    if phys = 0 ∨ ∀ i < size / pageSize, s.free (phys + i * pageSize) = true then
      some (s.createUntyped size isUser target phys noBlock).1
    else none
  | .install c o rights full =>
    if s.creator o then some (s.install c o (s.payload o).capType rights full).1 else none
  | .retype c handle target size rights x => some (s.retype c handle target size rights x).1
  | .remove c idx => some (s.remove c idx)
  | .revoke c handle => some (s.revoke c handle)
  | .releaseCreator o =>
    if s.creator o then
      some ({ s with creator := update s.creator o false }.release o)
    else none

end Nexios.Cap
