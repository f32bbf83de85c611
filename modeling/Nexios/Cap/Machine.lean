import Nexios.Cap.CNode
import Nexios.Lib.Run

/-!
# Capability calls at critical-section granularity

Any number `n` of threads run the calls of the capability space on shared objects. A thread is a
stack of frames, one for each critical section or atomic step that its call still has to take; the
frame `release o` is a reference to `o` that the call holds and will drop. `copy`, `grant` and
`mint` take five or six steps: the lookup, the second look at the source slot, the acquire and the
locked fill of the install, the clear of GRANT, the release of the pin.

A step that would touch a disposed object is not enabled. History variables record every fill of a
slot, so that an occupancy of a slot has an identity: the node, the index, and how many fills of
that slot came before.
-/

open Function

namespace Nexios.Cap

structure Occupancy where
  node : ObjId
  idx : ℕ
  fill : ℕ
  deriving DecidableEq, Repr

inductive Derive
  | copy (mask : CapRights) (opMask : BitVec 32)
  | grant
  deriving DecidableEq, Repr

def Derive.opMask : Derive → BitVec 32
  | .copy _ op => op
  | .grant => kCapBrokerAllowGrant

/-- Rights handed to the destination slot: `do_copy_pinned` masks them, `grant` does not. -/
def Derive.effective : Derive → CapRights → CapRights
  | .copy mask _, src => mask &&& src
  | .grant, src => src

def Derive.needRights : Derive → CapRights
  | .copy _ _ => CapRights.none
  | .grant => CapRights.grant

/-- A copy, grant or mint after its lookup. `source` is the occupancy that the lookup saw. -/
structure Request where
  src : ObjId
  handle : BitVec 64
  dst : ObjId
  target : ObjId
  kind : Derive
  source : Occupancy
  deriving DecidableEq, Repr

inductive Origin
  | kernel
  | derived (req : Request)
  deriving DecidableEq, Repr

/-- A call of `CNode::install`. -/
structure Install where
  dst : ObjId
  obj : ObjId
  type : CapType
  rights : CapRights
  origin : Origin
  deriving DecidableEq, Repr

structure Birth where
  occ : Occupancy
  gen : BitVec 32
  obj : ObjId
  type : CapType
  rights : CapRights
  origin : Origin
  deriving DecidableEq, Repr

inductive Frame
  | reread (q : Request)
  | acquire (r : Install)
  | fill (r : Install)
  | clearGrant (source : Occupancy)
  | revokeMark (o : ObjId)
  | release (o : ObjId)
  | dispose (c : ObjId) (i : ℕ)
  deriving DecidableEq, Repr

structure State (n : ℕ) where
  next : ObjId := 0
  obj : ObjId → KernelObject := fun _ => {}
  node : ObjId → CNode := fun _ => {}
  disposed : ObjId → ℕ := fun _ => 0
  stack : Fin n → List Frame := fun _ => []
  creators : Fin n → ObjId → ℕ := fun _ _ => 0
  pins : Fin n → ObjId → ℕ := fun _ _ => 0
  fills : ObjId → ℕ → ℕ := fun _ _ => 0
  births : List Birth := []
  removed : List Occupancy := []
  grants : List Occupancy := []
  strips : List (Occupancy × Occupancy) := []

def State.init (n : ℕ) : State n := {}

inductive Action (n : ℕ)
  | createObject (t : Fin n)
  | createNode (t : Fin n) (cspaceId : BitVec 32)
  | install (t : Fin n) (c o : ObjId) (type : CapType) (rights : CapRights)
  | remove (t : Fin n) (c : ObjId) (idx : ℕ)
  | lookup (t : Fin n) (c : ObjId) (handle : BitVec 64) (want : CapType) (need : CapRights)
  | copy (t : Fin n) (src : ObjId) (handle : BitVec 64) (dst : ObjId)
  | mint (t : Fin n) (src : ObjId) (handle : BitVec 64) (dst : ObjId) (mask : CapRights)
  | grant (t : Fin n) (src : ObjId) (handle : BitVec 64) (dst : ObjId)
  | revoke (t : Fin n) (c : ObjId) (handle : BitVec 64)
  | releaseCreator (t : Fin n) (o : ObjId)
  | releasePin (t : Fin n) (o : ObjId)
  | clearGrant (t : Fin n) (c : ObjId) (idx : ℕ)
  | setPolicyWord (t : Fin n) (c : ObjId) (word : BitVec 32)
  | markRevoked (o : ObjId)
  | resume (t : Fin n)
  deriving DecidableEq, Repr

namespace State

variable {n : ℕ}

variable (s : State n)

def live (o : ObjId) : Bool := o < s.next && s.disposed o == 0

def liveNode (c : ObjId) : Bool := s.live c && (s.obj c).isNode

def current (c : ObjId) (i : ℕ) : Occupancy := ⟨c, i, s.fills c i - 1⟩

@[simps] def setObj (o : ObjId) (k : KernelObject) : State n :=
  { s with obj := update s.obj o k }

@[simps] def setNode (c : ObjId) (m : CNode) : State n :=
  { s with node := update s.node c m }

@[simps] def setStack (t : Fin n) (fs : List Frame) : State n :=
  { s with stack := update s.stack t fs }

@[simps] def addPin (t : Fin n) (o : ObjId) : State n :=
  { s with pins := update s.pins t (update (s.pins t) o (s.pins t o + 1)) }

/-- A new object with one creator reference, held by `t`. -/
@[simps] def create (t : Fin n) (k : KernelObject) (m : CNode) : State n :=
  { s with
    next := s.next + 1
    obj := update s.obj s.next k
    node := update s.node s.next m
    creators := update s.creators t
      (update (s.creators t) s.next (s.creators t s.next + 1)) }

/-- The slot `i` of `c` is vacated by `remove` or `revoke`; the call owes `fs`. -/
@[simps!] def vacate (t : Fin n) (c : ObjId) (i : ℕ) (m : CNode) (fs : List Frame) :
    State n :=
  { (s.setNode c m).setStack t fs with removed := s.current c i :: s.removed }

def pinned (c : ObjId) (handle : BitVec 64) (want : CapType) (need : CapRights) :
    Option (ObjId × KernelObject) :=
  ((s.node c).lookup handle want need).bind fun o => ((s.obj o).acquire).map fun k => (o, k)

/-- A lookup may run in `c`: the node is live, and so is the target that it would acquire. -/
def mayLookup (c : ObjId) (handle : BitVec 64) (want : CapType) (need : CapRights) :
    Bool :=
  s.liveNode c && ((s.node c).lookup handle want need).all s.live

/-- First critical section of `copy`, `grant` and `mint`. -/
def derive (t : Fin n) (src : ObjId) (handle : BitVec 64) (dst : ObjId)
    (kind : Derive) : Option (State n) :=
  if s.stack t = [] ∧ s.mayLookup src handle .null kind.needRights then
    match s.pinned src handle .null kind.needRights with
    | none => some s
    | some (o, k) => some ((s.setObj o k).setStack t
        [.reread ⟨src, handle, dst, o, kind, s.current src (handleSlot handle).toNat⟩, .release o])
  else none

/-- What a grant still owes after its install, besides the release of the pin. -/
def afterFill (r : Install) : List Frame :=
  match r.origin with
  | .derived q => if q.kind = .grant then [.clearGrant q.source] else []
  | .kernel => []

def birthOf (r : Install) (i : ℕ) (gen : BitVec 32) : Birth :=
  ⟨⟨r.dst, i, s.fills r.dst i⟩, gen, r.obj, r.type, r.rights, r.origin⟩

@[simps] def recordFill (r : Install) (i : ℕ) (gen : BitVec 32) : State n :=
  { s with
    fills := update s.fills r.dst (update (s.fills r.dst) i (s.fills r.dst i + 1))
    births := s.birthOf r i gen :: s.births
    grants := match r.origin with
      | .derived q => if q.kind = .grant then q.source :: s.grants else s.grants
      | .kernel => s.grants }

/-- Which occupancy, if any, `clear_grant` takes GRANT from. -/
def stripped (c : ObjId) (i : ℕ) : Option Occupancy :=
  let slot := (s.node c).slots i
  if i < cslotCount ∧ slot.occupied ∧ CapRights.Within CapRights.grant slot.rights then
    some (s.current c i)
  else none

/-- One step of the call in progress of `t`, whose next frame is `f`. -/
def stepFrame (t : Fin n) (rest : List Frame) : Frame → Option (State n)
  | .reread q =>
    if s.liveNode q.src then
      match (s.node q.src).reread q.handle q.kind.opMask with
      | some (type, rights) => some (s.setStack t
          (.acquire ⟨q.dst, q.target, type, q.kind.effective rights, .derived q⟩ :: rest))
      | none => some (s.setStack t rest)
    else none
  | .acquire r =>
    if s.live r.obj then
      match (if r.type = .null then none else (s.obj r.obj).acquire) with
      | some k => some ((s.setObj r.obj k).setStack t (.fill r :: rest))
      | none => some (s.setStack t rest)
    else none
  | .fill r =>
    if s.liveNode r.dst then
      match (s.node r.dst).install r.obj r.type r.rights with
      | some (m, i, gen) =>
        some (((s.recordFill r i gen).setNode r.dst m).setStack t (afterFill r ++ rest))
      | none => some (s.setStack t (.release r.obj :: rest))
    else none
  | .clearGrant o =>
    if s.liveNode o.node then
      some { (s.setNode o.node ((s.node o.node).clearGrant o.idx)).setStack t rest with
        strips := ((s.stripped o.node o.idx).map fun p => (o, p)).toList ++ s.strips }
    else none
  | .revokeMark o =>
    if s.live o then some ((s.setObj o (s.obj o).revoke).setStack t rest) else none
  | .release o =>
    if s.live o then
      let (k, last) := (s.obj o).release
      if last then
        some { (s.setObj o k).setStack t (if k.isNode then .dispose o 0 :: rest else rest) with
          disposed := update s.disposed o (s.disposed o + 1) }
      else some ((s.setObj o k).setStack t rest)
    else none
  | .dispose c i =>
    if i < cslotCount then
      let slot := (s.node c).slots i
      match slot.target with
      | some o => some ((s.setNode c ((s.node c).setSlot i
          { slot with obj := none, occupied := false })).setStack t
          (.release o :: .dispose c (i + 1) :: rest))
      | none => some (s.setStack t (.dispose c (i + 1) :: rest))
    else some (s.setStack t rest)

def step : Action n → Option (State n)
  | .createObject t => if s.stack t = [] then some (s.create t {} {}) else none
  | .createNode t id =>
    if s.stack t = [] then some (s.create t { isNode := true } { cspaceId := id }) else none
  | .install t c o type rights =>
    if s.stack t = [] then some (s.setStack t [.acquire ⟨c, o, type, rights, .kernel⟩]) else none
  | .remove t c idx =>
    if s.stack t = [] ∧ s.liveNode c then
      match (s.node c).remove idx with
      | some (m, o) => some (s.vacate t c idx m (o.toList.map .release))
      | none => some s
    else none
  | .lookup t c handle want need =>
    if s.stack t = [] ∧ s.mayLookup c handle want need then
      match s.pinned c handle want need with
      | some (o, k) => some ((s.setObj o k).addPin t o)
      | none => some s
    else none
  | .copy t src handle dst =>
    if src = dst then some s
    else s.derive t src handle dst (.copy
      (CapRights.read ||| CapRights.write ||| CapRights.copy ||| CapRights.grant)
      kCapBrokerAllowCopy)
  | .mint t src handle dst mask =>
    if src = dst then some s else s.derive t src handle dst (.copy mask kCapBrokerAllowMint)
  | .grant t src handle dst => s.derive t src handle dst .grant
  | .revoke t c handle =>
    if s.stack t = [] ∧ s.liveNode c then
      match (s.node c).revokeSlot handle with
      | some (m, o) => some (s.vacate t c (handleSlot handle).toNat m
          (o.toList.flatMap fun o => [.revokeMark o, .release o]))
      | none => some s
    else none
  | .releaseCreator t o =>
    if s.stack t = [] ∧ 0 < s.creators t o then
      some { s.setStack t [.release o] with
        creators := update s.creators t
          (update (s.creators t) o (s.creators t o - 1)) }
    else none
  | .releasePin t o =>
    if s.stack t = [] ∧ 0 < s.pins t o then
      some { s.setStack t [.release o] with
        pins := update s.pins t (update (s.pins t) o (s.pins t o - 1)) }
    else none
  | .clearGrant t c idx =>
    if s.stack t = [] ∧ s.liveNode c then some (s.setNode c ((s.node c).clearGrant idx)) else none
  | .setPolicyWord t c word =>
    if s.stack t = [] ∧ s.liveNode c then some (s.setNode c ((s.node c).setPolicyWord word))
    else none
  | .markRevoked o => if s.live o then some (s.setObj o (s.obj o).revoke) else none
  | .resume t =>
    match s.stack t with
    | [] => none
    | f :: rest => s.stepFrame t rest f

end State

end Nexios.Cap
