import Nexios.Cap.Types
import Nexios.Lib.Claims
import Nexios.Pci

/-!
# MSI-X and watchdog capabilities

A MsixCap owns a table entry of a device, an interrupt vector and a slot of the delivery table; a
WdogCap owns the watchdog of a task. The claims live in static tables that `create` fills and that
`revoke` and `dispose` both release, by the key that the capability remembers. Calls run one after
another. Tasks come and go, a dying task drains the delivery slots it waits on, kernel drivers take
vectors from the same allocator, and a create may fail at each of its resources.
-/

open Function

namespace Nexios.Cap

def capMaxMsix : ℕ := 8
def capMaxWdog : ℕ := 8
def capMaxIrq : ℕ := 16

structure MsixCap where
  bdf : PciBdf
  entryIndex : ℕ
  vector : ℕ
  regIdx : Option ℕ
  deriving DecidableEq, Repr

structure WdogCap where
  targetPid : ℕ
  targetGen : ℕ
  deriving DecidableEq, Repr

inductive HwCap
  | msix (c : MsixCap)
  | wdog (w : WdogCap)
  deriving DecidableEq, Repr

structure IrqRegistration where
  vector : ℕ := 0
  occupied : Bool := false
  owner : Option ObjId := none
  deriving DecidableEq, Repr

structure MsixEntry where
  vector : ℕ := 0
  masked : Bool := true
  deriving DecidableEq, Repr

structure WatchedTask where
  generation : ℕ
  wdogArmed : Bool := false
  wdogExpiryTick : ℕ := 0
  wdogGen : ℕ := 0
  deriving DecidableEq, Repr

/-- The vectors that `init_vector_alloc` withholds. -/
def vectorReserved (v : ℕ) : Bool := v < 48 || v == 0x80 || v == 0xE0 || v == 0xFF

/-- `driver` marks the vectors that kernel drivers have allocated. -/
structure HwState where
  next : ObjId := 0
  obj : ObjId → Option HwCap := fun _ => none
  revoked : ObjId → Bool := fun _ => false
  liveMsix : ℕ := 0
  liveWdogs : ℕ := 0
  entryClaims : ClaimTable (PciBdf × ℕ) := fun _ => ⟨false, ⟨0, 0, 0⟩, 0⟩
  wdogClaims : ClaimTable ℕ := fun _ => ⟨false, 0⟩
  vectorUsed : ℕ → Bool := vectorReserved
  driver : ℕ → Bool := fun _ => false
  regs : ℕ → IrqRegistration := fun _ => {}
  msixTable : PciBdf × ℕ → MsixEntry := fun _ => {}
  task : ℕ → Option WatchedTask := fun _ => none

/-- The answers that a MsixCap create gets from its surroundings. -/
structure MsixEnv where
  tableEntries : Option ℕ
  threaded : Bool := false
  noSlot : Bool := false
  noBlock : Bool := false
  noProgram : Bool := false
  noCapability : Bool := false
  deriving DecidableEq, Repr

namespace HwState

variable (s : HwState)

@[simps] def setObj (o : ObjId) (x : Option HwCap) : HwState :=
  { s with obj := update s.obj o x }

@[simps] def setVector (v : ℕ) (b : Bool) : HwState :=
  { s with vectorUsed := update s.vectorUsed v b }

@[simps] def setReg (i : ℕ) (r : IrqRegistration) : HwState :=
  { s with regs := update s.regs i r }

@[simps] def setEntry (k : PciBdf × ℕ) (e : MsixEntry) : HwState :=
  { s with msixTable := update s.msixTable k e }

@[simps] def setTask (pid : ℕ) (t : Option WatchedTask) : HwState :=
  { s with task := update s.task pid t }

def entryRelease (bdf : PciBdf) (entryIndex : ℕ) : HwState :=
  { s with entryClaims := ClaimTable.release capMaxMsix id s.entryClaims (bdf, entryIndex) }

/-- First unused vector from `48` on. -/
def allocVector : Option ℕ :=
  (List.range 256).find? fun v => 48 ≤ v && v != 0x80 && !s.vectorUsed v

def freeVector (v : ℕ) : HwState :=
  if v < 48 ∨ v = 0x80 then s else s.setVector v false

def findReg (vector : ℕ) : Option ℕ :=
  (List.range capMaxIrq).find? fun i => (s.regs i).occupied && (s.regs i).vector == vector

/-- `IrqDelivery::claim_slot` for a vector of the MSI-X window. -/
def claimSlot (vector : ℕ) (env : MsixEnv) : Option (HwState × ℕ) :=
  if vector < 33 ∨ 255 < vector ∨ vector = 0x80 ∨ vector = 32 ∨ vector = 0xE0 ∨ vector = 0xFF then
    none
  else if env.threaded ∨ env.noSlot then none
  else match s.findReg vector with
    | some _ => none
    | none => ((List.range capMaxIrq).find? fun i => !(s.regs i).occupied).map fun i =>
        (s.setReg i ⟨vector, true, none⟩, i)

/-- `release_slot_idx`; without an owner it releases an ownerless claim. -/
def releaseSlotIdx (i : ℕ) (owner : Option ObjId) : HwState :=
  if capMaxIrq ≤ i ∨ (s.regs i).occupied = false ∨ (owner ≠ none ∧ (s.regs i).owner ≠ owner) then s
  else s.setReg i { s.regs i with occupied := false, owner := none }

def rollback (vector i : ℕ) (bdf : PciBdf) (entryIndex : ℕ) : HwState :=
  ((s.freeVector vector).releaseSlotIdx i none).entryRelease bdf entryIndex

/-- The part of `MsixCap::create` that has claimed entry, vector and slot. -/
def buildMsix (bdf : PciBdf) (entryIndex vector i : ℕ) (env : MsixEnv) :
    HwState × Option ObjId :=
  if env.noBlock then (s.rollback vector i bdf entryIndex, none)
  else if env.noProgram then (s.rollback vector i bdf entryIndex, none)
  else
    let s := s.setEntry (bdf, entryIndex) ⟨vector, true⟩
    if env.noCapability then (s.rollback vector i bdf entryIndex, none)
    else
      let s := (s.setReg i { s.regs i with owner := some s.next }).setObj s.next
        (some (.msix ⟨bdf, entryIndex, vector, some i⟩))
      ({ s with next := s.next + 1, liveMsix := s.liveMsix + 1 }, some s.next)

def createMsix (bdf : PciBdf) (entryIndex : ℕ) (env : MsixEnv) :
    HwState × Option ObjId :=
  if pciMaxBuses ≤ bdf.bus.toNat ∨ pciMaxDevices ≤ bdf.device.toNat ∨
      pciMaxFunctions ≤ bdf.function.toNat then (s, none)
  else if capMaxMsix ≤ s.liveMsix then (s, none)
  else match env.tableEntries with
    | none => (s, none)
    | some count =>
      if count ≤ entryIndex then (s, none)
      else match ClaimTable.claim capMaxMsix s.entryClaims (bdf, entryIndex) with
        | none => (s, none)
        | some (claims, _) =>
          let s := { s with entryClaims := claims }
          match s.allocVector with
          | none => (s.entryRelease bdf entryIndex, none)
          | some v =>
            let s := s.setVector v true
            match s.claimSlot v env with
            | none => ((s.freeVector v).entryRelease bdf entryIndex, none)
            | some (s, i) => s.buildMsix bdf entryIndex v i env

/-- The part that `MsixCap::dispose` and `MsixCap::revoke` share. -/
def msixTeardown (o : ObjId) (c : MsixCap) : HwState :=
  let s := match c.regIdx with
    | some i => (s.setEntry (c.bdf, c.entryIndex)
        { s.msixTable (c.bdf, c.entryIndex) with masked := true }).releaseSlotIdx i (some o)
    | none => s
  let s := if c.vector ≠ 0 then s.freeVector c.vector else s
  (s.entryRelease c.bdf c.entryIndex).setObj o (some (.msix { c with regIdx := none }))

def createWdog (targetPid : ℕ) (noBlock : Bool) : HwState × Option ObjId :=
  if targetPid = 0 then (s, none)
  else match s.task targetPid with
    | none => (s, none)
    | some t =>
      if capMaxWdog ≤ s.liveWdogs then (s, none)
      else match ClaimTable.claim capMaxWdog s.wdogClaims targetPid with
        | none => (s, none)
        | some (claims, i) =>
          if noBlock then
            ({ s with wdogClaims := update claims i ⟨false, targetPid⟩ }, none)
          else
            let s := s.setObj s.next (some (.wdog ⟨targetPid, t.generation⟩))
            ({ s with
              next := s.next + 1
              liveWdogs := s.liveWdogs + 1
              wdogClaims := claims }, some s.next)

def bumpGen (g : ℕ) : ℕ := if (g + 1) % 2 ^ 32 = 0 then 1 else (g + 1) % 2 ^ 32

/-- `disarm_target`, with the release of the claim. -/
def disarmTarget (w : WdogCap) : HwState :=
  let s := match s.task w.targetPid with
    | some t =>
      if t.generation = w.targetGen then
        s.setTask w.targetPid (some ⟨t.generation, false, 0, bumpGen t.wdogGen⟩)
      else s
    | none => s
  { s with wdogClaims := ClaimTable.release capMaxWdog (fun _ => 0) s.wdogClaims w.targetPid }

def teardown (o : ObjId) : HwCap → HwState
  | .msix c => s.msixTeardown o c
  | .wdog w => s.disarmTarget w

/-- `revoke` of either class. -/
def revoke (o : ObjId) (x : HwCap) : HwState :=
  { s.teardown o x with revoked := update s.revoked o true }

/-- `dispose` of either class, on the last release. -/
def dispose (o : ObjId) (x : HwCap) : HwState :=
  let s := (s.teardown o x).setObj o none
  match x with
  | .msix _ => { s with liveMsix := s.liveMsix - 1 }
  | .wdog _ => { s with liveWdogs := s.liveWdogs - 1 }

end HwState

inductive HwAction
  | createMsix (bdf : PciBdf) (entryIndex : ℕ) (env : MsixEnv)
  | createWdog (targetPid : ℕ) (noBlock : Bool)
  | revoke (o : ObjId)
  | dispose (o : ObjId)
  | driverAlloc
  | driverFree (v : ℕ)
  | spawn (pid generation : ℕ)
  | exit (pid : ℕ)
  | arm (pid expiry : ℕ)
  | drain (i : ℕ)
  deriving DecidableEq, Repr

def HwState.step (s : HwState) : HwAction → Option HwState
  | .createMsix bdf entryIndex env => some (s.createMsix bdf entryIndex env).1
  | .createWdog pid noBlock => some (s.createWdog pid noBlock).1
  | .revoke o => (s.obj o).map fun x => s.revoke o x
  | .dispose o => (s.obj o).map fun x => s.dispose o x
  | .driverAlloc =>
    some (match s.allocVector with
      | none => s
      | some v => { s.setVector v true with driver := update s.driver v true })
  | .driverFree v =>
    if s.driver v then some { s.freeVector v with driver := update s.driver v false }
    else none
  | .spawn pid generation =>
    if s.task pid = none then some (s.setTask pid (some { generation := generation })) else none
  | .exit pid => some (s.setTask pid none)
  | .arm pid expiry =>
    (s.task pid).map fun t =>
      s.setTask pid (some { t with
        wdogArmed := true
        wdogExpiryTick := expiry
        wdogGen := HwState.bumpGen t.wdogGen })
  | .drain i => some (s.setReg i { s.regs i with occupied := false, owner := none })

end Nexios.Cap
