import Nexios.Iommu.Tables
import Nexios.Pci

/-!
# The IOMMU manager

Domains, the root table with an entry per bus, and the pool of context tables that buses claim on
their first attachment and never give back. A device reaches memory through the root entry of its
bus and its entry in the context table that the root entry names. All calls run under one lock, so
they are the steps of the model. `flush` is the answer of the hardware to the invalidation that ends
a call.

`serial` numbers the domains in the order of their creation, and `last` records the domain to which
a device was attached last; no call reads them.
-/

open Function

namespace Nexios.Iommu

def maxDomains : ℕ := 8
def maxMappings : ℕ := 32
def maxBuses : ℕ := 8
def capMaxIommu : ℕ := 16

def kRootEntryPresent : Word := 1
def kRootEntryCtpMask : Word := 0x000FFFFFFFFFF000
def kCtePresent : Word := 1
def kCteTtMask : Word := 3 <<< 2
def kCteTtTranslate : Word := 0
def kCteTtPassthrough : Word := 2 <<< 2
def kCteAsrMask : Word := 0xFFFFFFFFFFFFF000

structure IoMmuMapping where
  phys : Word := 0
  pages : ℕ := 0
  slFlags : BitVec 32 := 0
  occupied : Bool := false
  deriving DecidableEq, Repr

structure IoMmuDomain where
  slRootPhys : Word := 0
  ownerTaskId : ℕ := 0
  maps : ℕ → IoMmuMapping := fun _ => {}
  occupied : Bool := false
  serial : ℕ := 0

structure Entry16 where
  lo : Word := 0
  hi : Word := 0
  deriving DecidableEq, Repr

structure FrameCap where
  phys : Word
  count : ℕ
  revoked : Bool := false
  deriving DecidableEq, Repr

/-- Where the kernel image has the context tables: on distinct pages that a root entry can name. -/
structure Platform where
  ctxPhys : ℕ → Word
  ctp : ∀ i < maxBuses, ctxPhys i &&& kRootEntryCtpMask = ctxPhys i
  distinct : ∀ i < maxBuses, ∀ j < maxBuses, ctxPhys i = ctxPhys j → i = j

structure IommuState where
  present : Bool := false
  live : Bool := false
  domains : ℕ → IoMmuDomain := fun _ => {}
  rootTable : UInt8 → Entry16 := fun _ => {}
  ctxTables : ℕ → ℕ → Entry16 := fun _ _ => {}
  ctxBusIds : ℕ → Option UInt8 := fun _ => none
  mem : TableMem := {}
  created : ℕ := 0
  last : PciBdf → Option (ℕ × ℕ) := fun _ => none
  nextCap : ℕ := 0
  caps : ℕ → Option ℤ := fun _ => none
  liveIommus : ℕ := 0

namespace Entry16

def Present (e : Entry16) : Prop := e.lo &&& kCtePresent ≠ 0
  deriving Decidable

/-- A present context entry that translates through its address space root. -/
def Translates (e : Entry16) : Prop := e.Present ∧ e.lo &&& kCteTtMask = kCteTtTranslate
  deriving Decidable

def asr (e : Entry16) : Word := e.lo &&& kCteAsrMask

end Entry16

def ctxIndex (bdf : PciBdf) : ℕ := bdf.device.toNat * 8 + bdf.function.toNat

def bdfValid (bdf : PciBdf) : Prop := bdf.device.toNat < 32 ∧ bdf.function.toNat < 8
  deriving Decidable

inductive DmaAccess
  | blocked
  | passthrough
  | through (root : Word)
  deriving DecidableEq, Repr

/-- What the unit does with a request, given the context entry of the device. -/
def contextAccess (cte : Entry16) : DmaAccess :=
  if ¬ cte.Present then .blocked
  else if cte.lo &&& kCteTtMask = kCteTtPassthrough then .passthrough
  else if cte.lo &&& kCteTtMask = kCteTtTranslate then .through cte.asr
  else .blocked

namespace IommuState

variable (P : Platform) (s : IommuState)

@[simps] def setDomain (i : ℕ) (d : IoMmuDomain) : IommuState :=
  { s with domains := update s.domains i d }

@[simps] def setContext (slot k : ℕ) (e : Entry16) : IommuState :=
  { s with
    ctxTables := update s.ctxTables slot (update (s.ctxTables slot) k e) }

@[simps] def setRoot (bus : UInt8) (e : Entry16) : IommuState :=
  { s with rootTable := update s.rootTable bus e }

def inRange (idx : ℤ) : Prop := 0 ≤ idx ∧ idx < maxDomains
  deriving Decidable

def freeDomain : Option ℕ :=
  (List.range maxDomains).find? fun i => !(s.domains i).occupied

def domainCreate (taskId : ℕ) : IommuState × ℤ :=
  if s.present = false then (s, -1)
  else match s.freeDomain with
    | none => (s, -1)
    | some i =>
      let (mem, root) := s.mem.allocZeroedTablePage
      if root = 0 then ({ s with mem := mem }, -1)
      else
        ({ s.setDomain i { s.domains i with
            slRootPhys := root
            ownerTaskId := taskId
            occupied := true
            serial := s.created } with
          mem := mem
          created := s.created + 1 }, i)

def clearMaps (mem : TableMem) (d : IoMmuDomain) : TableMem :=
  (List.range maxMappings).foldl (fun mem m =>
    if (d.maps m).occupied then mem.clearLeaves d.slRootPhys (d.maps m).phys (d.maps m).pages
    else mem) mem

def clearRecords (maps : ℕ → IoMmuMapping) (m : ℕ) : IoMmuMapping :=
  if m < maxMappings ∧ (maps m).occupied then {} else maps m

def domainDestroy (idx : ℤ) : IommuState :=
  if ¬ inRange idx then s
  else
    let d := s.domains idx.toNat
    if d.occupied = false then s
    else
      let mem := clearMaps s.mem d
      let mem := if d.slRootPhys ≠ 0 then mem.freePage d.slRootPhys else mem
      { s.setDomain idx.toNat { serial := d.serial, maps := clearRecords d.maps } with mem := mem }

def rangeEnd (phys : Word) (count : ℕ) : Word := phys + BitVec.ofNat 64 count * pageSize

def overlaps (d : IoMmuDomain) (fc : FrameCap) : Bool :=
  (List.range maxMappings).any fun m =>
    let a := d.maps m
    a.occupied && a.phys < rangeEnd fc.phys fc.count && fc.phys < rangeEnd a.phys a.pages

def setMap (d : IoMmuDomain) (m : ℕ) (x : IoMmuMapping) : IoMmuDomain :=
  { d with maps := update d.maps m x }

def mapFrame (idx : ℤ) (fc : FrameCap) (slFlags : BitVec 32) (flush : Bool) :
    IommuState × Bool :=
  if s.present = false ∨ ¬ inRange idx ∨ fc.count = 0 ∨ slFlags = 0 ∨ ¬ Aligned fc.phys ∨
      fc.revoked = true then (s, false)
  else
    let d := s.domains idx.toNat
    if d.occupied = false ∨ overlaps d fc = true then (s, false)
    else match (List.range maxMappings).find? fun m => !(d.maps m).occupied with
      | none => (s, false)
      | some rec =>
        match TableMem.mapPages d.slRootPhys fc.phys slFlags 0 fc.count s.mem with
        | (mem, false) => ({ s with mem := mem }, false)
        | (mem, true) =>
          ({ s.setDomain idx.toNat (setMap d rec ⟨fc.phys, fc.count, slFlags, true⟩) with
            mem := mem }, flush)

def unmapFrame (idx : ℤ) (fc : FrameCap) (flush : Bool) : IommuState × Bool :=
  if s.present = false ∨ ¬ inRange idx then (s, false)
  else
    let d := s.domains idx.toNat
    if d.occupied = false then (s, false)
    else match (List.range maxMappings).find? fun m =>
        (d.maps m).occupied && (d.maps m).phys == fc.phys && (d.maps m).pages == fc.count with
      | none => (s, false)
      | some rec =>
        ({ s.setDomain idx.toNat (setMap d rec {}) with
          mem := s.mem.clearLeaves d.slRootPhys (d.maps rec).phys (d.maps rec).pages }, flush)

def findBus (bus : UInt8) : Option ℕ :=
  (List.range maxBuses).find? fun i => s.ctxBusIds i == some bus

def claimBus (bus : UInt8) : IommuState × Option ℕ :=
  match s.findBus bus with
  | some i => (s, some i)
  | none =>
    match (List.range maxBuses).find? fun i => s.ctxBusIds i == none with
    | none => (s, none)
    | some i =>
      ({ s with
        ctxBusIds := update s.ctxBusIds i (some bus)
        ctxTables := update s.ctxTables i fun _ => {} }, some i)

def rootEntry (slot : ℕ) : Entry16 :=
  ⟨kRootEntryPresent ||| P.ctxPhys slot &&& kRootEntryCtpMask, 0⟩

def contextEntry (root : Word) : Entry16 :=
  ⟨kCtePresent ||| kCteTtTranslate ||| root &&& kCteAsrMask, 0⟩

def attachDevice (idx : ℤ) (bdf : PciBdf) (flush : Bool) :
    IommuState × Bool :=
  if s.present = false ∨ ¬ bdfValid bdf ∨ ¬ inRange idx then (s, false)
  else
    let d := s.domains idx.toNat
    if d.occupied = false then (s, false)
    else match s.claimBus bdf.bus with
      | (s, none) => (s, false)
      | (s, some slot) =>
        ({ (s.setRoot bdf.bus (rootEntry P slot)).setContext slot (ctxIndex bdf)
            (contextEntry d.slRootPhys) with
          last := update s.last bdf (some (idx.toNat, d.serial)) }, flush)

def clearAttachment (idx : ℤ) (bdf : PciBdf) : IommuState :=
  if ¬ inRange idx ∨ ¬ bdfValid bdf then s
  else if (s.domains idx.toNat).occupied = false then s
  else
    let s := s.setRoot bdf.bus {}
    match s.findBus bdf.bus with
    | none => s
    | some slot => s.setContext slot (ctxIndex bdf) {}

/-- The part of `passthrough_kernel_devices` for one device of the kernel. -/
def passthroughDevice (bdf : PciBdf) : IommuState :=
  match s.claimBus bdf.bus with
  | (s, none) => s
  | (s, some slot) =>
    let cte := s.ctxTables slot (ctxIndex bdf)
    if cte.Present ∧ cte.lo &&& kCteTtMask ≠ kCteTtPassthrough then s
    else (s.setRoot bdf.bus (rootEntry P slot)).setContext slot (ctxIndex bdf)
      ⟨kCtePresent ||| kCteTtPassthrough, 0⟩

/-- What the unit does with a request of the device: root entry, context table, context entry. -/
def access (bdf : PciBdf) : DmaAccess :=
  let re := s.rootTable bdf.bus
  if re.lo &&& kRootEntryPresent = 0 then .blocked
  else match (List.range maxBuses).find? fun i => P.ctxPhys i == re.lo &&& kRootEntryCtpMask with
    | none => .blocked
    | some slot => contextAccess (s.ctxTables slot (ctxIndex bdf))

/-- `IoMmuDmaCap::create`. -/
def capCreate (taskId : ℕ) (noBlock : Bool) : IommuState :=
  if capMaxIommu ≤ s.liveIommus ∨ (s.present = false ∧ s.live = false) then s
  else
    let (s, idx) := s.domainCreate taskId
    if idx < 0 then s
    else if noBlock then s.domainDestroy idx
    else
      { s with
        nextCap := s.nextCap + 1
        caps := update s.caps s.nextCap (some idx)
        liveIommus := s.liveIommus + 1 }

/-- The part that `IoMmuDmaCap::revoke` and `IoMmuDmaCap::dispose` share. -/
def capTeardown (o : ℕ) (domainIdx : ℤ) : IommuState :=
  if 0 ≤ domainIdx then
    { s.domainDestroy domainIdx with caps := update s.caps o (some (-1)) }
  else s

def capDispose (o : ℕ) (domainIdx : ℤ) : IommuState :=
  let s := s.capTeardown o domainIdx
  { s with
    caps := update s.caps o none
    liveIommus := s.liveIommus - 1 }

end IommuState

/-- The steps: the calls of the manager and of the capability that owns a domain, the boot-time
entries of kernel devices, and what others do with the PMM. -/
inductive IommuAction
  | domainCreate (taskId : ℕ)
  | domainDestroy (idx : ℤ)
  | mapFrame (idx : ℤ) (fc : FrameCap) (slFlags : BitVec 32) (flush : Bool)
  | unmapFrame (idx : ℤ) (fc : FrameCap) (flush : Bool)
  | attachDevice (idx : ℤ) (bdf : PciBdf) (flush : Bool)
  | clearAttachment (idx : ℤ) (bdf : PciBdf)
  | capCreate (taskId : ℕ) (noBlock : Bool)
  | capRevoke (o : ℕ)
  | capDispose (o : ℕ)
  | passthroughDevice (bdf : PciBdf)
  | forcePresent (present : Bool)
  | probeHardware
  | pmm (free : List Word)
  deriving DecidableEq, Repr

/-- Pages that the PMM may hand out. -/
def Allocatable (mem : TableMem) (free : List Word) : Prop :=
  free.Nodup ∧ ∀ p ∈ free, p ≠ 0 ∧ Aligned p ∧ p &&& kSlEntryAddrMask = p ∧ mem.held p = false

-- the bounded quantifier is decided along the list, not over all 64-bit words
instance (mem : TableMem) (free : List Word) : Decidable (Allocatable mem free) :=
  have := List.decidableBAll
    (fun p => p ≠ 0 ∧ Aligned p ∧ p &&& kSlEntryAddrMask = p ∧ mem.held p = false) free
  inferInstanceAs (Decidable (_ ∧ _))

def IommuState.step (P : Platform) (s : IommuState) : IommuAction → Option IommuState
  | .domainCreate taskId => some (s.domainCreate taskId).1
  | .domainDestroy idx => some (s.domainDestroy idx)
  | .mapFrame idx fc slFlags flush => some (s.mapFrame idx fc slFlags flush).1
  | .unmapFrame idx fc flush => some (s.unmapFrame idx fc flush).1
  | .attachDevice idx bdf flush => some (s.attachDevice P idx bdf flush).1
  | .clearAttachment idx bdf => some (s.clearAttachment idx bdf)
  | .capCreate taskId noBlock => some (s.capCreate taskId noBlock)
  | .capRevoke o => (s.caps o).map fun idx => s.capTeardown o idx
  | .capDispose o => (s.caps o).map fun idx => s.capDispose o idx
  | .passthroughDevice bdf =>
    if bdfValid bdf then some (s.passthroughDevice P bdf) else none
  | .forcePresent present => some { s with present := present, live := present && s.live }
  | .probeHardware => some { s with present := true, live := true }
  | .pmm free => if Allocatable s.mem free then some { s with mem := { s.mem with free := free } }
    else none

end Nexios.Iommu
