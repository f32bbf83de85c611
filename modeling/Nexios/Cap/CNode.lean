import Nexios.Cap.Types
import Mathlib.Data.List.Basic

/-!
# Kernel objects and capability nodes

The reference word of a kernel object and the slot table of a CNode, with each critical section of
the table as one function: the locked parts of `install`, `remove`, `lookup`, `revoke`,
`clear_grant`, `set_policy_word`, and the second look that `copy`, `grant` and `mint` take at the
source slot after their lookup.
-/

open Function Option

namespace Nexios.Cap

/-- The counted base of every kernel object. `isNode` is its dynamic type. -/
structure KernelObject where
  refCount : BitVec 32 := 1#32
  revoked : Bool := false
  isNode : Bool := false
  deriving DecidableEq, Repr

namespace KernelObject

def acquire (k : KernelObject) : Option KernelObject :=
  if k.revoked then none else some { k with refCount := k.refCount + 1#32 }

/-- The flag tells the last releaser, who runs `dispose`. -/
def release (k : KernelObject) : KernelObject × Bool :=
  ({ k with refCount := k.refCount - 1#32 }, k.refCount == 1#32)

def revoke (k : KernelObject) : KernelObject := { k with revoked := true }

theorem acquire_eq_some {k k' : KernelObject} (h : k.acquire = some k') :
    k.revoked = false ∧ k' = { k with refCount := k.refCount + 1#32 } := by
  unfold acquire at h
  split_ifs at h with hr
  exact ⟨by simpa using hr, (some.inj h).symm⟩

end KernelObject

def kCapBrokerAllowGrant : BitVec 32 := 1#32
def kCapBrokerAllowCopy : BitVec 32 := 2#32
def kCapBrokerAllowMint : BitVec 32 := 4#32
def kCapBrokerAllowRetype : BitVec 32 := 8#32
def kCapBrokerAllowAll : BitVec 32 :=
  kCapBrokerAllowGrant ||| kCapBrokerAllowCopy ||| kCapBrokerAllowMint ||| kCapBrokerAllowRetype

/-- A bounded table of slots; only the indices below `cslotCount` are used. -/
structure CNode where
  slots : ℕ → CSlot := fun _ => {}
  cspaceId : BitVec 32 := 0#32
  depth : BitVec 32 := 0#32
  policyWord : BitVec 32 := kCapBrokerAllowAll
  policyGen : BitVec 32 := 1#32

namespace CNode

def setSlot (n : CNode) (i : ℕ) (c : CSlot) : CNode := { n with slots := update n.slots i c }

@[simp] theorem setSlot_same (n : CNode) (i : ℕ) (c : CSlot) : (n.setSlot i c).slots i = c :=
  update_self ..

theorem setSlot_ne (n : CNode) {i j : ℕ} (c : CSlot) (h : j ≠ i) :
    (n.setSlot i c).slots j = n.slots j := update_of_ne h ..

def policyAllows (word opMask : BitVec 32) : Bool := word &&& opMask == opMask

def freeSlot (n : CNode) : Option ℕ :=
  (List.range cslotCount).find? (fun i => !(n.slots i).occupied)

/-- The locked part of `install`: the filled table, the index and the generation written out. -/
def install (n : CNode) (obj : ObjId) (type : CapType) (rights : CapRights) :
    Option (CNode × ℕ × BitVec 32) :=
  (freeSlot n).map fun i =>
    (n.setSlot i { n.slots i with obj := some obj, type := type, rights := rights, occupied := true },
      i, (n.slots i).gen)

/-- What `remove` and `revoke` leave in a slot. -/
def freed (c : CSlot) : CSlot :=
  { obj := none, type := .null, rights := CapRights.none, gen := c.gen + 1#32, occupied := false }

/-- The locked part of `remove`, with the target whose reference the caller now owes. -/
def remove (n : CNode) (idx : ℕ) : Option (CNode × Option ObjId) :=
  if idx < cslotCount ∧ (n.slots idx).occupied then
    some (n.setSlot idx (freed (n.slots idx)), (n.slots idx).obj)
  else none

def clearGrant (n : CNode) (idx : ℕ) : CNode :=
  if idx < cslotCount ∧ (n.slots idx).occupied then
    n.setSlot idx { n.slots idx with rights := (n.slots idx).rights &&& ~~~CapRights.grant }
  else n

def setPolicyWord (n : CNode) (word : BitVec 32) : CNode :=
  { n with policyWord := word, policyGen := n.policyGen + 1#32 }

/-- The checks of `lookup` that precede the acquire. -/
def lookup (n : CNode) (handle : BitVec 64) (want : CapType) (needRights : CapRights) :
    Option ObjId :=
  let idx := (handleSlot handle).toNat
  let slot := n.slots idx
  if slotIndexValid (handleSlot handle) ∧ handleCspace handle = n.cspaceId ∧ slot.occupied ∧
      handleGen handle = slot.gen ∧ (want = .null ∨ slot.type = want) ∧
      slot.rights &&& needRights = needRights then slot.obj
  else none

/-- The locked part of `revoke`. -/
def revokeSlot (n : CNode) (handle : BitVec 64) : Option (CNode × Option ObjId) :=
  let idx := (handleSlot handle).toNat
  let slot := n.slots idx
  if slotIndexValid (handleSlot handle) ∧ handleCspace handle = n.cspaceId ∧ slot.occupied ∧
      handleGen handle = slot.gen then some (n.setSlot idx (freed slot), slot.obj)
  else none

/-- The second critical section of `do_copy_pinned` and `grant`, with the generation comparison
that follows it. Neither the type, nor the rights, nor the object is checked again. -/
def reread (n : CNode) (handle : BitVec 64) (opMask : BitVec 32) : Option (CapType × CapRights) :=
  let idx := (handleSlot handle).toNat
  let slot := n.slots idx
  if idx < cslotCount ∧ slot.occupied ∧ policyAllows n.policyWord opMask ∧
      slot.gen = handleGen handle then some (slot.type, slot.rights)
  else none

def occupiedCount (n : CNode) : ℕ :=
  ((List.range cslotCount).filter (fun i => (n.slots i).occupied)).length

variable {n : CNode} {n' : CNode} {type : CapType} {rights : CapRights} {o : Option ObjId}

theorem freeSlot_eq_some {i : ℕ} (h : n.freeSlot = some i) :
    i < cslotCount ∧ (n.slots i).occupied = false := by
  refine ⟨List.mem_range.mp (List.mem_of_find?_eq_some h), ?_⟩
  simpa using List.find?_some h

theorem freeSlot_zero {m : CNode} (h : (m.slots 0).occupied = false) : m.freeSlot = some 0 := by
  rw [freeSlot, cslotCount, List.range_succ_eq_map]
  simp [h]

theorem install_eq_some {n : CNode} {obj : ObjId} {i : ℕ} {gen : BitVec 32}
    (h : n.install obj type rights = some (n', i, gen)) :
    i < cslotCount ∧ (n.slots i).occupied = false ∧ gen = (n.slots i).gen ∧
      n' = n.setSlot i { n.slots i with
        obj := some obj, type := type, rights := rights, occupied := true } := by
  obtain ⟨j, hj, he⟩ := map_eq_some_iff.mp h
  obtain ⟨hlt, hfree⟩ := freeSlot_eq_some hj
  obtain ⟨rfl, rfl, rfl⟩ := he
  exact ⟨hlt, hfree, rfl, rfl⟩

theorem remove_eq_some {n : CNode} {idx : ℕ} (h : n.remove idx = some (n', o)) :
    idx < cslotCount ∧ (n.slots idx).occupied = true ∧ o = (n.slots idx).obj ∧
      n' = n.setSlot idx (freed (n.slots idx)) := by
  unfold remove at h
  split_ifs at h with hc
  simp only [some.injEq, Prod.mk.injEq] at h
  exact ⟨hc.1, hc.2, h.2.symm, h.1.symm⟩

variable {handle : BitVec 64} {want : CapType} {need : CapRights}

theorem lookup_eq_some {o : ObjId} (h : n.lookup handle want need = some o) :
    (handleSlot handle).toNat < cslotCount ∧ (n.slots (handleSlot handle).toNat).occupied = true ∧
      handleGen handle = (n.slots (handleSlot handle).toNat).gen ∧
      CapRights.Within need (n.slots (handleSlot handle).toNat).rights ∧
      (n.slots (handleSlot handle).toNat).obj = some o := by
  unfold lookup at h
  simp only at h
  split_ifs at h with hc
  obtain ⟨hv, -, hocc, hgen, -, hneed⟩ := hc
  exact ⟨by simpa [slotIndexValid] using hv, hocc, hgen, CapRights.covers_iff.mp hneed, h⟩

theorem type_of_lookup {o : ObjId} (h : n.lookup handle want need = some o) (hw : want ≠ .null) :
    (n.slots (handleSlot handle).toNat).type = want := by
  unfold lookup at h
  simp only at h
  split_ifs at h with hc
  exact hc.2.2.2.2.1.resolve_left hw

theorem revokeSlot_eq_some {n : CNode} (h : n.revokeSlot handle = some (n', o)) :
    (handleSlot handle).toNat < cslotCount ∧ (n.slots (handleSlot handle).toNat).occupied = true ∧
      handleGen handle = (n.slots (handleSlot handle).toNat).gen ∧
      o = (n.slots (handleSlot handle).toNat).obj ∧
      n' = n.setSlot (handleSlot handle).toNat (freed (n.slots (handleSlot handle).toNat)) := by
  unfold revokeSlot at h
  simp only at h
  split_ifs at h with hc
  obtain ⟨hv, -, hocc, hgen⟩ := hc
  simp only [some.injEq, Prod.mk.injEq] at h
  exact ⟨by simpa [slotIndexValid] using hv, hocc, hgen, h.2.symm, h.1.symm⟩

theorem reread_eq_some {op : BitVec 32} (h : n.reread handle op = some (type, rights)) :
    (handleSlot handle).toNat < cslotCount ∧ (n.slots (handleSlot handle).toNat).occupied = true ∧
      (n.slots (handleSlot handle).toNat).gen = handleGen handle ∧
      type = (n.slots (handleSlot handle).toNat).type ∧
      rights = (n.slots (handleSlot handle).toNat).rights := by
  unfold reread at h
  simp only at h
  split_ifs at h with hc
  obtain ⟨hlt, hocc, -, hgen⟩ := hc
  simp only [some.injEq, Prod.mk.injEq] at h
  exact ⟨hlt, hocc, hgen, h.1.symm, h.2.symm⟩

end CNode

end Nexios.Cap
