import Mathlib.Tactic.Ring
import Mathlib.Tactic.IntervalCases

/-!
# Capability types, rights, slots and handles

Rights are a 32-bit word, combined with `|||` and reduced with `&&&`. A handle packs the generation
of a slot, the low eight bits of the CSpace id and the slot index into 64 bits. Generations are
32-bit words that wrap around; the handle has room for all of them.
-/

open BitVec

namespace Nexios.Cap

/-- Slots of each capability node (`CONFIG_CSLOT_COUNT`). -/
def cslotCount : ℕ := 64

abbrev ObjId := ℕ

inductive CapType
  | null
  | task
  | endpoint
  | frame
  | cnode
  | untyped
  | mmio
  | irq
  | ioMmuDma
  | msix
  | wdog
  deriving DecidableEq, Repr

abbrev CapRights := BitVec 32

namespace CapRights

def none : CapRights := 0#32
def read : CapRights := 1#32
def write : CapRights := 2#32
def grant : CapRights := 4#32
def copy : CapRights := 8#32
def share : CapRights := 16#32

def Within (r q : CapRights) : Prop := r &&& q = r
  deriving Decidable

theorem within_iff
    (r q : CapRights) : Within r q ↔ ∀ i, r.getLsbD i → q.getLsbD i := by
  constructor
  · intro h i hi
    have hb := congrArg (fun v => BitVec.getLsbD v i) h
    simp only [getLsbD_and, hi] at hb
    exact hb
  · intro h
    apply eq_of_getLsbD_eq
    intro i _
    rw [getLsbD_and]
    cases hr : r.getLsbD i with
    | false => rfl
    | true => rw [h i hr]; rfl

theorem within_refl (r : CapRights) : Within r r := and_self

theorem Within.trans {r q p : CapRights} (h : Within r q) (h' : Within q p) : Within r p := by
  rw [within_iff] at *
  exact fun i hi => h' i (h i hi)

theorem and_within_right (r q : CapRights) : Within (r &&& q) q := by
  rw [Within, BitVec.and_assoc, BitVec.and_self]

theorem and_within_left (r q : CapRights) : Within (r &&& q) r := by
  rw [BitVec.and_comm]
  exact and_within_right q r

theorem or_within {r q p : CapRights} : Within (r ||| q) p ↔ Within r p ∧ Within q p := by
  simp only [within_iff, getLsbD_or, Bool.or_eq_true]
  constructor
  · intro h
    exact ⟨fun i hi => h i (.inl hi), fun i hi => h i (.inr hi)⟩
  · rintro ⟨hr, hq⟩ i (hi | hi)
    · exact hr i hi
    · exact hq i hi

theorem covers_iff {r need : CapRights} : r &&& need = need ↔ Within need r := by
  rw [Within, BitVec.and_comm]

end CapRights

/-- One slot of a CNode: a counted reference to its target while occupied. -/
structure CSlot where
  obj : Option ObjId := none
  type : CapType := .null
  rights : CapRights := CapRights.none
  gen : BitVec 32 := 0#32
  occupied : Bool := false
  deriving DecidableEq, Repr

def CSlot.target (c : CSlot) : Option ObjId := if c.occupied then c.obj else none

theorem CSlot.target_of_occupied {x : CSlot} (h : x.occupied) : x.target = x.obj := by
  rw [CSlot.target, h, if_pos rfl]

theorem CSlot.target_of_free {x : CSlot} (h : x.occupied = false) : x.target = none := by
  rw [CSlot.target, h]
  rfl

/-- One reference, when `x` is `o`. -/
def refTo (x : Option ObjId) (o : ObjId) : ℕ := if x = some o then 1 else 0

@[simp] theorem refTo_none (o : ObjId) : refTo none o = 0 := rfl

theorem refTo_some (o o' : ObjId) : refTo (some o) o' = if o = o' then 1 else 0 := by
  simp [refTo]

theorem refTo_self (o : ObjId) : refTo (some o) o = 1 := by simp [refTo]

theorem refTo_ne {o o' : ObjId} (h : o' ≠ o) : refTo (some o) o' = 0 := by
  simp [refTo, Ne.symm h]

def capHandleIdBits : ℕ := 8

def capSlotBitsFrom : ℕ → ℕ → ℕ
  | 0, bits => bits
  | fuel + 1, bits => if 2 ^ bits < cslotCount then capSlotBitsFrom fuel (bits + 1) else bits

/-- Bits of the slot index: the least count whose power of two covers the slots. -/
def capSlotBits : ℕ := capSlotBitsFrom 32 0

def capSlotMask : BitVec 64 := BitVec.ofNat 64 (2 ^ capSlotBits - 1)

def encodeHandle (cspaceId slotIndex gen : BitVec 32) : BitVec 64 :=
  (gen.setWidth 64 <<< (capHandleIdBits + capSlotBits)) |||
    ((cspaceId &&& 0xFF#32).setWidth 64 <<< capSlotBits) |||
    (slotIndex.setWidth 64 &&& capSlotMask)

def handleSlot (handle : BitVec 64) : BitVec 32 := (handle &&& capSlotMask).setWidth 32

def handleCspace (handle : BitVec 64) : BitVec 32 :=
  ((handle >>> capSlotBits) &&& 0xFF#64).setWidth 32

def handleGen (handle : BitVec 64) : BitVec 32 :=
  (handle >>> (capHandleIdBits + capSlotBits)).setWidth 32

/-- All ones stands for failure at the user boundary. -/
def encodeUserHandle (cspaceId : BitVec 32) (idx : Option ℕ) (gen : BitVec 32) : BitVec 64 :=
  match idx with
  | none => BitVec.allOnes 64
  | some i => encodeHandle cspaceId (BitVec.ofNat 32 i) gen

def slotIndexValid (idx : BitVec 32) : Bool := idx.toNat < cslotCount

theorem capSlotBits_eq : capSlotBits = 6 := rfl

theorem getLsbD_capSlotMask (k : ℕ) : capSlotMask.getLsbD k = decide (k < 6) :=
  Nat.testBit_two_pow_sub_one 6 k

theorem getLsbD_idMask (k : ℕ) : (0xFF#32).getLsbD k = decide (k < 8) :=
  Nat.testBit_two_pow_sub_one 8 k

theorem getLsbD_encodeHandle (c i g : BitVec 32) (k : ℕ) (hk : k < 64) :
    (encodeHandle c i g).getLsbD k =
      if k < 6 then i.getLsbD k else if k < 14 then c.getLsbD (k - 6) else g.getLsbD (k - 14) := by
  simp only [encodeHandle, capSlotBits_eq, capHandleIdBits, getLsbD_setWidth,
    getLsbD_or, getLsbD_shiftLeft, getLsbD_and,
    getLsbD_capSlotMask, getLsbD_idMask]
  by_cases h6 : k < 6
  · simp [h6, hk, show k < 14 by omega]
  · by_cases h14 : k < 14
    · simp [h6, h14, hk, show k - 6 < 64 by omega, show k - 6 < 8 by omega]
    · simp [h6, h14, hk, show k - 14 < 64 by omega, show ¬ k - 6 < 8 by omega]

theorem handleGen_encodeHandle (c i g : BitVec 32) : handleGen (encodeHandle c i g) = g := by
  apply eq_of_getLsbD_eq
  intro k hk
  have h6 : ¬ 14 + k < 6 := by omega
  simp only [handleGen, capSlotBits_eq, capHandleIdBits, getLsbD_setWidth,
    getLsbD_ushiftRight, hk, decide_true, Bool.true_and]
  rw [getLsbD_encodeHandle c i g (14 + k) (by omega), if_neg h6, if_neg (by omega),
    Nat.add_sub_cancel_left]

theorem handleSlot_encodeHandle (c g : BitVec 32) {i : ℕ} (hi : i < cslotCount) :
    (handleSlot (encodeHandle c (BitVec.ofNat 32 i) g)).toNat = i := by
  have hs : handleSlot (encodeHandle c (BitVec.ofNat 32 i) g) = BitVec.ofNat 32 i := by
    apply eq_of_getLsbD_eq
    intro k hk
    simp only [handleSlot, getLsbD_setWidth, getLsbD_and, hk, decide_true,
      Bool.true_and, getLsbD_capSlotMask]
    rw [getLsbD_encodeHandle c _ g k (by omega)]
    by_cases h6 : k < 6
    · simp only [h6, if_true, decide_true, Bool.and_true]
    · have hb : Nat.testBit i k = false :=
        Nat.testBit_lt_two_pow (lt_of_lt_of_le (show i < 2 ^ 6 from hi)
          (Nat.pow_le_pow_right (by omega) (by omega)))
      simp only [h6, decide_false, Bool.and_false, getLsbD_ofNat, hb]
  rw [hs]
  exact Nat.mod_eq_of_lt (lt_trans hi (by decide))

end Nexios.Cap
