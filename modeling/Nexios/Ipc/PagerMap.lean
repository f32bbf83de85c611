import Nexios.Vmm.PageRange
import Mathlib.Data.Fin.Tuple.Basic

/-!
# The map call of a pager

`PagerRegistry::map` looks for the fault in the slots of the registry, maps the frames of a
capability into the client and commits. The search stops at the first pending fault of the pager,
whichever it is, so a fault in a lower slot keeps the pager from mapping a later one. A map that is
not committed unmaps all its pages, also those that it has not mapped.
-/

open Function

namespace Nexios.Ipc.Pager

open Paging

structure PagerFault where
  faultId : ℕ
  faultVa : Entry
  clientPml4 : Entry
  mapInProgress : Bool
  deriving DecidableEq

structure Slot where
  free : Bool
  pending : Bool
  pagerId : ℕ
  pagerGen : ℕ
  fault : PagerFault
  /-- the committed pages, with the root of the client -/
  mapped : List (Entry × Entry)
  deriving DecidableEq

structure FrameCap where
  phys : Entry
  count : ℕ
  isUser : Bool
  revoked : Bool

abbrev maxPagesPerFault : ℕ := 4
abbrev maxCommittedPages : ℕ := 16

def FrameCap.mappable (fc : FrameCap) (count : ℕ) : Bool :=
  !(fc.revoked || fc.phys == 0 || fc.count == 0) && fc.isUser &&
    decide (0 < count ∧ count ≤ maxPagesPerFault) && decide (count ≤ fc.count)

/-- Identity and generation of a task. -/
abbrev TaskRef := ℕ × ℕ

def Slot.serves (sl : Slot) (pager : TaskRef) : Bool :=
  !(sl.free || !sl.pending || sl.pagerId != pager.1 || sl.pagerGen != pager.2)

def Slot.claimable (sl : Slot) (faultId count : ℕ) : Bool :=
  !(sl.fault.faultId != faultId || sl.fault.mapInProgress) &&
    decide (sl.mapped.length + count ≤ maxCommittedPages)

variable {k : ℕ} {M : Type}

/-- The first pending fault of the pager. -/
def first (slots : Fin k → Slot) (pager : TaskRef) : Option (Fin k) :=
  Fin.find? fun i => (slots i).serves pager

/-- Phase 1. -/
def claim (slots : Fin k → Slot) (pager : TaskRef) (faultId count : ℕ) : Option (Fin k) :=
  (first slots pager).filter fun i => (slots i).claimable faultId count

/-- The loops over the pages of a fault: root, address, first frame and count. -/
structure Vmm (M : Type) where
  mapFrames (pml4 va phys : Entry) (count : ℕ) : M → Bool × M
  unmapFrames (pml4 va : Entry) (count : ℕ) : M → M

def Slot.commit (sl : Slot) (count : ℕ) : Slot :=
  { sl with
    pending := false
    fault := { sl.fault with mapInProgress := false }
    mapped := sl.mapped ++ (List.range count).map fun i =>
      (sl.fault.faultVa + BitVec.ofNat 64 (i * 4096), sl.fault.clientPml4) }

/-- Phases 2 and 3. With `valid` phase 3 finds the fault again and can acquire the capability for
each page. -/
def Slot.serve (sl : Slot) (V : Vmm M) (fc : FrameCap) (count : ℕ) (valid : Bool) (s : M) :
    Bool × Slot × M :=
  let f := sl.fault
  let r := V.mapFrames f.clientPml4 f.faultVa fc.phys count s
  if r.1 && valid then (true, sl.commit count, r.2)
  else (false, sl, V.unmapFrames f.clientPml4 f.faultVa count r.2)

def map (V : Vmm M) (slots : Fin k → Slot) (pager : TaskRef) (faultId : ℕ) (fc : Option FrameCap)
    (count : ℕ) (valid : Bool) (s : M) : Bool × (Fin k → Slot) × M :=
  match fc.filter (·.mappable count), claim slots pager faultId count with
  | some fc, some i =>
    let r := (slots i).serve V fc count valid s
    (r.1, update slots i r.2.1, r.2.2)
  | _, _ => (false, slots, s)

/-! ## Other faults -/

/-- The result, what becomes of the fault, and the memory. -/
def outcome (i : Fin k) (r : Bool × (Fin k → Slot) × M) : Bool × Slot × M := (r.1, r.2.1 i, r.2.2)

/-- The registry in which no fault is pending but that of slot `i`. -/
def alone (slots : Fin k → Slot) (i : Fin k) : Fin k → Slot :=
  fun j => if j = i then slots j else { slots j with pending := false }

/-- The fault is the first of its pager, or neither it nor the first one can be mapped. -/
def Unobstructed (slots : Fin k → Slot) (pager : TaskRef) (i : Fin k) : Prop :=
  ∀ j, first slots pager = some j → j = i ∨
    (slots i).claimable (slots i).fault.faultId 1 = false ∧
      (slots j).claimable (slots i).fault.faultId 1 = false

variable {slots : Fin k → Slot} {pager : TaskRef} {i j : Fin k} {faultId count : ℕ} {valid : Bool}
  {V : Vmm M} {fc : Option FrameCap} {c : FrameCap} {s : M}

theorem alone_self : alone slots i i = slots i := if_pos rfl

theorem first_alone (h : (slots i).serves pager) : first (alone slots i) pager = some i := by
  refine Fin.find?_eq_some_iff.mpr ⟨alone_self ▸ h, fun j hj => ?_⟩
  simp [alone, hj.ne, Slot.serves]

theorem claim_of_first (hj : first slots pager = some j) :
    claim slots pager faultId count = if (slots j).claimable faultId count then some j else none := by
  rw [claim, hj, Option.filter_some]

theorem claimable_one {sl : Slot} (h : sl.claimable faultId count) (hc : 0 < count) :
    sl.claimable faultId 1 = true := by
  simp only [Slot.claimable, Bool.and_eq_true, decide_eq_true_eq] at h ⊢
  exact ⟨h.1, by omega⟩

theorem outcome_refused (h : fc.filter (·.mappable count) = none ∨
    claim slots pager faultId count = none) :
    outcome i (map V slots pager faultId fc count valid s) = (false, slots i, s) := by
  unfold map
  rcases h with h | h <;> rw [h]
  · rfl
  · cases fc.filter (·.mappable count) <;> rfl

theorem outcome_claimed (hfc : fc.filter (·.mappable count) = some c)
    (h : claim slots pager faultId count = some i) :
    outcome i (map V slots pager faultId fc count valid s) = (slots i).serve V c count valid s := by
  simp only [map, hfc, h, outcome, update_self]

theorem count_pos (h : fc.filter (·.mappable count) = some c) : 0 < count := by
  have hm := (Option.filter_eq_some_iff.mp h).2
  simp only [FrameCap.mappable, Bool.and_eq_true, decide_eq_true_eq] at hm
  exact hm.1.2.1

/-- A memory in which every page can be mapped, and a frame for it. -/
def anyPage : Vmm Unit := ⟨fun _ _ _ _ s => (true, s), fun _ _ _ s => s⟩

def oneFrame : FrameCap := ⟨0x1000#64, 1, true, false⟩

/-- A map does the same with and without other pending faults, whatever the memory does, exactly if
the fault is the first of its pager or the map is refused in both cases. -/
theorem map_independent_iff (h : (slots i).serves pager) :
    (∀ (M : Type) (V : Vmm M) (fc : Option FrameCap) (count : ℕ) (valid : Bool) (s : M),
      outcome i (map V slots pager (slots i).fault.faultId fc count valid s) =
        outcome i (map V (alone slots i) pager (slots i).fault.faultId fc count valid s)) ↔
      Unobstructed slots pager i := by
  have hpending : (slots i).pending = true := by
    simp only [Slot.serves, Bool.not_or, Bool.not_not, Bool.and_eq_true] at h
    exact h.1.1.2
  have hsome : (first slots pager).isSome := Fin.isSome_find?_iff.mpr ⟨i, h⟩
  unfold Unobstructed
  generalize (slots i).fault.faultId = f
  have halone : ∀ count, claim (alone slots i) pager f count =
      if (slots i).claimable f count then some i else none := by
    intro count
    rw [claim_of_first (first_alone h), alone_self]
  constructor
  · intro hall j hj
    by_contra hnot
    obtain ⟨hne, hopen⟩ := not_or.mp hnot
    have hout := hall Unit anyPage (some oneFrame) 1 true ()
    have hfc : (some oneFrame).filter (·.mappable 1) = some oneFrame := rfl
    have hmine : claim slots pager f 1 = if (slots j).claimable f 1 then some j else none :=
      claim_of_first hj
    have hother := halone 1
    cases hi : (slots i).claimable f 1 with rw [hi] at hother
    | false =>
      rw [if_pos (Bool.eq_true_of_not_eq_false fun hj' => hopen ⟨hi, hj'⟩)] at hmine
      rw [outcome_refused (.inr hother), outcome, map, hfc, hmine] at hout
      cases congrArg Prod.fst hout
    | true =>
      rw [outcome_claimed hfc hother, alone_self] at hout
      cases hj' : (slots j).claimable f 1 with
      | false =>
        rw [hj'] at hmine
        rw [outcome_refused (.inr hmine)] at hout
        cases congrArg Prod.fst hout
      | true =>
        -- the call maps the other fault, and this one stays
        rw [hj'] at hmine
        rw [outcome, map, hfc, hmine] at hout
        have hslot := congrArg (·.2.1.pending) hout
        simp only [if_true, update_of_ne (.symm hne), hpending] at hslot
        cases hslot
  · intro hcond M V fc count valid s
    obtain ⟨j, hj⟩ := Option.isSome_iff_exists.mp hsome
    have hmine : claim slots pager f count = if (slots j).claimable f count then some j else none :=
      claim_of_first hj
    cases hfc : fc.filter (·.mappable count) with
    | none => rw [outcome_refused (.inl hfc), outcome_refused (.inl hfc), alone_self]
    | some c =>
      have hclosed : ∀ {sl : Slot}, sl.claimable f 1 = false → ¬ sl.claimable f count = true := by
        intro sl hsl hc
        rw [claimable_one hc (count_pos hfc)] at hsl
        cases hsl
      rcases hcond j hj with rfl | ⟨hi, hj'⟩
      · by_cases hc : (slots j).claimable f count = true
        · rw [outcome_claimed hfc (hmine.trans (if_pos hc)),
            outcome_claimed hfc ((halone count).trans (if_pos hc)), alone_self]
        · rw [outcome_refused (.inr (hmine.trans (if_neg hc))),
            outcome_refused (.inr ((halone count).trans (if_neg hc))), alone_self]
      · rw [outcome_refused (.inr (hmine.trans (if_neg (hclosed hj')))),
          outcome_refused (.inr ((halone count).trans (if_neg (hclosed hi)))), alone_self]

/-- Two clients of pager 7, with the faults 1 and 2. -/
def twoFaults : Fin 2 → Slot :=
  fun i => ⟨false, true, 7, 0, ⟨i.1 + 1, 0x400000#64, BitVec.ofNat 64 (0x9000 + i.1 * 4096), false⟩, []⟩

theorem map_independent_iff_first :
    outcome 0 (map anyPage twoFaults (7, 0) 1 (some oneFrame) 1 true ()) =
      outcome 0 (map anyPage (alone twoFaults 0) (7, 0) 1 (some oneFrame) 1 true ()) := by
  have hserves : (twoFaults 0).serves (7, 0) = true := by decide
  refine (map_independent_iff hserves).mpr (fun j hj => .inl ?_) _ _ _ _ _ _
  have hfirst : first twoFaults (7, 0) = some 0 := by decide
  exact (Option.some.inj (hfirst.symm.trans hj)).symm

/-- The second fault cannot be mapped while the first is pending. -/
theorem map_blocked_by_other :
    (map anyPage twoFaults (7, 0) 2 (some oneFrame) 1 true ()).1 = false ∧
      (map anyPage (alone twoFaults 1) (7, 0) 2 (some oneFrame) 1 true ()).1 = true := by
  decide

/-! ## The address space of the client -/

end Nexios.Ipc.Pager
