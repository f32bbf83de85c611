import Nexios.Vmm.PageMap

/-!
# Looking up and unmapping a page

Both walk without creating tables. `virt_to_phys` tests for a leaf of 2 MiB before it asks for the
table behind the entry, `unmap_page` does not: `get_table` takes the frame of the leaf for a table
and clears the leaf, with its 512 pages, if the PMM does not count that frame as allocated.
-/

open Function

namespace Nexios.Paging

variable {n : ℕ} {m : Pmm} {p q : Path} {guard : Bool} {s : Slot n} {t : Table (n + 1)}

/-- The walk of `unmap_page`, with `guard` that of `unmap_page_in_pml4`, which stops at leaves. -/
def clearAt (guard : Bool) (m : Pmm) : (n : ℕ) → Table n → Path → Table n
  | 0, t, p => if guard && !present (t (p 0)) then t else update t (p 0) 0#64
  | n + 1, t, p =>
    if guard && splitNeeded (t (p (n + 1))).1 then t
    else
      let r := getTable false m (t (p (n + 1)))
      update t (p (n + 1)) (if r.1 then (r.2.1.1, clearAt guard m n r.2.1.2 p) else r.2.1)

def unmapPage (m : Pmm) (t : Table 3) (p : Path) : Table 3 := clearAt false m 3 t p

def unmapPageInPml4 (m : Pmm) (t : Table 3) (p : Path) : Table 3 := clearAt true m 3 t p

/-- The walk of `virt_to_phys`: the address, `0` if there is none, and the table after the walk. -/
def lookupAt (m : Pmm) (offset : Entry) : (n : ℕ) → Table n → Path → Entry × Table n
  | 0, t, p => (if present (t (p 0)) then (t (p 0) &&& pageFrameMask) + offset else 0#64, t)
  | n + 1, t, p =>
    let s := t (p (n + 1))
    if n = 0 ∧ splitNeeded s.1 then ((s.1 &&& pageHugeFrameMask) + (pageOffset (p 0) + offset), t)
    else
      let r := getTable false m s
      if r.1 then
        let u := lookupAt m offset n r.2.1.2 p
        (u.1, update t (p (n + 1)) (r.2.1.1, u.2))
      else (0#64, update t (p (n + 1)) r.2.1)

def virtToPhys (m : Pmm) (t : Table 3) (p : Path) (offset : Entry) : Entry × Table 3 :=
  lookupAt m offset 3 t p

theorem getTable_absent (hp : present s.1 = false) : getTable false m s = (false, s, m) := by
  simp [getTable, hp]

theorem getTable_table (h : SlotOk m.allocated s) (hp : present s.1)
    (hs : splitNeeded s.1 = false) : getTable false m s = (true, s, m) := by
  simp [getTable, hp, hs, ((onSlot_link hp hs).mp h).1]

theorem getTable_block (hp : present s.1) (hs : splitNeeded s.1) :
    getTable false m s = (false, if m.allocated (tableChild s.1) then s else (0#64, s.2), m) := by
  by_cases ha : m.allocated (tableChild s.1) = true <;> simp [getTable, hp, hs, ha]

theorem lookupAt_table {t : Table n} (h : WellFormed m.allocated n t) (offset : Entry) :
    (lookupAt m offset n t p).2 = t := by
  induction n with
  | zero => rfl
  | succ n ih =>
    rw [lookupAt]
    split_ifs with hblock
    · rfl
    rcases slot_cases (t (p (n + 1))) with hp | ⟨hp, hs⟩ | ⟨hp, hs⟩
    · simp only [getTable_absent hp, Bool.false_eq_true, if_false, update_eq_self]
    · exact absurd ⟨(onSlot_block hp hs).mp (h _), hs⟩ hblock
    · have hok := (onSlot_link hp hs).mp (h (p (n + 1)))
      simp only [getTable_table (h _) hp hs, if_true, ih hok.2, update_eq_self]

/-! ## Unmapping -/

/-- The leaf of 2 MiB on the way, if any, is one that the walk leaves alone. -/
def Spared (guard : Bool) (m : Pmm) (t : Table n) (p : Path) : Prop :=
  guard = true ∨ ∀ e ∈ blockAt n t p, m.allocated (tableChild e) = true

structure Cleared (guard : Bool) (m : Pmm) (t : Table n) (p : Path) (r : Table n) : Prop where
  wf : WellFormed m.allocated n r
  edits : Edits n p False (Spared guard m t p) (translate n t) (translate n r)
  self : blockAt n t p = none → translate n r p = none
  block : ∀ q, blockAt n t q = none → blockAt n r q = none

theorem cleared_refl {t : Table n} (h : WellFormed m.allocated n t) (hspared : Spared guard m t p)
    (hself : blockAt n t p = none → translate n t p = none) : Cleared guard m t p t :=
  ⟨h, ⟨fun _ _ => rfl, fun _ hnot => absurd hspared hnot⟩, hself, fun _ hq => hq⟩

theorem cleared_zero (t : Table 0) : Cleared guard m t p (clearAt guard m 0 t p) := by
  rw [clearAt]
  split_ifs with hp
  · refine cleared_refl trivial (.inr fun e he => (by cases he)) fun _ => ?_
    simp only [Bool.and_eq_true, Bool.not_eq_true'] at hp
    simp only [translate, hp.2, Bool.false_eq_true, if_false]
  refine ⟨trivial, ⟨fun q hq => ?_, fun _ hnot => ?_⟩, fun _ => ?_, fun _ _ => rfl⟩
  · have hne : q 0 ≠ p 0 := fun h => (hq.resolve_left id).2 fun l hl => Nat.le_zero.mp hl ▸ h
    simp only [translate, update_of_ne hne]
  · exact absurd (.inr fun e he => (by cases he)) hnot
  · simp only [translate, update_self]
    rfl

theorem cleared_block (h : WellFormed m.allocated (n + 1) t) (hp : present (t (p (n + 1))).1)
    (hs : splitNeeded (t (p (n + 1))).1) :
    Cleared guard m t p (clearAt guard m (n + 1) t p) := by
  have hblock : blockAt (n + 1) t p = some (t (p (n + 1))).1 := onSlot_block hp hs
  have hspared : Spared guard m t p ↔
      guard = true ∨ m.allocated (tableChild (t (p (n + 1))).1) = true := by
    simp [Spared, hblock]
  by_cases hkeep : Spared guard m t p
  · have hsame : clearAt guard m (n + 1) t p = t := by
      rcases hspared.mp hkeep with hg | ha
      · simp [clearAt, hg, hs]
      · simp [clearAt, getTable_block hp hs, ha]
    rw [hsame]
    exact cleared_refl h hkeep fun hnone => (by cases hblock.symm.trans hnone)
  · have hnot := hspared.not.mp hkeep
    rw [not_or, Bool.not_eq_true, Bool.not_eq_true] at hnot
    have hgone : clearAt guard m (n + 1) t p = update t (p (n + 1)) (0#64, (t (p (n + 1))).2) := by
      simp [clearAt, getTable_block hp hs, hnot]
    have hnone : ∀ q, behind (0#64, (t (p (n + 1))).2) q = none := fun _ => onSlot_absent present_zero
    rw [hgone]
    refine ⟨h.update (.absent present_zero) _, .update ⟨?_, fun _ _ => ?_⟩,
      fun hself => (by cases hblock.symm.trans hself), fun q hq => ?_⟩
    · exact fun q hq => absurd (hq.resolve_left id).1 hkeep
    · rw [hnone, behind, onSlot_block hp hs]
      exact fun heq => (by cases heq)
    · rw [blockAt, update_apply]
      split_ifs
      · exact onSlot_absent present_zero
      · exact hq

theorem cleared_clearAt {t : Table n} (h : WellFormed m.allocated n t) :
    Cleared guard m t p (clearAt guard m n t p) := by
  induction n with
  | zero => exact cleared_zero t
  | succ n ih =>
    rcases slot_cases (t (p (n + 1))) with hp | ⟨hp, hs⟩ | ⟨hp, hs⟩
    · have hsame : clearAt guard m (n + 1) t p = t := by
        simp only [clearAt, getTable_absent hp, Bool.false_eq_true, if_false, update_eq_self, ite_self]
      have hnone : blockAt (n + 1) t p = none := onSlot_absent hp
      rw [hsame]
      refine cleared_refl h (.inr fun e he => ?_) fun _ => onSlot_absent hp
      cases hnone.symm.trans he
    · exact cleared_block h hp hs
    · have hok := (onSlot_link hp hs).mp (h (p (n + 1)))
      have hr := ih (t := (t (p (n + 1))).2) hok.2
      have hclear : clearAt guard m (n + 1) t p =
          update t (p (n + 1)) ((t (p (n + 1))).1, clearAt guard m n (t (p (n + 1))).2 p) := by
        simp [clearAt, getTable_table (h _) hp hs, hs]
      have hblock : blockAt (n + 1) t p = blockAt n (t (p (n + 1))).2 p := onSlot_link hp hs
      have hspared : Spared guard m t p = Spared guard m (t (p (n + 1))).2 p := by
        rw [Spared, Spared, hblock]
      rw [hclear]
      refine ⟨h.update (.table hs hok.1 hr.wf) _, ?_, fun hself => ?_, fun q hq => ?_⟩
      · rw [hspared]
        exact (hr.edits.under hp hs).update
      · rw [translate_update, if_pos rfl, behind_table hp hs, hr.self (hblock ▸ hself)]
        rfl
      · rw [blockAt_update hp hs]
        split_ifs with hi
        · rw [blockAt, hi, onSlot_link hp hs] at hq
          exact hr.block q hq
        · exact hq

/-- A lookup changes nothing, and an unmap changes no other page exactly if the page is not in a
leaf of 2 MiB that `get_table` takes for a link to a table that is not allocated. -/
theorem lookup_unmap_frame {t : Table 3} (h : WellFormed m.allocated 3 t) (p : Path) :
    (∀ offset, (virtToPhys m t p offset).2 = t) ∧
      ((∀ q, ¬ SamePage 3 p q → translate 3 (unmapPage m t p) q = translate 3 t q) ↔
        ∀ e ∈ blockAt 3 t p, m.allocated (tableChild e) = true) := by
  have hr : Cleared false m t p (unmapPage m t p) := cleared_clearAt h
  refine ⟨lookupAt_table h, (hr.edits.iff id).trans ?_⟩
  exact or_iff_right Bool.false_ne_true

def lowMemory : Pmm := ⟨fun a => a.toNat < 0x200000, []⟩

theorem lookup_unmap_frame_low :
    translate 3 (unmapPage lowMemory (blockTree 0x83#64) fun _ => 0) (neighbour fun _ => 0) =
      translate 3 (blockTree 0x83#64) (neighbour fun _ => 0) := by
  have hwf : WellFormed lowMemory.allocated 3 (blockTree 0x83#64) :=
    wellFormed_blockTree (by decide) (by decide) (by decide)
  refine (lookup_unmap_frame hwf _).2.mpr (fun e he => ?_) _ (neighbour_ne _)
  cases he
  decide

/-- An unmap of one page in a leaf over device memory unmaps the page next to it. -/
theorem unmap_clears_block : WellFormed lowMemory.allocated 3 (blockTree 0xFEE00093#64) ∧
    translate 3 (blockTree 0xFEE00093#64) (neighbour fun _ => 0) = some ⟨0xFEE01000#64, 0x13#64⟩ ∧
    translate 3 (unmapPage lowMemory (blockTree 0xFEE00093#64) fun _ => 0) (neighbour fun _ => 0) =
      none :=
  ⟨wellFormed_blockTree (by decide) (by decide) rfl, by decide +kernel, by decide +kernel⟩

end Nexios.Paging
