import Nexios.Vmm.AddressSpace
import Nexios.Vmm.PageUnmap

/-!
# Mapping a range

`map_phys_range_try` maps page by page and, when a page cannot be mapped, unmaps the pages before
it. What was mapped at such a page before the call is lost.
-/

open Function List

namespace Nexios.Paging

variable {m : Pmm} {t : Table 3} {p q : Path} {ps : List Path} {n : ℕ}

/-- One page of a range, with the answer of the ENSURE on its owner. -/
structure MapRequest where
  path : Path
  leaf : Entry
  ensure : Bool

/-- The loop over the pages: its outcome, the pages that have been mapped, and what it leaves. -/
def mapEach : List MapRequest → Pmm → Table 3 → MapOutcome × List Path × Table 3 × Pmm
  | [], m, t => (.ok, [], t, m)
  | a :: as, m, t =>
    let r := mapAt a.ensure a.leaf 3 m t a.path
    if r.1 = .ok then
      let u := mapEach as r.2.2 r.2.1
      (u.1, a.path :: u.2.1, u.2.2)
    else (r.1, [], r.2)

def unmapEach (m : Pmm) (ps : List Path) (t : Table 3) : Table 3 := ps.foldl (unmapPageInPml4 m) t

/-- The indices of a page number. -/
def pathOf (page : ℕ) : Path := fun l => Fin.ofNat 512 (page / 512 ^ l)

def rangePages (virt count : ℕ) : List Path := (List.range count).map fun i => pathOf (virt / 4096 + i)

theorem translate_congr (t : Table n) (h : SamePage n p q) : translate n t q = translate n t p := by
  induction n with
  | zero => simp only [translate, h 0 le_rfl]
  | succ n ih =>
    obtain ⟨hi, hn⟩ := samePage_succ.mp h
    simp only [translate, hi, ih _ hn, h 0 (Nat.zero_le _)]

theorem blockAt_eq_none {t : Table n} (h : translate n t p = none) : blockAt n t p = none := by
  induction n with
  | zero => rfl
  | succ n ih =>
    unfold translate onSlot at h
    unfold blockAt onSlot
    split_ifs at h ⊢
    exacts [ih (Option.map_eq_none_iff.mp h), rfl]

theorem blockAt_congr (t : Table n) (h : SamePage n p q) : blockAt n t q = blockAt n t p := by
  induction n with
  | zero => rfl
  | succ n ih =>
    obtain ⟨hi, hn⟩ := samePage_succ.mp h
    simp only [blockAt, hi, ih _ hn]

/-- What the loop over the pages leaves. If it does not run into the ENSURE, it changes no page but
those that it has mapped. -/
structure MappedEach (t : Table 3) (ps : List Path) (r : MapOutcome × List Path × Table 3 × Pmm) :
    Prop where
  wf : WellFormed r.2.2.2.allocated 3 r.2.2.1
  done : r.2.1 ⊆ ps
  block : ∀ q, blockAt 3 t q = none → blockAt 3 r.2.2.1 q = none
  kept : (∀ p ∈ ps, blockAt 3 t p = none) → ∀ q, (∀ p ∈ ps, ¬ SamePage 3 p q) ∨
    r.1 ≠ .halted ∧ (∀ p ∈ r.2.1, ¬ SamePage 3 p q) → translate 3 r.2.2.1 q = translate 3 t q

theorem mapEach_spec (as : List MapRequest) (h : WellFormed m.allocated 3 t) :
    MappedEach t (as.map MapRequest.path) (mapEach as m t) := by
  induction as generalizing m t with
  | nil => exact ⟨h, Subset.refl _, fun _ hq => hq, fun _ _ _ => rfl⟩
  | cons a as ih =>
    have hr : Mapped m t a.path a.leaf a.ensure (mapAt a.ensure a.leaf 3 m t a.path) := mapped_mapAt h
    rw [mapEach, map_cons]
    generalize mapAt a.ensure a.leaf 3 m t a.path = r at hr
    have hself : blockAt 3 t a.path = none → ∀ q, ¬ SamePage 3 a.path q →
        translate 3 r.2.1 q = translate 3 t q := by
      refine fun hnone q hq => hr.edits.kept q (.inr ⟨fun e he => ?_, hq⟩)
      cases hnone.symm.trans he
    by_cases hok : r.1 = .ok
    · simp only [hok, if_true]
      have hu := ih hr.wf
      refine ⟨hu.wf, cons_subset_cons _ hu.done, fun q hq => hu.block q (hr.blocks q hq),
        fun hnone q hq => ?_⟩
      simp only [forall_mem_cons] at hnone hq
      rw [hu.kept (fun p hp => hr.blocks p (hnone.2 p hp)) q
        (hq.imp And.right (And.imp_right And.right))]
      exact hself hnone.1 q (hq.elim And.left (·.2.1))
    · simp only [hok]
      refine ⟨hr.wf, nil_subset _, hr.blocks, fun hnone q hq => ?_⟩
      rcases hq with hq | ⟨hhalt, -⟩
      · exact hself (hnone _ mem_cons_self) q (hq _ mem_cons_self)
      · refine hr.edits.kept q (.inl ?_)
        cases hout : r.1 with
        | pageAlloc => rfl
        | ok => exact absurd hout hok
        | halted => exact absurd hout hhalt

theorem unmapEach_spec (ps : List Path) (h : WellFormed m.allocated 3 t) (q : Path) :
    (blockAt 3 t q = none → (∃ p ∈ ps, SamePage 3 p q) → translate 3 (unmapEach m ps t) q = none) ∧
      ((∀ p ∈ ps, ¬ SamePage 3 p q) → translate 3 (unmapEach m ps t) q = translate 3 t q) := by
  induction ps generalizing t with
  | nil =>
    refine ⟨fun _ hq => ?_, fun _ => rfl⟩
    obtain ⟨p, hp, -⟩ := hq
    exact absurd hp not_mem_nil
  | cons p ps ih =>
    have hr : Cleared true m t p (unmapPageInPml4 m t p) := cleared_clearAt h
    obtain ⟨hsome, hnone⟩ := ih hr.wf
    refine ⟨fun hb hq => ?_, fun hq => ?_⟩
    · by_cases hlater : ∃ p ∈ ps, SamePage 3 p q
      · exact hsome (hr.block q hb) hlater
      have hsame : SamePage 3 p q := by
        obtain ⟨x, hx, hxq⟩ := hq
        rcases mem_cons.mp hx with rfl | hx
        exacts [hxq, absurd ⟨x, hx, hxq⟩ hlater]
      refine (hnone fun x hx hxq => hlater ⟨x, hx, hxq⟩).trans ((translate_congr _ hsame).trans ?_)
      exact hr.self ((blockAt_congr t hsame).symm.trans hb)
    · rw [forall_mem_cons] at hq
      exact (hnone hq.2).trans (hr.edits.kept q (.inr ⟨.inl rfl, hq.1⟩))

/-- Of pages not mapped before, unmapping those the loop has mapped, or all, restores what was
there. -/
theorem rollback (as : List MapRequest) (h : WellFormed m.allocated 3 t)
    (hnone : ∀ p ∈ as.map MapRequest.path, translate 3 t p = none) :
    let r := mapEach as m t
    ps = as.map MapRequest.path ∨ r.1 ≠ .halted ∧ ps = r.2.1 →
      ∀ q, translate 3 (unmapEach r.2.2.2 ps r.2.2.1) q = translate 3 t q := by
  intro r hps q
  have hr := mapEach_spec as h
  have hback := unmapEach_spec ps hr.wf q
  by_cases hq : ∃ p ∈ ps, SamePage 3 p q
  · obtain ⟨p, hp, hsame⟩ := hq
    have hp' : p ∈ as.map MapRequest.path := by
      rcases hps with rfl | ⟨-, rfl⟩
      exacts [hp, hr.done hp]
    have hfree : translate 3 t q = none := (translate_congr t hsame).trans (hnone p hp')
    rw [hback.1 (hr.block q (blockAt_eq_none hfree)) ⟨p, hp, hsame⟩, hfree]
  · have hout : ∀ p ∈ ps, ¬ SamePage 3 p q := fun p hp hsame => hq ⟨p, hp, hsame⟩
    rw [hback.2 hout, hr.kept (fun p hp => blockAt_eq_none (hnone p hp)) q]
    rcases hps with rfl | ⟨hhalt, rfl⟩
    exacts [.inl hout, .inr ⟨hhalt, hout⟩]

def noPage : Pmm := ⟨fun _ => true, []⟩

variable {s : Vmm.AddressSpace} {va : ℕ} {phys : Entry}

theorem slot_eq_iff {va' : ℕ} :
    Vmm.slot va' = Vmm.slot va ↔ SamePage 3 (pathOf (va / 4096)) (pathOf (va' / 4096)) := by
  rw [samePage_succ, samePage_succ, samePage_succ]
  simp [SamePage, pathOf, Vmm.slot, Vmm.directory, Vmm.pml4Index, Vmm.pdptIndex, Vmm.pdIndex,
    Vmm.ptIndex, Fin.ext_iff, Nat.div_div_eq_div_mul, and_assoc]

theorem mapPage_three : (s.mapPage va phys.toNat 3).2 = true := by
  have hpd : ∀ pd k, (Vmm.mapInPd pd va phys.toNat (k + 1)).2 = true := by
    intro pd k
    unfold Vmm.mapInPd Vmm.PdEntry.write
    cases pd (Vmm.pdIndex va) <;> simp
  have hpdpt : ∀ pdpt k, (Vmm.mapInPdpt pdpt va phys.toNat (k + 2)).2 = true := by
    intro pdpt k
    unfold Vmm.mapInPdpt Vmm.descend
    cases pdpt (Vmm.pdptIndex va) <;> simp [hpd]
  unfold Vmm.AddressSpace.mapPage Vmm.descend
  cases s.pml4 (Vmm.pml4Index va) <;> simp [hpdpt]

theorem granted_frame {n : ℕ} (t : Table n) (p : Path) (x : Translation) :
    (granted n t p x).frame = x.frame := by
  induction n with
  | zero => rfl
  | succ n ih =>
    unfold granted limit onSlot
    split_ifs <;> exact ih _

/-- The address space has the frames of the pages of the tree, without their flags. -/
def Shows (t : Table 3) (s : Vmm.AddressSpace) : Prop :=
  ∀ va, s.translate va = (translate 3 t (pathOf (va / 4096))).map (·.frame.toNat)

/-- What a map does to the tree it does to the address space as well. -/
theorem Shows.mapPage (hshows : Shows t s) (h : WellFormed m.allocated 3 t)
    (hphys : phys &&& pageFrameMask = phys) (user executable : Bool) (mayMap : Entry → Bool) :
    let r := mapPageInPml4Try m t (pathOf (va / 4096)) phys user executable mayMap
    (r.1 = .pageAlloc → Shows r.2.1 s) ∧
    (r.1 = .ok → (∀ e ∈ blockAt 3 t (pathOf (va / 4096)), Plain e) →
      ∃ tables, (s.mapPage va phys.toNat tables).2 = true ∧
        Shows r.2.1 (s.mapPage va phys.toNat tables).1) := by
  intro r
  have hr : Mapped m t _ (encodeMapLeaf phys user executable) _ r := mapped_mapAt h
  refine ⟨fun hfail va' => ?_, fun hok hplain => ⟨3, mapPage_three, fun va' => ?_⟩⟩
  · rw [hr.edits.kept _ (.inl hfail), hshows]
  · rw [Vmm.AddressSpace.translate_mapPage mapPage_three]
    split_ifs with hslot
    · rw [translate_congr _ (slot_eq_iff.mp hslot),
        hr.set hok (by simp [present, encodeMapLeaf, mapFlags]),
        leafView_encodeMapLeaf hphys, Option.map_some, granted_frame]
    · rw [hr.edits.kept _ (.inr ⟨hplain, mt slot_eq_iff.mpr hslot⟩), hshows]

end Nexios.Paging
