import Nexios.Cap.Untyped
import Nexios.Lib.Run

/-!
# Rights handed out by retype

`retype` stores the rights word of its caller, unmasked, in the slot of the new frame, and the same
word with WRITE added in the slot of a child Untyped. What it installs is within the rights of the
Untyped slot exactly when the word of the caller is.
-/

namespace Nexios.Cap

open CapRights Option

variable {m : ℕ}

namespace MemState

section

variable (s : MemState m)

theorem freePages_same (phys k : ℕ) :
    (s.freePages phys k).node = s.node ∧ (s.freePages phys k).carved = s.carved := by
  induction k with
  | zero => exact ⟨rfl, rfl⟩
  | succ k ih => exact ih

theorem dispose_same (o : ObjId) :
    (s.dispose o).node = s.node ∧ (s.dispose o).carved = s.carved := by
  unfold dispose
  split
  · split_ifs
    · exact freePages_same _ _ _
    · exact ⟨rfl, rfl⟩
  · exact freePages_same _ _ _

theorem release_same (o : ObjId) :
    (s.release o).node = s.node ∧ (s.release o).carved = s.carved := by
  unfold release
  simp only
  split_ifs
  · exact dispose_same _ _
  · exact ⟨rfl, rfl⟩

@[simp] theorem release_node (o : ObjId) : (s.release o).node = s.node :=
  (s.release_same o).1

@[simp] theorem release_carved (o : ObjId) : (s.release o).carved = s.carved :=
  (s.release_same o).2

end

variable {s u : MemState m} {o : ObjId}

theorem acquire_same (h : s.acquire o = some u) : u.node = s.node ∧ u.carved = s.carved := by
  obtain ⟨k, -, rfl⟩ := map_eq_some_iff.mp h
  exact ⟨rfl, rfl⟩

def filled (n : CNode) (i : ℕ) (o : ObjId) (type : CapType) (rights : CapRights) : CNode :=
  n.setSlot i { n.slots i with obj := some o, type := type, rights := rights, occupied := true }

variable {c : Fin m} {rights : CapRights} {target : CapType} {noBlock : Bool} {i size : ℕ}
  {phys : ℕ} {isUser : Bool} {fc : ObjId} {child : Option ObjId}

theorem install_eq_some {type : CapType} {full : Bool}
    (h : s.install c o type rights full = (u, some i)) :
    (s.node c).freeSlot = some i ∧ u.node c = filled (s.node c) i o type rights := by
  unfold install at h
  by_cases ht : type = .null
  · rw [if_pos ht] at h
    cases h
  rw [if_neg ht] at h
  cases hacq : s.acquire o with
  | none =>
    rw [hacq] at h
    cases h
  | some s₁ =>
    simp only [hacq] at h
    split at h
    · next n j gen hn =>
      cases h
      split_ifs at hn
      rw [(acquire_same hacq).1] at hn
      obtain ⟨k, hk, he⟩ := map_eq_some_iff.mp hn
      cases he
      refine ⟨hk, ?_⟩
      simp only [setNode_node, Function.update_self]
      rfl
    · cases h

theorem createFrame_same {count : ℕ} (h : s.createFrame phys count isUser noBlock = some (u, fc)) :
    u.node = s.node ∧ u.carved = s.carved := by
  unfold createFrame at h
  split_ifs at h
  obtain ⟨rfl, -⟩ := h
  exact ⟨rfl, rfl⟩

theorem allocObject_same (h : s.allocObject phys size isUser target noBlock = some (u, o)) :
    u.node = s.node ∧ u.carved = s.carved := by
  unfold allocObject at h
  split_ifs at h
  cases h
  exact ⟨rfl, rfl⟩

theorem carveChild_same {ut : UntypedMem} (h : s.carveChild ut size noBlock = some (u, child)) :
    u.node = s.node ∧ u.carved = s.carved := by
  unfold carveChild createSubrange at h
  split_ifs at h
  · cases h
    exact ⟨rfl, rfl⟩
  · cases h
  · cases h
  · obtain ⟨⟨s₁, ch⟩, hc, he⟩ := map_eq_some_iff.mp h
    cases he
    exact allocObject_same hc

variable {x : Exhaustion}

/-- A retype that succeeds found an Untyped slot with WRITE, filled the first free slot with the
frame and, for a sub-range carve, the next one with the child. -/
theorem installCarved_eq_some {o : ObjId} (h : s.installCarved c o fc child rights x = (u, some i)) :
    (s.node c).freeSlot = some i ∧
      (u.node c = filled (s.node c) i fc .frame rights ∨
        ∃ j ch, (filled (s.node c) i fc .frame rights).freeSlot = some j ∧ u.node c =
          filled (filled (s.node c) i fc .frame rights) j ch .untyped (rights ||| write)) := by
  unfold installCarved at h
  split at h
  · cases h
  · cases h
  · next s₁ idx hinst =>
    cases h
    obtain ⟨hfree, hnode⟩ := install_eq_some hinst
    refine ⟨hfree, .inl ?_⟩
    simpa only [release_node] using hnode
  · next s₁ idx ch hinst =>
    obtain ⟨hfree, hnode⟩ := install_eq_some hinst
    split at h
    · cases h
    rename_i s₂ j hinst₂
    cases h
    obtain ⟨hfree₂, hnode₂⟩ := install_eq_some hinst₂
    rw [hnode] at hfree₂ hnode₂
    refine ⟨hfree, .inr ⟨j, ch, hfree₂, ?_⟩⟩
    simpa only [release_node] using hnode₂

theorem claimOnce_same (h : s.claimOnce o = some u) : u.node = s.node ∧ u.carved = s.carved := by
  unfold claimOnce at h
  split_ifs at h
  cases h
  exact ⟨rfl, rfl⟩

variable {handle : BitVec 64}

theorem lookup_eq_some {want : CapType}
    {need : CapRights} (h : s.lookup c handle want need = some (u, o)) :
    (s.node c).lookup handle want need = some o ∧ s.acquire o = some u := by
  obtain ⟨o', ho, hu⟩ := bind_eq_some_iff.mp h
  obtain ⟨u', hu', he⟩ := map_eq_some_iff.mp hu
  cases he
  exact ⟨ho, hu'⟩

theorem retype_eq_some (h : s.retype c handle target size rights x = (u, some i)) :
    CapRights.Within write ((s.node c).slots (handleSlot handle).toNat).rights ∧
      (s.node c).freeSlot = some i ∧ ∃ fc,
      (u.node c = filled (s.node c) i fc .frame rights ∨
        ∃ j ch, (filled (s.node c) i fc .frame rights).freeSlot = some j ∧ u.node c =
          filled (filled (s.node c) i fc .frame rights) j ch .untyped (rights ||| write)) := by
  unfold retype at h
  split_ifs at h
  · cases h
  split at h
  · cases h
  rename_i s₁ o hlook
  obtain ⟨hl, hacq⟩ := lookup_eq_some hlook
  obtain ⟨-, -, -, hwrite, -⟩ := CNode.lookup_eq_some hl
  obtain ⟨hn₁, -⟩ := acquire_same hacq
  split_ifs at h
  · split at h
    · cases h
    rename_i s₂ hclaim
    obtain ⟨hn₂, -⟩ := claimOnce_same hclaim
    unfold carve at h
    simp only at h
    split at h
    · cases h
    rename_i s₃ fc hframe
    obtain ⟨hn₃, -⟩ := createFrame_same hframe
    split at h
    · cases h
    · next s₄ child hchild =>
      obtain ⟨hn₄, -⟩ := carveChild_same hchild
      obtain ⟨hfree, hnode⟩ := installCarved_eq_some h
      rw [hn₄, hn₃, hn₂, hn₁] at hfree hnode
      exact ⟨hwrite, hfree, fc, hnode⟩
  · cases h

theorem filled_same (n : CNode) (i : ℕ) (o : ObjId) (type : CapType) (rights : CapRights) :
    ((filled n i o type rights).slots i).rights = rights ∧
      ((filled n i o type rights).slots i).occupied = true := by
  simp [filled]

theorem filled_ne (n : CNode) {j : ℕ} (o : ObjId) (type : CapType) (rights : CapRights)
    (h : j ≠ i) : (filled n i o type rights).slots j = n.slots j := CNode.setSlot_ne _ _ h

/-- Every slot that `retype` fills is within the rights of the Untyped slot. -/
def Attenuates (s u : MemState m) (c : Fin m) (handle : BitVec 64) : Prop :=
  ∀ i, ((s.node c).slots i).occupied = false → ((u.node c).slots i).occupied →
    CapRights.Within ((u.node c).slots i).rights
      ((s.node c).slots (handleSlot handle).toNat).rights

theorem retype_filled (h : s.retype c handle target size rights x = (u, some i)) :
    ((s.node c).slots i).occupied = false ∧ ((u.node c).slots i).occupied = true ∧
      ((u.node c).slots i).rights = rights ∧
      ∀ k, ((s.node c).slots k).occupied = false → ((u.node c).slots k).occupied →
        ((u.node c).slots k).rights = rights ∨ ((u.node c).slots k).rights = rights ||| write := by
  obtain ⟨-, hfree, fc, hnode⟩ := retype_eq_some h
  obtain ⟨-, hempty⟩ := CNode.freeSlot_eq_some hfree
  obtain ⟨hrights, hocc⟩ := filled_same (s.node c) i fc .frame rights
  refine ⟨hempty, ?_⟩
  rcases hnode with hu | ⟨j, ch, hj, hu⟩
  · rw [hu]
    refine ⟨hocc, hrights, ?_⟩
    intro k hk hku
    by_cases hki : k = i
    · rw [hki]
      exact .inl hrights
    · rw [filled_ne _ _ _ _ hki, hk] at hku
      cases hku
  · obtain ⟨-, hjfree⟩ := CNode.freeSlot_eq_some hj
    have hij : i ≠ j := by
      rintro rfl
      rw [hocc] at hjfree
      cases hjfree
    rw [hu, filled_ne _ _ _ _ hij]
    refine ⟨hocc, hrights, ?_⟩
    intro k hk hku
    by_cases hkj : k = j
    · rw [hkj]
      exact .inr (filled_same _ j ch .untyped _).1
    rw [filled_ne _ _ _ _ hkj] at hku ⊢
    by_cases hki : k = i
    · rw [hki]
      exact .inl hrights
    · rw [filled_ne _ _ _ _ hki, hk] at hku
      cases hku

/-- A retype amplifies nothing exactly when the rights word of its caller is within the rights of
the Untyped slot. -/
theorem retype_attenuates_iff {s u : MemState m} {c : Fin m} {handle : BitVec 64} {target : CapType}
    {size : ℕ} {rights : CapRights} {x : Exhaustion} {i : ℕ}
    (h : s.retype c handle target size rights x = (u, some i)) :
    Attenuates s u c handle ↔
      CapRights.Within rights ((s.node c).slots (handleSlot handle).toNat).rights := by
  obtain ⟨hwrite, -⟩ := retype_eq_some h
  obtain ⟨hempty, hocc, hrights, hfilled⟩ := retype_filled h
  constructor
  · intro hatt
    have hi := hatt i hempty hocc
    rwa [hrights] at hi
  · intro hin k hk hku
    rcases hfilled k hk hku with hr | hr <;> rw [hr]
    · exact hin
    · exact or_within.mpr ⟨hin, hwrite⟩

/-- One capability space whose slot `0` holds an Untyped of two pages with WRITE only. -/
def twoPages : MemState 1 :=
  ((exec MemState.step anyStep { free := fun _ => true }
    [.createUntyped 8192 true .frame 4096 false, .install 0 0 write false]).getD
      { free := fun _ => false })

theorem retype_attenuates_twoPages :
    ∃ u, twoPages.retype 0 0#64 .frame 4096 write {} = (u, some 1) ∧
      Attenuates twoPages u 0 0#64 := by
  let r := twoPages.retype 0 0#64 .frame 4096 write {}
  have h : twoPages.retype 0 0#64 .frame 4096 write {} = (r.1, some 1) := by
    refine Prod.ext rfl ?_
    decide +kernel
  exact ⟨r.1, h, (retype_attenuates_iff h).mpr (by decide +kernel)⟩

theorem retype_amplifies :
    ∃ u, twoPages.retype 0 0#64 .frame 4096 (read ||| grant) {} = (u, some 1) ∧
      ((twoPages.node 0).slots 0).rights = write ∧
      ((u.node 0).slots 1).rights = read ||| grant ∧
      ¬ Attenuates twoPages u 0 0#64 := by
  let r := twoPages.retype 0 0#64 .frame 4096 (read ||| grant) {}
  have hidx : r.2 = some 1 := by decide +kernel
  have hrights : ((r.1.node 0).slots 1).rights = read ||| grant := by
    decide +kernel
  refine ⟨r.1, Prod.ext rfl hidx, by decide +kernel, hrights, ?_⟩
  intro hatt
  have hone := hatt 1 (by decide +kernel) (by decide +kernel)
  revert hone
  decide +kernel

end MemState

end Nexios.Cap
