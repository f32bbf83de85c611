import Nexios.Cap.RetypeBooks

/-!
# Conservation of Untyped memory

Every page that was carved from the PMM and not yet returned has exactly one owner, an unspent
Untyped or a FrameCap, and it is returned in the step that leaves it without an owner. This holds
after every sequence of calls, whichever of their resources run out. A retype that fails without
having consumed its claim leaves no trace.
-/

open Finset

namespace Nexios.Cap

variable {m : ℕ} {o : ObjId}

namespace Books

variable {s u : MemState m} {hand : List ObjId} {limbo : List (ℕ × ℕ)}

theorem of_run (hm : m ≤ 2 ^ 25) {free : ℕ → Bool} {as : List (MemAction m)}
    (hrun : Run MemState.step anyStep { free := free } as s) : Books s [] [] :=
  hrun.invariant (I := fun s => Books s [] []) (fun _ _ _ h _ hs => (h.step hm hs).1) (init free)

section

variable (h : Books s hand limbo)
include h

theorem owner_unique {p : ℕ} {o' : ObjId} (ho : 0 < s.ownedBy o p) (ho' : 0 < s.ownedBy o' p) :
    o = o' := by
  have hlive : ∀ j, 0 < s.ownedBy j p → j ∈ Finset.range s.next := by
    intro j hj
    rw [MemState.ownedBy] at hj
    split_ifs at hj with ha
    · exact mem_range.mpr (h.lt_next ha)
    · cases hj
  by_contra hne
  have hle : s.ownedBy o p + s.ownedBy o' p ≤ s.owners p := by
    rw [← sum_pair (f := fun j => s.ownedBy j p) hne]
    apply sum_le_sum_of_subset
    intro j hj
    rcases mem_insert.mp hj with rfl | hj
    · exact hlive _ ho
    · rw [mem_singleton.mp hj]
      exact hlive _ ho'
  have hone := h.single p
  omega

theorem owner_exists {p : ℕ} (ho : 0 < s.owners p) : ∃! o, 0 < s.ownedBy o p := by
  obtain ⟨o, -, hne⟩ := exists_ne_zero_of_sum_ne_zero ho.ne'
  exact ⟨o, Nat.pos_of_ne_zero hne, fun o' ho' => h.owner_unique ho' (Nat.pos_of_ne_zero hne)⟩

theorem ownedBy_le_owners (o : ObjId) (p : ℕ) : s.ownedBy o p ≤ s.owners p := by
  by_cases ha : s.alive o = true
  · exact single_le_sum (f := fun j => s.ownedBy j p) (fun _ _ => Nat.zero_le _)
      (mem_range.mpr (h.lt_next ha))
  · rw [MemState.ownedBy, if_neg ha]
    exact Nat.zero_le _

end

theorem page_cases (h : Books s [] []) (p : ℕ) :
    s.carved p = s.returned p ∧ (∀ o, s.ownedBy o p = 0) ∨
      s.carved p = s.returned p + 1 ∧ s.free p = false ∧ ∃! o, 0 < s.ownedBy o p := by
  have hp := h.pages p
  have hs := h.single p
  rw [limboPages_nil] at hp hs
  by_cases hz : s.owners p = 0
  · left
    refine ⟨by omega, ?_⟩
    intro o
    have hle := h.ownedBy_le_owners o p
    omega
  · right
    refine ⟨by omega, ?_, h.owner_exists (Nat.pos_of_ne_zero hz)⟩
    by_contra hf
    have hfree := h.free p (by simpa using hf)
    omega

theorem release_acquire (h : Books s hand limbo) (halive : s.alive o)
    (hacq : s.acquire o = some u) : u.release o = s := by
  obtain ⟨k, hk, rfl⟩ := Option.map_eq_some_iff.mp hacq
  obtain ⟨-, rfl⟩ := KernelObject.acquire_eq_some hk
  have hne : (s.obj o).refCount ≠ 0#32 := by
    intro hz
    have hc := h.count o halive
    have hp := h.pos o halive
    rw [hz, BitVec.toNat_ofNat] at hc
    omega
  have hlast : ((s.obj o).refCount + 1#32 == 1#32) = false := by
    rw [beq_eq_false_iff_ne]
    intro he
    apply hne
    rw [← BitVec.add_sub_cancel (s.obj o).refCount 1#32, he]
    rfl
  simp only [MemState.release, KernelObject.release, MemState.setObj, Function.update_self, hlast,
    BitVec.add_sub_cancel, Function.update_idem, Function.update_eq_self, Bool.false_eq_true, if_false]

end Books

namespace MemState

variable {s : MemState m}

/-- The call passes its checks and builds the FrameCap, from where the claim stays taken. -/
def Consumes (s : MemState m) (c : Fin m) (handle : BitVec 64) (target : CapType) (size : ℕ)
    (x : Exhaustion) : Prop :=
  ∃ o, (s.node c).lookup handle .untyped CapRights.write = some o ∧
    s.retypable c (s.untyped o) target size ∧ (s.untyped o).retyped = false ∧ x.frameBlock = false

theorem resetClaim_claim {ut : UntypedMem} (hp : s.payload o = .untyped ut)
    (hfresh : ut.retyped = false) :
    (s.setPayload o (.untyped { ut with retyped := true })).resetClaim o = s := by
  have hself : Payload.untyped { ut with retyped := false } = s.payload o := by
    rw [hp, ← hfresh]
  simp [resetClaim, untyped, setPayload, hself]

theorem retype_of_not_consumes (h : Books s [] []) {c : Fin m}
    {handle : BitVec 64} {target : CapType} {size : ℕ} {x : Exhaustion} (rights : CapRights)
    (hn : ¬ s.Consumes c handle target size x) :
    s.retype c handle target size rights x = (s, none) := by
  unfold retype
  split_ifs
  · rfl
  split
  · rfl
  rename_i s₁ o hlook
  obtain ⟨hl, hacq⟩ := lookup_eq_some hlook
  obtain ⟨halive, hp⟩ := h.lookup_untyped hl
  have hback := h.release_acquire halive hacq
  obtain ⟨hpay, -, -⟩ := Books.acquire_frame hacq
  obtain ⟨hnode, -⟩ := acquire_same hacq
  have hut : s₁.untyped o = s.untyped o := by rw [untyped, hpay, untyped]
  split_ifs with hok
  · cases hr : (s.untyped o).retyped with
    | true => simp only [claimOnce, hut, hr, if_true, hback]
    | false =>
      have hblock : x.frameBlock = true := by
        by_contra hb
        refine hn ⟨o, hl, ?_, hr, by simpa using hb⟩
        rwa [hut, retypable, hnode] at hok
      simp only [claimOnce, hut, hr, Bool.false_eq_true, if_false, carve, createFrame, hblock,
        if_true]
      rw [resetClaim_claim (by rw [hpay, hp]) hr, hback]
  · rw [hback]

end MemState

theorem frames_conserved (hm : m ≤ 2 ^ 25) {free : ℕ → Bool} {as : List (MemAction m)}
    {s : MemState m} (hrun : Run MemState.step anyStep { free := free } as s) :
    (∀ p, s.carved p = s.returned p ∧ (∀ o, s.ownedBy o p = 0) ∨
      s.carved p = s.returned p + 1 ∧ s.free p = false ∧ ∃! o, 0 < s.ownedBy o p) ∧
    (∀ a u, s.step a = some u → ∀ p o, 0 < s.ownedBy o p →
      u.returned p = s.returned p ∧ (∃! o', 0 < u.ownedBy o' p) ∨
      u.returned p = s.returned p + 1 ∧ ∀ o', u.ownedBy o' p = 0) ∧
    ∀ c handle target size rights x, ¬ s.Consumes c handle target size x →
      s.retype c handle target size rights x = (s, none) := by
  have hbooks := Books.of_run hm hrun
  refine ⟨hbooks.page_cases, ?_, ?_⟩
  · intro a u hstep p o ho
    rcases hbooks.page_cases p with ⟨-, hnone⟩ | ⟨hs, hfree, -⟩
    · rw [hnone o] at ho
      cases ho
    · obtain ⟨hbooks', hkept⟩ := hbooks.step hm hstep
      have hcar := hkept p hfree
      rcases hbooks'.page_cases p with ⟨hu, hnone⟩ | ⟨hu, -, hone⟩
      · exact .inr ⟨by omega, hnone⟩
      · exact .inl ⟨by omega, hone⟩
  · intro c handle target size rights x hn
    exact MemState.retype_of_not_consumes hbooks rights hn

/-- A sub-range carve whose child finds no slot returns both pages and leaves the Untyped spent. -/
theorem frames_conserved_childSlotFull :
    ∃ s : MemState 1, Run MemState.step anyStep { free := fun _ => true }
      [.createUntyped 8192 true .frame 4096 false, .install 0 0 CapRights.write false,
        .retype 0 0#64 .frame 4096 CapRights.read { childSlot := true }] s ∧
      s.returned 4096 = 1 ∧ s.returned 8192 = 1 ∧ ∀ o, s.ownedBy o 4096 = 0 := by
  refine Run.exists_imp_of_exec (fun s => s.returned 4096 = 1 ∧ s.returned 8192 = 1 ∧
    s.carved 4096 = 1) (by decide +kernel) ?_
  rintro s hrun ⟨hret, hret', hcar⟩
  refine ⟨hret, hret', ?_⟩
  rcases (frames_conserved (by decide) hrun).1 4096 with ⟨-, hnone⟩ | ⟨hone, -⟩
  · exact hnone
  · omega

end Nexios.Cap
