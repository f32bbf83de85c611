import Nexios.Pmm.Accounting

/-!
# No page is handed out twice

Held pages and the reserved pages of the window are set in the bitmap, and an allocation takes pages
that are clear. So what an allocation returns is neither held nor reserved, as long as the lists
contain clear pages only.
-/

open Bool

namespace Nexios.Pmm

open PmmState

variable {s t : PmmState} {a : PmmAction} {p : ℕ}

/-- A range is reserved while nobody holds one of its pages, and its end can be rounded up. -/
def ReservesUnheld (s : PmmState) : PmmAction → Prop
  | .reserveRange startPhys endPhys => endPhys.toNat + pageSize ≤ 2 ^ 64 ∧
      ∀ p < s.totalPages, Reserves (.reserveRange startPhys endPhys) p → s.held p = false
  | _ => True

/-- Callers free what they hold, no search of the bitmap takes a page that stays in the list of the
pool, and no page is reserved while it is held. -/
def Disciplined (s : PmmState) (a : PmmAction) : Prop :=
  FreesHeld s a ∧ ScanFresh s a ∧ ReservesUnheld s a

structure OwnInv (s : PmmState) : Prop where
  lists : ListInv s
  held : ∀ p, s.held p → s.Valid p ∧ s.bits p = true ∧ s.reserved p = false
  reserved : ∀ p, s.reserved p → s.Valid p → s.bits p
  far : ∀ p, s.Valid p → s.reserved p = false → s.totalPages ≤ s.ownerBit p

theorem OwnInv.boot {memSize kernelEnd ramBase : UInt64}
    (h : boot memSize kernelEnd ramBase = some s) : OwnInv s := by
  have hb := boot_booted h
  refine ⟨hb.lists, ?_, ?_, ?_⟩
  · intro p hp
    rw [hb.held p] at hp
    cases hp
  · intro p hp hv
    rw [hb.bits p (hb.lists.lt_total hv), ← hb.reserved p, hp]
  · intro p _ hp
    rw [hb.reserved p, decide_eq_false_iff_not] at hp
    exact hb.apart p hp

theorem not_hands_of_returns {q : ℕ} (h : Returns a q) : ¬ s.Hands a p := by
  cases a with
  | freePage physAddr | freePageErr physAddr => exact fun hp => hp.1 rfl
  | _ => exact h.elim

theorem not_hands_of_reserves {q : ℕ} (h : Reserves a q) : ¬ s.Hands a p := by
  cases a with
  | reserveRange startPhys endPhys => exact fun hp => hp.1 rfl
  | _ => exact h.elim

theorem held_of_returns (h : FreesHeld s a) (hp : Returns a p) : s.held p = true := by
  cases a with
  | freePage physAddr | freePageErr physAddr => exact hp.symm ▸ h
  | _ => exact hp.elim

theorem unheld_of_reserves (h : ReservesUnheld s a) (hlt : p < s.totalPages)
    (hp : Reserves a p) : s.held p = false := by
  cases a with
  | reserveRange startPhys endPhys => exact h.2 p hlt hp
  | _ => exact hp.elim

theorem ListInv.reserved_set (h : ListInv s) (hok : ReservesUnheld s a)
    (hp : Reserves a p) (hv : s.Valid p) : (s.call a).1.bits p = true := by
  cases a with
  | reserveRange startPhys endPhys =>
    obtain ⟨hlt, hlo, hhi⟩ := hp
    have hend := hok.1
    apply (h.reserveRange startPhys endPhys).2.2 p hlt hlo _ hv
    have hnowrap : u64 (endPhys.toNat + (pageSize - 1)) = endPhys.toNat + (pageSize - 1) := by
      unfold pageSize at hend ⊢
      exact Nat.mod_eq_of_lt (by omega)
    simp only [rangePages, hnowrap]
    unfold pageSize at hhi ⊢
    omega
  | _ => exact hp.elim

namespace OwnInv

variable (h : OwnInv s)
include h

variable (hok : Disciplined s a)
include hok

theorem call : ListInv (s.call a).1 ∧
      ((∃ ps, Taken s (s.call a).1 ps ∧ ∀ p, s.Hands a p → p ∈ ps ∧ s.Valid p) ∨
        ∃ idx, Returns a idx ∧ Freed s (s.call a).1 idx) :=
  h.lists.call hok.2.1 fun p hret hv => h.far p hv (h.held p (held_of_returns hok.1 hret)).2.2

theorem hands_clear (hp : s.Hands a p) : s.Valid p ∧ s.bits p = false := by
  obtain ⟨-, ⟨ps, htaken, hmem⟩ | ⟨idx, hret, -⟩⟩ := h.call hok
  · obtain ⟨hin, hv⟩ := hmem p hp
    exact ⟨hv, (htaken.fresh p hin).2⟩
  · exact absurd hp (not_hands_of_returns hret)

theorem hands_fresh (hp : s.Hands a p) : s.held p = false ∧ s.reserved p = false := by
  obtain ⟨hv, hb⟩ := h.hands_clear hok hp
  constructor
  all_goals rw [← not_eq_true]
  · exact fun hheld => nomatch hb.symm.trans (h.held p hheld).2.1
  · exact fun hres => nomatch hb.symm.trans (h.reserved p hres hv)

theorem stays_set (hv : s.Valid p)
    (hb : s.bits p) (hkeep : ¬ Returns a p) : (s.call a).1.bits p = true := by
  obtain ⟨-, ⟨ps, htaken, -⟩ | ⟨idx, hret, hfreed⟩⟩ := h.call hok
  · exact htaken.mono (h.lists.lt_total hv) hb
  · rw [hfreed.bits, if_neg, hb]
    rintro rfl
    exact hkeep hret

theorem shape : SameShape s (s.call a).1 := by
  obtain ⟨-, ⟨ps, htaken, -⟩ | ⟨idx, -, hfreed⟩⟩ := h.call hok
  · exact htaken.shape
  · exact hfreed.shape

theorem step (hs : s.step a = some t) : OwnInv t := by
  have hshape := h.shape hok
  rw [PmmState.step, Option.some.injEq] at hs
  subst hs
  refine ⟨(h.call hok).1.ghost _ _, ?_, ?_, ?_⟩
  · intro p hp
    change (s.call a).1.Valid p ∧ (s.call a).1.bits p = true ∧
      (decide (Reserves a p) || s.reserved p) = false
    rw [hshape.valid]
    rcases or_eq_true_iff.mp hp with hp | hp
    · have hhands := of_decide_eq_true hp
      obtain ⟨-, ⟨ps, htaken, hmem⟩ | ⟨idx, hret, -⟩⟩ := h.call hok
      · obtain ⟨hin, hv⟩ := hmem p hhands
        refine ⟨hv, ?_, ?_⟩
        · rw [htaken.bits p (h.lists.lt_total hv), decide_eq_true hin, Bool.true_or]
        · rw [(h.hands_fresh hok hhands).2, Bool.or_false, decide_eq_false_iff_not]
          exact fun hres => not_hands_of_reserves hres hhands
      · exact absurd hhands (not_hands_of_returns hret)
    · rw [and_eq_true, not_eq_true', decide_eq_false_iff_not] at hp
      obtain ⟨hv, hb, hres⟩ := h.held p hp.1
      refine ⟨hv, h.stays_set hok hv hb hp.2, ?_⟩
      rw [hres, Bool.or_false, decide_eq_false_iff_not]
      intro hin
      rw [unheld_of_reserves hok.2.2 (h.lists.lt_total hv) hin] at hp
      exact false_ne_true hp.1
  · intro p hp hv
    change (s.call a).1.Valid p at hv
    rw [hshape.valid] at hv
    rcases or_eq_true_iff.mp hp with hp | hp
    · exact h.lists.reserved_set hok.2.2 (of_decide_eq_true hp) hv
    · apply h.stays_set hok hv (h.reserved p hp hv)
      intro hret
      rw [(h.held p (held_of_returns hok.1 hret)).2.2] at hp
      cases hp
  · intro p hv hp
    change (s.call a).1.Valid p at hv
    change (s.call a).1.totalPages ≤ (s.call a).1.ownerBit p
    rw [hshape.valid] at hv
    rw [hshape.total, hshape.ownerBit]
    exact h.far p hv (or_eq_false_iff.mp hp).2

end OwnInv

/-- In every run from boot in which callers free only pages they hold, no search of the bitmap takes
a page that stays in the list of the pool, and ranges are reserved only while none of their pages is
held, an allocation returns pages that nobody holds and that lie in no reserved range. -/
theorem pages_handed_once {memSize kernelEnd ramBase : UInt64} {s₀ : PmmState}
    {as : List PmmAction} (hboot : boot memSize kernelEnd ramBase = some s₀)
    (hrun : Run PmmState.step Disciplined s₀ as s) (hok : Disciplined s a) (p : ℕ)
    (hp : s.Hands a p) : s.held p = false ∧ s.reserved p = false :=
  (hrun.invariant (fun _ _ _ hs hok hst => hs.step hok hst) (OwnInv.boot hboot)).hands_fresh hok hp

theorem SmallMemory.hands_pair (h : SmallMemory s)
    (hset : ∀ q < 528, q ≠ 526 → s.bits q)
    (hclear : ∀ q, 528 ≤ q → q < 530 → s.bits q = false) :
    s.Hands (.alloc false 2) 528 := by
  have hscan : s.scanRange 2 = some 528 := by
    rw [scanRange, h.base, h.stop, List.find?_range'_eq_some]
    refine ⟨?_, List.mem_range'_1.mpr (by decide), fun q _ hq => ?_⟩
    · change (!s.bits 528 && (!s.bits 529 && true)) = true
      rw [hclear 528 (by decide) (by decide), hclear 529 (by decide) (by decide)]
      rfl
    · change (!(!s.bits q && (!s.bits (q + 1) && true))) = true
      by_cases hq' : q = 526
      · rw [hq', hset 527 (by decide) (by decide), Bool.not_true, Bool.false_and, Bool.and_false]
        rfl
      · rw [hset q hq hq']
        rfl
  have hcount : ¬ (2 = 0 ∨ s.totalPages < 2) := by
    rw [h.total]
    decide
  have hcall : (s.call (.alloc false 2)).2 = 528 * pageSize := by
    change (s.alloc false 2).2 = _
    rw [PmmState.alloc, if_neg hcount, allocFromWindow, if_neg (by decide), if_neg (by decide), hscan]
  unfold PmmState.Hands
  rw [hcall]
  decide

/-- A page is reserved, the next two pages are allocated, and the first of them is freed: it is
handed out again as a page table. -/
theorem pages_handed_once_pair :
    ∃ s₀ s, boot 0x1220000 0x200000 0 = some s₀ ∧ Run PmmState.step Disciplined s₀
        [.reserveRange 0x20F000 0x210000, .alloc false 2, .freePage 0x210000] s ∧
      s.Hands .allocPageTable 528 ∧ s.held 528 = false ∧ s.reserved 528 = false := by
  obtain ⟨s₀, hboot⟩ : ∃ s₀, boot 0x1220000 0x200000 0 = some s₀ := exists_init (by decide) 0
  have hb := boot_booted hboot
  have hown₀ := OwnInv.boot hboot
  obtain ⟨h₀, -, -⟩ := SmallMemory.of_boot hboot
  have hfirst : firstFree 0x1220000 pageSize2M 0x200000 = 526 := by decide
  have hok₁ : Disciplined s₀ (.reserveRange 0x20F000 0x210000) :=
    ⟨trivial, trivial, by decide, fun p _ _ => hb.held p⟩
  obtain ⟨s₁, hs₁⟩ : ∃ s₁, s₀.step (.reserveRange 0x20F000 0x210000) = some s₁ := ⟨_, rfl⟩
  have hown₁ := hown₀.step hok₁ hs₁
  obtain ⟨-, ⟨ps, htaken, hps⟩, -⟩ := hown₀.lists.reserveRange 0x20F000 0x210000
  obtain ⟨h₁, hbits, hreserved⟩ : SmallMemory s₁ ∧
      s₁.bits = (s₀.reserveRange 0x20F000 0x210000).bits ∧ ∀ q, s₁.reserved q = (decide
        (Reserves (.reserveRange 0x20F000 0x210000) q) || decide (BootReserved 4640 526 q)) := by
    cases hs₁
    refine ⟨(h₀.of_shape (hown₀.shape hok₁)).of_shape ⟨rfl, rfl, rfl, rfl, rfl, rfl⟩, rfl, fun q => ?_⟩
    rw [← hfirst, ← h₀.total, ← hb.reserved q]
  have hhands : s₁.Hands (.alloc false 2) 528 := by
    refine h₁.hands_pair (fun q hq hne => hown₁.reserved q ?_ ?_) fun q hlo hhi => ?_
    · rw [hreserved, Bool.or_eq_true]
      by_cases hq' : q < 526
      · exact .inr (decide_eq_true (.inl hq'))
      · obtain rfl : q = 527 := by omega
        exact .inl (by decide)
    · rw [PmmState.Valid, h₁.base, h₁.stop]
      omega
    · have hlt : q < s₀.totalPages := h₀.total ▸ hhi.trans (by decide)
      have hnot : q ∉ ps := fun hq => absurd (hps q hq).2 (not_lt.mpr hlo)
      rw [hbits, htaken.bits q hlt, decide_eq_false_iff_not.mpr hnot, hb.bits q hlt, h₀.total, hfirst]
      refine decide_eq_false_iff_not.mpr ?_
      unfold BootReserved
      omega
  have hok₂ : Disciplined s₁ (.alloc false 2) :=
    ⟨trivial, fun htwo => absurd htwo (by decide), trivial⟩
  obtain ⟨s₂, hs₂⟩ : ∃ s₂, s₁.step (.alloc false 2) = some s₂ := ⟨_, rfl⟩
  obtain ⟨h₂, hheld₂⟩ : SmallMemory s₂ ∧ s₂.held 528 = true := by
    cases hs₂
    exact ⟨(h₁.of_shape (hown₁.shape hok₂)).of_shape ⟨rfl, rfl, rfl, rfl, rfl, rfl⟩,
      Bool.or_eq_true_iff.mpr (.inl (decide_eq_true hhands))⟩
  obtain ⟨s₃, hs₃, h₃, -, -, hhead⟩ := h₂.free_pool ((hown₁.step hok₂ hs₂).held 528 hheld₂).2.1
  have hrun : Run PmmState.step Disciplined s₀
      [.reserveRange 0x20F000 0x210000, .alloc false 2, .freePage 0x210000] s₃ :=
    .cons hok₁ hs₁ (.cons hok₂ hs₂ (.single ⟨hheld₂, trivial, trivial⟩ hs₃))
  have hlast : s₃.Hands .allocPageTable 528 := by
    unfold PmmState.Hands
    rw [h₃.pop_pool hhead]
    simp only
    decide
  have hok : Disciplined s₃ .allocPageTable := ⟨trivial, trivial, trivial⟩
  exact ⟨s₀, s₃, hboot, hrun, hlast, pages_handed_once hboot hrun hok 528 hlast⟩

/-- Callers free only what they hold, and yet a page table is handed out while it is held:
`alloc_page_table_err` leaves the page it finds in the list that `alloc_page_table` takes from. -/
theorem page_handed_twice :
    ∃ s₀ s, boot 0x1220000 0x200000 0 = some s₀ ∧
      Run PmmState.step FreesHeld s₀ searchPoolTwice s ∧ s.held 528 = true ∧
      s.Hands .allocPageTable 528 := by
  obtain ⟨s₀, hboot⟩ : ∃ s₀, boot 0x1220000 0x200000 0 = some s₀ := exists_init (by decide) 0
  obtain ⟨s, hrun, h, -, hheld, -, hhead⟩ := head_taken_of_searchPoolTwice hboot
  refine ⟨s₀, s, hboot, hrun, hheld, ?_⟩
  unfold PmmState.Hands
  rw [h.pop_pool hhead]
  simp only
  decide

end Nexios.Pmm
