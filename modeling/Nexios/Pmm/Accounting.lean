import Nexios.Pmm.FreeLists

/-!
# The counter of free pages

`init` leaves the counter equal to the number of clear bits, and every call that takes free pages or
gives one back keeps it so. The count is about the whole bitmap, so the owner bits must lie behind
it: `BitmapFits` is what the rounding of its size has to provide.
-/

open Function Option List

namespace Nexios.Pmm

open PmmState

variable {s t : PmmState} {ps : List ℕ} {memSize kernelStart kernelEnd : UInt64} {n : ℕ} {p : ℕ}
  {windowBase : UInt64}

/-- The pages below `total_pages` whose bit is clear. -/
def clearSet (s : PmmState) : Finset ℕ :=
  (Finset.range s.totalPages).filter fun p => s.bits p = false

def clearPages (s : PmmState) : ℕ := (clearSet s).card

def Balanced (s : PmmState) : Prop := s.freePages = clearPages s
  deriving Decidable

theorem mem_clearSet : p ∈ clearSet s ↔ p < s.totalPages ∧ s.bits p = false := by
  rw [clearSet, Finset.mem_filter, Finset.mem_range]

theorem clearPages_le (s : PmmState) : clearPages s ≤ s.totalPages := by
  have hle := Finset.card_filter_le (Finset.range s.totalPages) (fun p => s.bits p = false)
  rwa [Finset.card_range] at hle

theorem iterate_dec64 {k x : ℕ} (h : k ≤ x) : dec64^[k] x = x - k := by
  induction k generalizing x with
  | zero => rfl
  | succ k ih =>
    have hpred : dec64 x = x - 1 := if_neg (by omega)
    rw [Function.iterate_succ_apply, ih (by omega)]
    omega

theorem Taken.clearPages (h : Taken s t ps) : clearPages t + ps.length = clearPages s := by
  have hsub : ps.toFinset ⊆ clearSet s := by
    intro p hp
    exact mem_clearSet.mpr (h.fresh p (mem_toFinset.mp hp))
  have hset : clearSet t = clearSet s \ ps.toFinset := by
    ext p
    rw [Finset.mem_sdiff, mem_clearSet, mem_clearSet, List.mem_toFinset, h.shape.total]
    constructor
    · rintro ⟨hlt, hb⟩
      obtain ⟨hnot, hb⟩ := h.clear hlt hb
      exact ⟨⟨hlt, hb⟩, hnot⟩
    · rintro ⟨⟨hlt, hb⟩, hnot⟩
      refine ⟨hlt, ?_⟩
      rw [h.bits p hlt, hb, decide_eq_false hnot, Bool.or_false]
  have hcard := Finset.card_sdiff_add_card_eq_card hsub
  rwa [← hset, toFinset_card_of_nodup h.nodup] at hcard

theorem Taken.balanced (h : Taken s t ps) (hs : Balanced s) : Balanced t := by
  have hcount := h.clearPages
  have hle : ps.length ≤ s.freePages := by
    rw [hs]
    omega
  rw [Balanced, h.free, iterate_dec64 hle, hs]
  omega

theorem Freed.balanced {idx : ℕ} (h : Freed s t idx) (hs : Balanced s)
    (hsmall : s.totalPages < noPage) : Balanced t := by
  have hset : clearSet t = insert idx (clearSet s) := by
    ext p
    rw [Finset.mem_insert, mem_clearSet, mem_clearSet, h.shape.total, h.bits p]
    split_ifs with heq
    · exact iff_of_true ⟨heq ▸ h.was.1, rfl⟩ (.inl heq)
    · simp only [heq, false_or]
  have hnotin : idx ∉ clearSet s := by
    rw [mem_clearSet, h.was.2]
    exact fun hmem => Bool.false_ne_true hmem.2.symm
  have hlt : s.freePages ≠ 2 ^ 64 - 1 := by
    have hle := clearPages_le s
    rw [hs]
    unfold noPage at hsmall
    omega
  rw [Balanced, h.free, inc64, if_neg hlt, hs, clearPages, clearPages, hset,
    Finset.card_insert_of_notMem hnotin]

/-! ### Boot -/

def Marked (s t : PmmState) : Prop := t = { s with bits := t.bits, freePages := t.freePages }

theorem Marked.trans {u : PmmState} (h : Marked s t) (h' : Marked t u) : Marked s u := by
  rw [Marked, h', h]

theorem takeAll_marked (s : PmmState) (user : Bool) (ps : List ℕ) :
    Marked s (s.takeAll user ps) := by
  induction ps generalizing s with
  | nil => rfl
  | cons x ps ih => exact .trans (t := s.take user x) rfl (ih _)

theorem claim_marked (s : PmmState) (ps : List ℕ) : Marked s (ps.foldl claim s) := by
  induction ps generalizing s with
  | nil => rfl
  | cons x ps ih =>
    refine .trans (t := claim s x) ?_ (ih _)
    unfold claim
    split_ifs <;> rfl

/-- The loops of `init` over the lowest pages. An owner bit that falls on the bitmap is cleared
before the page to which that bit belongs is taken. -/
theorem takeAll_range (hbits : ∀ q, s.bits q = false) (n : ℕ) (hbs : n ≠ 0 → 0 < s.bitmapSize) :
    (∀ q, (s.takeAll false (range n)).bits q = decide (q < n)) ∧
      (s.takeAll false (range n)).freePages = dec64^[n] s.freePages := by
  induction n with
  | zero =>
    refine ⟨fun q => ?_, rfl⟩
    exact hbits q
  | succ n ih =>
    have hpos := hbs n.succ_ne_zero
    replace ih := ih fun _ => hpos
    have hsame : (s.takeAll false (range n)).bitmapSize = s.bitmapSize := by
      rw [takeAll_marked s false (range n)]
    have hlast : s.takeAll false (range (n + 1)) =
        (s.takeAll false (range n)).take false n := by
      rw [takeAll, range_succ, foldl_append]
      rfl
    rw [hlast]
    refine ⟨fun q => ?_, ?_⟩
    · simp only [PmmState.take, ownerBit, update_apply, ih.1]
      split_ifs with hown hq
      · exact (decide_eq_false (by omega)).symm
      · exact (decide_eq_true (by omega)).symm
      · exact decide_eq_decide.mpr (by omega)
    · rw [Function.iterate_succ_apply', ← ih.2]
      rfl

theorem range_append_range' (a b : ℕ) : range a ++ range' a (b - a) = range (max a b) := by
  have happ := range'_append_1 (s := 0) (m := a) (n := b - a)
  rw [Nat.zero_add] at happ
  rw [range_eq_range', range_eq_range', happ]
  congr 1
  omega

/-- What `init` reserves: the lowest pages and the last 16. -/
def BootReserved (totalPages n p : ℕ) : Prop := p < n ∨ 16 < totalPages ∧ totalPages < p + 17
  deriving Decidable

/-- The first page that `init` does not take for the kernel. -/
def firstFree (memSize kernelStart kernelEnd : UInt64) : ℕ :=
  max (kernelStart.toNat / pageSize) (reservedEndPage (memSize.toNat / pageSize) kernelEnd)

structure Booted (s₀ s : PmmState) (n : ℕ) : Prop where
  shape : SameShape s₀ s
  lists : ListInv s
  balanced : Balanced s
  apart : ∀ p, ¬ BootReserved s.totalPages n p → s.totalPages ≤ s.ownerBit p
  bits : ∀ q < s.totalPages, s.bits q = decide (BootReserved s.totalPages n q)
  reserved : ∀ q, s.reserved q = decide (BootReserved s.totalPages n q)
  held : ∀ q, s.held q = false

theorem alignUp_bitmap (h : n < 2 ^ 52) :
    n / 8 ≤ alignUp (n / 8) 8192 ∧ (8 ≤ n → 0 < alignUp (n / 8) 8192) := by
  have hnowrap : u64 (n / 8 + 8191) = n / 8 + 8191 := Nat.mod_eq_of_lt (by omega)
  simp only [alignUp, hnowrap]
  omega

theorem Marked.shape (h : Marked s t) : SameShape s t := by
  rw [h]
  exact ⟨rfl, rfl, rfl, rfl, rfl, rfl⟩

theorem takeAll_range_balanced (hbits : ∀ q, s.bits q = false) (hfree : s.freePages = s.totalPages)
    (hbs : n ≠ 0 → 0 < s.bitmapSize) (hn : n ≤ s.totalPages) :
    Balanced (s.takeAll false (range n)) := by
  obtain ⟨hset, hcount⟩ := takeAll_range hbits n hbs
  have htotal := (takeAll_marked s false (range n)).shape.total
  have hclear : clearSet (s.takeAll false (range n)) = Finset.Ico n s.totalPages := by
    ext p
    rw [mem_clearSet, hset p, decide_eq_false_iff_not, Finset.mem_Ico]
    omega
  rw [Balanced, hcount, hfree, iterate_dec64 hn, clearPages, hclear, Nat.card_Ico]

/-- The pages that the last loop of `init` visits. -/
def lastPages (totalPages : ℕ) : List ℕ :=
  if 16 < totalPages then (List.range 16).map (totalPages - 1 - ·) else []

theorem mem_lastPages {totalPages : ℕ} :
    p ∈ lastPages totalPages ↔ 16 < totalPages ∧ p < totalPages ∧ totalPages < p + 17 := by
  unfold lastPages
  split_ifs with hbig
  · rw [List.mem_map]
    constructor
    · rintro ⟨k, hk, rfl⟩
      rw [mem_range] at hk
      omega
    · rintro ⟨-, hlt, hgt⟩
      exact ⟨totalPages - 1 - p, mem_range.mpr (by omega), by omega⟩
  · exact iff_of_false not_mem_nil fun hp => hbig hp.1

theorem booted_of_empty (hbits : ∀ q, s.bits q = false)
    (hfree : s.freePages = s.totalPages) (hn : n ≤ s.totalPages) (hbs : n ≠ 0 → 0 < s.bitmapSize)
    (hapart : ∀ p, n ≤ p ∨ 16 < s.totalPages ∧ s.totalPages < p + 17 → s.totalPages ≤ s.ownerBit p)
    (hwin : s.windowBase ≤ s.windowEnd ∧ s.windowEnd ≤ s.totalPages ∧ s.totalPages < noPage)
    (hpool : ∀ p, s.InPool p → s.PoolConfigured ∧ s.Valid p)
    (hres : ∀ q, s.reserved q = decide (BootReserved s.totalPages n q))
    (hheld : ∀ q, s.held q = false) :
    Booted s
      ((lastPages s.totalPages).foldl claim (s.takeAll false (range n))).rebuildFreeList n := by
  obtain ⟨hset, -⟩ := takeAll_range hbits n hbs
  have hm := takeAll_marked s false (range n)
  have hbal := takeAll_range_balanced hbits hfree hbs hn
  generalize hu : s.takeAll false (range n) = u at hset hm hbal
  have hushape := hm.shape
  obtain ⟨qs, hqs, htaken, hlast⟩ := claim_taken (s := u) (lastPages s.totalPages) (fun p hp => by
      rw [hushape.total]
      exact (mem_lastPages.mp hp).2.1)
    (fun p hp _ => by
      obtain ⟨hbig, -, hgt⟩ := mem_lastPages.mp hp
      rw [hushape.total, hushape.ownerBit]
      exact hapart p (.inr ⟨hbig, hgt⟩))
  have hm' := hm.trans (claim_marked u (lastPages s.totalPages))
  have hbal' := htaken.balanced hbal
  generalize hv : (lastPages s.totalPages).foldl claim u = v at htaken hlast hm' hbal'
  have hshape := hm'.shape
  have hvbits : ∀ q < s.totalPages, v.bits q = decide (BootReserved s.totalPages n q) := by
    intro q hq
    by_cases hin : q ∈ lastPages s.totalPages
    · obtain ⟨hbig, -, hgt⟩ := mem_lastPages.mp hin
      rw [hlast q hin]
      exact (decide_eq_true (.inr ⟨hbig, hgt⟩)).symm
    · rw [htaken.bits q (hushape.total ▸ hq), hset q, decide_eq_false (fun h => hin (hqs q h))]
      rw [mem_lastPages] at hin
      exact decide_eq_decide.mpr (by unfold BootReserved; omega)
  have hwin' := hshape.window hwin
  have hrel := (rebuild_spec hwin'.1 fun h => absurd (h.2.trans_le hwin'.2.1) hwin'.2.2.not_gt).1
  have htotal : v.rebuildFreeList.totalPages = s.totalPages := hrel.shape.total.trans hshape.total
  have hfar : ∀ p, ¬ BootReserved s.totalPages n p → s.totalPages ≤ s.ownerBit p :=
    fun p hp => hapart p (.inl (Nat.le_of_not_lt fun hlt => hp (.inl hlt)))
  constructor
  case shape => exact hshape.trans hrel.shape
  case lists =>
    apply ListInv.rebuild hwin'
    · exact hshape.pool_valid hpool
    · rw [hshape.valid, hshape.total, hshape.ownerBit]
      intro p hvp hb
      rw [hvbits p (hvp.2.trans_le hwin.2.1), decide_eq_false_iff_not] at hb
      exact hfar p hb
  case balanced =>
    rw [Balanced, clearPages, clearSet, hrel.freePages, hrel.bits, hrel.shape.total]
    exact hbal'
  case apart =>
    rw [htotal, hrel.shape.ownerBit, hshape.ownerBit]
    exact hfar
  case bits =>
    rw [htotal, hrel.bits]
    exact hvbits
  case reserved =>
    intro q
    rw [htotal, ← hres q, hrel, hm']
  case held =>
    intro q
    rw [← hheld q, hrel, hm']

theorem mem_poolStartPage {base stop r : ℕ} (h : p ∈ poolStartPage base stop r) :
    0 < p ∧ base ≤ p ∧ p + poolSizePages ≤ stop := by
  unfold poolStartPage at h
  split_ifs at h with hroom
  · rw [mem_def, Option.some.injEq] at h
    omega
  · cases h

theorem inPool_of_start {pool : Option ℕ} (hs : s.poolStart = (pool.map (· * pageSize)).getD 0)
    (he : s.poolEnd = (pool.map fun p => (p + poolSizePages) * pageSize).getD 0)
    (hpool : ∀ q ∈ pool, 0 < q ∧ s.windowBase ≤ q ∧ q + poolSizePages ≤ s.windowEnd) (p : ℕ)
    (hin : s.InPool p) : s.PoolConfigured ∧ s.Valid p := by
  unfold PmmState.InPool at hin
  unfold PmmState.PoolConfigured PmmState.Valid
  rw [hs, he] at hin ⊢
  cases pool with
  | none =>
    exact absurd hin.2 (Nat.not_lt_zero p)
  | some q =>
    obtain ⟨hpos, hlo, hhi⟩ := hpool q rfl
    simp only [map_some, getD_some, Nat.mul_div_cancel _ pageSize_pos] at hin ⊢
    have hpage := pageSize_pos
    exact ⟨⟨(Nat.mul_pos hpos hpage).ne', (Nat.mul_pos (by omega) hpage).ne'⟩, by omega, by omega⟩

theorem totalPages_lt (memSize : UInt64) : memSize.toNat / pageSize < 2 ^ 52 := by
  have hlt := memSize.toNat_lt
  unfold pageSize
  omega

theorem init_booted (h : init memSize kernelStart kernelEnd windowBase = some s)
    (hapart : ∀ p, firstFree memSize kernelStart kernelEnd ≤ p ∨
      16 < memSize.toNat / pageSize ∧ memSize.toNat / pageSize < p + 17 →
      memSize.toNat / pageSize ≤ 8 * alignUp (memSize.toNat / pageSize / 8) 8192 + p)
    (hbs : 0 < memSize.toNat / pageSize → 0 < alignUp (memSize.toNat / pageSize / 8) 8192) :
    Booted (emptyState memSize kernelStart kernelEnd windowBase) s
      (firstFree memSize kernelStart kernelEnd) := by
  have hmem := totalPages_lt memSize
  unfold init emptyState at h
  unfold firstFree at hapart ⊢
  unfold emptyState
  simp only at h ⊢
  generalize memSize.toNat / pageSize = total at h hmem hapart hbs ⊢
  generalize reservedEndPage total kernelEnd = r at h hapart ⊢
  generalize kernelStart.toNat / pageSize = k at h hapart ⊢
  by_cases hsmall : total < max k r
  · rw [if_pos hsmall] at h
    cases h
  rw [if_neg hsmall, Option.some.injEq] at h
  have hn := Nat.le_of_not_lt hsmall
  subst h
  rw [takeAll, takeAll, ← foldl_append, range_append_range' k r]
  have hlast : ∀ u : PmmState, (if 16 < total then
      ((range 16).map (total - 1 - ·)).foldl claim u else u) =
        (lastPages total).foldl claim u := by
    intro u
    unfold lastPages
    split_ifs <;> rfl
  rw [hlast]
  apply booted_of_empty
  case hbits | hres | hheld => exact fun _ => rfl
  case hfree => rfl
  case hn => exact hn
  case hbs => exact fun hne => hbs (by omega)
  case hapart => exact hapart
  case hwin =>
    unfold windowEndPage noPage
    simp only
    omega
  case hpool => exact inPool_of_start rfl rfl fun q hq => mem_poolStartPage hq

theorem exists_init
    (h : firstFree memSize kernelStart kernelEnd ≤ memSize.toNat / pageSize) (windowBase : UInt64) :
    ∃ s, init memSize kernelStart kernelEnd windowBase = some s := by
  unfold firstFree at h
  unfold init
  rw [if_neg (Nat.not_lt.mpr h)]
  exact ⟨_, rfl⟩

theorem boot_booted {ramBase : UInt64} (h : boot memSize kernelEnd ramBase = some s) :
    Booted (emptyState memSize pageSize2M kernelEnd ramBase) s
      (firstFree memSize pageSize2M kernelEnd) := by
  have hstart : pageSize2M.toNat / pageSize = 512 := by decide
  have hmem := totalPages_lt memSize
  have hbig : 512 ≤ memSize.toNat / pageSize := by
    by_contra hlt
    unfold boot init at h
    rw [if_pos (by omega)] at h
    cases h
  obtain ⟨hle, hpos⟩ := alignUp_bitmap hmem
  apply init_booted h
  · intro p hp
    unfold firstFree at hp
    omega
  · exact fun _ => hpos (by omega)

/-! ### Whole runs -/

theorem ListInv.ghost (h : ListInv s) (held reserved : ℕ → Bool) :
    ListInv { s with held := held, reserved := reserved } :=
  { h with }

structure CountInv (s : PmmState) : Prop where
  lists : ListInv s
  balanced : Balanced s
  fits : s.totalPages ≤ 8 * s.bitmapSize

theorem CountInv.step {a : PmmAction} (h : CountInv s) (hfresh : ScanFresh s a)
    (hs : s.step a = some t) : CountInv t := by
  have hown : ∀ p, s.totalPages ≤ s.ownerBit p := fun p => h.fits.trans (Nat.le_add_right _ p)
  obtain ⟨hlists, hcase⟩ := h.lists.call hfresh fun p _ _ => hown p
  have hbal : Balanced (s.call a).1 ∧ SameShape s (s.call a).1 := by
    rcases hcase with ⟨ps, htaken, -⟩ | ⟨idx, -, hfreed⟩
    · exact ⟨htaken.balanced h.balanced, htaken.shape⟩
    · exact ⟨hfreed.balanced h.balanced h.lists.window.2.2, hfreed.shape⟩
  rw [PmmState.step, Option.some.injEq] at hs
  subst hs
  refine ⟨hlists.ghost _ _, hbal.1, ?_⟩
  rw [hbal.2.total, hbal.2.bitmap]
  exact h.fits

/-- The bitmap has a bit for every page; its size is rounded down to whole bytes before it is
rounded up to a multiple of 8 KiB. -/
def BitmapFits (memSize : UInt64) : Prop :=
  memSize.toNat / pageSize ≤ 8 * alignUp (memSize.toNat / pageSize / 8) 8192
  deriving Decidable

theorem CountInv.init (h : init memSize kernelStart kernelEnd windowBase = some s)
    (hfits : BitmapFits memSize) : CountInv s := by
  unfold BitmapFits at hfits
  have hbooted := init_booted h (fun p _ => by omega) (fun hpos => by omega)
  refine ⟨hbooted.lists, hbooted.balanced, ?_⟩
  rw [hbooted.shape.total, hbooted.shape.bitmap]
  exact hfits

/-- In every run from `init` in which no search of the bitmap takes a page off the list of the pool
without unlinking it, and with a memory size for which the bitmap has room for all pages, the
counter equals the number of clear bits. Pages may be freed twice, and any address may be freed. -/
theorem free_count_exact {memSize kernelStart kernelEnd windowBase : UInt64} {s₀ : PmmState}
    {as : List PmmAction} (hinit : init memSize kernelStart kernelEnd windowBase = some s₀)
    (hfits : BitmapFits memSize) (hrun : Run step ScanFresh s₀ as s) : s.freePages = clearPages s :=
  (hrun.invariant (fun _ _ _ hs hok hst => hs.step hok hst) (CountInv.init hinit hfits)).balanced

/-- A page table is allocated and freed twice, and a page beyond the end is freed. -/
def tableFreedTwice : List PmmAction :=
  [.allocPageTable, .freePage 0x120F000, .freePage 0x120F000, .freePageErr 0x10000000,
    .reserveRange 0x210000 0x400000]

theorem free_count_exact_tableFreedTwice :
    ∃ s₀ s, boot 0x1220000 0x200000 0 = some s₀ ∧ Run step ScanFresh s₀ tableFreedTwice s ∧
      s.freePages = clearPages s := by
  obtain ⟨s₀, hboot⟩ : ∃ s₀, boot 0x1220000 0x200000 0 = some s₀ := exists_init (by decide) 0
  obtain ⟨s, hrun⟩ : ∃ s, Run step ScanFresh s₀ tableFreedTwice s :=
    ⟨_, .cons trivial rfl (.cons trivial rfl (.cons trivial rfl (.cons trivial rfl
      (.cons trivial rfl (.nil _)))))⟩
  exact ⟨s₀, s, hboot, hrun, free_count_exact hboot (by decide) hrun⟩

/-! ### Where the counter goes wrong -/

theorem poolScan_eq_start {i : ℕ} (hi : s.poolStart / pageSize = i) (hlt : i < s.poolEnd / pageSize)
    (hb : s.bits i = false) : s.poolScan = some i := by
  obtain ⟨k, hk⟩ : ∃ k, s.poolEnd / pageSize - i = k + 1 := ⟨s.poolEnd / pageSize - i - 1, by omega⟩
  rw [poolScan, hi, hk, range'_succ, find?_cons_of_pos]
  rw [hb, Bool.not_false]

theorem freePage_taken {physAddr : UInt64} (hp : physAddr.toNat / pageSize = p)
    (hlt : p < s.totalPages) (hbase : s.windowBase = 0) (hb : s.bits p) :
    s.freePage physAddr = if s.PoolConfigured ∧ s.InPool p then
      { s.drop p with next := update s.next p s.poolFreeHead, poolFreeHead := p }
    else { s.drop p with next := update s.next p s.freeHead, freeHead := p } := by
  have hin : ¬ (s.totalPages ≤ p ∨ p < s.windowBase) := by omega
  simp only [freePage, hp, if_neg hin, if_pos hb]

/-- A page from the head of its list. -/
theorem call_alloc (htotal : s.totalPages ≠ 0) (hv : s.Valid s.freeHead) : s.call (.alloc false 1) =
    ({ s with freeHead := s.next s.freeHead }.take false s.freeHead, s.freeHead * pageSize) := by
  change s.alloc false 1 = _
  have hcount : ¬ (1 = 0 ∨ s.totalPages < 1) := by omega
  rw [alloc, if_neg hcount, allocFromWindow, if_neg Nat.one_ne_zero, if_pos rfl, if_pos hv]

/-- A page table from the head of the list of the pool. -/
theorem call_allocPageTable (hpool : s.PoolConfigured) (hv : s.Valid s.poolFreeHead) :
    s.call .allocPageTable = ({ s with poolFreeHead := s.next s.poolFreeHead }.take false
      s.poolFreeHead, s.poolFreeHead * pageSize) := by
  change s.allocPageTable = _
  rw [allocPageTable, if_neg (not_not.mpr hpool), if_pos hv]

/-- The search of `alloc_page_table_err` finds the lowest page of the pool. -/
theorem call_allocPageTableErr (hpool : s.PoolConfigured) (hp : s.poolStart / pageSize = p)
    (hlt : p < s.poolEnd / pageSize) (hb : s.bits p = false) :
    s.call .allocPageTableErr = (s.take false p, p * pageSize) := by
  change s.allocPageTableErr = _
  rw [allocPageTableErr, if_neg (not_not.mpr hpool), poolScan_eq_start hp hlt hb]

/-- A memory of 4640 pages: the pool is `[528, 4624)`, and pages 526 and 527 are outside it. -/
structure SmallMemory (s : PmmState) : Prop where
  total : s.totalPages = 4640
  bitmap : s.bitmapSize = 8192
  base : s.windowBase = 0
  stop : s.windowEnd = 4640
  poolStart : s.poolStart = 528 * pageSize
  poolEnd : s.poolEnd = 4624 * pageSize

namespace SmallMemory

variable (h : SmallMemory s)
include h

theorem of_shape (hs : SameShape s t) : SmallMemory t :=
  ⟨hs.total.trans h.total, hs.bitmap.trans h.bitmap, hs.base.trans h.base, hs.stop.trans h.stop,
    hs.poolStart.trans h.poolStart, hs.poolEnd.trans h.poolEnd⟩

omit h in
theorem of_boot (hboot : boot 0x1220000 0x200000 0 = some s) :
    SmallMemory s ∧ s.bits 528 = false ∧ Balanced s := by
  have hb := boot_booted hboot
  have hs : SmallMemory (emptyState 0x1220000 pageSize2M 0x200000 0) := by
    constructor <;> decide
  have hsmall := hs.of_shape hb.shape
  refine ⟨hsmall, ?_, hb.balanced⟩
  rw [hb.bits 528 (hsmall.total ▸ by decide), hsmall.total]
  decide

theorem pool : s.PoolConfigured ∧ s.InPool 528 ∧ s.Valid 528 := by
  unfold PmmState.PoolConfigured PmmState.InPool PmmState.Valid
  rw [h.poolStart, h.poolEnd, h.base, h.stop]
  decide

theorem fits (p : ℕ) : s.totalPages ≤ s.ownerBit p := by
  rw [h.total, ownerBit, h.bitmap]
  omega

theorem search_pool (hb : s.bits 528 = false) (hbal : Balanced s) :
    ∃ t, s.step .allocPageTableErr = some t ∧ SmallMemory t ∧ t.bits 528 = true ∧
      t.held 528 = true ∧ Balanced t ∧ t.poolFreeHead = s.poolFreeHead := by
  have hlt : 528 < s.totalPages := h.total ▸ by decide
  have hcall := call_allocPageTableErr h.pool.1 (h.poolStart ▸ by decide) (h.poolEnd ▸ by decide) hb
  have htaken : Taken s (s.take false 528) [528] := .single hlt hb (h.fits 528)
  refine ⟨_, rfl, ?_⟩
  unfold PmmState.Hands
  simp only [hcall]
  refine ⟨(h.of_shape htaken.shape).of_shape ⟨rfl, rfl, rfl, rfl, rfl, rfl⟩, ?_, ?_,
    htaken.balanced hbal, rfl⟩
  · rw [htaken.bits 528 hlt, hb]
    decide
  · rw [Bool.or_eq_true]
    exact .inl (by decide)

theorem free_pool (hb : s.bits 528) :
    ∃ t, s.step (.freePage 0x210000) = some t ∧ SmallMemory t ∧ t.bits 528 = false ∧
      (Balanced s → Balanced t) ∧ t.poolFreeHead = 528 := by
  have hlt : 528 < s.totalPages := h.total ▸ by decide
  have hidx : (0x210000 : UInt64).toNat / pageSize = 528 := rfl
  have hcall := (freePage_taken hidx hlt h.base hb).trans
    (if_pos ⟨h.pool.1, h.pool.2.1⟩)
  have hfreed : Freed s (s.drop 528) 528 := .drop hlt hb _ _ _
  have hsmall : s.totalPages < noPage := h.total ▸ by decide
  refine ⟨_, rfl, ?_⟩
  simp only [call, hcall]
  refine ⟨(h.of_shape hfreed.shape).of_shape ⟨rfl, rfl, rfl, rfl, rfl, rfl⟩, ?_,
    fun hbal => hfreed.balanced hbal hsmall, trivial⟩
  exact (hfreed.bits 528).trans (if_pos rfl)

theorem pop_pool (hhead : s.poolFreeHead = 528) : s.call .allocPageTable =
    ({ s with poolFreeHead := s.next 528 }.take false 528, 528 * pageSize) := by
  rw [call_allocPageTable h.pool.1 (hhead ▸ h.pool.2.2), hhead]

end SmallMemory

/-- The lowest page of the pool is allocated by a search, freed, and allocated by a search again. -/
def searchPoolTwice : List PmmAction :=
  [.allocPageTableErr, .freePage 0x210000, .allocPageTableErr]

theorem head_taken_of_searchPoolTwice {s₀ : PmmState}
    (hboot : boot 0x1220000 0x200000 0 = some s₀) :
    ∃ s, Run step FreesHeld s₀ searchPoolTwice s ∧ SmallMemory s ∧ s.bits 528 = true ∧
      s.held 528 = true ∧ Balanced s ∧ s.poolFreeHead = 528 := by
  obtain ⟨h₀, hb₀, hbal₀⟩ := SmallMemory.of_boot hboot
  obtain ⟨s₁, hs₁, h₁, hb₁, hheld₁, hbal₁, -⟩ := h₀.search_pool hb₀ hbal₀
  obtain ⟨s₂, hs₂, h₂, hb₂, hbal₂, hhead₂⟩ := h₁.free_pool hb₁
  obtain ⟨s₃, hs₃, h₃, hb₃, hheld₃, hbal₃, hhead₃⟩ := h₂.search_pool hb₂ (hbal₂ hbal₁)
  exact ⟨s₃, .cons trivial hs₁ (.cons hheld₁ hs₂ (.cons trivial hs₃ (.nil s₃))), h₃, hb₃, hheld₃,
    hbal₃, hhead₃.trans hhead₂⟩

theorem ne_clearPages_of_dec (hbal : Balanced s) (hsame : clearPages t = clearPages s)
    (hfree : t.freePages = dec64 s.freePages) : t.freePages ≠ clearPages t := by
  unfold Balanced at hbal
  unfold dec64 at hfree
  split_ifs at hfree with hzero <;> omega

theorem count_wrong_of_head_taken (h : SmallMemory s) (hb : s.bits 528) (hbal : Balanced s)
    (hhead : s.poolFreeHead = 528) :
    ∃ t, s.step .allocPageTable = some t ∧ t.freePages ≠ clearPages t := by
  refine ⟨_, rfl, ?_⟩
  rw [h.pop_pool hhead]
  apply ne_clearPages_of_dec hbal _ rfl
  have hbits : ∀ q < s.totalPages, (s.take false 528).bits q = s.bits q := by
    intro q hq
    rw [take_bits (h.fits 528) hq]
    by_cases heq : q = 528
    · rw [heq, hb, Bool.or_true]
    · rw [decide_eq_false heq, Bool.false_or]
  apply congrArg Finset.card
  apply Finset.filter_congr
  intro q hq
  rw [← hbits q (Finset.mem_range.mp hq)]
  rfl

/-- Two pages more than 256 MiB: the bitmap has 8192 bytes, and the bit of page 65537 is the owner
bit of page 1. -/
structure OverlappingMemory (s : PmmState) : Prop where
  total : s.totalPages = 65538
  bitmap : s.bitmapSize = 8192
  base : s.windowBase = 0
  stop : s.windowEnd = 32768
  outside : ¬ s.InPool 1
  low : s.bits 1 = true
  high : s.bits 65537 = true
  balanced : Balanced s

theorem OverlappingMemory.of_boot (hboot : boot 0x10002000 0x200000 0 = some s) :
    OverlappingMemory s := by
  have hb := boot_booted hboot
  have hs := hb.shape
  have htotal : s.totalPages = 65538 := hs.total.trans (by decide)
  refine ⟨htotal, hs.bitmap.trans (by decide), hs.base.trans (by decide), hs.stop.trans (by decide),
    ?_, ?_, ?_, hb.balanced⟩
  · rw [hs.inPool]
    decide
  · rw [hb.bits 1 (by omega), htotal]
    decide
  · rw [hb.bits 65537 (by omega), htotal]
    decide

theorem count_wrong_of_overlap (h : OverlappingMemory s) :
    ∃ t, Run step ScanFresh s [.freePage 0x1000, .alloc false 1] t ∧
      t.freePages ≠ clearPages t := by
  have hlt : 1 < s.totalPages := h.total ▸ by decide
  have hfreed : Freed s (s.drop 1) 1 := .drop hlt h.low _ _ _
  have hidx : (0x1000 : UInt64).toNat / pageSize = 1 := rfl
  have hcall := (freePage_taken hidx hlt h.base h.low).trans (if_neg fun hp => h.outside hp.2)
  obtain ⟨u, hu, hubits, hufree, hhead, hshape⟩ : ∃ u, s.step (.freePage 0x1000) = some u ∧
      u.bits = (s.drop 1).bits ∧ u.freePages = (s.drop 1).freePages ∧ u.freeHead = 1 ∧
      SameShape s u := by
    refine ⟨_, rfl, ?_⟩
    rw [call, hcall]
    exact ⟨rfl, rfl, rfl, rfl, rfl, rfl, rfl, rfl, rfl⟩
  have hbal : Balanced u := by
    have hsmall : s.totalPages < noPage := h.total ▸ by decide
    rw [Balanced, clearPages, clearSet, hufree, hubits, hshape.total]
    exact hfreed.balanced h.balanced hsmall
  have hvalid : u.Valid u.freeHead := by
    rw [hhead, hshape.valid, PmmState.Valid, h.base, h.stop]
    decide
  have htake := call_alloc (by rw [hshape.total, h.total]; decide) hvalid
  refine ⟨_, .cons trivial hu (.cons (fun _ hno => absurd hvalid hno) rfl (.nil _)), ?_⟩
  rw [htake]
  apply ne_clearPages_of_dec hbal _ rfl
  -- page 1 is taken, and the write to its owner bit clears the bit of page 65537
  have hone : 1 ∈ clearSet u := by
    rw [mem_clearSet, hshape.total, h.total, hubits]
    exact ⟨by decide, (hfreed.bits 1).trans (if_pos rfl)⟩
  have hhigh : 65537 ∉ clearSet u := by
    rw [mem_clearSet, hubits, (hfreed.bits 65537).trans (if_neg (by decide)), h.high]
    exact fun hmem => Bool.false_ne_true hmem.2.symm
  have hset : clearSet (u.take false 1) = insert 65537 ((clearSet u).erase 1) := by
    ext q
    rw [Finset.mem_insert, Finset.mem_erase, mem_clearSet, mem_clearSet]
    simp only [PmmState.take, ownerBit, hshape.total, hshape.bitmap, h.total, h.bitmap]
    by_cases hq : q = 65537
    · simp [hq]
    · by_cases hq' : q = 1
      · simp [hq']
      · simp [hq, hq']
  have hcard : (clearSet (u.take false 1)).card = (clearSet u).card := by
    rw [hset, Finset.card_insert_of_notMem (fun hmem => hhigh (Finset.mem_of_mem_erase hmem)),
      Finset.card_erase_of_mem hone]
    have hpos := Finset.card_pos.mpr ⟨1, hone⟩
    omega
  rw [hhead]
  exact hcard

/-- The counter goes wrong in two ways. A search of the pool leaves the page it takes in the list,
so that the page is handed out and counted twice; and with 65538 pages the bitmap and the owner
bitmap overlap. -/
theorem free_count_drifts :
    (∃ s₀ s, boot 0x1220000 0x200000 0 = some s₀ ∧ BitmapFits 0x1220000 ∧
      Run step anyStep s₀ (searchPoolTwice ++ [.allocPageTable]) s ∧
      s.freePages ≠ clearPages s) ∧
    ∃ s₀ s, boot 0x10002000 0x200000 0 = some s₀ ∧
      Run step ScanFresh s₀ [.freePage 0x1000, .alloc false 1] s ∧
      s.freePages ≠ clearPages s := by
  constructor
  · obtain ⟨s₀, hboot⟩ : ∃ s₀, boot 0x1220000 0x200000 0 = some s₀ := exists_init (by decide) 0
    obtain ⟨s, hrun, h, hb, -, hbal, hhead⟩ := head_taken_of_searchPoolTwice hboot
    obtain ⟨t, ht, hwrong⟩ := count_wrong_of_head_taken h hb hbal hhead
    exact ⟨s₀, t, hboot, by decide, hrun.any.append (.single trivial ht), hwrong⟩
  · obtain ⟨s₀, hboot⟩ : ∃ s₀, boot 0x10002000 0x200000 0 = some s₀ := exists_init (by decide) 0
    obtain ⟨t, hrun, hwrong⟩ := count_wrong_of_overlap (.of_boot hboot)
    exact ⟨s₀, t, hboot, hrun, hwrong⟩

end Nexios.Pmm
