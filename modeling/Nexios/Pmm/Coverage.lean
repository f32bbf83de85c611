import Mathlib.Data.List.Intervals
import Nexios.Pmm.Accounting

/-!
# What the bitmap covers

Three places where the bitmap is taken for more than it is. `init` rounds its size down to whole
bytes before it rounds it up, so that the last pages may have no bit. A search for a color that
finds page 0 returns its address, which is also the answer for no page. And the snapshot of the
page-table pool copies whole bytes from the one that has the first bit of the pool, and leaves the
list alone.
-/

open Function Option List

namespace Nexios.Pmm

open PmmState

variable {s t : PmmState} {p q color start limit : ℕ} {user : Bool}
  {memSize kernelStart kernelEnd windowBase : UInt64}

/-- The list from `head` has the pages of the window with the property `P`, each once. -/
def Listed (s : PmmState) (head : ℕ) (P : ℕ → Prop) : Prop :=
  ∃ l, Chain s.Valid s.next head l ∧ l.Nodup ∧ ∀ p, p ∈ l ↔ s.Valid p ∧ P p

section

variable (hwin : s.windowBase ≤ s.windowEnd) (hno : ¬ s.Valid noPage)
include hwin hno

theorem listed_rebuild : Listed s.rebuildFreeList s.rebuildFreeList.freeHead (FreeGeneral s) ∧
    Listed s.rebuildFreeList s.rebuildFreeList.poolFreeHead (FreePool s) := by
  obtain ⟨hrel, hg, hp⟩ := rebuild_spec hwin hno
  unfold Listed
  rw [hrel.shape.valid]
  have hmem : ∀ (P : ℕ → Prop) [DecidablePred P] (p : ℕ),
      p ∈ (s.window.filter P).reverse ↔ s.Valid p ∧ P p := by
    intro P _ p
    rw [mem_reverse, mem_filter, mem_window hwin, decide_eq_true_iff]
  exact ⟨⟨_, hg, nodup_found s _, hmem _⟩, _, hp, nodup_found s _, hmem _⟩

end

/-! ## The bitmap after `init` -/

/-- The page lies in the storage of the two bitmaps. -/
def InStorage (bitmapSize : ℕ) (kernelEnd : UInt64) (p : ℕ) : Prop :=
  alignUp kernelEnd.toNat 8192 ≤ p * pageSize ∧
    p * pageSize < alignUp kernelEnd.toNat 8192 + 2 * bitmapSize

/-- The bitmap as `init` should leave it; `n` is the first page not taken for the kernel. -/
structure Covers (s : PmmState) (n : ℕ) (kernelEnd : UInt64) : Prop where
  inside : ∀ p < s.totalPages, p < 8 * s.bitmapSize
  storage : ∀ p < s.totalPages, InStorage s.bitmapSize kernelEnd p → s.bits p
  unusable : ∀ p < s.totalPages, BootReserved s.totalPages n p → s.bits p
  free : Listed s s.freeHead (FreeGeneral s)

/-- The storage is among the pages that `init` takes, as it is unless its address wraps around. -/
def StorageReserved (memSize kernelStart kernelEnd : UInt64) : Prop :=
  ∀ p < memSize.toNat / pageSize,
    InStorage (alignUp (memSize.toNat / pageSize / 8) 8192) kernelEnd p →
      BootReserved (memSize.toNat / pageSize) (firstFree memSize kernelStart kernelEnd) p

theorem storageReserved_of_lt (h : alignUp kernelEnd.toNat 8192 +
      2 * alignUp (memSize.toNat / pageSize / 8) 8192 +
      alignUp (memSize.toNat / pageSize * 8) 8192 + (pageSize - 1) < 2 ^ 64) :
    StorageReserved memSize kernelStart kernelEnd := by
  rintro p - ⟨-, hp⟩
  refine .inl (lt_max_of_lt_right ?_)
  simp only [reservedEndPage, u64, pageSize] at h hp ⊢
  omega

theorem init_rebuilt (h : init memSize kernelStart kernelEnd windowBase = some s) :
    ∃ x, SameShape (emptyState memSize kernelStart kernelEnd windowBase) x ∧
      x.windowBase ≤ x.windowEnd ∧ ¬ x.Valid noPage ∧ s = x.rebuildFreeList := by
  obtain ⟨x, hm, rfl⟩ : ∃ x, Marked (emptyState memSize kernelStart kernelEnd windowBase) x ∧
      s = x.rebuildFreeList := by
    unfold init at h
    simp only at h
    split_ifs at h
    · exact ⟨_, ((takeAll_marked ..).trans (takeAll_marked ..)).trans (claim_marked ..),
        (some.inj h).symm⟩
    · exact ⟨_, (takeAll_marked ..).trans (takeAll_marked ..), (some.inj h).symm⟩
  have hwin := hm.shape.window (by
    have hlt := memSize.toNat_lt
    simp only [emptyState, windowEndPage, pageSize, noPage]
    omega)
  refine ⟨x, hm.shape, hwin.1, fun hv => ?_, rfl⟩
  have hlt := hv.2.trans_le hwin.2.1
  omega

theorem init_relisted (h : init memSize kernelStart kernelEnd windowBase = some s) :
    SameShape (emptyState memSize kernelStart kernelEnd windowBase) s ∧
      Listed s s.freeHead (FreeGeneral s) := by
  obtain ⟨x, hshape, hwin, hno, rfl⟩ := init_rebuilt h
  have hrel := (rebuild_spec hwin hno).1
  refine ⟨hshape.trans hrel.shape, ?_⟩
  unfold FreeGeneral
  rw [hrel.bits, hrel.shape.inPool]
  exact (listed_rebuild hwin hno).1

/-- `init` leaves a bitmap that covers memory if and only if the bitmap has a bit for each page. -/
theorem bitmap_covers_iff (h : init memSize kernelStart kernelEnd windowBase = some s) :
    Covers s (firstFree memSize kernelStart kernelEnd) kernelEnd ↔
      BitmapFits memSize ∧ StorageReserved memSize kernelStart kernelEnd := by
  obtain ⟨hshape, hlisted⟩ := init_relisted h
  have htotal : s.totalPages = memSize.toNat / pageSize := hshape.total
  have hsize : s.bitmapSize = alignUp (memSize.toNat / pageSize / 8) 8192 := hshape.bitmap
  have hbits : BitmapFits memSize → ∀ p < s.totalPages,
      s.bits p = decide (BootReserved s.totalPages (firstFree memSize kernelStart kernelEnd) p) := by
    intro hfits
    unfold BitmapFits at hfits
    exact (init_booted h (fun p _ => by omega) (fun hpos => by omega)).bits
  unfold StorageReserved
  rw [← hsize, ← htotal]
  constructor
  · intro hc
    have hfits : BitmapFits memSize := by
      unfold BitmapFits
      rw [← hsize, ← htotal]
      by_contra hlt
      exact absurd (hc.inside (8 * s.bitmapSize) (Nat.lt_of_not_le hlt)) (Nat.lt_irrefl _)
    refine ⟨hfits, fun p hp hin => ?_⟩
    have hset := hc.storage p hp hin
    rw [hbits hfits p hp] at hset
    exact of_decide_eq_true hset
  · rintro ⟨hfits, hstorage⟩
    have hset : ∀ p < s.totalPages,
        BootReserved s.totalPages (firstFree memSize kernelStart kernelEnd) p → s.bits p = true :=
      fun p hp hres => (hbits hfits p hp).trans (decide_eq_true hres)
    unfold BitmapFits at hfits
    rw [← hsize, ← htotal] at hfits
    exact ⟨fun p hp => hp.trans_le hfits, fun p hp hin => hset p hp (hstorage p hp hin), hset,
      hlisted⟩

/-- 4 GiB less a page and the kernel at 2 MiB. -/
theorem bitmap_covers_iff_fits : ∃ s, init 0xFFFFF000 0x200000 0x400000 0 = some s ∧
    Covers s (firstFree 0xFFFFF000 0x200000 0x400000) 0x400000 := by
  obtain ⟨s, hs⟩ := @exists_init 0xFFFFF000 0x200000 0x400000 (by decide +kernel) 0
  exact ⟨s, hs, (bitmap_covers_iff hs).mpr
    ⟨by decide +kernel, storageReserved_of_lt (by decide +kernel)⟩⟩

/-- In a memory of 65537 pages the bitmap has 65536 bits. -/
theorem last_page_uncovered : ∃ s, init 0x10001000 0x200000 0x400000 0 = some s ∧
    s.totalPages = 65537 ∧ s.bitmapSize = 8192 ∧
    ¬ Covers s (firstFree 0x10001000 0x200000 0x400000) 0x400000 := by
  obtain ⟨s, hs⟩ := @exists_init 0x10001000 0x200000 0x400000 (by decide +kernel) 0
  have hshape := (init_relisted hs).1
  have htotal : s.totalPages = 65537 := hshape.total.trans (by decide +kernel)
  have hsize : s.bitmapSize = 8192 := hshape.bitmap.trans (by decide +kernel)
  refine ⟨s, hs, htotal, hsize, fun hc => ?_⟩
  have hlt := hc.inside 65536 (by omega)
  omega

/-! ## Allocation by color -/

def Colored (s : PmmState) (color p : ℕ) : Prop :=
  s.Valid p ∧ s.bits p = false ∧ p % numColors = color
  deriving Decidable

/-- A free page of the color is taken, and nothing else. -/
structure TakesColored (s : PmmState) (color p : ℕ) (t : PmmState) : Prop where
  colored : Colored s color p
  bits : ∀ q < s.totalPages, t.bits q = (decide (q = p) || s.bits q)
  count : t.freePages = dec64 s.freePages
  general : Listed t t.freeHead fun q => FreeGeneral s q ∧ q ≠ p
  pool : Listed t t.poolFreeHead fun q => FreePool s q ∧ q ≠ p

/-- A page is returned if there is one, and it alone changes hands. -/
def AllocatesColored (s : PmmState) (user : Bool) (color : ℕ) : Prop :=
  ((s.allocColored user color).2 ≠ 0 ↔ ∃ p, Colored s color p) ∧
    if (s.allocColored user color).2 = 0 then (s.allocColored user color).1 = s
    else TakesColored s color ((s.allocColored user color).2 / pageSize) (s.allocColored user color).1

/-- The page is not page 0, whose address is the answer for no page, and its owner bit, if it falls
on the bit of a page, leaves that as it is. -/
def Takeable (s : PmmState) (user : Bool) (p : ℕ) : Prop :=
  p ≠ 0 ∧ (s.ownerBit p < s.totalPages →
    user = (decide (s.ownerBit p = p) || s.bits (s.ownerBit p)))
  deriving Decidable

theorem mem_stride_of_mod (hlo : start ≤ p) (hhi : p < limit)
    (hmod : p % numColors = start % numColors) : p ∈ stride start limit := by
  refine mem_map.mpr ⟨(p - start) / numColors, mem_range.mpr ?_, ?_⟩
  · unfold numColors at hmod ⊢
    omega
  · simp only [numColors] at hmod ⊢
    omega

theorem mem_colorScan_of_colored (hv : s.Valid p) : p ∈ s.colorScan (p % numColors) := by
  unfold colorScan
  simp only [mem_append]
  generalize (if s.cursor (p % numColors) < s.windowBase ∨ s.windowEnd ≤ s.cursor (p % numColors)
    then s.windowBase else s.cursor (p % numColors)) = cur
  by_cases hle : firstCongruentFrom cur (p % numColors) ≤ p
  · refine .inl (mem_stride_of_mod hle hv.2 ?_)
    simp only [firstCongruentFrom, numColors]
    omega
  · have hbase := hv.1
    refine .inr (mem_stride_of_mod ?_ (Nat.lt_of_not_le hle) ?_) <;>
      simp only [firstCongruentFrom, numColors] <;> omega

theorem mod_of_mem_colorScan (hc : color < numColors) (hp : p ∈ s.colorScan color) :
    p % numColors = color := by
  unfold colorScan at hp
  simp only [mem_append] at hp
  rcases hp with hp | hp <;> obtain ⟨-, -, hmod⟩ := mem_stride hp <;>
    simp only [firstCongruentFrom, numColors] at hmod hc ⊢ <;> omega

theorem Listed.congr {head : ℕ} {P Q : ℕ → Prop} (h : Listed s head P)
    (hPQ : ∀ p, s.Valid p → (P p ↔ Q p)) : Listed s head Q := by
  obtain ⟨l, hc, hn, hl⟩ := h
  exact ⟨l, hc, hn, fun p => (hl p).trans (and_congr_right (hPQ p))⟩

theorem takesColored_rebuild {t : PmmState}
    (hwin : s.windowBase ≤ s.windowEnd ∧ s.windowEnd ≤ s.totalPages ∧ s.totalPages < noPage)
    (hp : Colored s color p) (hshape : SameShape s t)
    (hbits : ∀ q < s.totalPages, t.bits q = (decide (q = p) || s.bits q))
    (hcount : t.freePages = dec64 s.freePages) : TakesColored s color p t.rebuildFreeList := by
  have hwin' := hshape.window hwin
  have hno : ¬ t.Valid noPage := fun hv => by
    have hlt := hv.2.trans_le hwin'.2.1
    omega
  have hrel := (rebuild_spec hwin'.1 hno).1
  obtain ⟨hgeneral, hpool⟩ := listed_rebuild hwin'.1 hno
  have hclear : ∀ q, t.rebuildFreeList.Valid q → (t.bits q = false ↔ s.bits q = false ∧ q ≠ p) := by
    intro q hq
    rw [hrel.shape.valid, hshape.valid] at hq
    rw [hbits q (hq.2.trans_le hwin.2.1), Bool.or_eq_false_iff, decide_eq_false_iff_not, and_comm]
  refine ⟨hp, ?_, hrel.freePages.trans hcount, hgeneral.congr fun q hq => ?_,
    hpool.congr fun q hq => ?_⟩
  · rw [hrel.bits]
    exact hbits
  · unfold FreeGeneral
    rw [hclear q hq, hshape.inPool, and_right_comm]
  · unfold FreePool
    rw [hclear q hq, hshape.inPool, and_right_comm]

/-- Allocation by color is sound and complete if and only if the page that the search finds can be
taken and returned. -/
theorem colored_alloc_iff
    (hwin : s.windowBase ≤ s.windowEnd ∧ s.windowEnd ≤ s.totalPages ∧ s.totalPages < noPage) :
    AllocatesColored s user color ↔ (color < numColors →
      ∀ p ∈ (s.colorScan color).find? fun idx => !s.bits idx, Takeable s user p) := by
  unfold AllocatesColored
  by_cases hc : numColors ≤ color
  · have hnone : ¬ ∃ p, Colored s color p := by
      rintro ⟨p, -, -, hp⟩
      have hlt : p % numColors < numColors := Nat.mod_lt p (by decide)
      omega
    simp [allocColored, hnone, hc]
  · have hcolor := Nat.lt_of_not_le hc
    cases hscan : (s.colorScan color).find? fun idx => !s.bits idx with
    | none =>
      have hnone : ¬ ∃ p, Colored s color p := by
        rintro ⟨p, hv, hb, rfl⟩
        have hset := List.find?_eq_none.mp hscan p (mem_colorScan_of_colored hv)
        simp [hb] at hset
      simp [allocColored, hnone, hscan]
    | some p =>
      obtain ⟨hmem, hb⟩ := find_clear hscan
      have hp : Colored s color p :=
        ⟨mem_colorScan hcolor hmem, hb, mod_of_mem_colorScan hcolor hmem⟩
      have hr : s.allocColored user color = ({ s.take user p with
          cursor := update s.cursor color (p + numColors) }.rebuildFreeList, p * pageSize) := by
        rw [allocColored, if_neg hc, hscan]
      have haddr : p * pageSize ≠ 0 ↔ p ≠ 0 :=
        not_congr (Nat.mul_eq_zero.trans (or_iff_left (by decide)))
      rw [hr, haddr]
      constructor
      · rintro ⟨hret, htakes⟩ - q hq
        cases hq
        have hne : p ≠ 0 := hret.mpr ⟨p, hp⟩
        rw [if_neg (haddr.mpr hne), Nat.mul_div_cancel p pageSize_pos] at htakes
        refine ⟨hne, fun hlt => ?_⟩
        refine .trans ?_ (htakes.bits (s.ownerBit p) hlt)
        exact ((congrFun (foldl_relisted _ _).bits _).trans (update_self ..)).symm
      · intro h
        obtain ⟨hne, howner⟩ := h hcolor p rfl
        refine ⟨iff_of_true hne ⟨p, hp⟩, ?_⟩
        rw [if_neg (haddr.mpr hne), Nat.mul_div_cancel p pageSize_pos]
        refine takesColored_rebuild hwin hp ⟨rfl, rfl, rfl, rfl, rfl, rfl⟩ (fun q hq => ?_) rfl
        change update (update s.bits p true) (s.ownerBit p) user q = _
        rw [update_apply, update_apply]
        split_ifs with hown hqp
        · exact hown ▸ howner (hown ▸ hq)
        all_goals simp [hqp]

/-- The window is a single page, page 0, and free. -/
def lowestPage : PmmState := { totalPages := 8, bitmapSize := 8192, windowEnd := 1 }

/-- Page 0 is taken and the answer is that there is no page. -/
theorem lowest_page_lost : Colored lowestPage 0 0 ∧ (lowestPage.allocColored false 0).2 = 0 ∧
    (lowestPage.allocColored false 0).1.bits 0 = true ∧ ¬ AllocatesColored lowestPage false 0 := by
  have hpage : Colored lowestPage 0 0 := by decide +kernel
  have hnone : (lowestPage.allocColored false 0).2 = 0 := by decide +kernel
  exact ⟨hpage, hnone, by decide +kernel, fun h => h.1.mpr ⟨0, hpage⟩ hnone⟩

/-- Page 17 is the one free page of its color. -/
theorem colored_alloc_iff_seventeen :
    AllocatesColored { totalPages := 32, bitmapSize := 8192, windowBase := 8, windowEnd := 32 }
      true 1 :=
  (colored_alloc_iff (by decide)).mpr fun _ => by decide +kernel

/-! ## The snapshot of the page-table pool -/

/-- `PtPoolSnapshot`, its bytes bit by bit. -/
structure PoolSnapshot where
  sizePages : ℕ
  poisoned : Bool
  bitmap : ℕ → Bool := fun _ => false
  owner : ℕ → Bool := fun _ => false

def snapMaxPages : ℕ := 4096

/-- The bits of as many whole bytes as `n` pages need. -/
def wholeBytes (n : ℕ) : ℕ := 8 * ((n + 7) / 8)

/-- The first bit of the byte with the first bit of the pool. -/
def firstBit (s : PmmState) : ℕ := 8 * (s.poolStart / pageSize / 8)

def poolPages (s : PmmState) : ℕ := (s.poolEnd - s.poolStart) / pageSize

def capturePoolSnapshot (s : PmmState) (poisoned : Bool) : PoolSnapshot :=
  let n := poolPages s
  if n = 0 ∨ snapMaxPages < n then ⟨0, poisoned, fun _ => false, fun _ => false⟩
  else
    { sizePages := n
      poisoned := poisoned
      bitmap := fun i => decide (i < wholeBytes n) && s.bits (firstBit s + i)
      owner := fun i => decide (i < wholeBytes n) && s.bits (s.ownerBit (firstBit s) + i) }

/-- `memcpy` of `n` bits. -/
def copyBits (bits : ℕ → Bool) (dest n : ℕ) (src : ℕ → Bool) (a : ℕ) : Bool :=
  if dest ≤ a ∧ a < dest + n then src (a - dest) else bits a

def restorePoolSnapshot (s : PmmState) (x : PoolSnapshot) : PmmState :=
  if x.sizePages = 0 ∨ x.poisoned then s
  else
    let n := min (wholeBytes x.sizePages) snapMaxPages
    { s with
      bits := copyBits (copyBits s.bits (firstBit s) n x.bitmap) (s.ownerBit (firstBit s)) n x.owner }

/-- The state `u` has the pool of `s` and the other pages of `t`. -/
structure RoundTrip (s t u : PmmState) : Prop where
  bits : ∀ p, s.InPool p → u.bits p = s.bits p
  list : u.poolList = s.poolList
  others : ∀ p < s.totalPages, ¬ s.InPool p → u.bits p = t.bits p

/-- The bit is in a byte that the snapshot of a pool that is not poisoned copies. -/
def Copied (s : PmmState) (poisoned : Bool) (a : ℕ) : Prop :=
  poisoned = false ∧ 0 < poolPages s ∧ poolPages s ≤ snapMaxPages ∧
    (firstBit s ≤ a ∧ a < firstBit s + wholeBytes (poolPages s) ∨
      s.ownerBit (firstBit s) ≤ a ∧ a < s.ownerBit (firstBit s) + wholeBytes (poolPages s))
  deriving Decidable

theorem copyBits_captured (bits m : ℕ → Bool) (dest n a : ℕ) :
    copyBits bits dest n (fun i => decide (i < n) && m (dest + i)) a =
      if dest ≤ a ∧ a < dest + n then m a else bits a := by
  unfold copyBits
  split_ifs with ha
  · have hlt : a - dest < n := by omega
    simp only [decide_eq_true hlt, Bool.true_and, Nat.add_sub_cancel' ha.1]
  · rfl

theorem restore_bits (h : SameShape s t) (poisoned : Bool) (a : ℕ) :
    (restorePoolSnapshot t (capturePoolSnapshot s poisoned)).bits a =
      if Copied s poisoned a then s.bits a else t.bits a := by
  have hfirst : firstBit t = firstBit s := by rw [firstBit, firstBit, h.poolStart]
  unfold capturePoolSnapshot restorePoolSnapshot
  by_cases hsize : poolPages s = 0 ∨ snapMaxPages < poolPages s
  · have hnot : ¬ Copied s poisoned a := fun ⟨_, hpos, hmax, _⟩ => by omega
    rw [if_neg hnot, if_pos hsize, if_pos (.inl rfl)]
  obtain ⟨hpos, hmax⟩ := not_or.mp hsize
  cases poisoned with
  | true =>
    have hnot : ¬ Copied s true a := fun hc => nomatch hc.1
    rw [if_neg hnot, if_neg hsize, if_pos (.inr rfl)]
  | false =>
    have hn : min (wholeBytes (poolPages s)) snapMaxPages = wholeBytes (poolPages s) := by
      unfold wholeBytes snapMaxPages at *
      omega
    have hcopied : Copied s false a ↔ _ :=
      ⟨fun hc => hc.2.2.2, fun hc => ⟨rfl, Nat.pos_of_ne_zero hpos, Nat.le_of_not_lt hmax, hc⟩⟩
    rw [if_neg hsize, if_neg (not_or.mpr ⟨hpos, nofun⟩)]
    change copyBits (copyBits t.bits (firstBit t) _ _) (t.ownerBit (firstBit t)) _ _ a = _
    rw [hn, hfirst, h.ownerBit, copyBits_captured, copyBits_captured]
    simp only [hcopied]
    by_cases hown : s.ownerBit (firstBit s) ≤ a ∧
        a < s.ownerBit (firstBit s) + wholeBytes (poolPages s)
    · rw [if_pos hown, if_pos (.inr hown)]
    · rw [if_neg hown]
      exact if_congr (or_iff_left hown).symm rfl rfl

/-- A snapshot restores the pool, and the pool alone, if and only if the pages that it does not copy
have kept their bits, the others that it copies have too, and so has the list. -/
theorem snapshot_roundTrip_iff (h : SameShape s t) (poisoned : Bool) :
    RoundTrip s t (restorePoolSnapshot t (capturePoolSnapshot s poisoned)) ↔
      (∀ p, s.InPool p → ¬ Copied s poisoned p → t.bits p = s.bits p) ∧
      (∀ p < s.totalPages, ¬ s.InPool p → Copied s poisoned p → s.bits p = t.bits p) ∧
      t.poolList = s.poolList := by
  have hlist : (restorePoolSnapshot t (capturePoolSnapshot s poisoned)).poolList = t.poolList := by
    unfold restorePoolSnapshot
    split_ifs <;> rfl
  have hbits := restore_bits h poisoned
  constructor
  · intro hr
    refine ⟨fun p hp hc => ?_, fun p hlt hp hc => ?_, hlist.symm.trans hr.list⟩
    · have hbit := hr.bits p hp
      rwa [hbits, if_neg hc] at hbit
    · have hbit := hr.others p hlt hp
      rwa [hbits, if_pos hc] at hbit
  · rintro ⟨hpool, hothers, hsame⟩
    refine ⟨fun p hp => ?_, hlist.trans hsame, fun p hlt hp => ?_⟩
    all_goals rw [hbits]
    · split_ifs with hc
      · rfl
      · exact hpool p hp hc
    · split_ifs with hc
      · exact hothers p hlt hp hc
      · rfl

/-- A memory of 5001 pages. The pool starts at page 889, which is not the first of its byte. -/
structure BorderPool (s : PmmState) : Prop where
  shape : SameShape (emptyState 0x1389000 pageSize2M 0x200000 0) s
  bits : ∀ p < 5001, s.bits p = decide (p < 526 ∨ 4985 ≤ p)
  head : s.freeHead = 888
  pool : s.poolFreeHead = 4984 ∧ s.next 4984 = 4983

namespace BorderPool

theorem of_boot (h : boot 0x1389000 0x200000 0 = some s) : BorderPool s := by
  have hb := boot_booted h
  have htotal : s.totalPages = 5001 := hb.shape.total.trans (by decide)
  have hfirst : firstFree 0x1389000 pageSize2M 0x200000 = 526 := by decide
  have hbits : ∀ p < 5001, s.bits p = decide (p < 526 ∨ 4985 ≤ p) := by
    intro p hp
    rw [hb.bits p (htotal ▸ hp), htotal, hfirst]
    refine decide_eq_decide.mpr ?_
    unfold BootReserved
    omega
  obtain ⟨x, hshape, hwin, hno, rfl⟩ := init_rebuilt h
  obtain ⟨hrel, hgeneral, hpool⟩ := rebuild_spec hwin hno
  have hwindow : x.window = Ico 0 5001 := by
    rw [window, hshape.base, hshape.stop]
    rfl
  have hfound : ∀ (P : ℕ → Prop) [DecidablePred P] (a b : ℕ), b ≤ 5001 →
      (∀ p, x.bits p = decide (p < 526 ∨ 4985 ≤ p) → (P p ↔ a ≤ p ∧ p < b)) →
      x.window.filter P = Ico a b := by
    intro P _ a b hb hP
    have hcongr : x.window.filter P = (x.window.filter (a ≤ ·)).filter (· < b) := by
      rw [List.filter_filter]
      refine filter_congr fun p hp => ?_
      rw [hwindow, Ico.mem] at hp
      rw [← Bool.decide_and, decide_eq_decide, and_comm]
      exact hP p (hrel.bits ▸ hbits p hp.2)
    rw [hcongr, hwindow, Ico.filter_le, Ico.filter_lt, Nat.zero_max, min_eq_right hb]
  have hin : ∀ p, x.InPool p ↔ 889 ≤ p ∧ p < 4985 := by
    rw [hshape.inPool]
    exact fun p => .rfl
  rw [hfound _ 526 889 (by decide) fun p hp => by
    rw [FreeGeneral, hp, hin, decide_eq_false_iff_not]; omega, Ico.succ_top (by decide),
    reverse_append] at hgeneral
  rw [hfound _ 889 4985 (by decide) fun p hp => by
    rw [FreePool, hp, hin, decide_eq_false_iff_not]; omega, Ico.succ_top (by decide),
    Ico.succ_top (by decide), reverse_append, reverse_append] at hpool
  obtain ⟨hhead, -, hnext, -⟩ := hpool
  exact ⟨hb.shape, hbits, hgeneral.1, hhead, hnext⟩

variable (h : BorderPool s)
include h

theorem configured : s.PoolConfigured := by
  rw [PmmState.PoolConfigured, h.shape.poolStart, h.shape.poolEnd]
  decide

theorem fits (p : ℕ) : s.totalPages ≤ s.ownerBit p := by
  rw [h.shape.ownerBit, h.shape.total]
  exact Nat.le_add_right_of_le (by decide)

theorem valid (hp : p < 5001) : s.Valid p := by
  rw [PmmState.Valid, h.shape.base, h.shape.stop]
  exact ⟨p.zero_le, hp.trans_le (by decide)⟩

/-- A page and a page table are taken from the heads of the lists. -/
theorem pop_heads : ∃ t, ((s.call (.alloc false 1)).1.call .allocPageTable).1 = t ∧
    Taken s t [4984, 888] ∧ t.poolFreeHead = 4983 := by
  have hlt : ∀ p < 5001, p < s.totalPages := fun p hp => h.shape.total ▸ hp.trans_le (by decide)
  obtain ⟨s₁, hcall, htaken₁, hhead, hnext⟩ : ∃ s₁, (s.call (.alloc false 1)).1 = s₁ ∧
      Taken s s₁ [888] ∧ s₁.poolFreeHead = 4984 ∧ s₁.next 4984 = 4983 := by
    rw [call_alloc (h.shape.total ▸ by decide) (h.head ▸ h.valid (by decide)), h.head]
    exact ⟨_, rfl, (Taken.single (hlt 888 (by decide)) (h.bits 888 (by decide)) (h.fits 888)).relist
      ⟨rfl, rfl, rfl, rfl, rfl, rfl⟩ rfl rfl, h.pool⟩
  have hshape := htaken₁.shape
  have hpool : s₁.PoolConfigured := by
    rw [PmmState.PoolConfigured, hshape.poolStart, hshape.poolEnd]
    exact h.configured
  have hclear : s₁.bits 4984 = false := by
    rw [htaken₁.bits 4984 (hlt 4984 (by decide)), h.bits 4984 (by decide)]
    rfl
  have htaken : Taken s₁ (s₁.take false 4984) [4984] := by
    refine .single (hshape.total ▸ hlt 4984 (by decide)) hclear ?_
    rw [hshape.total, hshape.ownerBit]
    exact h.fits 4984
  rw [hcall, call_allocPageTable hpool (hshape.valid ▸ hhead ▸ h.valid (by decide)), hhead, hnext]
  exact ⟨_, rfl, (htaken₁.trans htaken).relist ⟨rfl, rfl, rfl, rfl, rfl, rfl⟩ rfl rfl, rfl⟩

theorem copied_iff (p : ℕ) (hp : p < 5001) : Copied s false p ↔ 888 ≤ p ∧ p < 4984 := by
  unfold Copied poolPages firstBit
  rw [h.shape.poolStart, h.shape.poolEnd, h.shape.ownerBit]
  change _ ∧ _ ∧ _ ∧ (888 ≤ p ∧ p < 4984 ∨ 66424 ≤ p ∧ p < 70520) ↔ _
  constructor
  · rintro ⟨-, -, -, hc⟩
    omega
  · exact fun hc => ⟨rfl, by decide, by decide, .inl hc⟩

end BorderPool

/-- The first page of the pool is taken by a search of the bitmap, which leaves the list alone. -/
theorem snapshot_roundTrip_iff_search : ∃ s t, boot 0x1389000 0x200000 0 = some s ∧
    s.call .allocPageTableErr = (t, 889 * pageSize) ∧
    RoundTrip s t (restorePoolSnapshot t (capturePoolSnapshot s false)) := by
  obtain ⟨s, hboot⟩ : ∃ s, boot 0x1389000 0x200000 0 = some s := exists_init (by decide) 0
  have h := BorderPool.of_boot hboot
  have hstart : s.poolStart / pageSize = 889 := by
    rw [h.shape.poolStart]
    decide
  have hstop : 889 < s.poolEnd / pageSize := by
    rw [h.shape.poolEnd]
    decide
  have hcall := call_allocPageTableErr h.configured hstart hstop (h.bits 889 (by decide))
  have hbits : ∀ p < s.totalPages, p ≠ 889 → (s.take false 889).bits p = s.bits p := by
    intro p hlt hp
    rw [take_bits (h.fits 889) hlt, decide_eq_false_iff_not.mpr hp, Bool.false_or]
  refine ⟨s, _, hboot, hcall, (snapshot_roundTrip_iff (take_shape ..) false).mpr
    ⟨fun p hp hc => ?_, fun p hlt hp _ => (hbits p hlt ?_).symm, rfl⟩⟩
  · rw [h.shape.inPool] at hp
    refine hbits p (h.shape.total ▸ hp.2.trans (by decide)) ?_
    rintro rfl
    exact hc ((h.copied_iff 889 (by decide)).mpr (by decide))
  · rintro rfl
    rw [h.shape.inPool] at hp
    exact hp (by decide)

/-- A page and a page table are taken after the capture. The page lies before the pool in its first
byte and is free again after the restore; the page table, the last page of the pool, is not, and is
not back on the list. -/
theorem snapshot_misses_border : ∃ s t u, boot 0x1389000 0x200000 0 = some s ∧
    t = ((s.call (.alloc false 1)).1.call .allocPageTable).1 ∧
    u = restorePoolSnapshot t (capturePoolSnapshot s false) ∧
    t.bits 888 = true ∧ u.bits 888 = false ∧ s.bits 4984 = false ∧ u.bits 4984 = true ∧
    u.poolFreeHead = 4983 ∧ ¬ RoundTrip s t u := by
  obtain ⟨s, hboot⟩ : ∃ s, boot 0x1389000 0x200000 0 = some s := exists_init (by decide) 0
  have h := BorderPool.of_boot hboot
  obtain ⟨t, hcall, htaken, hhead⟩ := h.pop_heads
  have hbits : ∀ p < 5001, t.bits p = (decide (p ∈ [4984, 888]) || s.bits p) := fun p hp =>
    htaken.bits p (h.shape.total ▸ hp.trans_le (by decide))
  have hrestored : ∀ p < 5001, (restorePoolSnapshot t (capturePoolSnapshot s false)).bits p =
      if 888 ≤ p ∧ p < 4984 then s.bits p else t.bits p := by
    intro p hp
    rw [restore_bits htaken.shape]
    exact if_congr (h.copied_iff p hp) rfl rfl
  have hclear : s.bits 4984 = false := h.bits 4984 (by decide)
  have hset : (restorePoolSnapshot t (capturePoolSnapshot s false)).bits 4984 = true := by
    rw [hrestored 4984 (by decide), if_neg (by decide), hbits 4984 (by decide)]
    rfl
  refine ⟨s, t, _, hboot, hcall.symm, rfl, ?_, ?_, hclear, hset, ?_, fun hr => ?_⟩
  · rw [hbits 888 (by decide)]
    rfl
  · rw [hrestored 888 (by decide), if_pos (by decide)]
    exact h.bits 888 (by decide)
  · unfold restorePoolSnapshot
    split_ifs
    all_goals exact hhead
  · have hin : s.InPool 4984 := by
      rw [h.shape.inPool]
      decide
    exact absurd (hset.symm.trans ((hr.bits 4984 hin).trans hclear)) (by decide)

end Nexios.Pmm
