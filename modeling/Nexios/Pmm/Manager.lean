import Nexios.Lib.Chain
import Nexios.Lib.Run

/-!
# The physical memory manager

Three structures say which pages are free: the bitmap, the general free list and the list of the
page-table pool. The lists are links in one array, `next`. Single pages are taken from the general
list, page tables from that of the pool; when the general list is empty, and for all other requests,
the bitmap is searched.

The bitmap and the owner bitmap lie one behind the other in memory. `bits` is that memory: the bit
of page `i` is at `i`, and its owner bit is at `8 * bitmapSize + i`.

All calls run under one lock. A call that finds no page may run the OOM handler without the lock and
try again; the second try is then a step of its own. `held` and `reserved` record which pages are
handed out and which were reserved; no call reads them.
-/

open Function

namespace Nexios.Pmm

def pageSize : ℕ := 4096
def pageSize2M : UInt64 := 0x200000
/-- `CONFIG_PAGE_TABLE_POOL_SIZE`. -/
def poolSizePages : ℕ := 4096
/-- `HHDM_WINDOW_SIZE` in pages. -/
def hhdmWindowPages : ℕ := 32768
def numColors : ℕ := 16
/-- The end mark of the lists, `UINT64_MAX`. -/
def noPage : ℕ := 2 ^ 64 - 1

def u64 (x : ℕ) : ℕ := x % 2 ^ 64

def dec64 (x : ℕ) : ℕ := if x = 0 then 2 ^ 64 - 1 else x - 1

def inc64 (x : ℕ) : ℕ := if x = 2 ^ 64 - 1 then 0 else x + 1

structure PmmState where
  totalPages : ℕ := 0
  freePages : ℕ := 0
  bitmapSize : ℕ := 0
  bits : ℕ → Bool := fun _ => false
  next : ℕ → ℕ := fun _ => 0
  freeHead : ℕ := noPage
  poolFreeHead : ℕ := noPage
  windowBase : ℕ := 0
  windowEnd : ℕ := 0
  poolStart : ℕ := 0
  poolEnd : ℕ := 0
  cursor : ℕ → ℕ := fun _ => 0
  held : ℕ → Bool := fun _ => false
  reserved : ℕ → Bool := fun _ => false

namespace PmmState

variable (s : PmmState)

/-- `is_free_head_valid`. -/
def Valid (idx : ℕ) : Prop := s.windowBase ≤ idx ∧ idx < s.windowEnd
  deriving Decidable

def InPool (idx : ℕ) : Prop :=
  s.poolStart / pageSize ≤ idx ∧ idx < s.poolEnd / pageSize
  deriving Decidable

def PoolConfigured : Prop := s.poolStart ≠ 0 ∧ s.poolEnd ≠ 0
  deriving Decidable

def window : List ℕ := List.range' s.windowBase (s.windowEnd - s.windowBase)

def ownerBit (idx : ℕ) : ℕ := 8 * s.bitmapSize + idx

/-- `bitmap_set`, `owner_set_user` or `owner_set_kernel`, and the counter. -/
def take (user : Bool) (idx : ℕ) : PmmState :=
  { s with
    bits := update (update s.bits idx true) (s.ownerBit idx) user
    freePages := dec64 s.freePages }

/-- The body of the loop of `rebuild_free_list`. -/
def relink (idx : ℕ) : PmmState :=
  if s.bits idx then s
  else if s.InPool idx then
    { s with next := update s.next idx s.poolFreeHead, poolFreeHead := idx }
  else { s with next := update s.next idx s.freeHead, freeHead := idx }

def rebuildFreeList : PmmState :=
  s.window.foldl relink { s with freeHead := noPage, poolFreeHead := noPage }

def takeAll (user : Bool) (pages : List ℕ) : PmmState :=
  pages.foldl (fun s idx => s.take user idx) s

def scan : Option ℕ := s.window.find? fun idx => !s.bits idx

/-- The first index from which `count` pages are free. -/
def scanRange (count : ℕ) : Option ℕ :=
  (List.range' s.windowBase (s.windowEnd + 1 - count - s.windowBase)).find? fun idx =>
    (List.range' idx count).all fun p => !s.bits p

def allocFromWindow (user : Bool) (count : ℕ) : PmmState × ℕ :=
  if count = 0 then (s, 0)
  else if count = 1 then
    if s.Valid s.freeHead then
      ({ s with freeHead := s.next s.freeHead }.take user s.freeHead, s.freeHead * pageSize)
    else match s.scan with
      | some idx => (s.take user idx, idx * pageSize)
      | none => (s, 0)
  else match s.scanRange count with
    | some idx => ((s.takeAll user (List.range' idx count)).rebuildFreeList, idx * pageSize)
    | none => (s, 0)

/-- `alloc_page`, `alloc_contiguous`, their user variants and the variants with an error code. -/
def alloc (user : Bool) (count : ℕ) : PmmState × ℕ :=
  if count = 0 ∨ s.totalPages < count then (s, 0) else s.allocFromWindow user count

def firstCongruentFrom (start color : ℕ) : ℕ :=
  start + (color + numColors - start % numColors) % numColors

/-- The indices of a color from `start` up to `limit`. -/
def stride (start limit : ℕ) : List ℕ :=
  (List.range ((limit - start + (numColors - 1)) / numColors)).map (start + numColors * ·)

def colorScan (color : ℕ) : List ℕ :=
  let cur := s.cursor color
  let cur := if cur < s.windowBase ∨ s.windowEnd ≤ cur then s.windowBase else cur
  let start0 := firstCongruentFrom cur color
  stride start0 s.windowEnd ++ stride (firstCongruentFrom s.windowBase color) start0

def allocColored (user : Bool) (color : ℕ) : PmmState × ℕ :=
  if numColors ≤ color then (s, 0)
  else match (s.colorScan color).find? fun idx => !s.bits idx with
    | some idx =>
      ({ s.take user idx with
        cursor := update s.cursor color (idx + numColors) }.rebuildFreeList,
        idx * pageSize)
    | none => (s, 0)

def allocPageTable : PmmState × ℕ :=
  if ¬ s.PoolConfigured then s.alloc false 1
  else if s.Valid s.poolFreeHead then
    ({ s with poolFreeHead := s.next s.poolFreeHead }.take false s.poolFreeHead,
      s.poolFreeHead * pageSize)
  else s.alloc false 1

def poolScan : Option ℕ :=
  (List.range' (s.poolStart / pageSize) (s.poolEnd / pageSize - s.poolStart / pageSize)).find?
    fun idx => !s.bits idx

def allocPageTableErr : PmmState × ℕ :=
  if ¬ s.PoolConfigured then s.alloc false 1
  else match s.poolScan with
    | some idx => (s.take false idx, idx * pageSize)
    | none => s.alloc false 1

/-- `bitmap_clear` and the counter. -/
def drop (idx : ℕ) : PmmState :=
  { s with
    bits := update s.bits idx false
    freePages := inc64 s.freePages }

def freePage (physAddr : UInt64) : PmmState :=
  let idx := physAddr.toNat / pageSize
  if s.totalPages ≤ idx ∨ idx < s.windowBase then s
  else if s.bits idx then
    if s.PoolConfigured ∧ s.InPool idx then
      { s.drop idx with
        next := update s.next idx s.poolFreeHead
        poolFreeHead := idx }
    else
      { s.drop idx with
        next := update s.next idx s.freeHead
        freeHead := idx }
  else s

def freePageErr (physAddr : UInt64) : PmmState :=
  let idx := physAddr.toNat / pageSize
  if s.totalPages ≤ idx ∨ idx < s.windowBase then s
  else if s.bits idx then s.drop idx
  else s

/-- The pages of a byte range, as `reserve_range` computes them. -/
def rangePages (startPhys endPhys : UInt64) : ℕ × ℕ :=
  (startPhys.toNat / pageSize, u64 (endPhys.toNat + (pageSize - 1)) / pageSize)

/-- The body of the loop of `reserve_range`, and of the last loop of `init`. -/
def claim (idx : ℕ) : PmmState := if s.bits idx then s else s.take false idx

def reserveRange (startPhys endPhys : UInt64) : PmmState :=
  if endPhys ≤ startPhys then s
  else
    let (startIdx, endIdx) := rangePages startPhys endPhys
    let startIdx := max startIdx s.windowBase
    let endIdx := min endIdx s.windowEnd
    ((List.range' startIdx (endIdx - startIdx)).foldl claim s).rebuildFreeList

def resetColorCursor : PmmState :=
  { s with cursor := fun c => if c < numColors then s.windowBase else s.cursor c }

end PmmState

def alignUp (val align : ℕ) : ℕ := u64 (val + (align - 1)) / align * align

/-- The end of the pages that `init` takes for the image, the bitmaps and the array of links. -/
def reservedEndPage (totalPages : ℕ) (kernelEnd : UInt64) : ℕ :=
  let bitmapSize := alignUp (totalPages / 8) 8192
  let freeListBytes := alignUp (totalPages * 8) 8192
  let bitmapPhys := alignUp kernelEnd.toNat 8192
  let reservedEnd := u64 (bitmapPhys + bitmapSize + bitmapSize + freeListBytes)
  u64 (reservedEnd + (pageSize - 1)) / pageSize

def windowEndPage (totalPages base : ℕ) : ℕ := min (base + hhdmWindowPages) totalPages

def poolStartPage (base endPage reservedEnd : ℕ) : Option ℕ :=
  if poolSizePages + 16 < endPage - base ∧
      reservedEnd < base + (endPage - base) - poolSizePages - 16 then
    some (base + (endPage - base) - poolSizePages - 16)
  else none

/-- The bounds that `init` sets, with an empty bitmap and no page taken. -/
def emptyState (memSize kernelStart kernelEnd windowBase : UInt64) : PmmState :=
  let totalPages := memSize.toNat / pageSize
  let endPage := windowEndPage totalPages (windowBase.toNat / pageSize)
  let basePage := min (windowBase.toNat / pageSize) endPage
  let endReserved := reservedEndPage totalPages kernelEnd
  let pool := poolStartPage basePage endPage endReserved
  { totalPages := totalPages
    freePages := totalPages
    bitmapSize := alignUp (totalPages / 8) 8192
    windowBase := basePage
    windowEnd := endPage
    poolStart := (pool.map (· * pageSize)).getD 0
    poolEnd := (pool.map fun p => (p + poolSizePages) * pageSize).getD 0
    reserved := fun p => decide (p < max (kernelStart.toNat / pageSize) endReserved ∨
      16 < totalPages ∧ totalPages < p + 17) }

open PmmState in
/-- `init`; `none` when it stops because a page to be taken is beyond the end of memory. -/
def init (memSize kernelStart kernelEnd windowBase : UInt64) : Option PmmState :=
  let totalPages := memSize.toNat / pageSize
  let startPage := kernelStart.toNat / pageSize
  let endReserved := reservedEndPage totalPages kernelEnd
  if totalPages < max startPage endReserved then none
  else
    let s := emptyState memSize kernelStart kernelEnd windowBase
    let s := s.takeAll false (List.range startPage)
    let s := s.takeAll false (List.range' startPage (endReserved - startPage))
    let s := if 16 < totalPages then
        ((List.range 16).map (totalPages - 1 - ·)).foldl claim s
      else s
    some s.rebuildFreeList

def boot (memSize kernelEnd ramBase : UInt64) : Option PmmState :=
  init memSize pageSize2M kernelEnd ramBase

inductive PmmAction
  | alloc (user : Bool) (count : ℕ)
  | allocColored (user : Bool) (color : ℕ)
  | allocPageTable
  | allocPageTableErr
  | freePage (physAddr : UInt64)
  | freePageErr (physAddr : UInt64)
  | reserveRange (startPhys endPhys : UInt64)
  | resetColorCursor
  deriving DecidableEq, Repr

namespace PmmAction

def pages : PmmAction → ℕ
  | alloc _ count => count
  | _ => 1

end PmmAction

namespace PmmState

def call (s : PmmState) : PmmAction → PmmState × ℕ
  | .alloc user count => s.alloc user count
  | .allocColored user color => s.allocColored user color
  | .allocPageTable => s.allocPageTable
  | .allocPageTableErr => s.allocPageTableErr
  | .freePage physAddr => (s.freePage physAddr, 0)
  | .freePageErr physAddr => (s.freePageErr physAddr, 0)
  | .reserveRange startPhys endPhys => (s.reserveRange startPhys endPhys, 0)
  | .resetColorCursor => (s.resetColorCursor, 0)

def Hands (s : PmmState) (a : PmmAction) (p : ℕ) : Prop :=
  (s.call a).2 ≠ 0 ∧ (s.call a).2 / pageSize ≤ p ∧ p < (s.call a).2 / pageSize + a.pages
  deriving Decidable

def Returns (a : PmmAction) (p : ℕ) : Prop :=
  match a with
  | .freePage physAddr | .freePageErr physAddr => p = physAddr.toNat / pageSize
  | _ => False

instance (a : PmmAction) (p : ℕ) : Decidable (Returns a p) := by
  unfold Returns
  split <;> infer_instance

/-- The pages of the byte range that a call is to reserve. -/
def Reserves (a : PmmAction) (p : ℕ) : Prop :=
  match a with
  | .reserveRange startPhys endPhys =>
    startPhys < endPhys ∧ startPhys.toNat / pageSize ≤ p ∧ p * pageSize < endPhys.toNat
  | _ => False

instance (a : PmmAction) (p : ℕ) : Decidable (Reserves a p) := by
  unfold Reserves
  split <;> infer_instance

def step (s : PmmState) (a : PmmAction) : Option PmmState :=
  some { (s.call a).1 with
    held := fun p => decide (s.Hands a p) || (s.held p && !decide (Returns a p))
    reserved := fun p => decide (Reserves a p) || s.reserved p }

/-- Callers free only pages they hold. -/
def FreesHeld (s : PmmState) : PmmAction → Prop
  | .freePage physAddr | .freePageErr physAddr => s.held (physAddr.toNat / pageSize) = true
  | _ => True

def poolList (s : PmmState) : List ℕ :=
  chainList s.Valid s.next (s.windowEnd - s.windowBase) s.poolFreeHead

end PmmState

end Nexios.Pmm
