import Nexios.Pmm.Manager

/-!
# The free lists and the bitmap

`ListInv` relates the three structures: both lists hold different pages that are free in the bitmap,
pool pages only in the list of the pool. An allocation takes pages that are free in the bitmap, and
it keeps the lists right if it takes the head of a list or rebuilds them. The searches that do
neither are the fallback for single pages and `alloc_page_table_err`; they keep the lists right if
the page they find is not in the list of the pool, which is what `ScanFresh` asks.
-/

open Function List

namespace Nexios.Pmm

open PmmState

variable {s t : PmmState} {user : Bool} {idx head : ℕ} {ps : List ℕ} {u : PmmState} {p : ℕ}
  {P : ℕ → Prop} {physAddr : UInt64}

structure SameShape (s t : PmmState) : Prop where
  total : t.totalPages = s.totalPages
  bitmap : t.bitmapSize = s.bitmapSize
  base : t.windowBase = s.windowBase
  stop : t.windowEnd = s.windowEnd
  poolStart : t.poolStart = s.poolStart
  poolEnd : t.poolEnd = s.poolEnd

namespace SameShape

theorem refl (s : PmmState) : SameShape s s := ⟨rfl, rfl, rfl, rfl, rfl, rfl⟩

variable (h : SameShape s t)
include h

theorem trans {u : PmmState} (h' : SameShape t u) : SameShape s u :=
  ⟨h'.total.trans h.total, h'.bitmap.trans h.bitmap, h'.base.trans h.base, h'.stop.trans h.stop,
    h'.poolStart.trans h.poolStart, h'.poolEnd.trans h.poolEnd⟩

theorem valid : t.Valid = s.Valid := by
  funext p
  rw [PmmState.Valid, PmmState.Valid, h.base, h.stop]

theorem inPool : t.InPool = s.InPool := by
  funext p
  rw [PmmState.InPool, PmmState.InPool, h.poolStart, h.poolEnd]

theorem ownerBit : t.ownerBit = s.ownerBit := by
  funext p
  rw [PmmState.ownerBit, PmmState.ownerBit, h.bitmap]

theorem window
    (hw : s.windowBase ≤ s.windowEnd ∧ s.windowEnd ≤ s.totalPages ∧ s.totalPages < noPage) :
    t.windowBase ≤ t.windowEnd ∧ t.windowEnd ≤ t.totalPages ∧ t.totalPages < noPage := by
  rw [h.base, h.stop, h.total]
  exact hw

theorem pool_valid (hpool : ∀ p, s.InPool p → s.PoolConfigured ∧ s.Valid p) :
    ∀ p, t.InPool p → t.PoolConfigured ∧ t.Valid p := by
  rw [h.inPool, h.valid]
  intro p hin
  obtain ⟨⟨h₁, h₂⟩, hv⟩ := hpool p hin
  exact ⟨⟨h.poolStart ▸ h₁, h.poolEnd ▸ h₂⟩, hv⟩

end SameShape

/-- The pages `ps`, all free before, are taken. -/
structure Taken (s t : PmmState) (ps : List ℕ) : Prop where
  shape : SameShape s t
  nodup : ps.Nodup
  fresh : ∀ p ∈ ps, p < s.totalPages ∧ s.bits p = false
  bits : ∀ q < s.totalPages, t.bits q = (decide (q ∈ ps) || s.bits q)
  free : t.freePages = dec64^[ps.length] s.freePages

structure ListInv (s : PmmState) : Prop where
  window : s.windowBase ≤ s.windowEnd ∧ s.windowEnd ≤ s.totalPages ∧ s.totalPages < noPage
  inPool : ∀ p, s.InPool p → s.PoolConfigured ∧ s.Valid p
  /-- The owner bit of a free page lies behind the bitmap. -/
  apart : ∀ p, s.Valid p → s.bits p = false → s.totalPages ≤ s.ownerBit p
  general : ∃ l, Chain s.Valid s.next s.freeHead l ∧ l.Nodup ∧
    ∀ p ∈ l, s.bits p = false ∧ ¬ s.InPool p
  pool : ∃ l, Chain s.Valid s.next s.poolFreeHead l ∧ l.Nodup ∧
    ∀ p ∈ l, s.bits p = false ∧ s.InPool p

/-- A search of the bitmap that does not rebuild the lists finds no page of the pool's list. -/
def ScanFresh (s : PmmState) : PmmAction → Prop
  | .alloc _ count => count = 1 → ¬ s.Valid s.freeHead → ∀ p ∈ s.scan, p ∉ s.poolList
  | .allocPageTableErr => s.PoolConfigured → ∀ p ∈ s.poolScan, p ∉ s.poolList
  | _ => True

theorem ListInv.lt_total (h : ListInv s) (hp : s.Valid p) : p < s.totalPages :=
  hp.2.trans_le h.window.2.1

theorem mem_window (h : s.windowBase ≤ s.windowEnd) : p ∈ s.window ↔ s.Valid p := by
  rw [window, mem_range'_1, PmmState.Valid]
  omega

theorem window_nodup (s : PmmState) : s.window.Nodup := nodup_range'

theorem nodup_found (s : PmmState) (P : ℕ → Prop) [DecidablePred P] :
    (s.window.filter P).reverse.Nodup :=
  nodup_reverse.mpr ((window_nodup s).filter _)

/-! ### Taking pages -/

theorem take_bits (h : s.totalPages ≤ s.ownerBit idx) {q : ℕ} (hq : q < s.totalPages) :
    (s.take user idx).bits q = (decide (q = idx) || s.bits q) := by
  have hne : q ≠ s.ownerBit idx := by omega
  simp only [PmmState.take, update_of_ne hne, update_apply]
  split_ifs with heq
  · rw [decide_eq_true heq, Bool.true_or]
  · rw [decide_eq_false heq, Bool.false_or]

theorem take_shape (s : PmmState) (user : Bool) (idx : ℕ) : SameShape s (s.take user idx) :=
  ⟨rfl, rfl, rfl, rfl, rfl, rfl⟩

theorem Taken.refl (s : PmmState) : Taken s s [] where
  shape := .refl s
  nodup := nodup_nil
  fresh _ hp := absurd hp not_mem_nil
  bits _ _ := by simp
  free := rfl

theorem Taken.single (hlt : idx < s.totalPages) (hb : s.bits idx = false)
    (ha : s.totalPages ≤ s.ownerBit idx) : Taken s (s.take user idx) [idx] where
  shape := take_shape s user idx
  nodup := nodup_singleton idx
  fresh p hp := by
    rw [mem_singleton.mp hp]
    exact ⟨hlt, hb⟩
  bits q hq := by
    rw [take_bits ha hq]
    simp only [mem_singleton]
  free := rfl

theorem Taken.clear (h : Taken s t ps) (hp : p < s.totalPages) (hb : t.bits p = false) :
    p ∉ ps ∧ s.bits p = false := by
  rw [h.bits p hp, Bool.or_eq_false_iff, decide_eq_false_iff_not] at hb
  exact hb

theorem Taken.trans {qs : List ℕ} (h : Taken s t ps) (h' : Taken t u qs) :
    Taken s u (qs ++ ps) := by
  have hold : ∀ p ∈ qs, p < s.totalPages ∧ p ∉ ps ∧ s.bits p = false := by
    intro p hp
    obtain ⟨hlt, hb⟩ := h'.fresh p hp
    rw [h.shape.total] at hlt
    exact ⟨hlt, h.clear hlt hb⟩
  constructor
  · exact h.shape.trans h'.shape
  · exact h'.nodup.append h.nodup (fun p hp hp' => (hold p hp).2.1 hp')
  · intro p hp
    rcases mem_append.mp hp with hp | hp
    · exact ⟨(hold p hp).1, (hold p hp).2.2⟩
    · exact h.fresh p hp
  · intro q hq
    rw [h'.bits q (h.shape.total.symm ▸ hq), h.bits q hq]
    simp only [mem_append, Bool.decide_or, Bool.or_assoc]
  · rw [h'.free, h.free, length_append, Function.iterate_add_apply]

theorem Taken.relist (h : Taken s t ps) (hs : SameShape t u)
    (hb : u.bits = t.bits) (hf : u.freePages = t.freePages) : Taken s u ps where
  shape := h.shape.trans hs
  nodup := h.nodup
  fresh := h.fresh
  bits q hq := by rw [hb, h.bits q hq]
  free := by rw [hf, h.free]

theorem Taken.mono (h : Taken s t ps) (hp : p < s.totalPages) (hb : s.bits p) :
    t.bits p = true := by
  rw [h.bits p hp, hb, Bool.or_true]

theorem takeAll_taken (user : Bool) (hn : ps.Nodup)
    (hf : ∀ p ∈ ps, p < s.totalPages ∧ s.bits p = false)
    (ha : ∀ p ∈ ps, s.totalPages ≤ s.ownerBit p) :
    ∃ qs, (∀ p, p ∈ qs ↔ p ∈ ps) ∧ Taken s (s.takeAll user ps) qs := by
  induction ps generalizing s with
  | nil => exact ⟨[], fun _ => .rfl, .refl s⟩
  | cons x ps ih =>
    obtain ⟨hx, hn⟩ := nodup_cons.mp hn
    obtain ⟨hltx, hbx⟩ := hf x mem_cons_self
    have hax := ha x mem_cons_self
    have hf' : ∀ p ∈ ps, p < (s.take user x).totalPages ∧ (s.take user x).bits p = false := by
      intro p hp
      obtain ⟨hlt, hb⟩ := hf p (mem_cons_of_mem _ hp)
      refine ⟨hlt, ?_⟩
      rw [take_bits hax hlt, hb, decide_eq_false (ne_of_mem_of_not_mem hp hx), Bool.or_false]
    obtain ⟨qs, hmem, hqs⟩ := ih (s := s.take user x) hn hf'
      (fun p hp => ha p (mem_cons_of_mem _ hp))
    refine ⟨qs ++ [x], ?_, (Taken.single hltx hbx hax).trans hqs⟩
    intro p
    rw [mem_append, mem_singleton, mem_cons, hmem, or_comm]

theorem claim_taken (ps : List ℕ) (hlt : ∀ p ∈ ps, p < s.totalPages)
    (ha : ∀ p ∈ ps, s.bits p = false → s.totalPages ≤ s.ownerBit p) :
    ∃ qs, (∀ p ∈ qs, p ∈ ps) ∧ Taken s (ps.foldl claim s) qs ∧
      ∀ p ∈ ps, (ps.foldl claim s).bits p = true := by
  induction ps generalizing s with
  | nil => exact ⟨[], fun _ hp => hp, .refl s, nofun⟩
  | cons x ps ih =>
    have hltx := hlt x mem_cons_self
    have hstep : ∃ rs, (∀ p ∈ rs, p = x) ∧ Taken s (claim s x) rs ∧ (claim s x).bits x = true := by
      unfold claim
      split_ifs with hbx
      · exact ⟨[], nofun, .refl s, hbx⟩
      · rw [Bool.not_eq_true] at hbx
        have hax := ha x mem_cons_self hbx
        refine ⟨[x], fun _ hp => mem_singleton.mp hp, .single hltx hbx hax, ?_⟩
        rw [take_bits hax hltx, decide_eq_true rfl, Bool.true_or]
    obtain ⟨rs, hrs, htaken, hset⟩ := hstep
    have hshape := htaken.shape
    obtain ⟨qs, hqs, htaken', hset'⟩ := ih (s := claim s x)
      (fun p hp => hshape.total ▸ hlt p (mem_cons_of_mem _ hp))
      (fun p hp hb => by
        rw [hshape.total, hshape.ownerBit]
        have hp' := mem_cons_of_mem x hp
        exact ha p hp' (htaken.clear (hlt p hp') hb).2)
    refine ⟨qs ++ rs, ?_, htaken.trans htaken', ?_⟩
    all_goals intro p hp
    · rcases mem_append.mp hp with hp | hp
      · exact mem_cons_of_mem _ (hqs p hp)
      · exact mem_cons.mpr (.inl (hrs p hp))
    · rcases mem_cons.mp hp with rfl | hp
      · exact htaken'.mono (hshape.total ▸ hltx) hset
      · exact hset' p hp

/-! ### Rebuilding the lists -/

def FreeGeneral (s : PmmState) (p : ℕ) : Prop := s.bits p = false ∧ ¬ s.InPool p
  deriving Decidable

def FreePool (s : PmmState) (p : ℕ) : Prop := s.bits p = false ∧ s.InPool p
  deriving Decidable

def Relisted (s t : PmmState) : Prop :=
  t = { s with next := t.next, freeHead := t.freeHead, poolFreeHead := t.poolFreeHead }

theorem Relisted.shape (h : Relisted s t) : SameShape s t := by
  rw [h]
  exact ⟨rfl, rfl, rfl, rfl, rfl, rfl⟩

theorem Relisted.bits (h : Relisted s t) : t.bits = s.bits := by rw [h]

theorem Relisted.freePages (h : Relisted s t) : t.freePages = s.freePages := by rw [h]

theorem Relisted.trans (h : Relisted s t) (h' : Relisted t u) : Relisted s u := by
  rw [Relisted, h', h]

theorem relink_relisted (s : PmmState) (x : ℕ) : Relisted s (relink s x) := by
  unfold relink
  split_ifs <;> rfl

theorem foldl_relisted (xs : List ℕ) (s : PmmState) : Relisted s (xs.foldl relink s) := by
  induction xs generalizing s with
  | nil => rfl
  | cons x xs ih => exact (relink_relisted s x).trans (ih _)

/-- The loop of `rebuild_free_list` puts the pages of a list in front of it, the last first. -/
theorem relink_foldl (head : PmmState → ℕ) [DecidablePred P] (hin : ∀ t x, Relisted s t → P x →
      head (relink t x) = x ∧ (relink t x).next = update t.next x (head t))
    (hout : ∀ t x, Relisted s t → ¬ P x →
      head (relink t x) = head t ∧ ∃ v, (relink t x).next = update t.next x v)
    (xs l : List ℕ) (hn : xs.Nodup) (hv : ∀ x ∈ xs, s.Valid x) (hx : ∀ x ∈ xs, x ∉ l)
    (hrel : Relisted s t) (hc : Chain s.Valid t.next (head t) l) :
    Chain s.Valid (xs.foldl relink t).next (head (xs.foldl relink t))
      ((xs.filter P).reverse ++ l) := by
  induction xs generalizing t l with
  | nil => exact hc
  | cons x xs ih =>
    obtain ⟨hnotin, hn⟩ := nodup_cons.mp hn
    obtain ⟨hvx, hv⟩ := forall_mem_cons.mp hv
    obtain ⟨hxl, hx⟩ := forall_mem_cons.mp hx
    have hrel' := hrel.trans (relink_relisted t x)
    by_cases hP : P x
    · obtain ⟨hhead, hnext⟩ := hin t x hrel hP
      have hx' : ∀ y ∈ xs, y ∉ x :: l := fun y hy =>
        not_mem_cons_of_ne_of_not_mem (ne_of_mem_of_not_mem hy hnotin) (hx y hy)
      have hrest := ih (x :: l) hn hv hx' hrel' (by
        rw [hhead, hnext]
        exact hc.push hxl hvx)
      rw [filter_cons_of_pos (by simpa using hP), reverse_cons, append_assoc]
      exact hrest
    · obtain ⟨hhead, v, hnext⟩ := hout t x hrel hP
      rw [filter_cons_of_neg (by simpa using hP)]
      apply ih l hn hv hx hrel'
      rw [hhead, hnext]
      exact hc.update hxl v

theorem rebuild_spec (hwin : s.windowBase ≤ s.windowEnd) (hno : ¬ s.Valid noPage) :
    Relisted s s.rebuildFreeList ∧ Chain s.Valid s.rebuildFreeList.next s.rebuildFreeList.freeHead
      (s.window.filter (FreeGeneral s)).reverse ∧
    Chain s.Valid s.rebuildFreeList.next s.rebuildFreeList.poolFreeHead
      (s.window.filter (FreePool s)).reverse := by
  have hempty : Relisted s { s with freeHead := noPage, poolFreeHead := noPage } := rfl
  have hvalid : ∀ x ∈ s.window, s.Valid x := fun x hx => (mem_window hwin).mp hx
  have hmove : ∀ t x, Relisted s t → t.bits x = s.bits x ∧ (t.InPool x ↔ s.InPool x) := by
    intro t x hrel
    rw [hrel.bits, hrel.shape.inPool]
    exact ⟨rfl, .rfl⟩
  have hg := relink_foldl freeHead (P := FreeGeneral s) (fun t x hrel hP => by
      obtain ⟨hb, hin⟩ := hmove t x hrel
      simp [relink, hb, hin, hP.1, hP.2])
    (fun t x hrel hP => by
      obtain ⟨hb, hin⟩ := hmove t x hrel
      unfold relink
      split_ifs with hbit hpool
      · exact ⟨rfl, _, (update_eq_self x t.next).symm⟩
      · exact ⟨rfl, _, rfl⟩
      · exact absurd ⟨by simpa [hb] using hbit, mt hin.mpr hpool⟩ hP)
    s.window [] (window_nodup s) hvalid (fun _ _ => not_mem_nil) hempty hno
  have hp := relink_foldl poolFreeHead (P := FreePool s) (fun t x hrel hP => by
      obtain ⟨hb, hin⟩ := hmove t x hrel
      simp [relink, hb, hin, hP.1, hP.2])
    (fun t x hrel hP => by
      obtain ⟨hb, hin⟩ := hmove t x hrel
      unfold relink
      split_ifs with hbit hpool
      · exact ⟨rfl, _, (update_eq_self x t.next).symm⟩
      · exact absurd ⟨by simpa [hb] using hbit, hin.mp hpool⟩ hP
      · exact ⟨rfl, _, rfl⟩)
    s.window [] (window_nodup s) hvalid (fun _ _ => not_mem_nil) hempty hno
  rw [append_nil] at hg hp
  exact ⟨hempty.trans (foldl_relisted _ _), hg, hp⟩

theorem ListInv.rebuild
    (hwin : s.windowBase ≤ s.windowEnd ∧ s.windowEnd ≤ s.totalPages ∧ s.totalPages < noPage)
    (hpool : ∀ p, s.InPool p → s.PoolConfigured ∧ s.Valid p)
    (hapart : ∀ p, s.Valid p → s.bits p = false → s.totalPages ≤ s.ownerBit p) :
    ListInv s.rebuildFreeList := by
  have hno : ¬ s.Valid noPage := fun hv =>
    absurd (hv.2.trans_le hwin.2.1) hwin.2.2.not_gt
  obtain ⟨hrel, hg, hp⟩ := rebuild_spec hwin.1 hno
  have hshape := hrel.shape
  have hmem : ∀ (P : ℕ → Prop) [DecidablePred P], ∀ p ∈ (s.window.filter P).reverse, P p :=
    fun P _ p hp => of_decide_eq_true (mem_filter.mp (mem_reverse.mp hp)).2
  constructor
  · exact hshape.window hwin
  · exact hshape.pool_valid hpool
  · rw [hshape.valid, hrel.bits, hshape.total, hshape.ownerBit]
    exact hapart
  · rw [hshape.valid, hrel.bits, hshape.inPool]
    exact ⟨_, hg, nodup_found s _, hmem (FreeGeneral s)⟩
  · rw [hshape.valid, hrel.bits, hshape.inPool]
    exact ⟨_, hp, nodup_found s _, hmem (FreePool s)⟩

/-! ### What each call does -/

/-- The list from `head` holds different free pages with the property `P`. -/
def Lists (s : PmmState) (head : ℕ) (P : ℕ → Prop) : Prop :=
  ∃ l, Chain s.Valid s.next head l ∧ l.Nodup ∧ ∀ p ∈ l, s.bits p = false ∧ P p

theorem Lists.not_mem (h : Lists s head P) (hp : ¬ P p) (l : List ℕ)
    (hc : Chain s.Valid s.next head l) : p ∉ l := by
  obtain ⟨l', hc', -, hl⟩ := h
  rw [hc.unique hc']
  exact fun hmem => hp (hl p hmem).2

theorem Lists.pop (h : Lists s head P) (hv : s.Valid head) :
    s.bits head = false ∧ P head ∧ Lists s (s.next head) P ∧
      ∀ l, Chain s.Valid s.next (s.next head) l → head ∉ l := by
  obtain ⟨l, hc, hn, hl⟩ := h
  obtain ⟨rest, rfl, hrest⟩ := hc.eq_cons hv
  obtain ⟨hnotin, hn⟩ := nodup_cons.mp hn
  obtain ⟨⟨hb, hP⟩, hl⟩ := forall_mem_cons.mp hl
  exact ⟨hb, hP, ⟨rest, hrest, hn, hl⟩, fun l' hl' => hrest.unique hl' ▸ hnotin⟩

section

variable (h : ListInv s)
include h

theorem ListInv.take (hv : s.Valid idx) (hb : s.bits idx = false)
    (hg : ∀ l, Chain s.Valid s.next s.freeHead l → idx ∉ l)
    (hp : ∀ l, Chain s.Valid s.next s.poolFreeHead l → idx ∉ l) (user : Bool) :
    ListInv (s.take user idx) ∧ Taken s (s.take user idx) [idx] := by
  have htaken : Taken s (s.take user idx) [idx] := .single (h.lt_total hv) hb (h.apart idx hv hb)
  have hkeep : ∀ {head : ℕ} {P : ℕ → Prop}, (∀ l, Chain s.Valid s.next head l → idx ∉ l) →
      Lists s head P → Lists (s.take user idx) head P := by
    rintro head P hoff ⟨l, hc, hn, hl⟩
    refine ⟨l, hc, hn, fun p hmem => ⟨?_, (hl p hmem).2⟩⟩
    rw [htaken.bits p (h.lt_total (hc.valid_of_mem hmem)), (hl p hmem).1, Bool.or_false,
      decide_eq_false_iff_not, mem_singleton]
    exact ne_of_mem_of_not_mem hmem (hoff l hc)
  refine ⟨⟨h.window, h.inPool, ?_, hkeep hg h.general, hkeep hp h.pool⟩, htaken⟩
  intro p hvp hbp
  exact h.apart p hvp (htaken.clear (h.lt_total hvp) hbp).2

theorem ListInv.popGeneral (hv : s.Valid s.freeHead) (user : Bool) :
    ListInv ({ s with freeHead := s.next s.freeHead }.take user s.freeHead) ∧
      Taken s ({ s with freeHead := s.next s.freeHead }.take user s.freeHead) [s.freeHead] := by
  obtain ⟨hb, hout, hrest, hoff⟩ := Lists.pop h.general hv
  have hinv : ListInv { s with freeHead := s.next s.freeHead } :=
    { h with general := hrest }
  obtain ⟨hinv', htaken⟩ := hinv.take hv hb hoff (Lists.not_mem h.pool hout) user
  exact ⟨hinv', { htaken with shape := { htaken.shape with } }⟩

theorem ListInv.popPool (hv : s.Valid s.poolFreeHead) (user : Bool) :
    ListInv ({ s with poolFreeHead := s.next s.poolFreeHead }.take user s.poolFreeHead) ∧
      Taken s ({ s with poolFreeHead := s.next s.poolFreeHead }.take user s.poolFreeHead)
        [s.poolFreeHead] := by
  obtain ⟨hb, hin, hrest, hoff⟩ := Lists.pop h.pool hv
  have hinv : ListInv { s with poolFreeHead := s.next s.poolFreeHead } :=
    { h with pool := hrest }
  obtain ⟨hinv', htaken⟩ := hinv.take hv hb (Lists.not_mem h.general (not_not_intro hin)) hoff user
  exact ⟨hinv', { htaken with shape := { htaken.shape with } }⟩

theorem ListInv.poolList_eq {l : List ℕ} (hc : Chain s.Valid s.next s.poolFreeHead l) :
    s.poolList = l := by
  obtain ⟨l', hc', hn, -⟩ := h.pool
  obtain rfl := hc.unique hc'
  exact hc.chainList_eq (length_le_of_nodup hn fun p hp => hc.valid_of_mem hp)

theorem ListInv.rebuild_taken (htaken : Taken s t ps) :
    ListInv t.rebuildFreeList ∧ Taken s t.rebuildFreeList ps := by
  have hshape := htaken.shape
  have hwin := hshape.window h.window
  have hrel := (rebuild_spec hwin.1 fun hv => absurd (hv.2.trans_le hwin.2.1) hwin.2.2.not_gt).1
  refine ⟨.rebuild hwin (hshape.pool_valid h.inPool) ?_,
    htaken.relist hrel.shape hrel.bits hrel.freePages⟩
  rw [hshape.valid, hshape.total, hshape.ownerBit]
  intro p hv hb
  exact h.apart p hv (htaken.clear (h.lt_total hv) hb).2

end

theorem find_clear {xs : List ℕ} (hf : xs.find? (fun idx => !s.bits idx) = some p) :
    p ∈ xs ∧ s.bits p = false :=
  ⟨mem_of_find?_eq_some hf, by simpa using find?_some hf⟩

/-- What an allocation returns: nothing, or the first of pages that it has taken. -/
def Allocated (s : PmmState) (r : PmmState × ℕ) (count : ℕ) : Prop :=
  ListInv r.1 ∧ ∃ ps, Taken s r.1 ps ∧
    (r.2 ≠ 0 → ∀ p, r.2 / pageSize ≤ p → p < r.2 / pageSize + count → p ∈ ps ∧ s.Valid p)

theorem ListInv.allocated_none (h : ListInv s) (count : ℕ) : Allocated s (s, 0) count :=
  ⟨h, [], .refl s, absurd rfl⟩

theorem pageSize_pos : 0 < pageSize := by decide

theorem allocated_single (h : ListInv t) (htaken : Taken s t [idx]) (hv : s.Valid idx) :
    Allocated s (t, idx * pageSize) 1 := by
  refine ⟨h, [idx], htaken, fun _ p hlo hhi => ?_⟩
  simp only [Nat.mul_div_cancel idx pageSize_pos] at hlo hhi
  have heq : p = idx := by omega
  rw [heq]
  exact ⟨mem_singleton_self idx, hv⟩

theorem ListInv.alloc (h : ListInv s) {count : ℕ}
    (hfresh : count = 1 → ¬ s.Valid s.freeHead → ∀ p ∈ s.scan, p ∉ s.poolList) (user : Bool) :
    Allocated s (s.alloc user count) count := by
  unfold PmmState.alloc
  split_ifs with hcount
  · exact h.allocated_none count
  unfold allocFromWindow
  split_ifs with hzero hone hv
  · exact h.allocated_none count
  · subst hone
    obtain ⟨hinv, htaken⟩ := h.popGeneral hv user
    exact allocated_single hinv htaken hv
  · subst hone
    cases hscan : s.scan with
    | none => exact h.allocated_none 1
    | some idx =>
      obtain ⟨hmem, hb⟩ := find_clear hscan
      have hvalid := (mem_window h.window.1).mp hmem
      obtain ⟨hinv, htaken⟩ := h.take hvalid hb (fun l hl => by
          rw [hl.eq_nil hv]
          exact not_mem_nil)
        (fun l hl => h.poolList_eq hl ▸ hfresh rfl hv idx hscan) user
      exact allocated_single hinv htaken hvalid
  · cases hscan : s.scanRange count with
    | none => exact h.allocated_none count
    | some idx =>
      have hall := find?_some hscan
      have hmem := mem_of_find?_eq_some hscan
      rw [mem_range'_1] at hmem
      simp only [all_eq_true, Bool.not_eq_true'] at hall
      have hv : ∀ p ∈ range' idx count, s.Valid p := by
        intro p hp
        rw [mem_range'_1] at hp
        exact ⟨by omega, by omega⟩
      obtain ⟨qs, hqs, htaken⟩ := takeAll_taken user (nodup_range' (s := idx))
        (fun p hp => ⟨h.lt_total (hv p hp), hall p hp⟩)
        (fun p hp => h.apart p (hv p hp) (hall p hp))
      obtain ⟨hinv, htaken'⟩ := h.rebuild_taken htaken
      refine ⟨hinv, qs, htaken', fun _ p hlo hhi => ?_⟩
      simp only [Nat.mul_div_cancel idx pageSize_pos] at hlo hhi
      have hmem' := mem_range'_1.mpr ⟨hlo, hhi⟩
      exact ⟨(hqs p).mpr hmem', hv p hmem'⟩

theorem mem_stride {start limit p : ℕ} (hp : p ∈ stride start limit) :
    start ≤ p ∧ p < limit ∧ p % numColors = start % numColors := by
  obtain ⟨k, hk, rfl⟩ := mem_map.mp hp
  rw [mem_range] at hk
  simp only [numColors] at hk ⊢
  omega

/-- The scan for a color stays in the window although its second pass is bounded by the start of the
first, which may lie behind the window. -/
theorem mem_colorScan {color p : ℕ} (hc : color < numColors) (hp : p ∈ s.colorScan color) :
    s.Valid p := by
  unfold colorScan at hp
  simp only [mem_append] at hp
  obtain ⟨cur, hcur, hcase⟩ : ∃ cur, (if s.cursor color < s.windowBase ∨
      s.windowEnd ≤ s.cursor color then s.windowBase else s.cursor color) = cur ∧
      (cur = s.windowBase ∨ s.Valid cur) := by
    refine ⟨_, rfl, ?_⟩
    split_ifs with hout
    · exact .inl rfl
    · exact .inr ⟨by omega, by omega⟩
  unfold PmmState.Valid at hcase ⊢
  rcases hp with hp | hp
  · obtain ⟨hlo, hhi, -⟩ := mem_stride hp
    simp only [firstCongruentFrom] at hlo
    omega
  · obtain ⟨hlo, hhi, hmod⟩ := mem_stride hp
    simp only [firstCongruentFrom, numColors] at hlo hhi hmod hc
    omega

section

variable (h : ListInv s)
include h

theorem ListInv.allocColored (user : Bool) (color : ℕ) :
    Allocated s (s.allocColored user color) 1 := by
  unfold PmmState.allocColored
  split_ifs with hc
  · exact h.allocated_none 1
  cases hscan : (s.colorScan color).find? fun idx => !s.bits idx with
  | none => exact h.allocated_none 1
  | some idx =>
    obtain ⟨hmem, hb⟩ := find_clear hscan
    have hv := mem_colorScan (Nat.lt_of_not_le hc) hmem
    have htaken : Taken s (s.take user idx) [idx] := .single (h.lt_total hv) hb (h.apart idx hv hb)
    obtain ⟨hinv, htaken'⟩ := h.rebuild_taken
      (t := { s.take user idx with cursor := update s.cursor color (idx + numColors) })
      { htaken with shape := { htaken.shape with } }
    exact allocated_single hinv htaken' hv

theorem ListInv.alloc_of_empty (hempty : ¬ s.Valid s.poolFreeHead) :
    Allocated s (s.alloc false 1) 1 := by
  apply h.alloc
  intro _ _ p _
  obtain ⟨l, hc, -, -⟩ := h.pool
  rw [h.poolList_eq hc, hc.eq_nil hempty]
  exact not_mem_nil

theorem ListInv.pool_empty (hnone : ∀ p, s.InPool p → s.bits p) :
    ¬ s.Valid s.poolFreeHead := by
  intro hv
  obtain ⟨l, hc, -, hl⟩ := h.pool
  obtain ⟨rest, rfl, -⟩ := hc.eq_cons hv
  obtain ⟨hb, hin⟩ := hl s.poolFreeHead mem_cons_self
  rw [hnone _ hin] at hb
  cases hb

theorem ListInv.pool_unconfigured (hno : ¬ s.PoolConfigured) : ¬ s.Valid s.poolFreeHead :=
  h.pool_empty fun p hin => absurd (h.inPool p hin).1 hno

theorem ListInv.allocPageTable : Allocated s s.allocPageTable 1 := by
  unfold PmmState.allocPageTable
  split_ifs with hconf hv
  · obtain ⟨hinv, htaken⟩ := h.popPool hv false
    exact allocated_single hinv htaken hv
  · exact h.alloc_of_empty hv
  · exact h.alloc_of_empty (h.pool_unconfigured hconf)

theorem ListInv.allocPageTableErr (hfresh : s.PoolConfigured → ∀ p ∈ s.poolScan, p ∉ s.poolList) :
    Allocated s s.allocPageTableErr 1 := by
  unfold PmmState.allocPageTableErr
  split_ifs with hconf
  · cases hscan : s.poolScan with
    | none =>
      apply h.alloc_of_empty
      apply h.pool_empty
      intro p hin
      have hall := find?_eq_none.mp hscan p
        (mem_range'_1.mpr ⟨hin.1, by have := hin.1; have := hin.2; omega⟩)
      simpa using hall
    | some idx =>
      obtain ⟨hmem, hb⟩ := find_clear hscan
      rw [mem_range'_1] at hmem
      have hin : s.InPool idx := ⟨hmem.1, by omega⟩
      obtain ⟨hinv, htaken⟩ := h.take (h.inPool idx hin).2 hb
        (Lists.not_mem h.general (not_not_intro hin))
        (fun l hl => h.poolList_eq hl ▸ hfresh hconf idx hscan) false
      exact allocated_single hinv htaken (h.inPool idx hin).2
  · exact h.alloc_of_empty (h.pool_unconfigured hconf)

end

structure Freed (s t : PmmState) (idx : ℕ) : Prop where
  shape : SameShape s t
  was : idx < s.totalPages ∧ s.bits idx = true
  bits : ∀ q, t.bits q = if q = idx then false else s.bits q
  free : t.freePages = inc64 s.freePages

theorem Freed.drop (hlt : idx < s.totalPages) (hb : s.bits idx) (next : ℕ → ℕ)
    (freeHead poolFreeHead : ℕ) : Freed s { s.drop idx with next, freeHead, poolFreeHead } idx where
  shape := ⟨rfl, rfl, rfl, rfl, rfl, rfl⟩
  was := ⟨hlt, hb⟩
  bits _ := update_apply _ _ _ _
  free := rfl

/-- A list after a page was freed: as before, with the page in front, or cut off. -/
theorem Lists.freed {head' : ℕ} (h : Lists s head P) (hf : Freed s t idx)
    (hc : ∀ l, Chain s.Valid s.next head l → idx ∉ l → Chain s.Valid t.next head' l ∨
      P idx ∧ Chain s.Valid t.next head' (idx :: l) ∨ Chain s.Valid t.next head' []) :
    Lists t head' P := by
  obtain ⟨l, hl, hn, hfree⟩ := h
  have hoff : idx ∉ l := fun hmem =>
    nomatch (hfree idx hmem).1.symm.trans hf.was.2
  have hkeep : ∀ p ∈ l, t.bits p = false ∧ P p := by
    intro p hmem
    rw [hf.bits, (hfree p hmem).1, ite_self]
    exact ⟨rfl, (hfree p hmem).2⟩
  unfold Lists
  rw [hf.shape.valid]
  rcases hc l hl hoff with hc' | ⟨hP, hc'⟩ | hc'
  · exact ⟨l, hc', hn, hkeep⟩
  · refine ⟨idx :: l, hc', nodup_cons.mpr ⟨hoff, hn⟩, forall_mem_cons.mpr ⟨⟨?_, hP⟩, hkeep⟩⟩
    rw [hf.bits, if_pos rfl]
  · exact ⟨[], hc', nodup_nil, nofun⟩

theorem ListInv.freed (h : ListInv s) (hf : Freed s t idx)
    (hown : s.Valid idx → s.totalPages ≤ s.ownerBit idx)
    (hg : ∀ l, Chain s.Valid s.next s.freeHead l → idx ∉ l →
      Chain s.Valid t.next t.freeHead l ∨
        ¬ s.InPool idx ∧ Chain s.Valid t.next t.freeHead (idx :: l) ∨
        Chain s.Valid t.next t.freeHead [])
    (hp : ∀ l, Chain s.Valid s.next s.poolFreeHead l → idx ∉ l →
      Chain s.Valid t.next t.poolFreeHead l ∨
        s.InPool idx ∧ Chain s.Valid t.next t.poolFreeHead (idx :: l)) : ListInv t := by
  have hshape := hf.shape
  constructor
  · exact hshape.window h.window
  · exact hshape.pool_valid h.inPool
  · rw [hshape.valid, hshape.total, hshape.ownerBit]
    intro p hv hb
    rw [hf.bits] at hb
    split_ifs at hb with heq
    · exact heq ▸ hown (heq ▸ hv)
    · exact h.apart p hv hb
  · rw [hshape.inPool]
    exact Lists.freed h.general hf hg
  · rw [hshape.inPool]
    exact Lists.freed h.pool hf fun l hc hoff => (hp l hc hoff).imp_right .inl

section

variable (h : ListInv s) (hown : s.Valid (physAddr.toNat / pageSize) →
  s.totalPages ≤ s.ownerBit (physAddr.toNat / pageSize))
include h hown

theorem ListInv.freePage :
    ListInv (s.freePage physAddr) ∧ (s.freePage physAddr = s ∨
      Freed s (s.freePage physAddr) (physAddr.toNat / pageSize)) := by
  unfold PmmState.freePage
  generalize physAddr.toNat / pageSize = idx at hown ⊢
  simp only
  split_ifs with hout hb hpool
  · exact ⟨h, .inl rfl⟩
  · have hf := Freed.drop (Nat.lt_of_not_le (not_or.mp hout).1) hb
      (update s.next idx s.poolFreeHead) s.freeHead idx
    refine ⟨h.freed hf hown (fun l hc hoff => .inl (hc.update hoff _)) fun l hc hoff => ?_, .inr hf⟩
    exact .inr ⟨hpool.2, hc.push hoff (h.inPool idx hpool.2).2⟩
  · have hf := Freed.drop (Nat.lt_of_not_le (not_or.mp hout).1) hb (update s.next idx s.freeHead) idx
      s.poolFreeHead
    refine ⟨h.freed hf hown (fun l hc hoff => .inr ?_) (fun l hc hoff => .inl (hc.update hoff _)),
      .inr hf⟩
    -- a page behind the window cuts the list off
    by_cases hv : s.Valid idx
    · exact .inl ⟨fun hin => hpool ⟨(h.inPool idx hin).1, hin⟩, hc.push hoff hv⟩
    · exact .inr hv
  · exact ⟨h, .inl rfl⟩

theorem ListInv.freePageErr :
    ListInv (s.freePageErr physAddr) ∧ (s.freePageErr physAddr = s ∨
      Freed s (s.freePageErr physAddr) (physAddr.toNat / pageSize)) := by
  unfold PmmState.freePageErr
  simp only
  split_ifs with hout hb
  · exact ⟨h, .inl rfl⟩
  · have hf := Freed.drop (Nat.lt_of_not_le (not_or.mp hout).1) hb s.next s.freeHead s.poolFreeHead
    exact ⟨h.freed hf hown (fun l hc _ => .inl hc) (fun l hc _ => .inl hc), .inr hf⟩
  · exact ⟨h, .inl rfl⟩

end

theorem ListInv.reserveRange (h : ListInv s) (startPhys endPhys : UInt64) :
    ListInv (s.reserveRange startPhys endPhys) ∧
      (∃ ps, Taken s (s.reserveRange startPhys endPhys) ps ∧ ∀ p ∈ ps,
        (rangePages startPhys endPhys).1 ≤ p ∧ p < (rangePages startPhys endPhys).2) ∧
      ∀ p, startPhys < endPhys → (rangePages startPhys endPhys).1 ≤ p →
        p < (rangePages startPhys endPhys).2 → s.Valid p →
        (s.reserveRange startPhys endPhys).bits p := by
  unfold PmmState.reserveRange
  split_ifs with hle
  · exact ⟨h, ⟨[], .refl s, nofun⟩, fun p hlt => absurd hle (UInt64.not_le.mpr hlt)⟩
  simp only
  generalize hi : max (rangePages startPhys endPhys).1 s.windowBase = i
  generalize hj : min (rangePages startPhys endPhys).2 s.windowEnd = j
  have hv : ∀ p ∈ range' i (j - i), s.Valid p := by
    intro p hp
    rw [mem_range'_1] at hp
    exact ⟨by omega, by omega⟩
  obtain ⟨qs, hsub, htaken, hset⟩ := claim_taken _ (fun p hp => h.lt_total (hv p hp))
    (fun p hp hb => h.apart p (hv p hp) hb)
  obtain ⟨hinv, htaken'⟩ := h.rebuild_taken htaken
  refine ⟨hinv, ⟨qs, htaken', fun p hp => ?_⟩, fun p _ hlo hhi hvp => ?_⟩
  · have hrange := mem_range'_1.mp (hsub p hp)
    omega
  have hmem : p ∈ range' i (j - i) := by
    have := hvp.1
    have := hvp.2
    rw [mem_range'_1]
    omega
  rw [htaken'.bits p (h.lt_total hvp), ← htaken.bits p (h.lt_total hvp)]
  exact hset p hmem

/-- What a call does to the bitmap. -/
def Booked (s : PmmState) (a : PmmAction) : Prop :=
  ListInv (s.call a).1 ∧
    ((∃ ps, Taken s (s.call a).1 ps ∧ ∀ p, s.Hands a p → p ∈ ps ∧ s.Valid p) ∨
      ∃ idx, Returns a idx ∧ Freed s (s.call a).1 idx)

theorem ListInv.call (h : ListInv s) {a : PmmAction} (hfresh : ScanFresh s a)
    (hown : ∀ p, Returns a p → s.Valid p → s.totalPages ≤ s.ownerBit p) : Booked s a := by
  have hnone : ∀ {t : PmmState}, SameShape s t → t.bits = s.bits → t.freePages = s.freePages →
      s.call a = (t, 0) → ListInv t → Booked s a := by
    intro t hs hb hf heq hinv
    unfold Booked PmmState.Hands
    rw [heq]
    exact ⟨hinv, .inl ⟨[], (Taken.refl s).relist hs hb hf, fun p hp => absurd rfl hp.1⟩⟩
  have halloc : ∀ {r : PmmState × ℕ}, s.call a = r → Allocated s r a.pages → Booked s a := by
    rintro r rfl ⟨hinv, ps, htaken, hmem⟩
    exact ⟨hinv, .inl ⟨ps, htaken, fun p hp => hmem hp.1 p hp.2.1 hp.2.2⟩⟩
  have hfree : ∀ {t : PmmState} {idx : ℕ}, s.call a = (t, 0) → Returns a idx →
      ListInv t ∧ (t = s ∨ Freed s t idx) → Booked s a := by
    rintro t idx heq hret ⟨hinv, rfl | hf⟩
    · exact hnone (.refl t) rfl rfl heq hinv
    · unfold Booked
      rw [heq]
      exact ⟨hinv, .inr ⟨idx, hret, hf⟩⟩
  cases a with
  | alloc user count => exact halloc rfl (h.alloc hfresh user)
  | allocColored user color => exact halloc rfl (h.allocColored user color)
  | allocPageTable => exact halloc rfl h.allocPageTable
  | allocPageTableErr => exact halloc rfl (h.allocPageTableErr hfresh)
  | freePage physAddr => exact hfree rfl rfl (h.freePage (hown _ rfl))
  | freePageErr physAddr => exact hfree rfl rfl (h.freePageErr (hown _ rfl))
  | reserveRange startPhys endPhys =>
    obtain ⟨hinv, ⟨ps, htaken, -⟩, -⟩ := h.reserveRange startPhys endPhys
    exact ⟨hinv, .inl ⟨ps, htaken, fun p hp => absurd rfl hp.1⟩⟩
  | resetColorCursor =>
    exact hnone (t := s.resetColorCursor) ⟨rfl, rfl, rfl, rfl, rfl, rfl⟩ rfl rfl rfl { h with }

end Nexios.Pmm
