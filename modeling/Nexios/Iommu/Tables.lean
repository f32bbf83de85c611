import Nexios.Lib.Run
import Nexios.Lib.Update

/-!
# Second-level translation tables

A domain translates through a tree of four levels of tables, each a page of 512 entries. A walk from
the root allocates the tables that are missing and takes its own allocations back when the PMM runs
out half way; clearing a leaf frees the tables on its path that have become empty. The root is never
freed by a walk.

`free` is what the PMM would hand out next, in order. `held` marks the pages that the manager has
allocated and not freed, and `doubleFree` is set when a page is freed that is not held.
-/

open Function List

namespace Nexios.Iommu

def pageSize : Word := 4096

def kSlLevels : ℕ := 4
def kEntriesPerTable : ℕ := 512

/-- Physical page address of an entry, bits 51:12. -/
def kSlEntryAddrMask : Word := 0x000FFFFFFFFFF000

def Aligned (p : Word) : Prop := p &&& 0xFFF = 0
  deriving Decidable

structure TableMem where
  free : List Word := []
  held : Word → Bool := fun _ => false
  doubleFree : Bool := false
  entry : Word → ℕ → Word := fun _ _ => 0

structure PathStep where
  table : Word
  idx : ℕ
  deriving DecidableEq, Repr

structure Link where
  parent : PathStep
  page : Word
  deriving DecidableEq, Repr

/-- The index that `iova` selects at `level`, from `4` at the root to `1` at the leaf. -/
def slIndex (iova : Word) (level : ℕ) : ℕ := (iova >>> (12 + 9 * (level - 1)) &&& 0x1FF).toNat

namespace TableMem

@[simps] def write (s : TableMem) (e : PathStep) (v : Word) : TableMem :=
  { s with entry := update s.entry e.table (update (s.entry e.table) e.idx v) }

/-- The new page, or `0` when the PMM is exhausted. -/
def allocZeroedTablePage (s : TableMem) : TableMem × Word :=
  match s.free with
  | [] => (s, 0)
  | page :: rest =>
    ({ s with
      free := rest
      held := update s.held page true
      entry := update s.entry page fun _ => 0 }, page)

@[simps] def freePage (s : TableMem) (page : Word) : TableMem :=
  { s with
    free := page :: s.free
    held := update s.held page false
    doubleFree := s.doubleFree || !s.held page }

def unwind (s : TableMem) : List Link → TableMem
  | [] => s
  | l :: linked => ((s.write l.parent 0).freePage l.page).unwind linked

/-- `sl_walk` from a table at level `n + 1` on. The path comes back with the leaf first. -/
def slWalk (iova : Word) (alloc : Bool) :
    ℕ → TableMem → Word → List PathStep → List Link → TableMem × Option (List PathStep)
  | 0, s, table, path, _ => (s, some (⟨table, slIndex iova 1⟩ :: path))
  | n + 1, s, table, path, linked =>
    let e : PathStep := ⟨table, slIndex iova (n + 2)⟩
    let next := s.entry table e.idx &&& kSlEntryAddrMask
    if next = 0 then
      if alloc then
        let (s, page) := s.allocZeroedTablePage
        if page = 0 then (s.unwind linked, none)
        else slWalk iova alloc n (s.write e page) page (e :: path) (⟨e, page⟩ :: linked)
      else (s, none)
    else slWalk iova alloc n s next (e :: path) linked

def tableEmpty (s : TableMem) (table : Word) : Bool :=
  (List.range kEntriesPerTable).all fun i => s.entry table i == 0

/-- `cascade_free_empty` along a path, the leaf first; the last table is the root. -/
def cascadeFreeEmpty (s : TableMem) : List PathStep → TableMem
  | e :: parent :: path =>
    if s.tableEmpty e.table then
      ((s.freePage e.table).write parent 0).cascadeFreeEmpty (parent :: path)
    else s
  | _ => s

def clearLeaf (s : TableMem) (root iova : Word) : TableMem :=
  match slWalk iova false (kSlLevels - 1) s root [] [] with
  | (s, none) => s
  | (s, some path) =>
    match path with
    | [] => s
    | leaf :: rest => (s.write leaf 0).cascadeFreeEmpty (leaf :: rest)

def pageAt (phys : Word) (p : ℕ) : Word := phys + BitVec.ofNat 64 p * pageSize

def clearLeaves (s : TableMem) (root phys : Word) (pages : ℕ) : TableMem :=
  (List.range pages).foldl (fun s p => s.clearLeaf root (pageAt phys p)) s

/-- Programs the leaves of `n` pages from the `p`-th on; a failure clears all those before. -/
def mapPages (root phys : Word) (slFlags : BitVec 32) : ℕ → ℕ → TableMem → TableMem × Bool
  | _, 0, s => (s, true)
  | p, n + 1, s =>
    match slWalk (pageAt phys p) true (kSlLevels - 1) s root [] [] with
    | (s, none) => (s.clearLeaves root phys p, false)
    | (s, some path) =>
      match path with
      | [] => (s, false)
      | leaf :: _ =>
        mapPages root phys slFlags (p + 1) n
          (s.write leaf (pageAt phys p &&& kSlEntryAddrMask ||| slFlags.setWidth 64))

end TableMem

theorem aligned_zero : Aligned 0 := by decide

theorem aligned_and_addrMask (x : Word) : Aligned (x &&& kSlEntryAddrMask) := by
  have hmask : kSlEntryAddrMask &&& 0xFFF = 0#64 := by decide
  rw [Aligned, BitVec.and_assoc, hmask, BitVec.and_zero]
  rfl

namespace TableMem

/-- The PMM hands out pages. -/
def FreeAligned (s : TableMem) : Prop := ∀ p ∈ s.free, Aligned p

variable {s : TableMem} {root iova phys : Word} {linked : List Link} {path : List PathStep}

theorem FreeAligned.alloc (h : s.FreeAligned) :
    s.allocZeroedTablePage.1.FreeAligned ∧ Aligned s.allocZeroedTablePage.2 := by
  unfold allocZeroedTablePage
  split
  · exact ⟨h, aligned_zero⟩
  · next page rest hfree =>
    have hall : ∀ p ∈ page :: rest, Aligned p := by
      rw [← hfree]
      exact h
    exact ⟨fun p hp => hall p (mem_cons_of_mem _ hp), hall page mem_cons_self⟩

theorem FreeAligned.freePage (h : s.FreeAligned) {page : Word} (hp : Aligned page) :
    (s.freePage page).FreeAligned := by
  intro p hmem
  rcases mem_cons.mp hmem with rfl | hmem
  · exact hp
  · exact h p hmem

theorem FreeAligned.unwind (h : s.FreeAligned) (hl : ∀ l ∈ linked, Aligned l.page) :
    (s.unwind linked).FreeAligned := by
  induction linked generalizing s with
  | nil => exact h
  | cons l linked ih =>
    apply ih
    · exact .freePage (s := s.write l.parent 0) h (hl l mem_cons_self)
    · exact fun l' hl' => hl l' (mem_cons_of_mem _ hl')

def Walked (r : TableMem × Option (List PathStep)) : Prop :=
  r.1.FreeAligned ∧ ∀ path ∈ r.2, ∀ e ∈ path, Aligned e.table

theorem FreeAligned.slWalk {alloc : Bool} {n : ℕ} {table : Word} (h : s.FreeAligned)
    (ht : Aligned table) (hpath : ∀ e ∈ path, Aligned e.table) (hl : ∀ l ∈ linked, Aligned l.page) :
    Walked (slWalk iova alloc n s table path linked) := by
  induction n generalizing s table path linked with
  | zero =>
    refine ⟨h, ?_⟩
    intro q hq
    cases hq
    exact forall_mem_cons.mpr ⟨ht, hpath⟩
  | succ n ih =>
    have hpath' : ∀ i, ∀ e ∈ (⟨table, i⟩ : PathStep) :: path, Aligned e.table :=
      fun i => forall_mem_cons.mpr ⟨ht, hpath⟩
    obtain ⟨hfree, hpage⟩ := h.alloc
    unfold TableMem.slWalk
    simp only
    split_ifs
    · exact ⟨hfree.unwind hl, fun _ hq => by cases hq⟩
    · exact ih hfree hpage (hpath' _) (forall_mem_cons.mpr ⟨hpage, hl⟩)
    · exact ⟨h, fun _ hq => by cases hq⟩
    · exact ih h (aligned_and_addrMask _) (hpath' _) hl

theorem FreeAligned.walk (h : s.FreeAligned) (hr : Aligned root) (iova : Word) (alloc : Bool) :
    Walked (TableMem.slWalk iova alloc (kSlLevels - 1) s root [] []) :=
  h.slWalk hr (forall_mem_nil _) (forall_mem_nil _)

theorem FreeAligned.cascadeFreeEmpty (h : s.FreeAligned) (hpath : ∀ e ∈ path, Aligned e.table) :
    (s.cascadeFreeEmpty path).FreeAligned := by
  induction path generalizing s with
  | nil => exact h
  | cons e path ih =>
    obtain ⟨he, hpath⟩ := forall_mem_cons.mp hpath
    cases path with
    | nil => exact h
    | cons parent path =>
      unfold TableMem.cascadeFreeEmpty
      split_ifs
      · exact ih (h.freePage he) hpath
      · exact h

theorem FreeAligned.clearLeaf (h : s.FreeAligned) (hr : Aligned root) :
    (s.clearLeaf root iova).FreeAligned := by
  obtain ⟨hfree, hpath⟩ := h.walk hr iova false
  unfold TableMem.clearLeaf
  split
  · next u hw =>
    rw [hw] at hfree
    exact hfree
  · next u path hw =>
    rw [hw] at hfree hpath
    split
    · exact hfree
    · exact .cascadeFreeEmpty (s := u.write _ 0) hfree (hpath _ rfl)

theorem FreeAligned.clearLeaves {pages : ℕ} (h : s.FreeAligned) (hr : Aligned root) :
    (s.clearLeaves root phys pages).FreeAligned := by
  unfold TableMem.clearLeaves
  induction List.range pages generalizing s with
  | nil => exact h
  | cons p ps ih => exact ih (h.clearLeaf hr)

theorem FreeAligned.mapPages {slFlags : BitVec 32} {p n : ℕ} (h : s.FreeAligned) (hr : Aligned root) :
    (mapPages root phys slFlags p n s).1.FreeAligned := by
  induction n generalizing s p with
  | zero => exact h
  | succ n ih =>
    obtain ⟨hfree, -⟩ := h.walk hr (pageAt phys p) true
    unfold TableMem.mapPages
    split
    · next u hw =>
      rw [hw] at hfree
      exact hfree.clearLeaves hr
    · next u path hw =>
      rw [hw] at hfree
      split
      · exact hfree
      · exact ih hfree

end TableMem

end Nexios.Iommu
