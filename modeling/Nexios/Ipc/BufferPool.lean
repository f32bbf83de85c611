import Mathlib.Data.List.FinRange
import Nexios.Lib.DList
import Nexios.Lib.Fifo
import Nexios.Vmm.AddressSpace

/-!
# Shared buffers

`BufferPool`: a table of entries, each for a page that is mapped into the address space of its
owner. The free entries are a list through `list_next`, and the entries of each task a doubly linked
list that starts in the task. A handle is the index of an entry with the number that it got when it
was allocated. The physical pages come from a small cache and from the PMM; `returned` records the
pages that `free_page` has been given.

The calls hold one lock throughout, so each is one step; `none` stands for a failed `ENSURE`.
-/

open Function List

namespace Nexios.Ipc

open Vmm (AddressSpace)

variable {n m : ℕ}

def userSpaceLimit : ℕ := 2 ^ 47

def poolPages : ℕ := 128

structure BufferEntry where
  /-- 0 for a free entry -/
  physAddr : ℕ
  generation : ℕ
  ownerTask : ℕ
  /-- 0 for a buffer that is not mapped -/
  mappedVa : ℕ
  deriving DecidableEq

/-- `n` tasks and `m` entries. -/
structure BufferPool (n m : ℕ) where
  entry : Fin m → BufferEntry
  /-- `list_next` and `list_prev` -/
  links : Links (Fin m)
  freeHead : Option (Fin m)
  nextCookie : ℕ
  /-- `pool_pages_`, the page that is taken next first -/
  pool : List ℕ
  /-- `buf_list_head` -/
  head : Fin n → Option (Fin m)
  /-- the 64-bit ids of the tasks -/
  id : Fin n → ℕ
  space : Fin n → AddressSpace
  returned : List ℕ
  /-- the pages that other modules have from the PMM -/
  taken : ℕ → Bool

/-- The answers of other modules to a call of `alloc`: whether the PMM takes the page from the cache
for one of a user, the page that it gives otherwise, or 0, and how many pages there are for page
tables. -/
structure AllocEnv where
  user : Bool
  fresh : ℕ
  tables : ℕ
  deriving DecidableEq

inductive BufferAction (n : ℕ)
  | alloc (t : Fin n) (va : ℕ) (env : AllocEnv)
  | free (t : Fin n) (handle : ℕ)
  | map (t : Fin n) (handle va tables : ℕ)
  | unmap (t : Fin n) (handle : ℕ)
  | transfer (handle : ℕ) (src dst : Fin n)
  /-- `unmap_all` of a task that dies or loads another program -/
  | unmapAll (t : Fin n)
  deriving DecidableEq

namespace BufferPool

variable (s : BufferPool n m)

def ownerId (t : Fin n) : ℕ := s.id t % 2 ^ 32

def setEntry (i : Fin m) (e : BufferEntry) : BufferPool n m :=
  { s with entry := update s.entry i e }

def setSpace (t : Fin n) (a : AddressSpace) : BufferPool n m :=
  { s with space := update s.space t a }

/-! ## Lists -/

def listInsert (t : Fin n) (i : Fin m) : BufferPool n m :=
  { s with
    links := s.links.insert none i (s.head t)
    head := update s.head t (some i) }

def listRemove (t : Fin n) (i : Fin m) : BufferPool n m :=
  { s with
    links := s.links.unlink i
    head := if s.links.prev i = none then update s.head t (s.links.next i) else s.head }

def freeEntry (i : Fin m) : BufferPool n m :=
  { s with
    entry := update s.entry i
      { s.entry i with physAddr := 0, ownerTask := 0, mappedVa := 0 }
    links := (s.links.setPrev i none).setNext i s.freeHead
    freeHead := some i }

def takeEntry (i : Fin m) : BufferPool n m :=
  { s with
    freeHead := s.links.next i
    links := s.links.setNext i none }

/-! ## Pages -/

/-- `alloc_page`, with the page or 0. -/
def allocPage (env : AllocEnv) : BufferPool n m × ℕ :=
  match s.pool with
  | [] => (s, env.fresh)
  | p :: rest => ({ s with pool := rest }, if env.user then p else env.fresh)

def freePage (p : ℕ) : BufferPool n m :=
  { s with
    pool := if s.pool.length < poolPages then p :: s.pool else s.pool
    returned := p :: s.returned }

/-- The mapping of an entry is cleared in the address space of a task, if it has one. -/
def clearMapping (t : Fin n) (i : Fin m) : BufferPool n m :=
  if (s.entry i).mappedVa = 0 then s
  else
    (s.setSpace t ((s.space t).clearPte (s.entry i).mappedVa)).setEntry i
      { s.entry i with mappedVa := 0 }

def release (i : Fin m) : BufferPool n m := (s.freePage (s.entry i).physAddr).freeEntry i

/-! ## Calls -/

def validate (handle : ℕ) : Option (Fin m) :=
  if handle = 0 then none
  else if h : handle % 2 ^ 32 < m then
    if (s.entry ⟨handle % 2 ^ 32, h⟩).physAddr = 0 then none
    else if (s.entry ⟨handle % 2 ^ 32, h⟩).generation ≠ handle / 2 ^ 32 % 2 ^ 32 then none
    else some ⟨handle % 2 ^ 32, h⟩
  else none

def validateOwned (t : Fin n) (handle : ℕ) : Option (Fin m) :=
  (s.validate handle).filter fun i => (s.entry i).ownerTask = s.ownerId t

/-- The page is mapped, and the entry is written and put into the list of its owner. -/
def install (t : Fin n) (i : Fin m) (phys va tables : ℕ) : BufferPool n m :=
  let s₁ := s.setSpace t ((s.space t).mapPage va phys tables).1
  let s₂ := s₁.setEntry i ⟨phys, s.nextCookie, s.ownerId t, va⟩
  { s₂ with nextCookie := (s.nextCookie + 1) % 2 ^ 32 }.listInsert t i

def alloc (t : Fin n) (va : ℕ) (env : AllocEnv) : Option (BufferPool n m × ℕ) :=
  if userSpaceLimit ≤ va then some (s, 0)
  else
    match s.freeHead with
    | none => some (s, 0)
    | some i =>
      if (s.entry i).physAddr ≠ 0 then none
      else
        let r := (s.takeEntry i).allocPage env
        if r.2 = 0 then some (r.1.freeEntry i, 0)
        else some (r.1.install t i r.2 va env.tables, s.nextCookie * 2 ^ 32 + i)

def free (t : Fin n) (handle : ℕ) : BufferPool n m × Bool :=
  match s.validateOwned t handle with
  | none => (s, false)
  | some i => (((s.clearMapping t i).listRemove t i).release i, true)

def map (t : Fin n) (handle va tables : ℕ) : BufferPool n m × Bool :=
  match s.validateOwned t handle with
  | none => (s, false)
  | some i =>
    if va % Vmm.pageSize ≠ 0 ∨ userSpaceLimit ≤ va ∨ (s.space t).virtToPhys va ≠ 0 then (s, false)
    else
      let s₁ := s.setSpace t ((s.space t).mapPage va (s.entry i).physAddr tables).1
      (s₁.setEntry i { s.entry i with ownerTask := s.ownerId t, mappedVa := va }, true)

def unmap (t : Fin n) (handle : ℕ) : BufferPool n m × Bool :=
  match s.validateOwned t handle with
  | none => (s, false)
  | some i =>
    if (s.entry i).mappedVa = 0 then (s, false) else ((s.clearMapping t i).listRemove t i, true)

def transfer (handle : ℕ) (src dst : Fin n) : BufferPool n m × Bool :=
  match s.validateOwned src handle with
  | none => (s, false)
  | some i =>
    let s₁ := (s.clearMapping src i).listRemove src i
    ((s₁.setEntry i { s₁.entry i with ownerTask := s₁.ownerId dst }).listInsert dst i, true)

/-- The loop of `unmap_all`; it stops with a failed `ENSURE` when it has `left` rounds left. -/
def unmapFrom (t : Fin n) : ℕ → Option (Fin m) → BufferPool n m → Option (BufferPool n m)
  | _, none, s => some s
  | 0, some _, _ => none
  | left + 1, some i, s =>
    if (s.entry i).ownerTask ≠ s.ownerId t then none
    else unmapFrom t left (s.links.next i) ((s.clearMapping t i).release i)

def unmapAll (t : Fin n) : Option (BufferPool n m) :=
  (unmapFrom t (m - 1) (s.head t) s).map fun s => { s with head := update s.head t none }

/-! ## Steps -/

def live (i : Fin m) : Bool := (s.entry i).physAddr ≠ 0

def Held (p : ℕ) : Prop := p ∈ s.pool ∨ ∃ i, s.live i = true ∧ (s.entry i).physAddr = p
  deriving Decidable

/-- The PMM gives no page that is in use. -/
def step : BufferAction n → Option (BufferPool n m)
  | .alloc t va env =>
    if env.fresh ≠ 0 ∧ (s.Held env.fresh ∨ s.taken env.fresh) then none
    else (s.alloc t va env).map Prod.fst
  | .free t handle => some (s.free t handle).1
  | .map t handle va tables => some (s.map t handle va tables).1
  | .unmap t handle => some (s.unmap t handle).1
  | .transfer handle src dst => some (s.transfer handle src dst).1
  | .unmapAll t => s.unmapAll t

/-- `init`, with the pages that the PMM gives. -/
def init (pages : List ℕ) : BufferPool n m :=
  let s₁ : BufferPool n m := { s with
    entry := fun _ => ⟨0, 0, 0, 0⟩
    links := ⟨fun _ => none, fun _ => none⟩
    freeHead := none
    nextCookie := 1 }
  { (List.finRange m).foldl freeEntry s₁ with pool := pages.reverse }

/-- All entries are in the free list, and the cache has different pages. -/
structure Start (s : BufferPool n m) : Prop where
  entry : ∀ i, (s.entry i).physAddr = 0
  head : ∀ t, s.head t = none
  free : ∃ l, Fifo.Path s.links.next s.freeHead l ∧ l.Nodup ∧ ∀ i, i ∈ l
  pool : s.pool.Nodup ∧ ∀ p ∈ s.pool, p ≠ 0

variable {s}

theorem freeEntry_entry (i j : Fin m) :
    ((s.freeEntry i).entry j).physAddr = if j = i then 0 else (s.entry j).physAddr := by
  unfold freeEntry
  dsimp only
  rw [update_apply]
  split_ifs with hj
  · rfl
  · rfl

theorem path_freeEntry {i : Fin m} {l : List (Fin m)} (h : Fifo.Path s.links.next s.freeHead l)
    (hi : i ∉ l) : Fifo.Path (s.freeEntry i).links.next (s.freeEntry i).freeHead (i :: l) := by
  refine ⟨rfl, ?_⟩
  have hself : (s.freeEntry i).links.next i = s.freeHead := update_self ..
  rw [hself]
  exact h.congr fun y hy => update_of_ne (ne_of_mem_of_not_mem hy hi) ..

theorem foldl_freeEntry (l : List (Fin m)) {l₀ : List (Fin m)}
    (h : Fifo.Path s.links.next s.freeHead l₀) (hnodup : (l.reverse ++ l₀).Nodup)
    (hentry : ∀ i, (s.entry i).physAddr = 0) :
    Fifo.Path (l.foldl freeEntry s).links.next (l.foldl freeEntry s).freeHead (l.reverse ++ l₀) ∧
      (∀ i, ((l.foldl freeEntry s).entry i).physAddr = 0) ∧ (l.foldl freeEntry s).head = s.head := by
  induction l generalizing s l₀ with
  | nil => exact ⟨h, hentry, rfl⟩
  | cons i l ih =>
    rw [reverse_cons, append_assoc] at hnodup ⊢
    have hi : i ∉ l₀ := (nodup_cons.mp (nodup_append.mp hnodup).2.1).1
    refine ih (path_freeEntry h hi) hnodup fun j => ?_
    rw [freeEntry_entry, hentry, ite_self]

theorem foldl_freeEntry_frame (l : List (Fin m)) (s : BufferPool n m) :
    (l.foldl freeEntry s).space = s.space ∧ (l.foldl freeEntry s).taken = s.taken := by
  induction l generalizing s with
  | nil => exact ⟨rfl, rfl⟩
  | cons i l ih => exact ih (s.freeEntry i)

theorem init_frame (s : BufferPool n m) (pages : List ℕ) :
    (s.init pages).space = s.space ∧ (s.init pages).taken = s.taken :=
  foldl_freeEntry_frame ..

theorem init_start (hhead : ∀ t, s.head t = none) {pages : List ℕ} (hnodup : pages.Nodup)
    (hpages : ∀ p ∈ pages, p ≠ 0) : (s.init pages).Start := by
  have hreverse : ((List.finRange m).reverse ++ []).Nodup := by
    rw [append_nil, nodup_reverse]
    exact nodup_finRange m
  obtain ⟨hpath, hentry, hkeep⟩ := foldl_freeEntry (s := { s with
    entry := fun _ => ⟨0, 0, 0, 0⟩
    links := ⟨fun _ => none, fun _ => none⟩
    freeHead := none
    nextCookie := 1 }) (List.finRange m) (show Fifo.Path _ none [] from rfl) hreverse (fun _ => rfl)
  refine ⟨hentry, fun t => (congrFun hkeep t).trans (hhead t), ⟨_, hpath, hreverse, fun i => ?_⟩, ?_⟩
  · rw [append_nil, mem_reverse]
    exact mem_finRange i
  · exact ⟨nodup_reverse.mpr hnodup, fun p hp => hpages p (mem_reverse.mp hp)⟩

def bootTasks : BufferPool 2 1024 :=
  ⟨fun _ => ⟨0, 0, 0, 0⟩, ⟨fun _ => none, fun _ => none⟩, none, 0, [], fun _ => none,
    fun t => t + 1, fun _ => ⟨fun _ => none⟩, [], fun _ => false⟩

def twoTasks : BufferPool 2 1024 := bootTasks.init [4096, 8192, 12288]

theorem twoTasks_start : twoTasks.Start := init_start (fun _ => rfl) (by decide) (by decide)

/-- The handle of the `k`-th allocation, for the entry `i`. -/
def nthHandle (k i : ℕ) : ℕ := k * 2 ^ 32 + i

end BufferPool

end Nexios.Ipc
