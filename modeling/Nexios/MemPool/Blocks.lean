import Nexios.Lib.Chain
import Nexios.Lib.Run

/-!
# The pools of fixed-size blocks

`MemPool` has nine pools. A pool is a region of memory that is cut into blocks; the free blocks of a
pool form a list whose links are the first words of the blocks themselves, and a bitmap marks them
once more. The links therefore lie in `mem`, the memory that the holders of blocks write to.

`held` records which blocks are handed out; no call reads it. A check that fails stops the kernel:
the call then has no result.
-/

open Function

namespace Nexios

namespace MemPool

def poolCount : ℕ := 9

/-- The end mark of the lists, `static_cast<size_t>(-1)`. -/
def noBlock : ℕ := 2 ^ 64 - 1

def counts (i : Fin poolCount) : ℕ := [256, 128, 320, 32, 16, 8, 16, 64, 64].getD i 0

/-- The last class holds task control blocks, which are larger on one architecture. -/
def sizes (aarch64 : Bool) (i : Fin poolCount) : ℕ :=
  [16, 32, 64, 128, 256, 512, 1024, 2048, if aarch64 then 16384 else 8192].getD i 0

inductive MemPoolError
  | ok
  | oom
  | tooLarge
  | invalidPtr
  deriving DecidableEq, Repr

structure Pool where
  blockSize : ℕ := 0
  blockCount : ℕ := 0
  freeCount : ℕ := 0
  data : ℕ := 0
  firstFree : ℕ := 0
  initialized : Bool := false
  freed : ℕ → Bool := fun _ => false
  pinned : ℕ → Bool := fun _ => false

namespace Pool

def address (p : Pool) (block : ℕ) : ℕ := p.data + block * p.blockSize

def Contains (p : Pool) (ptr : ℕ) : Prop :=
  p.initialized = true ∧ p.data ≤ ptr ∧ ptr < p.data + p.blockSize * p.blockCount
  deriving Decidable

/-- The body of the loop of `reserve`; the list has the blocks taken so far, the last one first. -/
def reserveBlock (count : ℕ) (acc : Pool × List ℕ) (block : ℕ) : Pool × List ℕ :=
  let (p, reserved) := acc
  if reserved.length < count ∧ p.freed block = true then
    ({ p with
        pinned := update p.pinned block true
        freeCount := p.freeCount - 1
        freed := update p.freed block false },
      block :: reserved)
  else (p, reserved)

def reserve (p : Pool) (count : ℕ) : Pool × List ℕ :=
  (List.range p.blockCount).foldl (reserveBlock count) (p, [])

end Pool

/-- The build and the regions that `PMM::alloc_contiguous` returns for the pools: they do not
overlap. -/
structure Platform where
  aarch64 : Bool
  hhdmOffset : ℕ
  phys : Fin poolCount → ℕ
  apart : ∀ i j, i ≠ j → phys i + sizes aarch64 i * counts i ≤ phys j ∨
    phys j + sizes aarch64 j * counts j ≤ phys i

end MemPool

open MemPool in
structure MemPool where
  pools : Fin poolCount → Pool := fun _ => {}
  mem : ℕ → ℕ := fun _ => 0
  held : Fin poolCount → ℕ → Bool := fun _ _ => false

namespace MemPool

variable (s : MemPool)

def setPool (i : Fin poolCount) (p : Pool) : MemPool :=
  { s with pools := update s.pools i p }

def write (addr word : ℕ) : MemPool := { s with mem := update s.mem addr word }

def next (i : Fin poolCount) (block : ℕ) : ℕ := s.mem ((s.pools i).address block)

/-- The body of the inner loop of `init`. -/
def linkBlock (i : Fin poolCount) (s : MemPool) (j : ℕ) : MemPool :=
  let p := s.pools i
  (s.write (p.address j) (j + 1)).setPool i { p with freed := update p.freed j true }

def initPool (e : Platform) (s : MemPool) (i : Fin poolCount) : Option MemPool :=
  if e.phys i = 0 then none
  else
    let s := s.setPool i
      { s.pools i with
        blockSize := sizes e.aarch64 i
        blockCount := counts i
        freeCount := counts i
        firstFree := 0
        data := e.phys i + e.hhdmOffset }
    let s := (List.range (counts i)).foldl (linkBlock i) s
    let p := s.pools i
    let s := s.write (p.address (p.blockCount - 1)) noBlock
    some (s.setPool i { p with initialized := true, pinned := fun _ => false })

/-- `init`; `none` when the physical memory does not suffice. -/
def init (e : Platform) : Option MemPool := (List.finRange poolCount).foldlM (initPool e) {}

def findPool (size : ℕ) : Option (Fin poolCount) :=
  (List.finRange poolCount).find? fun i =>
    decide (size ≤ (s.pools i).blockSize) && (s.pools i).initialized

def findOwnerPool (ptr : ℕ) : Option (Fin poolCount × ℕ) :=
  ((List.finRange poolCount).find? fun i => decide ((s.pools i).Contains ptr)).map fun i =>
    (i, ptr - (s.pools i).data)

def popBlock (i : Fin poolCount) : Option (MemPool × ℕ) :=
  let p := s.pools i
  let block := p.firstFree
  if block < p.blockCount ∧ p.freed block = true then
    some (s.setPool i
      { p with
        firstFree := s.next i block
        freeCount := p.freeCount - 1
        freed := update p.freed block false }, block)
  else none

def pushBlock (i : Fin poolCount) (block : ℕ) : Option MemPool :=
  let p := s.pools i
  if p.freed block = true then none
  else some ((s.write (p.address block) p.firstFree).setPool i
    { p with
      freed := update p.freed block true
      firstFree := block
      freeCount := p.freeCount + 1 })

def alloc (size : ℕ) : Option (MemPool × ℕ) :=
  match s.findPool size with
  | none => some (s, 0)
  | some i =>
    if (s.pools i).freeCount = 0 then some (s, 0)
    else (s.popBlock i).map fun (t, block) => (t, (s.pools i).address block)

def allocErr (size : ℕ) : Option (MemPool × ℕ × MemPoolError) :=
  match s.findPool size with
  | none => some (s, 0, .tooLarge)
  | some i =>
    if (s.pools i).freeCount = 0 then some (s, 0, .oom)
    else (s.popBlock i).map fun (t, block) => (t, (s.pools i).address block, .ok)

/-- The common end of `free` and `free_err`. A pinned block is not given back. -/
def freeBlock (i : Fin poolCount) (offset : ℕ) : Option MemPool :=
  let p := s.pools i
  let block := offset / p.blockSize
  if offset % p.blockSize = 0 ∧ block < p.blockCount then
    if p.pinned block then some s else s.pushBlock i block
  else none

def free (ptr : ℕ) : Option MemPool :=
  if ptr = 0 then some s
  else match s.findOwnerPool ptr with
    | none => some s
    | some (i, offset) => s.freeBlock i offset

def freeErr (ptr : ℕ) : Option (MemPool × MemPoolError) :=
  if ptr = 0 then some (s, .invalidPtr)
  else match s.findOwnerPool ptr with
    | none => some (s, .invalidPtr)
    | some (i, offset) => (s.freeBlock i offset).map (·, .ok)

def reserve (poolIdx count : ℕ) : MemPool × List ℕ × MemPoolError :=
  if h : poolIdx < poolCount then
    let p := s.pools ⟨poolIdx, h⟩
    if p.freeCount < count then (s, [], .oom)
    else
      let (p, reserved) := p.reserve count
      (s.setPool ⟨poolIdx, h⟩ p, reserved, if reserved.length = count then .ok else .oom)
  else (s, [], .oom)

def pinBlock (ptr : ℕ) : Option MemPool :=
  match s.findOwnerPool ptr with
  | none => some s
  | some (i, offset) =>
    let p := s.pools i
    let block := offset / p.blockSize
    if offset % p.blockSize = 0 ∧ block < p.blockCount then
      if p.freed block then none
      else some (s.setPool i { p with pinned := update p.pinned block true })
    else some s

def unpinBlock (ptr : ℕ) : MemPool :=
  match s.findOwnerPool ptr with
  | none => s
  | some (i, offset) =>
    let p := s.pools i
    let block := offset / p.blockSize
    if offset % p.blockSize = 0 ∧ block < p.blockCount then
      s.setPool i { p with pinned := update p.pinned block false }
    else s

/-- `use` is not a call: the holder of a block writes a word in it. -/
inductive Action
  | alloc (size : ℕ)
  | allocErr (size : ℕ)
  | free (ptr : ℕ)
  | freeErr (ptr : ℕ)
  | reserve (poolIdx count : ℕ)
  | pinBlock (ptr : ℕ)
  | unpinBlock (ptr : ℕ)
  | use (i : Fin poolCount) (block offset word : ℕ)
  deriving DecidableEq, Repr

def call : Action → Option MemPool
  | .alloc size => (s.alloc size).map (·.1)
  | .allocErr size => (s.allocErr size).map (·.1)
  | .free ptr => s.free ptr
  | .freeErr ptr => (s.freeErr ptr).map (·.1)
  | .reserve poolIdx count => some (s.reserve poolIdx count).1
  | .pinBlock ptr => s.pinBlock ptr
  | .unpinBlock ptr => some (s.unpinBlock ptr)
  | .use i block offset word =>
    if s.held i block ∧ offset < (s.pools i).blockSize then
      some (s.write ((s.pools i).address block + offset) word)
    else none

/-- The blocks that the call hands out: the one whose address an allocation returns, and those that
`reserve` takes. -/
def Hands (a : Action) (i : Fin poolCount) (block : ℕ) : Prop :=
  block < (s.pools i).blockCount ∧ match a with
    | .alloc size => (s.alloc size).map (·.2) = some ((s.pools i).address block)
    | .allocErr size => (s.allocErr size).map (·.2.1) = some ((s.pools i).address block)
    | .reserve poolIdx count => poolIdx = i ∧ block ∈ (s.reserve poolIdx count).2.1
    | _ => False

instance (a : Action) (i : Fin poolCount) (block : ℕ) : Decidable (s.Hands a i block) := by
  unfold Hands
  cases a <;> infer_instance

def Returns (a : Action) (i : Fin poolCount) (block : ℕ) : Prop :=
  match a with
  | .free ptr | .freeErr ptr => block < (s.pools i).blockCount ∧
      ptr = (s.pools i).address block ∧ (s.pools i).pinned block = false
  | _ => False

instance (a : Action) (i : Fin poolCount) (block : ℕ) : Decidable (s.Returns a i block) := by
  unfold Returns
  cases a <;> infer_instance

def step (s : MemPool) (a : Action) : Option MemPool :=
  (s.call a).map fun t => { t with
    held := fun i block => decide (s.Hands a i block) ||
      (s.held i block && !decide (s.Returns a i block)) }

/-- The list of the pool ends, has exactly the blocks that are marked as free, each once, and is as
long as the counter says. -/
def FreeListExact (i : Fin poolCount) : Prop :=
  ∃ l : List ℕ, Chain (· < (s.pools i).blockCount) (s.next i) (s.pools i).firstFree l ∧ l.Nodup ∧
    (∀ block, block ∈ l ↔ block < (s.pools i).blockCount ∧ (s.pools i).freed block = true) ∧
    l.length = (s.pools i).freeCount

/-- The call is no `reserve` that takes a block. -/
def ReservesNone (s : MemPool) : Action → Prop
  | .reserve poolIdx count => (s.reserve poolIdx count).2.1 = []
  | _ => True

end MemPool

end Nexios
