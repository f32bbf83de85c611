import Nexios.MemPool.Blocks

/-!
# What the calls do to the free lists

The free list of one pool depends on five things, its `Books`. A call pops the first block, pushes a
block, or takes blocks without unlinking them; the holder of a block may overwrite its link. The
blocks of different pools do not overlap, so no call changes the books of two pools.
-/

open Function Option List Nat Bool

namespace Nexios.MemPool

open MemPool Pool

variable {e : Platform} {s t : MemPool} {a : Action} {i j : Fin poolCount} {b c size ptr : ℕ}
  {offset addr : ℕ} {err : MemPoolError}

theorem sizes_pos (aarch64 : Bool) (i : Fin poolCount) : 0 < sizes aarch64 i := by
  revert i
  cases aarch64 <;> decide

theorem counts_pos (i : Fin poolCount) : 0 < counts i := by
  revert i
  decide

theorem setPool_pools_self (p : Pool) : (s.setPool i p).pools i = p := update_self ..

theorem setPool_pools_of_ne (h : j ≠ i) (p : Pool) : (s.setPool i p).pools j = s.pools j :=
  update_of_ne h ..

/-! ## Where the blocks are -/

theorem address_of_findOwnerPool {ptr : ℕ} (hf : s.findOwnerPool ptr = some (i, offset))
    (hal : offset % (s.pools i).blockSize = 0) :
    ptr = (s.pools i).address (offset / (s.pools i).blockSize) := by
  obtain ⟨k, hk, heq⟩ := map_eq_some_iff.mp hf
  obtain ⟨rfl, rfl⟩ := Prod.mk.inj heq
  have hck := List.find?_some hk
  rw [decide_eq_true_eq] at hck
  have hlo := hck.2.1
  rw [Pool.address, Nat.div_mul_cancel (Nat.dvd_of_mod_eq_zero hal), Nat.add_sub_cancel' hlo]

/-- The pools are laid out as `init` did. -/
structure Laid (e : Platform) (s : MemPool) : Prop where
  size : ∀ i, (s.pools i).blockSize = sizes e.aarch64 i
  count : ∀ i, (s.pools i).blockCount = counts i
  data : ∀ i, (s.pools i).data = e.phys i + e.hhdmOffset
  initialized : ∀ i, (s.pools i).initialized = true
  phys : ∀ i, e.phys i ≠ 0

namespace Laid

variable (h : Laid e s)
include h

theorem size_pos (i : Fin poolCount) : 0 < (s.pools i).blockSize := by
  rw [h.size]
  exact sizes_pos _ _

theorem pool_eq {p : ℕ} (hi : (s.pools i).Contains p) (hj : (s.pools j).Contains p) : i = j := by
  obtain ⟨-, hilo, hihi⟩ := hi
  obtain ⟨-, hjlo, hjhi⟩ := hj
  rw [h.data, h.size, h.count] at hihi hjhi
  rw [h.data] at hilo hjlo
  by_contra hne
  rcases e.apart i j hne with hle | hle
  · omega
  · omega

section

variable (hb : b < (s.pools i).blockCount)
include hb

theorem block_le :
    b * (s.pools i).blockSize + (s.pools i).blockSize ≤ sizes e.aarch64 i * counts i := by
  rw [h.count] at hb
  rw [h.size, mul_comm]
  exact mul_le_mul_left _ hb

theorem contains_address : (s.pools i).Contains ((s.pools i).address b) := by
  have hle := h.block_le hb
  have hpos := h.size_pos i
  refine ⟨h.initialized i, le_add_right _ _, ?_⟩
  rw [address, h.size i, h.count i]
  rw [h.size i] at hle hpos
  omega

theorem address_ne {o : ℕ} (ho : o < (s.pools i).blockSize) (hc : c < (s.pools j).blockCount)
    (hne : ¬ (j = i ∧ c = b)) : (s.pools j).address c ≠ (s.pools i).address b + o := by
  intro heq
  have hin : (s.pools i).Contains ((s.pools i).address b + o) := by
    have hle := h.block_le hb
    refine ⟨h.initialized i, (le_add_right _ _).trans (le_add_right _ _), ?_⟩
    rw [address, h.count i]
    rw [h.size i] at hle ho ⊢
    omega
  obtain rfl : j = i := h.pool_eq (heq ▸ h.contains_address hc) hin
  apply hne
  refine ⟨rfl, ?_⟩
  unfold address at heq
  have hmul : c * (s.pools j).blockSize = b * (s.pools j).blockSize + o := by omega
  have hdiv := congrArg (· / (s.pools j).blockSize) hmul
  beta_reduce at hdiv
  rwa [Nat.mul_div_cancel _ (h.size_pos j), Nat.mul_comm b, Nat.mul_add_div (h.size_pos j),
    div_eq_of_lt ho] at hdiv

theorem address_inj (hc : c < (s.pools j).blockCount)
    (heq : (s.pools j).address c = (s.pools i).address b) : j = i ∧ c = b := by
  by_contra hne
  exact h.address_ne hb (h.size_pos i) hc hne heq

theorem findOwnerPool_address :
    s.findOwnerPool ((s.pools i).address b) = some (i, b * (s.pools i).blockSize) := by
  have hfind : (List.finRange poolCount).find?
      (fun k => decide ((s.pools k).Contains ((s.pools i).address b))) = some i := by
    obtain ⟨k, hk⟩ : ∃ k, (List.finRange poolCount).find?
        (fun k => decide ((s.pools k).Contains ((s.pools i).address b))) = some k := by
      rw [← isSome_iff_exists, List.find?_isSome]
      exact ⟨i, mem_finRange i, decide_eq_true (h.contains_address hb)⟩
    have hck := List.find?_some hk
    rw [decide_eq_true_eq] at hck
    rw [hk, h.pool_eq hck (h.contains_address hb)]
  rw [findOwnerPool, hfind, map_some, Pool.address, Nat.add_sub_cancel_left]

end

theorem address_ne_zero (b : ℕ) : (s.pools i).address b ≠ 0 := by
  have := h.phys i
  rw [address, h.data]
  omega

theorem setPool {p : Pool} (hsize : p.blockSize = (s.pools i).blockSize)
    (hcount : p.blockCount = (s.pools i).blockCount) (hdata : p.data = (s.pools i).data)
    (hinit : p.initialized = (s.pools i).initialized) : Laid e (s.setPool i p) := by
  constructor
  · exact fun k => (update_field blockSize hsize k).trans (h.size k)
  · exact fun k => (update_field blockCount hcount k).trans (h.count k)
  · exact fun k => (update_field Pool.data hdata k).trans (h.data k)
  · exact fun k => (update_field Pool.initialized hinit k).trans (h.initialized k)
  · exact h.phys

theorem write (addr word : ℕ) : Laid e (s.write addr word) :=
  { h with }

end Laid

/-! ## The books of one pool -/

/-- What the free list of one pool depends on. -/
@[ext]
structure Books where
  count : ℕ
  freed : ℕ → Bool
  first : ℕ
  freeCount : ℕ
  next : ℕ → ℕ

namespace Books

variable {k : Books} {bs : List ℕ} {w : ℕ}

def Valid (k : Books) (b : ℕ) : Prop := b < k.count

def pop (k : Books) : Books :=
  { k with
    first := k.next k.first
    freed := update k.freed k.first false
    freeCount := k.freeCount - 1 }

def push (k : Books) (b : ℕ) : Books :=
  { k with
    next := update k.next b k.first
    first := b
    freed := update k.freed b true
    freeCount := k.freeCount + 1 }

def take (k : Books) (bs : List ℕ) : Books :=
  { k with
    freed := fun b => k.freed b && !decide (b ∈ bs)
    freeCount := k.freeCount - bs.length }

def relink (k : Books) (b w : ℕ) : Books := { k with next := update k.next b w }

structure ExactList (k : Books) (l : List ℕ) : Prop where
  chain : Chain k.Valid k.next k.first l
  nodup : l.Nodup
  mem : ∀ b, b ∈ l ↔ k.Valid b ∧ k.freed b = true
  length : l.length = k.freeCount

def Exact (k : Books) : Prop := ∃ l, k.ExactList l

namespace ExactList

variable {l : List ℕ}

theorem pop (h : k.ExactList l) (hv : k.Valid k.first) : ∃ l, k.pop.ExactList l := by
  obtain ⟨rest, rfl, hrest⟩ := h.chain.eq_cons hv
  obtain ⟨hnotin, hnodup⟩ := nodup_cons.mp h.nodup
  refine ⟨rest, hrest, hnodup, ?_, ?_⟩
  · intro b
    have hmem := h.mem b
    rw [mem_cons] at hmem
    change b ∈ rest ↔ k.Valid b ∧ update k.freed k.first false b = true
    by_cases hb : b = k.first
    · subst hb
      rw [update_self]
      exact ⟨fun hin => absurd hin hnotin, fun hf => absurd hf.2 false_ne_true⟩
    · rw [update_of_ne hb, ← hmem]
      exact ⟨.inr, fun hor => hor.resolve_left hb⟩
  · have hlen := h.length
    rw [length_cons] at hlen
    change rest.length = k.freeCount - 1
    omega

theorem push (h : k.ExactList l) (hv : k.Valid b) (hf : k.freed b = false) :
    (k.push b).ExactList (b :: l) := by
  have hnotin : b ∉ l := by
    intro hin
    rw [((h.mem b).mp hin).2] at hf
    cases hf
  refine ⟨h.chain.push hnotin hv, nodup_cons.mpr ⟨hnotin, h.nodup⟩, ?_, ?_⟩
  · intro c
    change c ∈ b :: l ↔ k.Valid c ∧ update k.freed b true c = true
    rw [mem_cons]
    by_cases hc : c = b
    · subst hc
      rw [update_self]
      exact ⟨fun _ => ⟨hv, rfl⟩, fun _ => .inl rfl⟩
    · rw [update_of_ne hc, ← h.mem c]
      exact ⟨fun hor => hor.resolve_left hc, .inr⟩
  · change (b :: l).length = k.freeCount + 1
    rw [length_cons, h.length]

theorem relink (h : k.ExactList l) (hf : k.freed b = false) (w : ℕ) :
    (k.relink b w).ExactList l := by
  refine { h with chain := h.chain.update ?_ w }
  intro hin
  rw [((h.mem b).mp hin).2] at hf
  cases hf

end ExactList

/-- The list comes to a block that is not marked, or does not end. -/
def Broken (k : Books) : Prop :=
  (∃ b, Visits k.Valid k.next k.first b ∧ k.freed b = false) ∨
    ∀ l, ¬ Chain k.Valid k.next k.first l

namespace Broken

section

variable (h : k.Broken)
include h

theorem not_exact : ¬ k.Exact := by
  rintro ⟨l, hl⟩
  rcases h with ⟨b, hvis, hf⟩ | hend
  · rw [((hl.mem b).mp (hl.chain.mem_of_visits hvis)).2] at hf
    cases hf
  · exact hend l hl.chain

theorem take (bs : List ℕ) : (k.take bs).Broken := by
  rcases h with ⟨b, hvis, hf⟩ | hend
  · refine .inl ⟨b, hvis, ?_⟩
    change (k.freed b && !decide (b ∈ bs)) = false
    rw [hf, Bool.false_and]
  · exact .inr hend

theorem pop (hv : k.Valid k.first) (hf : k.freed k.first) : k.pop.Broken := by
  rcases h with ⟨b, hvis, hb⟩ | hend
  · cases hvis with
    | here _ =>
      rw [hf] at hb
      cases hb
    | next _ hr =>
      refine .inl ⟨b, hr, ?_⟩
      change update k.freed k.first false b = false
      rw [update_apply]
      split_ifs
      · rfl
      · exact hb
  · exact .inr fun l hl => hend (k.first :: l) ⟨rfl, hv, hl⟩

theorem push (hv : k.Valid b) : (k.push b).Broken := by
  by_cases hvis : Visits k.Valid k.next k.first b
  · exact .inr fun l => Chain.not_push hvis hv
  rcases h with ⟨c, hc, hf⟩ | hend
  · have hne : c ≠ b := by
      rintro rfl
      exact hvis hc
    refine .inl ⟨c, .next hv ?_, ?_⟩
    · change Visits k.Valid (update k.next b k.first) (update k.next b k.first b) c
      rw [update_self]
      exact hc.update (.inr hvis)
    · change update k.freed b true c = false
      rw [update_of_ne hne, hf]
  · refine .inr fun l hl => ?_
    obtain ⟨rest, rfl, hrest⟩ := Chain.eq_cons hl hv
    change Chain k.Valid (update k.next b k.first) (update k.next b k.first b) rest at hrest
    rw [update_self] at hrest
    exact hend rest (.of_update hvis hrest)

theorem relink (hf : k.freed b = false) (w : ℕ) : (k.relink b w).Broken := by
  by_cases hvis : Visits k.Valid k.next k.first b
  · exact .inl ⟨b, hvis.update (.inl rfl), hf⟩
  · rcases h with ⟨c, hc, hcf⟩ | hend
    · exact .inl ⟨c, hc.update (.inr hvis), hcf⟩
    · exact .inr fun l hl => hend l (.of_update hvis hl)

end

theorem of_take {l : List ℕ} (hl : k.ExactList l) (hb : b ∈ bs) (hv : k.Valid b)
    (hf : k.freed b) : (k.take bs).Broken := by
  refine .inl ⟨b, hl.chain.visits_of_mem ((hl.mem b).mpr ⟨hv, hf⟩), ?_⟩
  change (k.freed b && !decide (b ∈ bs)) = false
  rw [decide_eq_true hb, Bool.not_true, Bool.and_false]

end Broken

end Books

/-! ## What a call does to the books -/

def books (s : MemPool) (i : Fin poolCount) : Books where
  count := (s.pools i).blockCount
  freed := (s.pools i).freed
  first := (s.pools i).firstFree
  freeCount := (s.pools i).freeCount
  next b := if b < (s.pools i).blockCount then s.next i b else 0

theorem freeListExact_iff : s.FreeListExact i ↔ (s.books i).Exact := by
  have hchain : ∀ l, Chain (· < (s.pools i).blockCount) (s.next i) (s.pools i).firstFree l ↔
      Chain (s.books i).Valid (s.books i).next (s.books i).first l :=
    fun l => (Chain.congr_iff fun b hb => if_pos hb).symm
  constructor
  · rintro ⟨l, hc, hn, hm, hl⟩
    exact ⟨l, (hchain l).mp hc, hn, hm, hl⟩
  · rintro ⟨l, hl⟩
    exact ⟨l, (hchain l).mpr hl.chain, hl.nodup, hl.mem, hl.length⟩

theorem books_setPool {p : Pool} (hsize : p.blockSize = (s.pools i).blockSize)
    (hcount : p.blockCount = (s.pools i).blockCount) (hdata : p.data = (s.pools i).data) :
    (s.setPool i p).books = update s.books i
      { s.books i with freed := p.freed, first := p.firstFree, freeCount := p.freeCount } := by
  refine eq_update_iff.mpr ⟨?_, fun j hj => ?_⟩
  · simp only [books, next, setPool_pools_self, address, hsize, hcount, hdata]
    rfl
  · simp only [books, next, setPool_pools_of_ne hj]
    rfl

theorem next_write_of_ne (w : ℕ) (h : c < (s.pools j).blockCount → (s.pools j).address c ≠ addr) :
    ((s.write addr w).books j).next c = (s.books j).next c := by
  by_cases hlt : c < (s.pools j).blockCount
  · exact (if_pos hlt).trans ((update_of_ne (h hlt) _ _).trans (if_pos hlt).symm)
  · exact (if_neg hlt).trans (if_neg hlt).symm

theorem books_write_of_ne (h : ∀ c < (s.pools j).blockCount, (s.pools j).address c ≠ addr) (w : ℕ) :
    (s.write addr w).books j = s.books j :=
  Books.ext rfl rfl rfl rfl (funext fun c => next_write_of_ne w (h c))

theorem Laid.books_write (h : Laid e s) (hb : b < (s.pools i).blockCount) (w : ℕ) :
    (s.write ((s.pools i).address b) w).books = update s.books i ((s.books i).relink b w) := by
  refine eq_update_iff.mpr ⟨Books.ext rfl rfl rfl rfl (eq_update_iff.mpr
    ⟨(if_pos hb).trans (update_self ..), fun c hc => ?_⟩), fun j hj => ?_⟩
  · exact next_write_of_ne w fun hlt => h.address_ne hb (h.size_pos i) hlt fun hjc => hc hjc.2
  · exact books_write_of_ne (fun c hc => h.address_ne hb (h.size_pos i) hc fun hjc => hj hjc.1) w

theorem Laid.books_write_behind (h : Laid e s) {o : ℕ} (hb : b < (s.pools i).blockCount)
    (ho : o < (s.pools i).blockSize) (hpos : 0 < o) (w : ℕ) :
    (s.write ((s.pools i).address b + o) w).books = s.books := by
  funext j
  apply books_write_of_ne
  intro c hc
  by_cases hjc : j = i ∧ c = b
  · rw [hjc.1, hjc.2]
    omega
  · exact h.address_ne hb ho hc hjc

/-- The effect of a call on the books, with the blocks that it hands out and takes back. -/
inductive Effect (s : MemPool) (a : Action) (t : MemPool) : Prop
  | quiet (hbooks : t.books = s.books) (hhands : ∀ i b, ¬ s.Hands a i b)
      (hreturns : ∀ i b, ¬ s.Returns a i b)
  | pop (i : Fin poolCount) (hv : (s.books i).Valid (s.books i).first)
      (hf : (s.books i).freed (s.books i).first)
      (hbooks : t.books = update s.books i (s.books i).pop)
      (hhands : ∀ j b, s.Hands a j b ↔ j = i ∧ b = (s.books i).first)
      (hreturns : ∀ j b, ¬ s.Returns a j b) (hnone : ReservesNone s a)
  | push (i : Fin poolCount) (b : ℕ) (hv : (s.books i).Valid b)
      (hf : (s.books i).freed b = false)
      (hbooks : t.books = update s.books i ((s.books i).push b))
      (hhands : ∀ j c, ¬ s.Hands a j c) (hreturns : ∀ j c, s.Returns a j c ↔ j = i ∧ c = b)
  | take (i : Fin poolCount) (bs : List ℕ)
      (hfree : ∀ b ∈ bs, (s.books i).Valid b ∧ (s.books i).freed b = true)
      (hbooks : t.books = update s.books i ((s.books i).take bs))
      (hhands : ∀ j b, s.Hands a j b ↔ j = i ∧ b ∈ bs) (hreturns : ∀ j b, ¬ s.Returns a j b)
      (hnone : ReservesNone s a → bs = [])
  | relink (i : Fin poolCount) (b w : ℕ) (hheld : s.held i b)
      (hbooks : t.books = update s.books i ((s.books i).relink b w))
      (hhands : ∀ j c, ¬ s.Hands a j c) (hreturns : ∀ j c, ¬ s.Returns a j c)

/-- The loop of `reserve` has taken the blocks of the list. -/
structure Reserved (p : Pool) (acc : Pool × List ℕ) : Prop where
  size : acc.1.blockSize = p.blockSize
  count : acc.1.blockCount = p.blockCount
  data : acc.1.data = p.data
  initialized : acc.1.initialized = p.initialized
  first : acc.1.firstFree = p.firstFree
  freed : acc.1.freed = fun b => p.freed b && !decide (b ∈ acc.2)
  freeCount : acc.1.freeCount = p.freeCount - acc.2.length
  free : ∀ b ∈ acc.2, b < p.blockCount ∧ p.freed b = true

namespace Reserved

variable {p : Pool} {acc : Pool × List ℕ} {count : ℕ}

theorem nil (p : Pool) : Reserved p (p, []) := by
  refine ⟨rfl, rfl, rfl, rfl, rfl, ?_, rfl, nofun⟩
  funext b
  rw [decide_eq_false not_mem_nil, Bool.not_false, Bool.and_true]

theorem reserveBlock (h : Reserved p acc) (hb : b < p.blockCount) :
    Reserved p (reserveBlock count acc b) := by
  obtain ⟨q, bs⟩ := acc
  have hqf : q.freed = fun b => p.freed b && !decide (b ∈ bs) := h.freed
  have hqc : q.freeCount = p.freeCount - bs.length := h.freeCount
  simp only [reserveBlock]
  split_ifs with htake
  · have hfreed : p.freed b = true ∧ b ∉ bs := by
      have hq := htake.2
      rw [hqf, and_eq_true, not_eq_true', decide_eq_false_iff_not] at hq
      exact hq
    refine { h with freed := ?_, freeCount := ?_, free := ?_ }
    · funext c
      by_cases hc : c = b
      · subst hc
        simp
      · simp [hqf, hc]
    · simp only [length_cons]
      omega
    · intro c hc
      rcases mem_cons.mp hc with rfl | hc
      · exact ⟨hb, hfreed.1⟩
      · exact h.free c hc
  · exact h

theorem foldl {l : List ℕ} (h : Reserved p acc) (hl : ∀ b ∈ l, b < p.blockCount) :
    Reserved p (l.foldl (Pool.reserveBlock count) acc) := by
  induction l generalizing acc with
  | nil => exact h
  | cons b l ih =>
    exact ih (h.reserveBlock (hl b mem_cons_self)) (fun c hc => hl c (mem_cons_of_mem _ hc))

theorem reserve (p : Pool) (count : ℕ) : Reserved p (p.reserve count) :=
  (nil p).foldl (fun _ hb => mem_range.mp hb)

end Reserved

theorem hands_reserve {poolIdx count : ℕ} : s.Hands (.reserve poolIdx count) i b ↔
    b < (s.pools i).blockCount ∧ poolIdx = i ∧ b ∈ (s.reserve poolIdx count).2.1 := Iff.rfl

theorem reserve_cases (s : MemPool) (poolIdx count : ℕ) :
    ((s.reserve poolIdx count).1 = s ∧ (s.reserve poolIdx count).2.1 = []) ∨
      ∃ i : Fin poolCount, poolIdx = i ∧
        (s.reserve poolIdx count).1 = s.setPool i ((s.pools i).reserve count).1 ∧
        (s.reserve poolIdx count).2.1 = ((s.pools i).reserve count).2 := by
  by_cases hlt : poolIdx < poolCount
  · by_cases hcount : (s.pools ⟨poolIdx, hlt⟩).freeCount < count
    · simp [reserve, hcount]
    · refine .inr ⟨⟨poolIdx, hlt⟩, rfl, ?_⟩
      simp [reserve, hlt, hcount]
  · simp [reserve, hlt]

section

variable (h : Laid e s)
include h

theorem Laid.effect_reserve (poolIdx count : ℕ) : Laid e (s.reserve poolIdx count).1 ∧
      Effect s (.reserve poolIdx count) (s.reserve poolIdx count).1 := by
  rcases reserve_cases s poolIdx count with ⟨hst, hnil⟩ | ⟨i, hi, hst, hbs⟩
  · refine ⟨hst.symm ▸ h, .quiet (by rw [hst]) ?_ (fun _ _ => id)⟩
    intro i b hands
    rw [hands_reserve, hnil] at hands
    exact absurd hands.2.2 not_mem_nil
  · have hres := Reserved.reserve (s.pools i) count
    have hlaid := h.setPool hres.size hres.count hres.data hres.initialized
    refine ⟨hst ▸ hlaid, .take i _ hres.free ?_ ?_ (fun _ _ => id) ?_⟩
    · rw [hst, books_setPool hres.size hres.count hres.data, hres.freed, hres.first, hres.freeCount]
      rfl
    · intro j b
      rw [hands_reserve, hbs, hi]
      constructor
      · rintro ⟨-, hj, hb⟩
        exact ⟨(Fin.ext hj).symm, hb⟩
      · rintro ⟨rfl, hb⟩
        exact ⟨(hres.free b hb).1, rfl, hb⟩
    · exact hbs.symm.trans

theorem Laid.effect_pop {block : ℕ} (hp : s.popBlock i = some (t, block))
    (hhands : ∀ j b, s.Hands a j b ↔
      b < (s.pools j).blockCount ∧ (s.pools i).address block = (s.pools j).address b)
    (hreturns : ∀ j b, ¬ s.Returns a j b) (hnone : ReservesNone s a) : Laid e t ∧ Effect s a t := by
  simp only [popBlock] at hp
  split_ifs at hp with hok
  obtain ⟨rfl, rfl⟩ := Prod.mk.inj (some.inj hp)
  have hnext : s.next i (s.pools i).firstFree = (s.books i).next (s.books i).first :=
    (if_pos hok.1).symm
  refine ⟨h.setPool rfl rfl rfl rfl, .pop i hok.1 hok.2 ?_ ?_ hreturns hnone⟩
  · refine (books_setPool ?_ ?_ ?_).trans (congrArg _ ?_)
    · rfl
    · rfl
    · rfl
    rw [hnext]
    rfl
  · intro j b
    rw [hhands]
    constructor
    · rintro ⟨hb, heq⟩
      exact h.address_inj hok.1 hb heq.symm
    · rintro ⟨rfl, rfl⟩
      exact ⟨hok.1, rfl⟩

theorem Laid.effect_alloc (hc : s.alloc size = some (t, ptr))
    (hands : ∀ j b, s.Hands a j b ↔ b < (s.pools j).blockCount ∧ ptr = (s.pools j).address b)
    (hreturns : ∀ j b, ¬ s.Returns a j b) (hnone : ReservesNone s a) : Laid e t ∧ Effect s a t := by
  have hnull : ptr = 0 → ∀ j b, ¬ s.Hands a j b := by
    intro hz j b hb
    exact h.address_ne_zero b (hz ▸ ((hands j b).mp hb).2).symm
  unfold alloc at hc
  split at hc
  · obtain ⟨rfl, rfl⟩ := Prod.mk.inj (some.inj hc)
    exact ⟨h, .quiet rfl (hnull rfl) hreturns⟩
  split_ifs at hc
  · obtain ⟨rfl, rfl⟩ := Prod.mk.inj (some.inj hc)
    exact ⟨h, .quiet rfl (hnull rfl) hreturns⟩
  · obtain ⟨⟨u, block⟩, hpop, heq⟩ := map_eq_some_iff.mp hc
    obtain ⟨rfl, rfl⟩ := Prod.mk.inj heq
    exact h.effect_pop hpop hands hreturns hnone

theorem Laid.not_returns (hf : ptr = 0 ∨ s.findOwnerPool ptr = none)
    (hb : b < (s.pools i).blockCount) : ptr ≠ (s.pools i).address b := by
  rintro rfl
  rcases hf with hf | hf
  · exact h.address_ne_zero b hf
  · rw [h.findOwnerPool_address hb] at hf
    cases hf

section

variable (hhands : ∀ j b, ¬ s.Hands a j b) (hreturns : ∀ j b, s.Returns a j b ↔
  b < (s.pools j).blockCount ∧ ptr = (s.pools j).address b ∧ (s.pools j).pinned b = false)
include hhands hreturns

theorem Laid.effect_freeBlock (hf : s.findOwnerPool ptr = some (i, offset))
    (hc : s.freeBlock i offset = some t) : Laid e t ∧ Effect s a t := by
  simp only [freeBlock] at hc
  split_ifs at hc with hok hpin <;> have hptr := address_of_findOwnerPool hf hok.1
  · cases hc
    refine ⟨h, .quiet rfl hhands ?_⟩
    intro j b hret
    obtain ⟨hb, haddr, hun⟩ := (hreturns j b).mp hret
    obtain ⟨rfl, rfl⟩ := h.address_inj hok.2 hb (haddr.symm.trans hptr)
    rw [hpin] at hun
    cases hun
  · simp only [pushBlock] at hc
    split_ifs at hc with hfreed
    cases hc
    refine ⟨(h.write _ _).setPool rfl rfl rfl rfl,
      .push i _ hok.2 (eq_false_of_not_eq_true hfreed) ?_ hhands ?_⟩
    · refine (books_setPool ?_ ?_ ?_).trans ?_
      · rfl
      · rfl
      · rfl
      rw [h.books_write hok.2, update_idem, update_self]
      rfl
    · intro j b
      rw [hreturns]
      constructor
      · rintro ⟨hb, haddr, -⟩
        exact h.address_inj hok.2 hb (haddr.symm.trans hptr)
      · rintro ⟨rfl, rfl⟩
        exact ⟨hok.2, hptr, eq_false_of_not_eq_true hpin⟩

theorem Laid.effect_free (hc : s.free ptr = some t) : Laid e t ∧ Effect s a t := by
  have hquiet : (ptr = 0 ∨ s.findOwnerPool ptr = none) → ∀ j b, ¬ s.Returns a j b := by
    intro hf j b hret
    obtain ⟨hb, haddr, -⟩ := (hreturns j b).mp hret
    exact h.not_returns hf hb haddr
  unfold free at hc
  split_ifs at hc with hzero
  · cases hc
    exact ⟨h, .quiet rfl hhands (hquiet (.inl hzero))⟩
  split at hc
  · rename_i hf
    cases hc
    exact ⟨h, .quiet rfl hhands (hquiet (.inr hf))⟩
  · rename_i hf
    exact h.effect_freeBlock hhands hreturns hf hc

end

theorem Laid.setPinned (i : Fin poolCount) (pinned : ℕ → Bool) :
    Laid e (s.setPool i { s.pools i with pinned := pinned }) ∧
      (s.setPool i { s.pools i with pinned := pinned }).books = s.books := by
  refine ⟨h.setPool rfl rfl rfl rfl, (books_setPool ?_ ?_ ?_).trans (update_eq_self i s.books)⟩
  all_goals rfl

theorem Laid.pinBlock (hc : s.pinBlock ptr = some t) : Laid e t ∧ t.books = s.books := by
  unfold MemPool.pinBlock at hc
  split at hc
  · cases hc
    exact ⟨h, rfl⟩
  · dsimp only at hc
    split_ifs at hc <;> cases hc
    · exact h.setPinned _ _
    · exact ⟨h, rfl⟩

theorem Laid.unpinBlock (ptr : ℕ) :
    Laid e (s.unpinBlock ptr) ∧ (s.unpinBlock ptr).books = s.books := by
  unfold MemPool.unpinBlock
  split
  · exact ⟨h, rfl⟩
  · dsimp only
    split_ifs
    · exact h.setPinned _ _
    · exact ⟨h, rfl⟩

end

theorem exists_hands (h : ¬ ReservesNone s a) : ∃ i b, s.Hands a i b := by
  cases a with
  | reserve poolIdx count =>
    obtain ⟨b, hb⟩ := exists_mem_of_ne_nil _ h
    rcases reserve_cases s poolIdx count with ⟨-, hnil⟩ | ⟨i, hi, -, hbs⟩
    · exact absurd hnil h
    · have hres := Reserved.reserve (s.pools i) count
      exact ⟨i, b, (hres.free b (hbs ▸ hb)).1, hi, hb⟩
  | _ => exact absurd trivial h

theorem alloc_of_allocErr (hc : s.allocErr size = some (t, ptr, err)) :
    s.alloc size = some (t, ptr) := by
  unfold allocErr at hc
  unfold alloc
  split at hc
  · rw [Option.some.injEq, Prod.mk.injEq, Prod.mk.injEq] at hc
    rw [hc.1, ← hc.2.1]
  split_ifs at hc with hzero
  · rw [Option.some.injEq, Prod.mk.injEq, Prod.mk.injEq] at hc
    rw [if_pos hzero, hc.1, ← hc.2.1]
  · obtain ⟨⟨u, block⟩, hpop, heq⟩ := map_eq_some_iff.mp hc
    rw [Prod.mk.injEq, Prod.mk.injEq] at heq
    rw [if_neg hzero, hpop, ← heq.1, ← heq.2.1]
    rfl

theorem free_of_freeErr (hc : s.freeErr ptr = some (t, err)) : s.free ptr = some t := by
  unfold freeErr at hc
  unfold free
  split_ifs at hc ⊢ with hzero
  · rw [(Prod.mk.inj (some.inj hc)).1]
  · split at hc
    · rw [(Prod.mk.inj (some.inj hc)).1]
    · obtain ⟨u, hu, heq⟩ := map_eq_some_iff.mp hc
      rw [hu, (Prod.mk.inj heq).1]

/-- Every block that is handed out exists. -/
def HeldValid (s : MemPool) : Prop := ∀ i b, s.held i b → b < (s.pools i).blockCount

theorem Laid.effect (h : Laid e s) (hheld : HeldValid s) (hc : s.call a = some t) :
    Laid e t ∧ Effect s a t := by
  cases a with try cases hc
  | alloc size =>
    obtain ⟨⟨u, ptr⟩, halloc, rfl⟩ := map_eq_some_iff.mp hc
    refine h.effect_alloc halloc ?_ (fun _ _ => id) trivial
    intro j b
    change _ ∧ (s.alloc size).map (·.2) = _ ↔ _
    rw [halloc, map_some, Option.some.injEq]
  | allocErr size =>
    obtain ⟨⟨u, ptr, err⟩, halloc, rfl⟩ := map_eq_some_iff.mp hc
    refine h.effect_alloc (alloc_of_allocErr halloc) ?_ (fun _ _ => id) trivial
    intro j b
    change _ ∧ (s.allocErr size).map (·.2.1) = _ ↔ _
    rw [halloc, map_some, Option.some.injEq]
  | free ptr => exact h.effect_free (fun _ _ hb => hb.2) (fun _ _ => .rfl) hc
  | freeErr ptr =>
    obtain ⟨⟨u, err⟩, hfree, rfl⟩ := map_eq_some_iff.mp hc
    exact h.effect_free (fun _ _ hb => hb.2) (fun _ _ => .rfl) (free_of_freeErr hfree)
  | reserve poolIdx count => exact h.effect_reserve poolIdx count
  | pinBlock ptr =>
    exact (h.pinBlock hc).imp_right (.quiet · (fun _ _ hb => hb.2) (fun _ _ => id))
  | unpinBlock ptr =>
    exact (h.unpinBlock ptr).imp_right (.quiet · (fun _ _ hb => hb.2) (fun _ _ => id))
  | use i b o w =>
    simp only [call] at hc
    split_ifs at hc with hok
    cases hc
    have hb := hheld i b hok.1
    refine ⟨h.write _ _, ?_⟩
    rcases Nat.eq_zero_or_pos o with rfl | hpos
    · exact .relink i b w hok.1 (h.books_write hb w) (fun _ _ hb => hb.2) (fun _ _ => id)
    · exact .quiet (h.books_write_behind hb hok.2 hpos w) (fun _ _ hb => hb.2) (fun _ _ => id)

end Nexios.MemPool
