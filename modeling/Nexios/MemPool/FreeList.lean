import Nexios.MemPool.Books

/-!
# The free lists of the pools

A block is marked as free exactly while nobody holds it, in every run: `alloc` checks the mark of
the block it takes, and `reserve` looks for marked blocks. The lists are another matter. `reserve`
clears marks without unlinking the blocks, and a list with a block that is not marked never
recovers.
-/

open Function Option List Bool Nat

namespace Nexios.MemPool

open Pool

variable {e : Platform} {s t : MemPool} {a : Action} {i j : Fin poolCount} {b c : ℕ}

/-! ## Runs -/

structure Inv (e : Platform) (s : MemPool) : Prop where
  laid : Laid e s
  held : ∀ i b, s.held i b = true ↔ (s.books i).Valid b ∧ (s.books i).freed b = false

namespace Inv

theorem call_of_hands (hb : s.Hands a i b) : ∃ t, s.call a = some t := by
  cases a with
  | alloc size | allocErr size =>
    obtain ⟨r, hr, -⟩ := map_eq_some_iff.mp hb.2
    exact ⟨r.1, by rw [call, hr, map_some]⟩
  | reserve poolIdx count => exact ⟨_, rfl⟩
  | _ => exact hb.2.elim

variable (h : Inv e s)
include h

theorem heldValid : HeldValid s := fun i b hb => ((h.held i b).mp hb).1

theorem hands_freed (hc : s.call a = some t) (hb : s.Hands a i b) : (s.books i).freed b = true := by
  cases (h.laid.effect h.heldValid hc).2 with
  | quiet _ hhands _ | push _ _ _ _ _ hhands _ | relink _ _ _ _ _ hhands _ =>
    exact absurd hb (hhands i b)
  | pop k _ hf _ hhands _ _ =>
    obtain ⟨rfl, rfl⟩ := (hhands i b).mp hb
    exact hf
  | take k bs hfree _ hhands _ _ =>
    obtain ⟨rfl, hin⟩ := (hhands i b).mp hb
    exact (hfree b hin).2

theorem hands_fresh (hb : s.Hands a i b) : s.held i b = false := by
  obtain ⟨t, hc⟩ := call_of_hands hb
  rw [← not_eq_true, h.held]
  rintro ⟨-, hf⟩
  rw [h.hands_freed hc hb] at hf
  cases hf

theorem step (hs : s.step a = some t) : Inv e t := by
  obtain ⟨u, hc, rfl⟩ := map_eq_some_iff.mp hs
  obtain ⟨hlaid, heffect⟩ := h.laid.effect h.heldValid hc
  refine ⟨{ hlaid with }, ?_⟩
  intro j c
  change (decide (s.Hands a j c) || (s.held j c && !decide (s.Returns a j c))) = true ↔
    (u.books j).Valid c ∧ (u.books j).freed c = false
  rw [or_eq_true, and_eq_true, not_eq_true', decide_eq_true_eq, decide_eq_false_iff_not, h.held]
  cases heffect with
  | quiet hbooks hhands hreturns =>
    rw [hbooks]
    exact ⟨fun hor => (hor.resolve_left (hhands j c)).1, fun hb => .inr ⟨hb, hreturns j c⟩⟩
  | pop i hv hf hbooks hhands hreturns _ =>
    rw [hbooks, hhands]
    by_cases hj : j = i
    · subst hj
      rw [update_self]
      change _ ↔ (s.books j).Valid c ∧ update (s.books j).freed (s.books j).first false c = false
      by_cases hcf : c = (s.books j).first
      · subst hcf
        simp [hv]
      · simp [hcf, hreturns]
    · simp [hj, hreturns]
  | push i b hv hf hbooks hhands hreturns =>
    rw [hbooks, hreturns]
    by_cases hj : j = i
    · subst hj
      rw [update_self]
      change _ ↔ (s.books j).Valid c ∧ update (s.books j).freed b true c = false
      by_cases hcb : c = b
      · subst hcb
        simp [hhands]
      · simp [hcb, hhands]
    · simp [hj, hhands]
  | take i bs hfree hbooks hhands hreturns _ =>
    rw [hbooks, hhands]
    by_cases hj : j = i
    · subst hj
      rw [update_self]
      change _ ↔ (s.books j).Valid c ∧ ((s.books j).freed c && !decide (c ∈ bs)) = false
      by_cases hin : c ∈ bs
      · simp [hin, (hfree c hin).1]
      · simp [hin, hreturns]
    · simp [hj, hreturns]
  | relink i b w _ hbooks hhands hreturns =>
    rw [hbooks]
    have hsame : (update s.books i ((s.books i).relink b w) j).Valid c ∧
        (update s.books i ((s.books i).relink b w) j).freed c = false ↔
        (s.books j).Valid c ∧ (s.books j).freed c = false := by
      by_cases hj : j = i
      · subst hj
        rw [update_self]
        rfl
      · rw [update_of_ne hj]
    rw [hsame]
    exact ⟨fun hor => (hor.resolve_left (hhands j c)).1, fun hb => .inr ⟨hb, hreturns j c⟩⟩

theorem exact_step (hex : ∀ i, (s.books i).Exact) (hnone : ReservesNone s a)
    (hs : s.step a = some t) (i : Fin poolCount) : (t.books i).Exact := by
  obtain ⟨u, hc, rfl⟩ := map_eq_some_iff.mp hs
  change (u.books i).Exact
  have hupd : ∀ {k : Fin poolCount} {q : Books}, q.Exact → (update s.books k q i).Exact := by
    intro k q hq
    rw [update_apply]
    split_ifs
    · exact hq
    · exact hex i
  cases (h.laid.effect h.heldValid hc).2 with
  | quiet hbooks _ _ => exact hbooks ▸ hex i
  | pop k hv _ hbooks _ _ _ =>
    obtain ⟨l, hl⟩ := hex k
    exact hbooks ▸ hupd (hl.pop hv)
  | push k b hv hf hbooks _ _ =>
    obtain ⟨l, hl⟩ := hex k
    exact hbooks ▸ hupd ⟨_, hl.push hv hf⟩
  | take k bs _ hbooks _ _ hbs =>
    obtain rfl := hbs hnone
    have hsame : (s.books k).take [] = s.books k := by
      unfold Books.take
      simp
    rw [hbooks, hsame, update_eq_self]
    exact hex i
  | relink k b w hheld hbooks _ _ =>
    obtain ⟨l, hl⟩ := hex k
    exact hbooks ▸ hupd ⟨l, hl.relink ((h.held k b).mp hheld).2 w⟩

theorem broken_of_reserve (hex : ∀ i, (s.books i).Exact) (hsome : ¬ ReservesNone s a)
    (hs : s.step a = some t) : ∃ i, (t.books i).Broken := by
  obtain ⟨u, hc, rfl⟩ := map_eq_some_iff.mp hs
  change ∃ i, (u.books i).Broken
  obtain ⟨i, b, hb⟩ := exists_hands hsome
  cases (h.laid.effect h.heldValid hc).2 with
  | quiet _ hhands _ | push _ _ _ _ _ hhands _ | relink _ _ _ _ _ hhands _ =>
    exact absurd hb (hhands i b)
  | pop _ _ _ _ _ _ hnone => exact absurd hnone hsome
  | take k bs hfree hbooks hhands _ _ =>
    obtain ⟨rfl, hin⟩ := (hhands i b).mp hb
    obtain ⟨l, hl⟩ := hex i
    refine ⟨i, ?_⟩
    rw [hbooks, update_self]
    exact .of_take hl hin (hfree b hin).1 (hfree b hin).2

theorem broken_step (hbr : (s.books i).Broken) (hs : s.step a = some t) : (t.books i).Broken := by
  obtain ⟨u, hc, rfl⟩ := map_eq_some_iff.mp hs
  have hupd : ∀ {k : Fin poolCount} {q : Books}, (i = k → q.Broken) →
      (update s.books k q i).Broken := by
    intro k q hq
    rw [update_apply]
    split_ifs with hik
    · exact hq hik
    · exact hbr
  cases (h.laid.effect h.heldValid hc).2 with try refine hbooks ▸ hupd ?_
  | quiet hbooks _ _ => exact hbooks ▸ hbr
  | pop k hv hf hbooks _ _ _ =>
    rintro rfl
    exact hbr.pop hv hf
  | push k b hv _ hbooks _ _ =>
    rintro rfl
    exact hbr.push hv
  | take k bs _ hbooks _ _ _ =>
    rintro rfl
    exact hbr.take bs
  | relink k b w hheld hbooks _ _ =>
    rintro rfl
    exact hbr.relink ((h.held i b).mp hheld).2 w

end Inv

/-! ## The lists that `init` builds -/

def Platform.address (e : Platform) (i : Fin poolCount) (b : ℕ) : ℕ :=
  e.phys i + e.hhdmOffset + b * sizes e.aarch64 i

theorem Platform.address_inj (e : Platform) (hb : b < counts i) (hc : c < counts j)
    (heq : e.address i b = e.address j c) : i = j ∧ b = c := by
  have hle : ∀ {k : Fin poolCount} {d : ℕ}, d < counts k →
      d * sizes e.aarch64 k + sizes e.aarch64 k ≤ sizes e.aarch64 k * counts k := by
    intro k d hd
    rw [mul_comm]
    exact mul_le_mul_left _ hd
  have hbi := hle hb
  have hcj := hle hc
  have hpi := sizes_pos e.aarch64 i
  have hpj := sizes_pos e.aarch64 j
  unfold address at heq
  have hij : i = j := by
    by_contra hne
    rcases e.apart i j hne with hap | hap
    · omega
    · omega
  subst hij
  exact ⟨rfl, eq_of_mul_eq_mul_right hpi (by omega)⟩

/-- The first `n` turns of the inner loop of `init`, for the pool `p`. -/
structure Linked (s₀ : MemPool) (i : Fin poolCount) (p : Pool) (n : ℕ) (s : MemPool) : Prop where
  pool : s.pools i = { p with freed := fun b => decide (b < n) || p.freed b }
  pools : ∀ j, j ≠ i → s.pools j = s₀.pools j
  linked : ∀ b < n, s.mem (p.address b) = b + 1
  mem : ∀ addr, (∀ b < n, addr ≠ p.address b) → s.mem addr = s₀.mem addr
  held : s.held = s₀.held

theorem Linked.foldl {p : Pool} (hself : s.pools i = p) (hpos : 0 < p.blockSize) (n : ℕ) :
    Linked s i p n ((List.range n).foldl (linkBlock i) s) := by
  induction n with
  | zero =>
    refine ⟨?_, fun _ _ => rfl, fun b hb => absurd hb (not_lt_zero b), fun _ _ => rfl, rfl⟩
    simpa using hself
  | succ n ih =>
    rw [range_succ, foldl_append]
    generalize (List.range n).foldl (linkBlock i) s = u at ih
    have haddr : (u.pools i).address n = p.address n := by
      rw [ih.pool]
      rfl
    have hmem : (linkBlock i u n).mem = update u.mem (p.address n) (n + 1) := by
      rw [← haddr]
      rfl
    have hne : ∀ b < n, p.address b ≠ p.address n := by
      intro b hb heq
      exact hb.ne (eq_of_mul_eq_mul_right hpos (add_left_cancel heq))
    refine ⟨?_, ?_, ?_, ?_, ih.held⟩
    · have hfreed : update (fun b => decide (b < n) || p.freed b) n true =
          fun b => decide (b < n + 1) || p.freed b := by
        funext b
        by_cases hb : b = n
        · subst hb
          simp
        · have hlt : b < n + 1 ↔ b < n := by omega
          simp [update_of_ne hb, hlt]
      refine (setPool_pools_self _).trans ?_
      rw [ih.pool]
      exact congrArg (fun f => { p with freed := f }) hfreed
    · intro j hj
      exact (setPool_pools_of_ne hj _).trans (ih.pools j hj)
    · intro b hb
      change (linkBlock i u n).mem _ = _
      rw [hmem]
      rcases Nat.lt_succ_iff_lt_or_eq.mp hb with hb | rfl
      · rw [update_of_ne (hne b hb), ih.linked b hb]
      · rw [update_self]
    · intro addr hout
      change (linkBlock i u n).mem _ = _
      rw [hmem, update_of_ne (hout n (lt_succ_self n))]
      exact ih.mem addr fun b hb => hout b (lt_succ_of_lt hb)

structure Fresh (e : Platform) (s : MemPool) (i : Fin poolCount) : Prop where
  phys : e.phys i ≠ 0
  size : (s.pools i).blockSize = sizes e.aarch64 i
  count : (s.pools i).blockCount = counts i
  data : (s.pools i).data = e.phys i + e.hhdmOffset
  initialized : (s.pools i).initialized = true
  first : (s.pools i).firstFree = 0
  freeCount : (s.pools i).freeCount = counts i
  freed : ∀ b < counts i, (s.pools i).freed b = true
  next : ∀ b, b + 1 < counts i → s.mem (e.address i b) = b + 1
  last : s.mem (e.address i (counts i - 1)) = noBlock

/-- `init` sets up one pool and touches nothing else. -/
structure PoolSet (e : Platform) (i : Fin poolCount) (s t : MemPool) : Prop where
  fresh : Fresh e t i
  pools : ∀ j, j ≠ i → t.pools j = s.pools j
  mem : ∀ addr, (∀ b < counts i, addr ≠ e.address i b) → t.mem addr = s.mem addr
  held : t.held = s.held

theorem PoolSet.initPool (hs : s.initPool e i = some t) : PoolSet e i s t := by
  simp only [MemPool.initPool] at hs
  split_ifs at hs with hphys
  cases hs
  have hlink := Linked.foldl (setPool_pools_self (s := s) (i := i) { s.pools i with
    blockSize := sizes e.aarch64 i
    blockCount := counts i
    freeCount := counts i
    firstFree := 0
    data := e.phys i + e.hhdmOffset }) (sizes_pos e.aarch64 i) (counts i)
  generalize (List.range (counts i)).foldl (linkBlock i) _ = u at hlink ⊢
  have hpos := counts_pos i
  have hlast : (u.pools i).address ((u.pools i).blockCount - 1) = e.address i (counts i - 1) := by
    rw [hlink.pool]
    rfl
  rw [hlast]
  have hfield : ∀ {β : Type} (f : Pool → β), f ((MemPool.setPool
      (u.write (e.address i (counts i - 1)) noBlock) i
      { u.pools i with initialized := true, pinned := fun _ => false }).pools i) =
      f { u.pools i with initialized := true, pinned := fun _ => false } :=
    fun f => congrArg f (setPool_pools_self _)
  refine ⟨⟨hphys, ?_, ?_, ?_, ?_, ?_, ?_, ?_, ?_, ?_⟩, ?_, ?_, hlink.held⟩
  · rw [hfield blockSize, hlink.pool]
  · rw [hfield blockCount, hlink.pool]
  · rw [hfield data, hlink.pool]
  · rw [hfield initialized]
  · rw [hfield firstFree, hlink.pool]
  · rw [hfield freeCount, hlink.pool]
  · intro b hb
    rw [hfield freed, hlink.pool]
    simp [hb]
  · intro b hb
    have hne : e.address i b ≠ e.address i (counts i - 1) := by
      intro heq
      have := (e.address_inj (by omega) (by omega) heq).2
      omega
    exact (update_of_ne hne _ _).trans (hlink.linked b (by omega))
  · exact update_self ..
  · intro j hj
    exact (setPool_pools_of_ne hj _).trans ((hlink.pools j hj).trans (setPool_pools_of_ne hj _))
  · intro addr hout
    exact (update_of_ne (hout _ (by omega)) _ _).trans (hlink.mem addr hout)

theorem Fresh.frame (h : Fresh e s j) (hset : PoolSet e i s t) (hj : j ≠ i) : Fresh e t j := by
  have hpool := hset.pools j hj
  have hmem : ∀ b < counts j, t.mem (e.address j b) = s.mem (e.address j b) := by
    intro b hb
    apply hset.mem
    intro c hc heq
    exact hj (e.address_inj hb hc heq).1
  have hpos := counts_pos j
  refine ⟨h.phys, ?_, ?_, ?_, ?_, ?_, ?_, ?_, ?_, ?_⟩
  · rw [hpool, h.size]
  · rw [hpool, h.count]
  · rw [hpool, h.data]
  · rw [hpool, h.initialized]
  · rw [hpool, h.first]
  · rw [hpool, h.freeCount]
  · rw [hpool]
    exact h.freed
  · intro b hb
    rw [hmem b (by omega), h.next b hb]
  · rw [hmem _ (by omega), h.last]

theorem Fresh.foldlM {l : List (Fin poolCount)} (done : List (Fin poolCount))
    (hdone : ∀ i ∈ done, Fresh e s i) (hl : l.Nodup) (hs : l.foldlM (initPool e) s = some t) :
    (∀ i, i ∈ done ∨ i ∈ l → Fresh e t i) ∧ t.held = s.held := by
  induction l generalizing s done with
  | nil =>
    cases hs
    exact ⟨fun i hi => hdone i (hi.resolve_right not_mem_nil), rfl⟩
  | cons i l ih =>
    obtain ⟨u, hu, hrest⟩ := bind_eq_some_iff.mp hs
    have hset := PoolSet.initPool hu
    have hdone' : ∀ j ∈ i :: done, Fresh e u j := by
      intro j hj
      by_cases hji : j = i
      · exact hji ▸ hset.fresh
      · exact (hdone j ((mem_cons.mp hj).resolve_left hji)).frame hset hji
    obtain ⟨hfresh, hheld⟩ := ih (i :: done) hdone' (nodup_cons.mp hl).2 hrest
    refine ⟨fun j hj => hfresh j ?_, hheld.trans hset.held⟩
    simp only [mem_cons] at hj ⊢
    tauto

theorem fresh_of_init (h : init e = some s) : (∀ i, Fresh e s i) ∧ s.held = fun _ _ => false := by
  obtain ⟨hfresh, hheld⟩ := Fresh.foldlM [] nofun (nodup_finRange _) h
  exact ⟨fun i => hfresh i (.inr (mem_finRange i)), hheld⟩

theorem Fresh.exact (h : Fresh e s i) : (s.books i).Exact := by
  have hpos := counts_pos i
  have haddr : ∀ b, (s.pools i).address b = e.address i b := by
    intro b
    rw [address, h.data, h.size]
    rfl
  have hcount : (s.books i).count = counts i := h.count
  have hnext : ∀ b < counts i, (s.books i).next b = s.mem (e.address i b) := by
    intro b hb
    rw [← haddr]
    exact if_pos (h.count ▸ hb)
  have hlen : counts i - 1 + 1 = counts i := by omega
  have hchain : Chain (s.books i).Valid (s.books i).next 0 (List.range' 0 (counts i - 1 + 1)) := by
    apply Chain.range'
    · intro b _ hb
      rw [Books.Valid]
      omega
    · intro b _ hb
      rw [hnext b (by omega), h.next b (by omega)]
    · rw [zero_add, hnext _ (by omega), h.last, Books.Valid, hcount]
      exact (by decide : ∀ i, ¬ noBlock < counts i) i
  rw [hlen, ← range_eq_range'] at hchain
  refine ⟨List.range (counts i), ?_, nodup_range, ?_, ?_⟩
  · change Chain _ _ (s.pools i).firstFree _
    rwa [h.first]
  · intro b
    rw [mem_range, Books.Valid, hcount]
    exact ⟨fun hb => ⟨hb, h.freed b hb⟩, fun hb => hb.1⟩
  · rw [length_range]
    exact h.freeCount.symm

theorem Inv.init (h : MemPool.init e = some s) : Inv e s := by
  obtain ⟨hfresh, hheld⟩ := fresh_of_init h
  refine ⟨⟨fun i => (hfresh i).size, fun i => (hfresh i).count, fun i => (hfresh i).data,
    fun i => (hfresh i).initialized, fun i => (hfresh i).phys⟩, ?_⟩
  intro i b
  rw [hheld]
  constructor
  · exact fun hb => absurd hb false_ne_true
  · rintro ⟨hv, hf⟩
    have hb : b < counts i := (hfresh i).count ▸ hv
    exact nomatch hf.symm.trans ((hfresh i).freed b hb)

/-- In every run from `init`, no call hands out a block that is handed out already. The lists are
exact in the reached state exactly when no `reserve` of the run took a block. -/
theorem blocks_handed_once {s₀ : MemPool} {as : List Action} (hinit : MemPool.init e = some s₀)
    (hrun : Run step anyStep s₀ as s) :
    (∀ a i b, s.Hands a i b → s.held i b = false) ∧
      ((∀ i, s.FreeListExact i) ↔ Run step ReservesNone s₀ as s) := by
  have hinv : Inv e s := hrun.invariant (fun _ _ _ h _ hs => h.step hs) (.init hinit)
  have hstart : ∀ i, (s₀.books i).Exact := fun i => ((fresh_of_init hinit).1 i).exact
  refine ⟨fun a i b hb => hinv.hands_fresh hb, ?_, ?_⟩
  · intro hex
    have hor := hrun.meets_or ReservesNone (I := fun s => Inv e s ∧ ∀ i, (s.books i).Exact)
      (J := fun s => Inv e s ∧ ∃ i, (s.books i).Broken)
      (fun _ _ _ h hok hs => ⟨h.1.step hs, h.1.exact_step h.2 hok hs⟩)
      (fun _ _ _ h hok hs => ⟨h.1.step hs, h.1.broken_of_reserve h.2 hok hs⟩)
      (fun _ _ _ h hs => ⟨h.1.step hs, h.2.imp fun _ hi => h.1.broken_step hi hs⟩)
      ⟨.init hinit, hstart⟩
    refine hor.resolve_right ?_
    rintro ⟨-, i, hi⟩
    exact hi.not_exact (freeListExact_iff.mp (hex i))
  · intro hnone i
    have hall := hnone.invariant (I := fun s => Inv e s ∧ ∀ i, (s.books i).Exact)
      (fun _ _ _ h hok hs => ⟨h.1.step hs, h.1.exact_step h.2 hok hs⟩) ⟨.init hinit, hstart⟩
    exact freeListExact_iff.mpr (hall.2 i)

def spacedPlatform : Platform where
  aarch64 := false
  hhdmOffset := 0xFFFF800000000000
  phys i := (i + 1) * 0x100000
  apart := by decide

def spacedHeap : MemPool := (init spacedPlatform).getD {}

theorem init_spacedPlatform : init spacedPlatform = some spacedHeap := by
  have hsome : (init spacedPlatform).isSome = true := by decide +kernel
  obtain ⟨s, hs⟩ := isSome_iff_exists.mp hsome
  rw [spacedHeap, hs, getD_some]

def pool32 : Fin poolCount := ⟨1, by decide⟩

def pinnedUse : List Action :=
  [.alloc 20, .pinBlock 0xFFFF800000200000, .free 0xFFFF800000200000, .use pool32 0 0 7,
    .unpinBlock 0xFFFF800000200000, .free 0xFFFF800000200000, .reserve 0 257]

theorem blocks_handed_once_pinnedUse :
    ∃ s, init spacedPlatform = some spacedHeap ∧ Run step anyStep spacedHeap pinnedUse s ∧
      (∀ a i b, s.Hands a i b → s.held i b = false) ∧
      ((∀ i, s.FreeListExact i) ↔ Run step ReservesNone spacedHeap pinnedUse s) := by
  obtain ⟨s, hrun, -⟩ : ∃ s, Run step anyStep spacedHeap pinnedUse s ∧ s.held pool32 0 = false :=
    Run.exists_of_exec (by decide +kernel)
  exact ⟨s, init_spacedPlatform, hrun, blocks_handed_once init_spacedPlatform hrun⟩

/-- After `reserve(1, 1)` the first block of the list is not marked as free, and the next allocation
from the pool stops the kernel although 127 blocks are free. -/
theorem reserved_block_listed :
    ∃ s, init spacedPlatform = some spacedHeap ∧ Run step anyStep spacedHeap [.reserve 1 1] s ∧
      ¬ s.FreeListExact pool32 ∧ (s.pools pool32).freeCount = 127 ∧ (s.alloc 32).isNone := by
  obtain ⟨s, hrun, hfirst, hcount, hfreed, hfree, halloc⟩ :
      ∃ s, Run step anyStep spacedHeap [.reserve 1 1] s ∧ (s.pools pool32).firstFree = 0 ∧
        (s.pools pool32).blockCount = 128 ∧ (s.pools pool32).freed 0 = false ∧
        (s.pools pool32).freeCount = 127 ∧ (s.alloc 32).isNone :=
    Run.exists_of_exec (by decide +kernel)
  refine ⟨s, init_spacedPlatform, hrun, ?_, hfree, halloc⟩
  rintro ⟨l, hchain, -, hmem, -⟩
  rw [hfirst] at hchain
  obtain ⟨rest, rfl, -⟩ := hchain.eq_cons (by rw [hcount]; decide)
  have hin := ((hmem 0).mp mem_cons_self).2
  rw [hfreed] at hin
  cases hin

end Nexios.MemPool
