import Nexios.Ipc.BufferPool

/-!
# Pages of shared buffers

The parts of the calls on shared buffers, each with what it leaves alone, and what holds of the
pages in any history: a page is in one entry, and the cache has none of these pages.
-/

open Function

namespace Nexios.Ipc

variable {n m : ℕ}

namespace BufferPool

variable {s s' : BufferPool n m} {t u : Fin n} {i j : Fin m} {p handle : ℕ} {env : AllocEnv}

def owns (s : BufferPool n m) (t : Fin n) (i : Fin m) : Bool :=
  s.live i && (s.entry i).ownerTask = s.ownerId t

theorem owns_iff : s.owns t i = true ↔ s.live i = true ∧ (s.entry i).ownerTask = s.ownerId t := by
  unfold owns
  rw [Bool.and_eq_true, decide_eq_true_iff]

def Distinct (s : BufferPool n m) : Prop := ∀ t u, s.ownerId t = s.ownerId u → t = u
  deriving Decidable

theorem live_iff : s.live i = true ↔ (s.entry i).physAddr ≠ 0 := decide_eq_true_iff

theorem live_of_owns (h : s.owns t i) : s.live i = true := (owns_iff.mp h).1

theorem validateOwned_owns (h : s.validateOwned t handle = some i) : s.owns t i = true := by
  obtain ⟨hv, howner⟩ := Option.filter_eq_some_iff.mp h
  refine owns_iff.mpr ⟨?_, of_decide_eq_true howner⟩
  unfold validate at hv
  split_ifs at hv with hzero hlt hphys hgen
  cases hv
  exact live_iff.mpr hphys

/-! ## Single writes -/

theorem live_congr (h : (s'.entry i).physAddr = (s.entry i).physAddr) : s'.live i = s.live i := by
  unfold live
  rw [h]

theorem owns_congr (hid : s'.id = s.id) (hphys : (s'.entry i).physAddr = (s.entry i).physAddr)
    (howner : s.live i → (s'.entry i).ownerTask = (s.entry i).ownerTask) (t : Fin n) :
    s'.owns t i = s.owns t i := by
  unfold owns ownerId
  rw [live_congr hphys, hid]
  cases hlive : s.live i with
  | false => rfl
  | true => rw [howner hlive]

theorem owns_insert (hdistinct : s.Distinct) (hid : s'.id = s.id)
    (hother : ∀ j, j ≠ i → s'.entry j = s.entry j)
    (howner : (s'.entry i).ownerTask = s.ownerId t) (hlive : (s'.entry i).physAddr ≠ 0) :
    s'.owns u j = true ↔ (s.owns u j = true ∧ j ≠ i) ∨ (u = t ∧ j = i) := by
  by_cases hj : j = i
  · subst hj
    have hsame : s'.ownerId u = s.ownerId u := congrArg (fun f => f u % 2 ^ 32) hid
    rw [owns_iff, howner, hsame]
    constructor
    · exact fun h => .inr ⟨(hdistinct t u h.2).symm, rfl⟩
    · rintro (⟨-, hne⟩ | ⟨rfl, -⟩)
      · exact absurd rfl hne
      · exact ⟨live_iff.mpr hlive, rfl⟩
  · have he := hother j hj
    rw [owns_congr hid (congrArg BufferEntry.physAddr he)
      (fun _ => congrArg BufferEntry.ownerTask he) u, and_iff_left hj]
    exact (or_iff_left fun h => hj h.2).symm

section

variable (s : BufferPool n m)

section

variable (t : Fin n)

theorem clearMapping_frame (i : Fin m) :
    (s.clearMapping t i).links = s.links ∧ (s.clearMapping t i).head = s.head ∧
      (s.clearMapping t i).freeHead = s.freeHead ∧ (s.clearMapping t i).id = s.id ∧
      (s.clearMapping t i).pool = s.pool ∧ (s.clearMapping t i).returned = s.returned ∧
      (s.clearMapping t i).taken = s.taken := by
  unfold clearMapping
  split_ifs
  all_goals exact ⟨rfl, rfl, rfl, rfl, rfl, rfl, rfl⟩

theorem clearMapping_entry (i j : Fin m) :
    (s.clearMapping t i).entry j = if j = i then { s.entry j with mappedVa := 0 } else s.entry j := by
  unfold clearMapping
  split_ifs with hva hj hj
  · rw [← hva, hj]
  · rfl
  · subst hj
    exact update_self ..
  · exact update_of_ne hj ..

theorem clearMapping_physAddr (i j : Fin m) :
    ((s.clearMapping t i).entry j).physAddr = (s.entry j).physAddr := by
  rw [clearMapping_entry]
  split_ifs
  · rfl
  · rfl

theorem clearMapping_ownerTask (i j : Fin m) :
    ((s.clearMapping t i).entry j).ownerTask = (s.entry j).ownerTask := by
  rw [clearMapping_entry]
  split_ifs
  · rfl
  · rfl

end

theorem release_entry_self (i : Fin m) : ((s.release i).entry i).physAddr = 0 := by
  unfold release
  rw [freeEntry_entry, if_pos rfl]

theorem release_entry_ne (hj : j ≠ i) : (s.release i).entry j = s.entry j :=
  update_of_ne hj ..

end

theorem live_release : (s.release i).live j = true ↔ s.live j = true ∧ j ≠ i := by
  rw [live_iff, live_iff]
  by_cases hj : j = i
  · rw [hj, release_entry_self]
    exact iff_of_false (· rfl) fun h => h.2 rfl
  · rw [release_entry_ne _ hj, and_iff_left hj]

theorem owns_release : (s.release i).owns t j = true ↔ s.owns t j = true ∧ j ≠ i := by
  rw [owns_iff, owns_iff, live_release, and_right_comm, and_congr_left_iff]
  intro hj
  rw [s.release_entry_ne hj]
  rfl

/-- An entry that is taken and put back has no page. -/
theorem alloc_fail_physAddr (hdead : (s.entry i).physAddr = 0) (pool : List ℕ) (j : Fin m) :
    ((freeEntry { s.takeEntry i with pool := pool } i).entry j).physAddr = (s.entry j).physAddr := by
  rw [freeEntry_entry]
  split_ifs with hj
  · rw [hj, hdead]
  · rfl

theorem release_pool (s : BufferPool n m) (i : Fin m) :
    (s.release i).pool = (s.entry i).physAddr :: s.pool ∨ (s.release i).pool = s.pool := by
  unfold release freePage freeEntry
  split_ifs
  · exact .inl rfl
  · exact .inr rfl

theorem allocPage_frame (s : BufferPool n m) (env : AllocEnv) :
    ∃ pool, (s.allocPage env).1 = { s with pool := pool } ∧ pool.Sublist s.pool ∧
      (s.pool.Nodup → (s.allocPage env).2 ∈ s.pool ∧ (s.allocPage env).2 ∉ pool ∨
        (s.allocPage env).2 = env.fresh) := by
  unfold allocPage
  cases hpool : s.pool with
  | nil =>
    refine ⟨[], ?_, .refl _, fun _ => .inr rfl⟩
    change s = { s with pool := [] }
    rw [← hpool]
  | cons p rest =>
    refine ⟨rest, rfl, List.sublist_cons_self p rest, fun hnodup => ?_⟩
    split_ifs
    · exact .inl ⟨List.mem_cons_self, (List.nodup_cons.mp hnodup).1⟩
    · exact .inr rfl

/-! ## The invariant -/

structure Pages (s : BufferPool n m) : Prop where
  inj : ∀ i j, s.live i → (s.entry i).physAddr = (s.entry j).physAddr → i = j
  pool : s.pool.Nodup
  cached : ∀ p ∈ s.pool, p ≠ 0 ∧ ∀ i, (s.entry i).physAddr ≠ p

namespace Pages

variable (h : s.Pages)
include h

theorem congr (hpool : s'.pool.Sublist s.pool)
    (hphys : ∀ i, (s'.entry i).physAddr = (s.entry i).physAddr) : s'.Pages where
  inj i j hi he := by
    rw [live_congr (hphys i)] at hi
    rw [hphys, hphys] at he
    exact h.inj i j hi he
  pool := h.pool.sublist hpool
  cached p hp := by
    obtain ⟨hne, hother⟩ := h.cached p (hpool.subset hp)
    exact ⟨hne, fun i => (hphys i).trans_ne (hother i)⟩

theorem clearMapping (t : Fin n) (i : Fin m) : (s.clearMapping t i).Pages := by
  obtain ⟨-, -, -, -, hpool, -⟩ := s.clearMapping_frame t i
  exact h.congr (hpool ▸ List.Sublist.refl _) (s.clearMapping_physAddr t i)

theorem release (hi : s.live i) : (s.release i).Pages where
  inj j k hj he := by
    obtain ⟨hlive, hji⟩ := live_release.mp hj
    by_cases hki : k = i
    · subst hki
      rw [s.release_entry_self, s.release_entry_ne hji] at he
      exact absurd he (live_iff.mp hlive)
    · rw [s.release_entry_ne hji, s.release_entry_ne hki] at he
      exact h.inj j k hlive he
  pool := by
    have hnew : (s.entry i).physAddr ∉ s.pool := fun hmem => (h.cached _ hmem).2 i rfl
    rcases s.release_pool i with hpool | hpool <;> rw [hpool]
    · exact List.nodup_cons.mpr ⟨hnew, h.pool⟩
    · exact h.pool
  cached p hp := by
    have hp : p = (s.entry i).physAddr ∨ p ∈ s.pool := by
      rcases s.release_pool i with hpool | hpool
      · exact List.mem_cons.mp (hpool ▸ hp)
      · exact .inr (hpool ▸ hp)
    have hne : p ≠ 0 := by
      rcases hp with rfl | hp
      · exact live_iff.mp hi
      · exact (h.cached p hp).1
    refine ⟨hne, fun j => ?_⟩
    by_cases hj : j = i
    · subst hj
      rw [s.release_entry_self]
      exact hne.symm
    · rw [s.release_entry_ne hj]
      rcases hp with rfl | hp
      · exact fun he => hj (h.inj i j hi he.symm).symm
      · exact (h.cached p hp).2 j

theorem insert (hother : ∀ j, j ≠ i → s'.entry j = s.entry j) (hphys : (s'.entry i).physAddr = p)
    (hpage : ∀ j, (s.entry j).physAddr ≠ p) (hpool : s'.pool.Sublist s.pool) (hout : p ∉ s'.pool) :
    s'.Pages where
  inj j k hj he := by
    by_cases hji : j = i
    · by_cases hki : k = i
      · rw [hji, hki]
      · rw [hji, hother k hki, hphys] at he
        exact absurd he.symm (hpage k)
    · rw [live_congr (congrArg BufferEntry.physAddr (hother j hji))] at hj
      rw [hother j hji] at he
      by_cases hki : k = i
      · rw [hki, hphys] at he
        exact absurd he (hpage j)
      · rw [hother k hki] at he
        exact h.inj j k hj he
  pool := h.pool.sublist hpool
  cached p hp := by
    obtain ⟨hzero, hfree⟩ := h.cached p (hpool.subset hp)
    refine ⟨hzero, fun j => ?_⟩
    by_cases hj : j = i
    · rw [hj, hphys]
      exact (ne_of_mem_of_not_mem hp hout).symm
    · rw [hother j hj]
      exact hfree j

theorem allocPage_page (hfresh : env.fresh ≠ 0 → ¬ s.Held env.fresh)
    {pool : List ℕ} (hsub : pool.Sublist s.pool)
    (hpage : p ∈ s.pool ∧ p ∉ pool ∨ p = env.fresh) (hne : p ≠ 0) :
    (∀ j, (s.entry j).physAddr ≠ p) ∧ p ∉ pool := by
  rcases hpage with ⟨hmem, hout⟩ | rfl
  · exact ⟨(h.cached p hmem).2, hout⟩
  · refine ⟨fun j hj => hfresh hne (.inr ⟨j, ?_, hj⟩), fun hmem => hfresh hne (.inl (hsub.subset hmem))⟩
    exact live_iff.mpr (hj.trans_ne hne)

end Pages

theorem Start.pages (h : s.Start) : s.Pages where
  inj i _ hi := absurd (h.entry i) (live_iff.mp hi)
  pool := h.pool.1
  cached p hp := ⟨h.pool.2 p hp, fun i => (h.entry i).trans_ne (h.pool.2 p hp).symm⟩

end BufferPool

end Nexios.Ipc
