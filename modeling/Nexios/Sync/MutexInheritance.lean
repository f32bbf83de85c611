import Mathlib.Data.Fin.VecNotation
import Nexios.Sync.WaitGraph

/-!
# The law of priority inheritance

The priority of a task is the greatest of its base priority and the priorities of those that wait
for its mutexes. Each mutex saves one priority of its owner and gives it back on the last `unlock`,
so the law fails as soon as two mutexes of one task are contended, or a mutex is handed over while a
waiter stays behind whose priority is above the base priority of the former owner: that task keeps
the priority of the waiter, and the new owner is given its saved priority later. The law holds in
every run that avoids this.
-/

open Function Option List

namespace Nexios.Sync.State

open Inheritance Tcb

variable {n m : ℕ} {s s' s₁ : State n m} {t u o c : Fin n} {x y z : Fin m} {p : ℕ}
  {N : Fin n → Option (Fin n)} {w : Waiter n}

/-! ## Lending a priority -/

theorem lend_prio (s : State n m) (y : Fin m) (c : Fin n) (p : ℕ) :
    (s.lend y c p).prio = update s.prio c p :=
  comp_update priority s.tcb c _

theorem lend_holder (s : State n m) (y : Fin m) (c : Fin n) (p : ℕ) : (s.lend y c p).holder =
    update s.holder y (if s.holder y = 0 then s.prio c else s.holder y) :=
  comp_update Mutex.holderPriority s.mutex y _

section

variable (h : Lent s s')
include h

theorem Lent.base_eq (u : Fin n) : s'.base u = s.base u :=
  h.tcb_field basePriority (fun _ _ => rfl) u

theorem Lent.waitsOn_eq (u : Fin n) : s'.waitsOn u = s.waitsOn u :=
  h.tcb_field waitingOnMutex (fun _ _ => rfl) u

theorem Lent.sameArrays : SameArrays s s' where
  owner x _ := h.owner_eq x
  waiters := h.waiters_eq
  waitsOn := h.waitsOn_eq
  waiter := h.waiter_eq
  live u hu := by
    unfold live
    rw [h.tcb_field state fun _ _ => rfl]
    exact hu
  calls u x _ hu := h.pc ▸ hu

end

/-- What the mutexes have saved, where `x` counts as contended. -/
structure Saved (s : State n m) (x : Fin m) : Prop where
  saved : ∀ z, s.holder z ≠ 0 →
    (s.waiters z ≠ [] ∨ z = x) ∧ ∃ o, s.owner z = some o ∧ s.holder z = s.base o
  plain : ∀ z o, s.owner z = some o → (s.waiters z ≠ [] ∨ z = x) → s.holder z = 0 →
    s.prio o = s.base o
  /-- at most one mutex of a task is contended -/
  one : ∀ y z o, s.owner y = some o → s.owner z = some o → (s.waiters y ≠ [] ∨ y = x) →
    (s.waiters z ≠ [] ∨ z = x) → y = z

theorem Saved.lend (hs : s.Saved x) (howner : s.owner y = some c) (hpos : 0 < s.base c)
    (hy : s.waiters y ≠ [] ∨ y = x) : (s.lend y c p).Saved x := by
  have hlent := Lent.lend s y c p
  have hholder : (s.lend y c p).holder y ≠ 0 ∧ (s.lend y c p).holder y = s.base c := by
    have hbase : (s.lend y c p).holder y = s.base c := by
      rw [lend_holder, update_self]
      split_ifs with hzero
      · exact hs.plain y c howner hy hzero
      · obtain ⟨-, o, ho, hbase⟩ := hs.saved y hzero
        rw [howner] at ho
        cases ho
        exact hbase
    exact ⟨hbase ▸ hpos.ne', hbase⟩
  have hother : ∀ z, z ≠ y → (s.lend y c p).holder z = s.holder z := by
    intro z hz
    rw [lend_holder, update_of_ne hz]
  refine ⟨fun z hz => ?_, fun z o hz hzw hzh => ?_, fun y' z o => ?_⟩
  · rw [hlent.waiters_eq, hlent.owner_eq]
    by_cases hzy : z = y
    · subst hzy
      exact ⟨hy, c, howner, hholder.2.trans (hlent.base_eq c).symm⟩
    · rw [hother z hzy] at hz ⊢
      obtain ⟨hzw, o, ho, hbase⟩ := hs.saved z hz
      exact ⟨hzw, o, ho, hbase.trans (hlent.base_eq o).symm⟩
  · have hzy : z ≠ y := by
      rintro rfl
      exact hholder.1 hzh
    rw [hother z hzy] at hzh
    rw [hlent.owner_eq] at hz
    rw [hlent.waiters_eq] at hzw
    -- the owner of another contended mutex is another task
    have hoc : o ≠ c := by
      rintro rfl
      exact hzy (hs.one z y o hz howner hzw hy)
    rw [hlent.base_eq, lend_prio, update_of_ne hoc]
    exact hs.plain z o hz hzw hzh
  · rw [hlent.owner_eq, hlent.owner_eq, hlent.waiters_eq, hlent.waiters_eq]
    exact hs.one y' z o

theorem filter_update_ssubset {f : Fin n → ℕ} (h : f c < p) :
    Finset.univ.filter (fun u => update f c p u < p) ⊂ Finset.univ.filter (fun u => f u < p) := by
  refine Finset.ssubset_iff_subset_ne.mpr ⟨fun u hu => ?_, fun heq => ?_⟩
  · by_cases huc : u = c
    · simpa [huc] using h
    · simpa [update_of_ne huc] using hu
  · have hmem : c ∈ Finset.univ.filter (fun u => f u < p) := by simpa using h
    rw [← heq] at hmem
    simp at hmem

/-- The task `t` is about to wait for the mutex `x`, and `N` is what everybody waits for then. -/
structure Entering (s : State n m) (x : Fin m) (t : Fin n) (N : Fin n → Option (Fin n)) : Prop where
  saved : s.Saved x
  arrays : s.Arrays
  pos : ∀ u, 0 < s.base u
  idle : s.waitsOn t = none
  next : ∀ u, u ≠ t → N u = s.next u

namespace Entering

variable (hs : s.Entering x t N)
include hs

theorem next_of_mem (hw : w ∈ s.waiters y) (howner : s.owner y = some c) : N w.task = some c := by
  rw [hs.next _ (hs.arrays.task_ne hw hs.idle)]
  exact hs.arrays.next_of_mem hw howner

section

variable (howner : s.owner y = some c) {fuel : ℕ}
include howner

theorem lend (hy : s.waiters y ≠ [] ∨ y = x) : (s.lend y c p).Entering x t N := by
  have hlent := Lent.lend s y c p
  exact ⟨hs.saved.lend howner (hs.pos c) hy, hlent.sameArrays.arrays hs.arrays,
    fun u => hlent.base_eq u ▸ hs.pos u, (hlent.waitsOn_eq t).trans hs.idle,
    hlent.sameArrays.next_eq hs.arrays ▸ hs.next⟩

theorem maxPrio_le {q : ℕ} (hrising : Rising N s.base s.prio c p) (hq : q ≤ max (s.prio c) p) :
    s.maxPrio y q ≤ max (s.prio c) p := by
  refine maxPrio_le_iff.mpr ⟨hq, fun w hw => ?_⟩
  obtain hprio | ⟨-, hprio⟩ := hrising.le_next _ _ (hs.next_of_mem hw howner)
  · exact hprio.trans (le_max_left ..)
  · exact hprio.trans (le_max_right ..)

theorem propagate (hy : s.waiters y ≠ [] ∨ y = x) (hrising : Rising N s.base s.prio c p)
    (hlt : s.prio c < p) (ht : p ≤ s.prio t) (hrec : ∀ z c', (s.lend y c p).owner z = some c' →
      Rising N (s.lend y c p).base (s.lend y c p).prio c' p →
      (∃ w ∈ (s.lend y c p).waiters z, (s.lend y c p).prio w.task = p) →
      ∃ s', (s.lend y c p).reevaluate fuel z = some s' ∧
        Law N (s.lend y c p).base s'.prio ∧ s'.Saved x) : ∃ s', (match (s.tcb c).waitingOnMutex with
        | none => some (s.lend y c p)
        | some z => (s.lend y c p).reevaluate fuel z) = some s' ∧
      Law N s.base s'.prio ∧ s'.Saved x := by
  have hct : c ≠ t := by
    rintro rfl
    exact absurd ht (not_le.mpr hlt)
  have hlent := Lent.lend s y c p
  cases hc : (s.tcb c).waitingOnMutex with
  | none =>
    refine ⟨_, rfl, ?_, (hs.lend howner hy).saved⟩
    rw [lend_prio]
    refine hrising.law_of_lift hlt ?_
    rw [hs.next c hct, State.next, waitsOn, hc]
    rfl
  | some z =>
    have hz : s.waitsOn c = some z := hc
    obtain ⟨c', hc'⟩ : ∃ c', s.owner z = some c' := ne_none_iff_exists'.mp
      (fun hnone => hs.arrays.waiters_ne_nil hz (hs.arrays.free z hnone))
    have hnext : N c = some c' := by
      rw [hs.next c hct]
      exact next_eq_some.mpr ⟨z, hz, hc'⟩
    have hlift := hrising.lift hlt hnext
    rw [← lend_prio s y, ← funext hlent.base_eq] at hlift
    have hwaiter : s.waiter c ∈ (s.lend y c p).waiters z := by
      rw [hlent.waiters_eq]
      exact hs.arrays.waiter_mem hz
    have hraised : (s.lend y c p).prio c = p := by
      rw [lend_prio, update_self]
    have h := hrec z c' ((hlent.owner_eq z).trans hc') hlift ⟨s.waiter c, hwaiter, hraised⟩
    rw [funext hlent.base_eq] at h
    exact h

theorem reevaluate (hrising : Rising N s.base s.prio c p)
    (hwaits : ∃ w ∈ s.waiters y, s.prio w.task = p) (ht : p ≤ s.prio t)
    (hfuel : (Finset.univ.filter (fun u => s.prio u < p)).card < fuel) :
    ∃ s', s.reevaluate fuel y = some s' ∧ Law N s.base s'.prio ∧ s'.Saved x := by
  induction fuel generalizing s y c with
  | zero => exact absurd hfuel (Nat.not_lt_zero _)
  | succ fuel ih =>
    rw [State.reevaluate, howner]
    simp only
    obtain ⟨w, hw, hwp⟩ := hwaits
    have hle : p ≤ s.maxPrio y 0 := hwp ▸ (maxPrio_le_iff.mp le_rfl).2 w hw
    have hge := hs.maxPrio_le howner hrising (Nat.zero_le _)
    by_cases hlt : s.prio c < p
    · rw [max_eq_right hlt.le] at hge
      rw [le_antisymm hge hle, if_pos hlt]
      have hy : s.waiters y ≠ [] ∨ y = x := .inl (ne_nil_of_mem hw)
      refine hs.propagate howner hy hrising hlt ht (fun z c' hc' hrising' hwaits' => ?_)
      refine ih (hs.lend howner hy) hc' hrising' hwaits' ?_ ?_
      all_goals rw [lend_prio]
      · exact ht.trans (le_update_self_iff.mpr hlt.le t)
      · exact (Finset.card_lt_card (filter_update_ssubset hlt)).trans_le (Nat.lt_succ_iff.mp hfuel)
    · rw [max_eq_left (not_lt.mp hlt)] at hge
      rw [if_neg (not_lt.mpr hge)]
      exact ⟨s, rfl, hrising.law (not_lt.mp hlt), hs.saved⟩

end

theorem inheritPriority (howner : s.owner x = some c)
    (hrising : Rising N s.base s.prio c (s.prio t)) :
    ∃ s', s.inheritPriority x t = some s' ∧ Law N s.base s'.prio ∧ s'.Saved x := by
  rw [State.inheritPriority, howner]
  simp only
  have hle : s.prio t ≤ s.maxPrio x (s.prio t) := (maxPrio_le_iff.mp le_rfl).1
  have hge := hs.maxPrio_le howner hrising (le_max_right _ _)
  by_cases hlt : s.prio c < s.prio t
  · rw [max_eq_right hlt.le] at hge
    rw [le_antisymm hge hle, if_pos hlt]
    refine hs.propagate howner (.inr rfl) hrising hlt le_rfl (fun z c' hc' hrising' hwaits' => ?_)
    refine (hs.lend howner (.inr rfl)).reevaluate hc' hrising' hwaits' ?_ ?_
    · rw [lend_prio]
      exact le_update_self_iff.mpr hlt.le t
    · refine Nat.lt_succ_of_le ((Finset.card_filter_le _ _).trans ?_)
      rw [Finset.card_univ, Fintype.card_fin]
      exact Nat.le_mul_self n
  · rw [max_eq_left (not_lt.mp hlt)] at hge
    rw [if_neg (not_lt.mpr hge)]
    exact ⟨s, rfl, hrising.law (not_lt.mp hlt), hs.saved⟩

end Entering

/-! ## A task begins to wait -/

theorem Inherits.entering (hs : s.Inherits) (hpos : ∀ u, 0 < s.base u) (hidle : s.waitsOn t = none)
    (howner : s.owner x = some o) (hone : ∀ y, y ≠ x → s.owner y = some o → s.waiters y = []) :
    s.Entering x t (update s.next t (some o)) := by
  refine ⟨⟨fun z hz => ?_, fun z c hz hzw hzh => ?_, fun y z c hy hz hyw hzw => ?_⟩, hs.arrays, hpos,
    hidle, fun u hu => update_of_ne hu ..⟩
  · obtain ⟨hzw, hbase⟩ := hs.saved z hz
    exact ⟨.inl hzw, hbase⟩
  · by_cases hne : s.waiters z = []
    · obtain rfl := hzw.resolve_left (not_not.mpr hne)
      rw [howner] at hz
      cases hz
      refine hs.prio_eq_base (fun y hy => ?_)
      by_cases hyz : y = z
      · rw [hyz, hne]
      · exact hone y hyz hy
    · exact hs.plain z c hz hne hzh
  · -- one of the two is `x`, or both have waiters
    have hwaiters : ∀ v, v ≠ x → (s.waiters v ≠ [] ∨ v = x) → s.owner v ≠ some o := by
      intro v hv hvw hvo
      exact hvw.resolve_right hv (hone v hv hvo)
    by_cases hyx : y = x
    · by_cases hzx : z = x
      · rw [hyx, hzx]
      · rw [hyx, howner] at hy
        exact absurd (hz.trans hy.symm) (hwaiters z hzx hzw)
    · by_cases hzx : z = x
      · rw [hzx, howner] at hz
        exact absurd (hy.trans hz.symm) (hwaiters y hyx hyw)
      · exact hs.arrays.one y z c hy hz (hyw.resolve_right hyx) (hzw.resolve_right hzx)

def joined (s : State n m) (x : Fin m) (t : Fin n) : State n m :=
  (s.onMutex x (fun mu => { mu with waiters := mu.waiters ++ [s.waiter t] })).modify t
    (fun tcb => { tcb with waitingOnMutex := some x })

theorem joined_waiters :
    (s.joined x t).waiters = update s.waiters x (s.waiters x ++ [s.waiter t]) :=
  comp_update Mutex.waiters s.mutex x _

theorem joined_waitsOn : (s.joined x t).waitsOn = update s.waitsOn t (some x) :=
  comp_update waitingOnMutex s.tcb t _

theorem joined_owner (y : Fin m) : (s.joined x t).owner y = s.owner y := by
  rw [owner, joined, modify_mutex]
  exact onMutex_field Mutex.owner rfl y

theorem joined_holder (y : Fin m) : (s.joined x t).holder y = s.holder y := by
  rw [holder, joined, modify_mutex]
  exact onMutex_field Mutex.holderPriority rfl y

theorem joined_prio (u : Fin n) : (s.joined x t).prio u = s.prio u :=
  modify_field priority rfl u

theorem joined_base (u : Fin n) : (s.joined x t).base u = s.base u :=
  modify_field basePriority rfl u

theorem joined_waiter (u : Fin n) : (s.joined x t).waiter u = s.waiter u :=
  congrArg (Waiter.mk u) (modify_field generation rfl u)

theorem joined_live (u : Fin n) : (s.joined x t).live u = s.live u := by
  have hstate : ((s.joined x t).tcb u).state = (s.tcb u).state := modify_field state rfl u
  rw [live, hstate]
  rfl

theorem joined_next (howner : s.owner x = some o) :
    (s.joined x t).next = update s.next t (some o) := by
  refine eq_update_iff.mpr ⟨?_, fun u hu => ?_⟩
  · rw [next, joined_waitsOn, funext joined_owner, update_self]
    exact howner
  · rw [next, joined_waitsOn, funext joined_owner, update_of_ne hu]
    rfl

theorem joined_waiters_ne_nil : (s.joined x t).waiters z ≠ [] ↔ s.waiters z ≠ [] ∨ z = x := by
  rw [joined_waiters]
  by_cases hz : z = x
  · simp [hz]
  · simp [hz]

theorem Arrays.joined {p : Pc m} (hs : s.Arrays) (hsaved : s.Saved x) (hidle : s.waitsOn t = none)
    (howner : s.owner x = some o) (hne : o ≠ t) (hp : p.waitsFor = some x) :
    ((s.joined x t).setPc t p).Arrays := by
  have hnew : ∀ y v, v ∈ s.waiters y → v.task ≠ t := fun _ _ hv => hs.task_ne hv hidle
  have hwaits : ∀ u y, (s.joined x t).waitsOn u = some y →
      u = t ∧ some x = some y ∨ u ≠ t ∧ s.waitsOn u = some y :=
    fun u y hu => eq_or_of_update (joined_waitsOn ▸ hu)
  refine ⟨fun u => (joined_live u).trans (hs.live u), fun y v => ?_, fun y => ?_, fun y hy => ?_,
    fun u y hu => ?_, fun u y hu => ?_, fun y z c hy hz hyw hzw => ?_⟩
  · change v ∈ (s.joined x t).waiters y ↔ v = (s.joined x t).waiter v.task ∧
      (s.joined x t).waitsOn v.task = some y
    rw [joined_waiters, joined_waiter, joined_waitsOn]
    by_cases hy : y = x
    · subst hy
      rw [update_self, mem_append, mem_singleton]
      by_cases hv : v.task = t
      · rw [hv, update_self]
        refine ⟨fun h => ⟨h.resolve_left (fun hmem => hnew y v hmem hv), rfl⟩, fun h => .inr h.1⟩
      · rw [update_of_ne hv, hs.mem_iff]
        refine ⟨fun h => h.resolve_right (fun he => hv (congrArg Waiter.task he)), .inl⟩
    · rw [update_of_ne hy]
      by_cases hv : v.task = t
      · rw [hv, update_self]
        refine iff_of_false (fun hmem => hnew y v hmem hv) (fun h => hy ?_)
        exact (some.inj h.2).symm
      · rw [update_of_ne hv]
        exact hs.mem_iff y v
  · change ((s.joined x t).waiters y).Nodup
    rw [joined_waiters]
    refine (forall_update_iff s.waiters fun _ l => l.Nodup).mpr ⟨?_, fun y _ => hs.nodup y⟩ y
    refine (hs.nodup x).append (nodup_singleton _) (fun v hv hv' => ?_)
    exact hnew x v hv (congrArg Waiter.task (mem_singleton.mp hv'))
  · have hy' : s.owner y = none := (joined_owner y).symm.trans hy
    by_contra hne
    obtain hyw | rfl := joined_waiters_ne_nil.mp hne
    · exact hyw (hs.free y hy')
    · rw [howner] at hy'
      cases hy'
  · obtain ⟨rfl, hxy⟩ | ⟨hut, hu⟩ := hwaits u y hu
    · exact (congrArg Pc.waitsFor (update_self u p s.pc)).trans (hp.trans hxy)
    · exact (congrArg Pc.waitsFor (update_of_ne hut ..)).trans (hs.calls u y hu)
  · intro hy
    have hy' : s.owner y = some u := (joined_owner y).symm.trans hy
    obtain ⟨rfl, hxy⟩ | ⟨-, hu⟩ := hwaits u y hu
    · cases hxy
      exact hne (some.inj (howner.symm.trans hy'))
    · exact hs.other u y hu hy'
  · exact hsaved.one y z c ((joined_owner y).symm.trans hy) ((joined_owner z).symm.trans hz)
      (joined_waiters_ne_nil.mp hyw) (joined_waiters_ne_nil.mp hzw)

theorem Saved.joined {p : Pc m} (hsaved : s.Saved x) (hs : s.Arrays) (hidle : s.waitsOn t = none)
    (howner : s.owner x = some o) (hne : o ≠ t)
    (hlaw : Law (update s.next t (some o)) s.base s.prio) (hp : p.waitsFor = some x) :
    ((s.joined x t).setPc t p).Inherits := by
  refine ⟨hs.joined hsaved hidle howner hne hp, fun y hy => ?_, fun y c hy hyw hyh => ?_, ?_⟩
  · obtain ⟨hyw, c, hc, hbase⟩ := hsaved.saved y ((joined_holder y).symm.trans_ne hy)
    exact ⟨joined_waiters_ne_nil.mpr hyw, c, (joined_owner y).trans hc,
      (joined_holder y).trans (hbase.trans (joined_base c).symm)⟩
  · exact (joined_prio c).trans ((hsaved.plain y c ((joined_owner y).symm.trans hy)
      (joined_waiters_ne_nil.mp hyw) ((joined_holder y).symm.trans hyh)).trans (joined_base c).symm)
  · change Law (s.joined x t).next (s.joined x t).base (s.joined x t).prio
    rw [joined_next howner, funext joined_base, funext joined_prio]
    exact hlaw

/-! ## The condition, and the steps -/

/-- The mutex and the call of a task that waits, or is about to try again. -/
def target (s : State n m) (t : Fin n) : Option (Fin m × LockCall) :=
  match s.pc t with
  | .blocked x call _ _ | .retrying x call _ => some (x, call)
  | _ => none

/-- The condition on a round of `lock`: no base priority is 0, which stands for nothing saved. A
task that does not own the mutex is not stopped by the ceiling, there is room in the array, and no
other mutex of the owner is contended. -/
def MayLock (s : State n m) (t : Fin n) (x : Fin m) (call : LockCall) : Prop :=
  call = .lock ∧ (∀ u, 0 < s.base u) ∧ (s.owner x = some t ∨
    s.ceilingBlocks x t = false ∧ s.waitersFull x t = false ∧
      ∀ o, s.owner x = some o → ∀ y, y ≠ x → s.owner y = some o → s.waiters y = [])
  deriving Decidable

/-- The condition on the last `unlock`: the waiters that are left are not above the base priority of
the task, and if there are any, no other mutex of the new owner is contended. -/
def MayUnlock (s : State n m) (t : Fin n) (x : Fin m) : Prop :=
  s.owner x = some t → (s.mutex x).lockCount ≤ 1 → ∀ b ∈ s.selectBestWaiter x,
    (∀ v ∈ WaitArray.swapRemove (s.waiters x) b.1, s.prio v.task ≤ s.base t) ∧
    (WaitArray.swapRemove (s.waiters x) b.1 ≠ [] →
      ∀ y, y ≠ x → s.owner y = some b.2.task → s.waiters y = [])
  deriving Decidable

/-- The tasks use `lock`, `try_lock` and `unlock`, and live on. -/
def Disciplined (s : State n m) : Action n m → Prop
  | .lock t x call => s.MayLock t x call
  | .resume t | .retry t => ∀ q ∈ s.target t, s.MayLock t q.1 q.2
  | .unlock t x => s.MayUnlock t x
  | .block _ | .tryLock _ _ | .wake _ _ | .drain _ | .ready _ => True
  | .removeWaiter _ _ | .terminate _ | .recycle _ _ => False

instance (s : State n m) (a : Action n m) : Decidable (s.Disciplined a) := by
  unfold Disciplined
  exact match a with
  | .lock .. | .block _ | .resume _ | .retry _ | .tryLock .. | .unlock .. | .wake .. | .drain _
  | .removeWaiter .. | .ready _ | .terminate _ | .recycle .. => inferInstance

theorem Inherits.contended {retry : ℕ} (hs : s.Inherits) (hpos : ∀ u, 0 < s.base u)
    (hpc : s.waitsOn t = none ∨ s.waitsOn t = some x) (howner : s.owner x = some o) (hne : o ≠ t)
    (hroom : s.waitersFull x t = false) (hone : ∀ y, y ≠ x → s.owner y = some o → s.waiters y = [])
    (hinherit : s.inheritPriority x t = some s₁) :
    (s₁.register t x .lock retry false).Inherits := by
  obtain hidle | hwaits := hpc
  · have hnone : s.next t = none := by
      rw [next, hidle]
      rfl
    obtain ⟨s₂, hs₂, hlaw, hsaved⟩ := (hs.entering hpos hidle howner hone).inheritPriority howner
      (hs.law.rising hnone)
    rw [hinherit] at hs₂
    cases hs₂
    have hlent := Lent.inheritPriority hinherit
    have harrays := hlent.sameArrays.arrays hs.arrays
    have hidle₁ : s₁.waitsOn t = none := (hlent.waitsOn_eq t).trans hidle
    have hfull : s₁.waitersFull x t = false := by
      rw [waitersFull, hlent.waiter_eq, hlent.waiters_eq]
      exact hroom
    have hmem : s₁.waiter t ∉ s₁.waiters x := fun hmem => harrays.task_ne hmem hidle₁ rfl
    have hregister : s₁.register t x .lock retry false =
        (s₁.joined x t).setPc t (.registered x .lock retry false) := by
      rw [register, hfull, enlist, if_neg hmem]
      rfl
    rw [hregister]
    rw [← hlent.sameArrays.next_eq hs.arrays, ← funext hlent.base_eq] at hlaw
    exact hsaved.joined harrays hidle₁ ((hlent.owner_eq x).trans howner) hne hlaw rfl
  · -- the task has been woken, and waits on
    have hmem := hs.arrays.waiter_mem hwaits
    have hprio : ∀ w ∈ s.waiters x, s.prio w.task ≤ s.prio o :=
      fun w hw => hs.law.le_next _ _ (hs.arrays.next_of_mem hw howner)
    have hmax : s.maxPrio x (s.prio t) ≤ s.prio o := maxPrio_le_iff.mpr ⟨hprio _ hmem, hprio⟩
    have hsame : s₁ = s := by
      rw [State.inheritPriority, howner] at hinherit
      simp only at hinherit
      rw [if_neg (not_lt.mpr hmax)] at hinherit
      exact (some.inj hinherit).symm
    subst hsame
    have hregister : s₁.register t x .lock retry false =
        s₁.setPc t (.registered x .lock retry false) := by
      rw [register, hroom, if_neg Bool.false_ne_true, enlist, if_pos hmem, modify_eq_self]
      exact congrArg (fun y => { s₁.tcb t with waitingOnMutex := y }) hwaits.symm
    have hgraph : SameGraph s₁ (s₁.setPc t (.registered x .lock retry false)) :=
      .setPc (.inr (hs.arrays.calls t x hwaits).symm)
    rw [hregister]
    exact hgraph.inherits hs

theorem Inherits.round {call : LockCall} (hs : s.Inherits) (hok : s.MayLock t x call)
    (hpc : s.waitsOn t = none ∨ s.waitsOn t = some x) (h : Round s t x call s') : s'.Inherits := by
  obtain ⟨hcall, hpos, hmay⟩ := hok
  -- a task that does not wait any more leaves its call
  have hleave : (s.owner x = some t ∨ s.owner x = none) → (s.setPc t .idle).Inherits := by
    intro howner
    refine (SameGraph.setPc (.inl (hpc.resolve_right (fun hwaits => ?_)))).inherits hs
    obtain hown | hfree := howner
    · exact hs.arrays.other t x hwaits hown
    · exact hs.arrays.waiters_ne_nil hwaits (hs.arrays.free x hfree)
  cases h with
  | refused => cases hcall
  | owned call howner => exact (hleave (.inl howner)).reacquire t
  | free call howner => exact (hleave (.inr howner)).acquire howner t true
  | ceiling call retry howner hblocks =>
    obtain ⟨hceiling, -⟩ := hmay.resolve_left howner
    rw [hceiling] at hblocks
    cases hblocks
  | contended call retry howner hne hblocks hinherit =>
    have hother : s.owner x ≠ some t := by
      rw [howner]
      exact fun he => hne (some.inj he)
    obtain ⟨-, hroom, hone⟩ := hmay.resolve_left hother
    subst hcall
    exact hs.contended hpos hpc howner hne hroom (hone _ howner) hinherit

theorem Inherits.unlock (hs : s.Inherits) (hok : s.MayUnlock t x) (hidle : s.waitsOn t = none) :
    (s.unlock t x).Inherits := by
  by_cases howner : s.owner x = some t
  swap
  · rw [State.unlock, if_pos howner]
    exact hs
  rw [State.unlock, if_neg (not_not.mpr howner)]
  split_ifs with hnested
  · exact (SameGraph.setAcquired ..).inherits
      ((SameGraph.onMutex (fun _ => rfl) rfl rfl).inherits hs)
  cases hbest : s.selectBestWaiter x with
  | some b =>
    obtain ⟨hrest, hone⟩ := hok howner (not_lt.mp hnested) b hbest
    exact (SameGraph.setAcquired ..).inherits (hs.handOver hone howner hidle hbest hrest)
  | none =>
    have hempty : s.waiters x = [] := by
      refine eq_nil_iff_forall_not_mem.mpr (fun w hw => ?_)
      have hdead := WaitArray.best_eq_none_iff.mp hbest w hw
      rw [hs.arrays.awakeable_of_mem hw] at hdead
      cases hdead
    exact (SameGraph.setAcquired ..).inherits (hs.release hempty t)

theorem Inherits.step {a : Action n m} (hs : s.Inherits) (hok : s.Disciplined a)
    (h : s.step a = some s') : s'.Inherits := by
  have hidle : ∀ t, s.runs t → s.waitsOn t = none := by
    intro t hruns
    have hpc : s.pc t = .idle := by
      simpa using (Bool.and_eq_true_iff.mp hruns).2
    exact hs.arrays.next_idle (by rw [hpc]; rfl)
  have hready : ∀ t, SameGraph s (s.setState t .ready) := fun _ => .setState nofun nofun
  cases a with try obtain ⟨hruns, rfl⟩ := ite_some_none_eq_some.mp h
  | lock t x call =>
    obtain ⟨hruns, -, hround⟩ := step_lock h
    exact hs.round hok (.inl (hidle t hruns)) hround
  | block t =>
    obtain ⟨x, call, retry, ceiling, hpc, -, rfl⟩ := step_block h
    have hstate : SameGraph s (s.setState t .blocked) := .setState nofun nofun
    refine (SameGraph.setPc (.inr ?_)).inherits (hstate.inherits hs)
    change some x = (s.pc t).waitsFor
    rw [hpc, Pc.waitsFor]
  | resume t =>
    obtain ⟨x, call, retry, ceiling, hpc, -, -, -, hround⟩ := step_resume h
    refine hs.round (hok (x, call) (by rw [target, hpc]; rfl)) ?_ hround
    cases hwaits : s.waitsOn t with
    | none => exact .inl rfl
    | some y =>
      have hy := hs.arrays.calls t y hwaits
      rw [hpc] at hy
      exact .inr hy.symm
  | retry t =>
    obtain ⟨x, call, retry, hpc, -, -, hround⟩ := step_retry h
    refine hs.round (hok (x, call) (by rw [target, hpc]; rfl)) (.inl ?_) hround
    exact hs.arrays.next_idle (by rw [hpc]; rfl)
  | tryLock t x =>
    unfold State.tryLock
    split_ifs with howner hfree
    · exact hs.reacquire t
    · exact hs.acquire hfree t false
    · exact hs
  | unlock t x => exact hs.unlock hok (hidle t hruns.1)
  | wake x remote =>
    obtain ⟨t, -, rfl⟩ := map_eq_some_iff.mp h
    exact SameGraph.inherits { hready t with } hs
  | drain w =>
    unfold State.drain
    split_ifs
    · exact SameGraph.inherits { hready w.task with } hs
    · have hgraph : SameGraph s { s with mail := s.mail.erase w } :=
        .of_mutex (fun _ _ => rfl) (fun _ => rfl) (fun _ => rfl) rfl rfl
      exact hgraph.inherits hs
  | ready t => exact (hready t).inherits hs
  | _ => exact hok.elim

/-! ## The law -/

def ownedWaiters (s : State n m) (t : Fin n) : List (Waiter n) :=
  ((List.finRange m).filter (fun x => s.owner x = some t)).flatMap
    (fun x => (s.waiters x).filter s.awakeable)

/-- The priority that a task should have: the greatest of its base priority and the priorities of
those that wait for its mutexes. -/
def inherited (s : State n m) (t : Fin n) : ℕ :=
  (s.ownedWaiters t).foldl (fun p w => max p (s.prio w.task)) (s.base t)

/-- The task `w` waits for a mutex that `t` owns. -/
def WaitsFor (s : State n m) (w t : Fin n) : Prop := ∃ v ∈ s.ownedWaiters t, v.task = w

theorem mem_ownedWaiters :
    w ∈ s.ownedWaiters t ↔ ∃ x, s.owner x = some t ∧ w ∈ s.waiters x ∧ s.awakeable w = true := by
  simp [ownedWaiters]

theorem Arrays.waitsFor_iff {w : Fin n} (hs : s.Arrays) : s.WaitsFor w t ↔ s.next w = some t := by
  constructor
  · rintro ⟨v, hv, rfl⟩
    obtain ⟨x, howner, hmem, -⟩ := mem_ownedWaiters.mp hv
    exact hs.next_of_mem hmem howner
  · intro hw
    obtain ⟨x, hx, howner⟩ := next_eq_some.mp hw
    have hmem := hs.waiter_mem hx
    exact ⟨s.waiter w, mem_ownedWaiters.mpr ⟨x, howner, hmem, hs.awakeable_of_mem hmem⟩, rfl⟩

theorem Inherits.prio_eq_inherited (hs : s.Inherits) (t : Fin n) : s.prio t = s.inherited t := by
  have hle : s.inherited t ≤ s.prio t := by
    refine (foldl_max_le_iff ..).mpr ⟨hs.law.base_le t, fun w hw => ?_⟩
    exact hs.law.le_next _ _ (hs.arrays.waitsFor_iff.mp ⟨w, hw, rfl⟩)
  have hge := (foldl_max_le_iff (fun w => s.prio w.task) (s.ownedWaiters t) (s.base t) _).mp
    (le_refl (s.inherited t))
  refine le_antisymm ?_ hle
  obtain hbase | ⟨w, hw, hprio⟩ := hs.law.eq_base_or t
  · rw [hbase]
    exact hge.1
  · obtain ⟨v, hv, rfl⟩ := hs.arrays.waitsFor_iff.mpr hw
    rw [hprio]
    exact hge.2 v hv

theorem Inherits.isGreatest (hs : s.Inherits) (t : Fin n) :
    IsGreatest {p | ∃ u, Relation.ReflTransGen s.WaitsFor u t ∧ p = s.base u} (s.prio t) := by
  have hrel : s.WaitsFor = fun a b => s.next a = some b :=
    funext (fun a => funext (fun b => propext hs.arrays.waitsFor_iff))
  rw [hrel]
  exact hs.law.isGreatest t

theorem Start.inherits (hs : s.Start) : s.Inherits := by
  have hwaits : ∀ t, s.waitsOn t = none := fun t => (hs.tcb t).2.1
  have hwaiters : ∀ x, s.waiters x = [] := fun x => (hs.mutex x).2.2
  have hnext : ∀ t, s.next t = none := fun t => by rw [next, hwaits]; rfl
  refine ⟨⟨fun t => (hs.tcb t).2.2.2.2, fun x w => ?_, fun x => ?_, fun x _ => hwaiters x,
    fun t x ht => ?_, fun t x ht => ?_, fun x y o hx => ?_⟩, fun x hx => ?_, fun x o hx => ?_,
    ⟨fun t => (hs.tcb t).1.ge, fun w t hw => ?_, fun t => ⟨t, .refl, (hs.tcb t).1⟩⟩⟩
  · simp [hwaiters, hwaits]
  · rw [hwaiters]
    exact nodup_nil
  · rw [hwaits] at ht
    cases ht
  · rw [hwaits] at ht
    cases ht
  · rw [(hs.mutex x).1] at hx
    cases hx
  · exact absurd (hs.mutex x).2.1 hx
  · rw [(hs.mutex x).1] at hx
    cases hx
  · rw [hnext] at hw
    cases hw

/-- The law of priority inheritance, in every run from unused mutexes whose steps meet the
condition: each task has the greatest of its base priority and the priorities of the live waiters of
its mutexes, which is the greatest base priority among itself and all that wait for it, directly or
through others. A task that owns no mutex has its base priority. -/
theorem inheritance_law {as : List (Action n m)} (hstart : s.Start)
    (hrun : Run step Disciplined s as s') (t : Fin n) :
    s'.prio t = s'.inherited t ∧
    IsGreatest {p | ∃ u, Relation.ReflTransGen s'.WaitsFor u t ∧ p = s'.base u} (s'.prio t) ∧
    ((∀ x, s'.owner x ≠ some t) → s'.prio t = s'.base t) := by
  have hs : s'.Inherits := hrun.invariant (I := Inherits) (fun _ _ _ hs hok h => hs.step hok h)
    hstart.inherits
  refine ⟨hs.prio_eq_inherited t, hs.isGreatest t, fun hnone => hs.prio_eq_base (fun y hy => ?_)⟩
  exact absurd hy (hnone y)

def inheritors : State 4 2 := unused ![5, 10, 9, 3] fun _ => 0

/-- A chain: the second task waits for the first, which waits for the last. -/
theorem inheritance_law_chain : ∃ s, Run step Disciplined inheritors
    [.lock 3 1 .lock, .lock 0 0 .lock, .lock 0 1 .lock, .block 0, .lock 1 0 .lock] s ∧
    s.prio 3 = 10 ∧ s.prio 3 = s.inherited 3 := by
  exact Run.exists_and_of_exec (by decide +kernel) fun _ hrun _ =>
    (inheritance_law (start_unused ..) hrun 3).1

/-- The second and the third task wait for the first. When it unlocks, it keeps the priority of the
third, and the second, the new owner, is given the priority of the first by its `unlock`. -/
theorem inheritance_broken :
    (∃ s, Run step anyStep inheritors
        [.lock 0 0 .lock, .lock 1 0 .lock, .block 1, .lock 2 0 .lock, .block 2, .unlock 0 0] s ∧
      (∀ x, s.owner x ≠ some 0) ∧ s.base 0 = 5 ∧ s.prio 0 = 9) ∧
    ∃ s, Run step anyStep inheritors
        [.lock 0 0 .lock, .lock 1 0 .lock, .block 1, .lock 2 0 .lock, .block 2, .unlock 0 0,
          .wake 0 false, .resume 1, .unlock 1 0] s ∧
      (∀ x, s.owner x ≠ some 1) ∧ s.base 1 = 10 ∧ s.prio 1 = 5 := by
  constructor
  all_goals exact Run.exists_of_exec (by decide +kernel)

end Nexios.Sync.State
