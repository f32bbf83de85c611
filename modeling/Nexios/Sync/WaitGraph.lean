import Nexios.Lib.Inheritance
import Nexios.Sync.Mutex

/-!
# Who waits for whom

A task waits for the owner of the mutex in whose array it is. `Inherits` is what is known of the
priorities as long as at most one mutex of each task is contended: a mutex that has saved a priority
has saved the base priority of its owner, the owner of a contended mutex that has saved none has its
base priority, and the priorities obey the law of inheritance. This file has the operations that
make nobody wait: a mutex is taken, released or handed over.
-/

open Function Option List

namespace Nexios.Sync

open WaitArray Tcb State

variable {n m : ℕ}

namespace State

open Inheritance

variable {s s' : State n m} {t u o b : Fin n} {x y z : Fin m} {f : Mutex n → Mutex n}
  {w : Waiter n}

def base (s : State n m) (t : Fin n) : ℕ := (s.tcb t).basePriority

def holder (s : State n m) (x : Fin m) : ℕ := (s.mutex x).holderPriority

def waitsOn (s : State n m) (t : Fin n) : Option (Fin m) := (s.tcb t).waitingOnMutex

/-- The task that `t` waits for. -/
def next (s : State n m) (t : Fin n) : Option (Fin n) := (s.waitsOn t).bind s.owner

structure Arrays (s : State n m) : Prop where
  live : ∀ t, s.live t = true
  mem_iff : ∀ x w, w ∈ s.waiters x ↔ w = s.waiter w.task ∧ s.waitsOn w.task = some x
  nodup : ∀ x, (s.waiters x).Nodup
  free : ∀ x, s.owner x = none → s.waiters x = []
  calls : ∀ t x, s.waitsOn t = some x → (s.pc t).waitsFor = some x
  other : ∀ t x, s.waitsOn t = some x → s.owner x ≠ some t
  /-- at most one mutex of a task is contended -/
  one : ∀ x y o, s.owner x = some o → s.owner y = some o → s.waiters x ≠ [] → s.waiters y ≠ [] →
    x = y

structure Inherits (s : State n m) : Prop where
  arrays : s.Arrays
  saved : ∀ x, s.holder x ≠ 0 → s.waiters x ≠ [] ∧ ∃ o, s.owner x = some o ∧ s.holder x = s.base o
  plain : ∀ x o, s.owner x = some o → s.waiters x ≠ [] → s.holder x = 0 → s.prio o = s.base o
  law : Law s.next s.base s.prio

theorem next_eq_some : s.next t = some o ↔ ∃ x, s.waitsOn t = some x ∧ s.owner x = some o :=
  bind_eq_some_iff

namespace Arrays

variable (hs : s.Arrays)
include hs

theorem waiter_mem (h : s.waitsOn t = some x) : s.waiter t ∈ s.waiters x :=
  (hs.mem_iff x (s.waiter t)).mpr ⟨rfl, h⟩

theorem waiters_ne_nil (h : s.waitsOn t = some x) : s.waiters x ≠ [] :=
  ne_nil_of_mem (hs.waiter_mem h)

theorem waitsOn_of_mem (hw : w ∈ s.waiters x) : s.waitsOn w.task = some x :=
  ((hs.mem_iff x w).mp hw).2

theorem task_ne (hw : w ∈ s.waiters x) (ht : s.waitsOn t = none) : w.task ≠ t := by
  rintro rfl
  cases ht.symm.trans (hs.waitsOn_of_mem hw)

theorem awakeable_of_mem (hw : w ∈ s.waiters x) : s.awakeable w = true := by
  have hgeneration : w.generation = (s.tcb w.task).generation :=
    congrArg Waiter.generation ((hs.mem_iff x w).mp hw).1
  simp [awakeable, hs.live, hgeneration]

theorem next_of_mem (hw : w ∈ s.waiters x) (howner : s.owner x = some o) : s.next w.task = some o :=
  next_eq_some.mpr ⟨x, hs.waitsOn_of_mem hw, howner⟩

theorem next_idle (h : (s.pc t).waitsFor = none) : s.waitsOn t = none := by
  cases hw : s.waitsOn t with
  | none => rfl
  | some x =>
    rw [hs.calls t x hw] at h
    cases h

end Arrays

theorem Inherits.prio_eq_base (hs : s.Inherits) (h : ∀ y, s.owner y = some o → s.waiters y = []) :
    s.prio o = s.base o := by
  refine (hs.law.eq_base_or o).resolve_right ?_
  rintro ⟨w, hw, -⟩
  obtain ⟨y, hy, howner⟩ := next_eq_some.mp hw
  exact hs.arrays.waiters_ne_nil hy (h y howner)

/-! ## Steps without effect on the graph -/

/-- The arrays are the same, and so are the owners of the contended mutexes. -/
structure SameArrays (s s' : State n m) : Prop where
  owner : ∀ x, s.waiters x ≠ [] → s'.owner x = s.owner x
  waiters : ∀ x, s'.waiters x = s.waiters x
  waitsOn : ∀ t, s'.waitsOn t = s.waitsOn t
  waiter : ∀ t, s'.waiter t = s.waiter t
  live : ∀ t, s.live t → s'.live t
  calls : ∀ t x, s.waitsOn t = some x → (s.pc t).waitsFor = some x → (s'.pc t).waitsFor = some x

theorem SameArrays.arrays (h : SameArrays s s') (hs : s.Arrays) : s'.Arrays := by
  refine ⟨fun t => h.live t (hs.live t), fun x w => ?_, fun x => ?_, fun x hx => ?_,
    fun t x ht => ?_, fun t x ht => ?_, fun x y o hx hy hxw hyw => ?_⟩
  · rw [h.waiters, h.waiter, h.waitsOn]
    exact hs.mem_iff x w
  · rw [h.waiters]
    exact hs.nodup x
  · rw [h.waiters]
    by_contra hne
    exact hne (hs.free x ((h.owner x hne).symm.trans hx))
  · rw [h.waitsOn] at ht
    exact h.calls t x ht (hs.calls t x ht)
  · rw [h.waitsOn] at ht
    rw [h.owner x (hs.waiters_ne_nil ht)]
    exact hs.other t x ht
  · rw [h.waiters] at hxw hyw
    rw [h.owner x hxw] at hx
    rw [h.owner y hyw] at hy
    exact hs.one x y o hx hy hxw hyw

theorem SameArrays.next_eq (h : SameArrays s s') (hs : s.Arrays) : s'.next = s.next := by
  funext t
  rw [next, next, h.waitsOn]
  cases ht : s.waitsOn t with
  | none => rfl
  | some y => exact h.owner y (hs.waiters_ne_nil ht)

structure SameGraph (s s' : State n m) : Prop extends SameArrays s s' where
  holder : ∀ x, s'.holder x = s.holder x
  prio : ∀ t, s'.prio t = s.prio t
  base : ∀ t, s'.base t = s.base t

namespace SameGraph

theorem inherits (h : SameGraph s s') (hs : s.Inherits) : s'.Inherits := by
  refine ⟨h.arrays hs.arrays, fun x hx => ?_, fun x o hx hxw => ?_, ?_⟩
  · rw [h.holder] at hx ⊢
    obtain ⟨hne, o, howner, hbase⟩ := hs.saved x hx
    rw [h.waiters, h.owner x hne]
    exact ⟨hne, o, howner, hbase.trans (h.base o).symm⟩
  · rw [h.waiters] at hxw
    rw [h.owner x hxw] at hx
    rw [h.holder, h.prio, h.base]
    exact hs.plain x o hx hxw
  · rw [h.next_eq hs.arrays, funext h.base, funext h.prio]
    exact hs.law

theorem of_mutex {s s' : State n m} (howner : ∀ x, s.waiters x ≠ [] → s'.owner x = s.owner x)
    (hwaiters : ∀ x, s'.waiters x = s.waiters x) (hholder : ∀ x, s'.holder x = s.holder x)
    (htcb : s'.tcb = s.tcb) (hpc : s'.pc = s.pc) : SameGraph s s' := by
  cases s'
  cases htcb
  cases hpc
  exact ⟨⟨howner, hwaiters, fun _ => rfl, fun _ => rfl, fun _ h => h, fun _ _ _ h => h⟩, hholder,
    fun _ => rfl, fun _ => rfl⟩

theorem onMutex (howner : s.waiters x ≠ [] → (f (s.mutex x)).owner = s.owner x)
    (hwaiters : (f (s.mutex x)).waiters = s.waiters x)
    (hholder : (f (s.mutex x)).holderPriority = s.holder x) : SameGraph s (s.onMutex x f) := by
  refine of_mutex (fun y hy => ?_) (onMutex_field Mutex.waiters hwaiters)
    (onMutex_field Mutex.holderPriority hholder) rfl rfl
  by_cases hyx : y = x
  · subst hyx
    exact (congrArg Mutex.owner (onMutex_self f)).trans (howner hy)
  · exact congrArg Mutex.owner (onMutex_ne f hyx)

theorem setAcquired (s : State n m) (t : Fin n) (x : Fin m) (k : ℕ) :
    SameGraph s (s.setAcquired t x k) :=
  of_mutex (fun _ _ => rfl) (fun _ => rfl) (fun _ => rfl) rfl rfl

theorem modify {f : Tcb m → Tcb m} (st : Sched.TaskState) (cs : List ℕ) (c : ℕ)
    (hf : f (s.tcb t) = { s.tcb t with state := st, heldCeilings := cs, systemCeiling := c })
    (hlive : s.live t → st ≠ .terminated ∧ st ≠ .reaped) : SameGraph s (s.modify t f) := by
  have hgeneration := modify_field (s := s) (t := t) (f := f) generation (by rw [hf])
  refine ⟨⟨fun _ _ => rfl, fun _ => rfl, modify_field waitingOnMutex (by rw [hf]),
    fun u => congrArg (Waiter.mk u) (hgeneration u), fun u hu => ?_, fun _ _ _ h => h⟩,
    fun _ => rfl, modify_field priority (by rw [hf]),
    modify_field basePriority (by rw [hf])⟩
  by_cases hut : u = t
  · subst hut
    rw [live, modify_self, hf]
    simp [hlive hu]
  · rw [live, modify_ne f hut]
    exact hu

theorem setState {st : Sched.TaskState} (hst : st ≠ .terminated) (hst' : st ≠ .reaped) :
    SameGraph s (s.setState t st) :=
  modify st (s.tcb t).heldCeilings (s.tcb t).systemCeiling rfl (fun _ => ⟨hst, hst'⟩)

theorem ne_of_live (h : s.live t) :
    (s.tcb t).state ≠ .terminated ∧ (s.tcb t).state ≠ .reaped := by
  simpa [live] using h

theorem pushCeiling (s : State n m) (t : Fin n) (c : ℕ) :
    SameGraph s (s.modify t (pushCeiling c)) := by
  by_cases h : 0 < c ∧ (s.tcb t).heldCeilings.length < maxHeldCeilings
  · exact modify _ _ _ (if_pos h) ne_of_live
  · exact modify _ (s.tcb t).heldCeilings (s.tcb t).systemCeiling (if_neg h) ne_of_live

theorem popCeiling (s : State n m) (t : Fin n) (c : ℕ) :
    SameGraph s (s.modify t (popCeiling c)) := by
  by_cases h : c = 0 ∨ (s.tcb t).heldCeilings = []
  · exact modify _ (s.tcb t).heldCeilings (s.tcb t).systemCeiling (if_pos h) ne_of_live
  · exact modify _ _ _ (if_neg h) ne_of_live

theorem setPc {p : Pc m} (h : s.waitsOn t = none ∨ p.waitsFor = (s.pc t).waitsFor) :
    SameGraph s (s.setPc t p) := by
  refine ⟨⟨fun _ _ => rfl, fun _ => rfl, fun _ => rfl, fun _ => rfl, fun _ h => h,
    fun u x hu hc => ?_⟩, fun _ => rfl, fun _ => rfl, fun _ => rfl⟩
  by_cases hut : u = t
  · subst hut
    have hpc : (s.setPc u p).pc u = p := update_self ..
    obtain hnone | hsame := h
    · rw [hnone] at hu
      cases hu
    · rw [hpc, hsame, hc]
  · have hpc : (s.setPc t p).pc u = s.pc u := update_of_ne hut ..
    rw [hpc, hc]

end SameGraph

/-! ## A mutex without waiters -/

theorem Inherits.holder_eq_zero (hs : s.Inherits) (h : s.waiters x = []) : s.holder x = 0 := by
  by_contra hne
  exact (hs.saved x hne).1 h

theorem Inherits.acquire (hs : s.Inherits) (hfree : s.owner x = none) (t : Fin n) (push : Bool) :
    (s.acquire x t push).Inherits := by
  have htake : (s.onMutex x (fun mu => { mu with owner := some t, lockCount := 1 })).Inherits :=
    (SameGraph.onMutex (absurd (hs.arrays.free x hfree)) rfl rfl).inherits hs
  cases push with
  | false => exact (SameGraph.setAcquired ..).inherits htake
  | true => exact (SameGraph.setAcquired ..).inherits ((SameGraph.pushCeiling ..).inherits htake)

theorem Inherits.reacquire (hs : s.Inherits) (t : Fin n) : (s.reacquire x t).Inherits :=
  (SameGraph.setAcquired ..).inherits ((SameGraph.onMutex (fun _ => rfl) rfl rfl).inherits hs)

theorem restorePriority_of_zero (h : s.holder x = 0) : s.restorePriority x = s := by
  unfold restorePriority
  split
  · rfl
  · exact if_pos h

theorem Inherits.release (hs : s.Inherits) (hempty : s.waiters x = []) (t : Fin n) :
    (s.free t x).Inherits := by
  unfold free
  rw [restorePriority_of_zero (hs.holder_eq_zero hempty)]
  exact (SameGraph.popCeiling ..).inherits ((SameGraph.onMutex (absurd hempty) rfl rfl).inherits hs)

/-! ## A mutex is handed over -/

theorem foldl_max_le_iff {α : Type*} (f : α → ℕ) (l : List α) (p k : ℕ) :
    l.foldl (fun p a => max p (f a)) p ≤ k ↔ p ≤ k ∧ ∀ a ∈ l, f a ≤ k := by
  induction l generalizing p with
  | nil => simp
  | cons a l ih =>
    rw [foldl_cons, ih, max_le_iff, forall_mem_cons, and_assoc]

theorem maxPrio_le_iff {p k : ℕ} :
    s.maxPrio x p ≤ k ↔ p ≤ k ∧ ∀ w ∈ s.waiters x, s.prio w.task ≤ k :=
  foldl_max_le_iff ..

theorem modify_eq_self {f : Tcb m → Tcb m} (h : f (s.tcb t) = s.tcb t) : s.modify t f = s := by
  rw [modify, h, update_eq_self]

theorem restorePriority_eq (howner : s.owner x = some t)
    (hsaved : s.holder x ≠ 0 → s.holder x = s.base t)
    (hplain : s.holder x = 0 → s.prio t = s.base t) (hrest : s.maxPrio x 0 ≤ s.base t) :
    s.restorePriority x =
      (s.onMutex x (fun mu => { mu with holderPriority := 0 })).modify t
        (fun tcb => { tcb with priority := tcb.basePriority }) := by
  by_cases hzero : s.holder x = 0
  · have hsame : { s.mutex x with holderPriority := 0 } = s.mutex x :=
      congrArg (fun p => { s.mutex x with holderPriority := p }) hzero.symm
    rw [restorePriority_of_zero hzero, onMutex, hsame, update_eq_self, modify_eq_self]
    exact congrArg (fun p => { s.tcb t with priority := p }) (hplain hzero).symm
  have hsaved := hsaved hzero
  rw [holder] at hsaved hzero
  rw [restorePriority, howner]
  simp only
  rw [if_neg hzero, if_neg (by omega), hsaved]
  rfl

/-- The state after the mutex is handed over, without the ceilings and the wake-up. -/
def passed (s : State n m) (t : Fin n) (x : Fin m) (i : ℕ) (b : Fin n) : State n m :=
  ((s.modify b (fun tcb => { tcb with waitingOnMutex := none })).modify t
      (fun tcb => { tcb with priority := tcb.basePriority })).onMutex x
    (fun mu =>
      { mu with
        owner := some b
        holderPriority := 0
        waiters := swapRemove mu.waiters i })

theorem SameGraph.handOver {i : ℕ} (howner : s.owner x = some t)
    (hsaved : s.holder x ≠ 0 → s.holder x = s.base t)
    (hplain : s.holder x = 0 → s.prio t = s.base t)
    (hrest : ∀ v ∈ swapRemove (s.waiters x) i, s.prio v.task ≤ s.base t) :
    SameGraph ((s.passed t x i w.task).modify t (Tcb.popCeiling (s.mutex x).priorityCeiling))
      (s.handOver t x i w) := by
  generalize hr : s.dequeued x i w = r
  have hprio : ∀ u, r.prio u = s.prio u := by
    rw [← hr]
    exact modify_field (s := s) (f := fun tcb => { tcb with waitingOnMutex := none }) priority rfl
  have hbase : r.base t = s.base t := by
    rw [← hr]
    exact modify_field (f := fun tcb => { tcb with waitingOnMutex := none }) basePriority rfl t
  have hmutex : r.mutex x = { s.mutex x with waiters := swapRemove (s.waiters x) i } := by
    rw [← hr]
    exact onMutex_self _
  have howner' : r.owner x = some t := by rw [State.owner, hmutex]; exact howner
  have hholder : r.holder x = s.holder x := by rw [State.holder, hmutex]; rfl
  have hrestored := restorePriority_eq howner' (by rwa [hholder, hbase])
    (by rwa [hholder, hprio, hbase]) (maxPrio_le_iff.mpr ⟨Nat.zero_le _, fun v hv => by
      rw [State.waiters, hmutex] at hv
      rw [hprio, hbase]
      exact hrest v hv⟩)
  simp only [State.handOver, hr, hrestored]
  rw [← hr]
  refine of_mutex (fun y _ => ?_) (fun y => ?_) (fun y => ?_) rfl rfl
  all_goals
    by_cases hy : y = x
    · subst hy
      simp [State.owner, State.waiters, State.holder, passed]
    · simp [State.owner, State.waiters, State.holder, passed, onMutex_ne _ hy]

variable {i : ℕ}

theorem passed_owner : (s.passed t x i b).owner = update s.owner x (some b) :=
  comp_update Mutex.owner s.mutex x _

theorem passed_waiters :
    (s.passed t x i b).waiters = update s.waiters x (swapRemove (s.waiters x) i) :=
  comp_update Mutex.waiters s.mutex x _

theorem passed_holder : (s.passed t x i b).holder = update s.holder x 0 :=
  comp_update Mutex.holderPriority s.mutex x _

theorem passed_field {β : Type*} (π : Tcb m → β)
    (hπ : ∀ i o p, π { i with waitingOnMutex := o, priority := p } = π i) (u : Fin n) :
    π ((s.passed t x i b).tcb u) = π (s.tcb u) := by
  rw [passed, onMutex_tcb, modify_field π, modify_field π]
  all_goals exact hπ _ _ _

theorem passed_base (u : Fin n) : (s.passed t x i b).base u = s.base u :=
  passed_field basePriority (fun _ _ _ => rfl) u

theorem passed_prio : (s.passed t x i b).prio = update s.prio t (s.base t) := by
  refine (comp_update priority _ t _).trans (congrArg₂ (update · t) ?_ ?_)
  · exact funext (modify_field priority rfl)
  · exact modify_field basePriority rfl t

theorem passed_waitsOn : (s.passed t x i b).waitsOn = update s.waitsOn b none := by
  funext u
  rw [waitsOn, passed, onMutex_tcb, modify_field waitingOnMutex rfl]
  exact congrFun (comp_update waitingOnMutex s.tcb b _) u

theorem passed_waiter (u : Fin n) : (s.passed t x i b).waiter u = s.waiter u :=
  congrArg (Waiter.mk u) (passed_field Tcb.generation (fun _ _ _ => rfl) u)

theorem passed_live (u : Fin n) : (s.passed t x i b).live u = s.live u := by
  unfold live
  rw [passed_field state fun _ _ _ => rfl]

variable (hperm : (s.waiters x).Perm (w :: swapRemove (s.waiters x) i))
  (hone : swapRemove (s.waiters x) i ≠ [] → ∀ y, y ≠ x → s.owner y = some w.task → s.waiters y = [])
include hperm hone

theorem Arrays.passed (hs : s.Arrays) : (s.passed t x i w.task).Arrays := by
  have hw : w ∈ s.waiters x := hperm.mem_iff.mpr mem_cons_self
  obtain ⟨hcurrent, hwaits⟩ := (hs.mem_iff x w).mp hw
  have hnodup := hperm.nodup_iff.mp (hs.nodup x)
  have hleft : ∀ u y, (s.passed t x i w.task).waitsOn u = some y →
      u ≠ w.task ∧ s.waitsOn u = some y := by
    intro u y hu
    rw [passed_waitsOn] at hu
    exact (eq_or_of_update hu).resolve_left (fun h => nomatch h.2)
  refine ⟨fun u => ?_, fun y v => ?_, fun y => ?_, fun y hy => ?_, fun u y hu => ?_, fun u y hu => ?_,
    fun y z o hy hz hyw hzw => ?_⟩
  · rw [passed_live]
    exact hs.live u
  · rw [passed_waiter, passed_waitsOn, passed_waiters]
    by_cases hv : v.task = w.task
    · -- the new owner is in no array
      rw [hv, update_self]
      refine iff_of_false (fun hmem => ?_) (fun h => nomatch h.2)
      have hmem' : v ∈ s.waiters y ∧ (y = x → v ≠ w) := by
        by_cases hy : y = x
        · subst hy
          rw [update_self] at hmem
          refine ⟨hperm.mem_iff.mpr (mem_cons_of_mem _ hmem), fun _ hvw => ?_⟩
          exact (nodup_cons.mp hnodup).1 (hvw ▸ hmem)
        · rw [update_of_ne hy] at hmem
          exact ⟨hmem, fun h => absurd h hy⟩
      obtain ⟨hvcurrent, hvwaits⟩ := (hs.mem_iff y v).mp hmem'.1
      rw [hv, hwaits] at hvwaits
      refine hmem'.2 (some.inj hvwaits).symm ?_
      rw [hvcurrent, hv, ← hcurrent]
    · rw [update_of_ne hv]
      by_cases hy : y = x
      · subst hy
        rw [update_self, ← hs.mem_iff, hperm.mem_iff, mem_cons]
        exact ⟨.inr, fun h => h.resolve_left (fun hvw => hv (congrArg Waiter.task hvw))⟩
      · rw [update_of_ne hy]
        exact hs.mem_iff y v
  · rw [passed_waiters]
    exact (forall_update_iff s.waiters fun _ l => l.Nodup).mpr
      ⟨(nodup_cons.mp hnodup).2, fun y _ => hs.nodup y⟩ y
  · rw [passed_owner] at hy
    obtain ⟨hyx, hy⟩ := (eq_or_of_update hy).resolve_left (fun h => nomatch h.2)
    rw [passed_waiters, update_of_ne hyx]
    exact hs.free y hy
  · exact hs.calls u y (hleft u y hu).2
  · obtain ⟨huw, hu⟩ := hleft u y hu
    rw [passed_owner]
    intro hy
    obtain ⟨-, heq⟩ | ⟨-, hy⟩ := eq_or_of_update hy
    · exact huw (some.inj heq).symm
    · exact hs.other u y hu hy
  · rw [passed_owner] at hy hz
    rw [passed_waiters] at hyw hzw
    -- a second contended mutex of the new owner is what `hone` excludes
    obtain ⟨rfl, hyo⟩ | ⟨hyx, hyo⟩ := eq_or_of_update hy
    all_goals obtain ⟨rfl, hzo⟩ | ⟨hzx, hzo⟩ := eq_or_of_update hz
    · rfl
    · rw [update_self] at hyw
      rw [update_of_ne hzx] at hzw
      exact absurd (hone hyw z hzx (hzo.trans hyo.symm)) hzw
    · rw [update_self] at hzw
      rw [update_of_ne hyx] at hyw
      exact absurd (hone hzw y hyx (hyo.trans hzo.symm)) hyw
    · rw [update_of_ne hyx] at hyw
      rw [update_of_ne hzx] at hzw
      exact hs.one y z o hyo hzo hyw hzw

theorem Inherits.passed (hs : s.Inherits) (howner : s.owner x = some t)
    (hidle : s.waitsOn t = none) (hbest : ∀ v ∈ s.waiters x, s.prio v.task ≤ s.prio w.task) :
    (s.passed t x i w.task).Inherits := by
  have hw : w ∈ s.waiters x := hperm.mem_iff.mpr mem_cons_self
  have hwaits : s.waitsOn w.task = some x := hs.arrays.waitsOn_of_mem hw
  have hwt := hs.arrays.task_ne hw hidle
  have hnext : ∀ v o, (s.passed t x i w.task).next v = some o ↔ v ≠ w.task ∧ ∃ y,
      s.waitsOn v = some y ∧ update s.owner x (some w.task) y = some o := by
    intro v o
    rw [next_eq_some, passed_waitsOn, passed_owner]
    by_cases hv : v = w.task
    all_goals simp [hv]
  refine ⟨hs.arrays.passed hperm hone, fun y hy => ?_, fun y o hy hyw hyh => ?_, ?_⟩
  · rw [passed_holder] at hy ⊢
    have hyx : y ≠ x := by
      rintro rfl
      exact hy (update_self ..)
    rw [update_of_ne hyx] at hy ⊢
    rw [passed_waiters, passed_owner, update_of_ne hyx, update_of_ne hyx]
    obtain ⟨hne, o, ho, hbase⟩ := hs.saved y hy
    exact ⟨hne, o, ho, hbase.trans (passed_base o).symm⟩
  · rw [passed_base, passed_prio]
    rw [passed_owner] at hy
    rw [passed_waiters] at hyw
    rw [passed_holder] at hyh
    obtain ⟨rfl, hwo⟩ | ⟨hyx, hy⟩ := eq_or_of_update hy
    · -- nobody waited for the new owner, so it has its base priority
      rw [update_self] at hyw
      cases hwo
      rw [update_of_ne hwt]
      refine hs.prio_eq_base (fun z hz => hone hyw z ?_ hz)
      rintro rfl
      rw [howner] at hz
      exact hwt (some.inj hz).symm
    · rw [update_of_ne hyx] at hyw hyh
      by_cases hot : o = t
      · subst hot
        rw [update_self]
      · rw [update_of_ne hot]
        exact hs.plain y o hy hyw hyh
  · rw [passed_prio, funext passed_base]
    refine hs.law.release ?_ (fun v hv => ?_) (fun v o ho hv => ?_) (fun v o hv => ?_)
    · rw [next, hidle]
      rfl
    · -- the other mutexes of `t` are not contended
      obtain ⟨hvw, y, hvy, hy⟩ := (hnext v t).mp hv
      obtain ⟨hyx, hy⟩ := (eq_or_of_update hy).resolve_left (fun h => hwt (some.inj h.2))
      exact hyx (hs.arrays.one y x t hy howner (hs.arrays.waiters_ne_nil hvy) (ne_nil_of_mem hw))
    · obtain ⟨y, hvy, hy⟩ := next_eq_some.mp hv
      have hyx : y ≠ x := by
        rintro rfl
        rw [howner] at hy
        exact ho (some.inj hy).symm
      refine (hnext v o).mpr ⟨?_, y, hvy, (update_of_ne hyx ..).trans hy⟩
      rintro rfl
      rw [hwaits] at hvy
      exact hyx (some.inj hvy).symm
    · obtain ⟨hvw, y, hvy, hy⟩ := (hnext v o).mp hv
      obtain ⟨rfl, hwo⟩ | ⟨-, hy⟩ := eq_or_of_update hy
      · cases hwo
        refine .inr ⟨?_, hbest _ (hs.arrays.waiter_mem hvy)⟩
        rintro rfl
        rw [hidle] at hvy
        cases hvy
      · exact .inl (next_eq_some.mpr ⟨y, hvy, hy⟩)

omit hperm in
/-- The last `unlock` of the owner: the priority that was lent to it is needed no more, and the
waiters that are left go over to the new owner. -/
theorem Inherits.handOver (hs : s.Inherits) (howner : s.owner x = some t)
    (hidle : s.waitsOn t = none) (hbest : s.selectBestWaiter x = some (i, w))
    (hrest : ∀ v ∈ swapRemove (s.waiters x) i, s.prio v.task ≤ s.base t) :
    (s.handOver t x i w).Inherits := by
  obtain ⟨hperm, -, hgreatest⟩ := perm_of_best hbest
  have hw : w ∈ s.waiters x := hperm.mem_iff.mpr mem_cons_self
  have hpassed := hs.passed hperm hone howner hidle
    fun v hv => hgreatest v hv (hs.arrays.awakeable_of_mem hv)
  refine (SameGraph.handOver howner (fun hne => ?_) (fun hzero => ?_) hrest).inherits
    ((SameGraph.popCeiling ..).inherits hpassed)
  · obtain ⟨-, o, ho, hbase⟩ := hs.saved x hne
    rw [howner] at ho
    cases ho
    exact hbase
  · exact hs.plain x t howner (ne_nil_of_mem hw) hzero

end State

end Nexios.Sync
