import Nexios.Lib.Filter
import Nexios.Sched.Invariant
import Mathlib.Algebra.Order.BigOperators.Group.List
import Mathlib.Algebra.Order.Group.Nat

/-!
# Admission

A task is admitted to the CPU that its affinity mask names if the utilizations of the tasks of that
CPU, in millionths and rounded down, stay within a table of bounds. The test is made when a task is
added and when a change of its mask moves it to another CPU; a task that leaves is not tested, since
the bounds fall with the number of tasks.

The sums are computed in machine words. The comment in the source that a WCET times 1000000 does not
overflow rests on a period below `2 ^ 32`, which nothing enforces. The explicit WCETs are a
parameter: no step modelled here writes them.
-/

open Function Option List Nat

namespace Nexios.Sched

variable {n k : ℕ}

inductive SchedulerError
  | ok
  | tableFull
  | notFound
  | duplicateId
  | admissionDenied
  | wcetInvalid
  deriving DecidableEq

def liuLeylandMaxTasks : ℕ := 20

def liuLeylandBounds : List ℕ :=
  [0, 1000000, 828427, 779763, 756828, 743491, 734772, 728626, 724061, 720537, 717734, 715451,
    713557, 711958, 710592, 709409, 708378, 707472, 706669, 705952, 705298]

def liuLeylandLimit : ℕ := 693147

def liuLeylandBound (tasks : ℕ) : ℕ :=
  if tasks ≤ liuLeylandMaxTasks then liuLeylandBounds.getD tasks 0 else liuLeylandLimit

def maxTasks : ℕ := 64

namespace Scheduler

variable {wcet : Fin n → ℕ} {s s' s₁ : Scheduler n k} {here c : Cpu k} {t u : Fin n}

variable (wcet : Fin n → ℕ) (s : Scheduler n k)

def admissionExempted (t : Fin n) : Bool :=
  s.isIdleTask t || (s.tcb t).edfExempt || !(s.tcb t).isRtTask || (s.tcb t).deadlineTicks = 0

def checkWcet (t : Fin n) : SchedulerError :=
  if wcet t = 0 then .ok
  else if !(s.tcb t).isRtTask then .wcetInvalid
  else if (s.tcb t).periodTicks < wcet t then .wcetInvalid
  else .ok

/-- Explicit WCET, else the budget of the server, else what remains of the period. -/
def serverBudgetForAdmission (t : Fin n) : ℕ :=
  if 0 < wcet t then wcet t
  else
    match (s.tcb t).sporadicServer with
    | some ss => ss.budgetC
    | none => (s.tcb t).remainingTicks

def utilWord (t : Fin n) : ℕ :=
  s.serverBudgetForAdmission wcet t * 1000000 % 2 ^ 64 / (s.tcb t).periodTicks

def countedOn (c : Cpu k) (t : Fin n) : Bool :=
  !s.admissionExempted t && s.home t = c

/-- The loop of `admission_check_cpu_locked`: the sum and the number of the tasks of CPU `c`, the
candidate `t` left out. -/
def admissionLoop (wcet : Fin n → ℕ) (s : Scheduler n k) (t : Fin n) (c : Cpu k) :
    List (Fin n) → ℕ × ℕ → ℕ × ℕ
  | [], acc => acc
  | u :: us, (total, tasks) =>
    if (s.tcb u).id ≠ (s.tcb t).id ∧ s.countedOn c u then
      s.admissionLoop wcet t c us ((total + s.utilWord wcet u) % 2 ^ 64, tasks + 1)
    else s.admissionLoop wcet t c us (total, tasks)

def admissionCheckCpu (t : Fin n) (c : Cpu k) :
    SchedulerError :=
  if s.admissionExempted t then .ok
  else if s.checkWcet wcet t ≠ .ok then s.checkWcet wcet t
  else
    let (total, tasks) := s.admissionLoop wcet t c s.allTasks (0, 0)
    if liuLeylandBound (tasks + 1) < (total + s.utilWord wcet t) % 2 ^ 64 then .admissionDenied
    else .ok

/-- The task enters the registry and the id table, and its links are reset. -/
def register (t : Fin n) : Scheduler n k :=
  { s with
    allTasks := s.allTasks ++ [t]
    idTable := update s.idTable (s.tcb t).id (some t)
    rq := { s.rq with
      inReadyQueue := update s.rq.inReadyQueue t false
      links := (s.rq.links.setNext t none).setPrev t none }
    edf := { s.edf with
      inEdfQueue := update s.edf.inEdfQueue t false
      links := (s.edf.links.setNext t none).setPrev t none } }

def addTaskErr (here : Cpu k) (s : Scheduler n k) (t : Fin n) :
    Option (Scheduler n k × SchedulerError) :=
  if maxTasks ≤ s.allTasks.length then some (s, .tableFull)
  else if (s.findTask (s.tcb t).id).isSome then some (s, .duplicateId)
  else if s.admissionCheckCpu wcet t (s.home t) ≠ .ok then
    some (s, s.admissionCheckCpu wcet t (s.home t))
  else ((s.register t).enqueueReady here t).map (fun s => (s, .ok))

/-- A task that is not the one its id stands for is not in the registry, and stays out of it. -/
def unregister (t : Fin n) : Scheduler n k :=
  { s with
    allTasks := s.allTasks.erase t
    idTable := if s.owned t then update s.idTable (s.tcb t).id none else s.idTable }

def removeTaskErr (t : Fin n) : Option (Scheduler n k × SchedulerError) :=
  if (s.findTask (s.tcb t).id).isNone then some (s, .notFound)
  else ((s.unregister t).dequeueReady t).map (fun s => (s, .ok))

/-- The answer of the admission test to a new mask: a task that stays on its CPU is not tested. -/
def affinityAnswer (t : Fin n) (mask : BitVec 64) :
    SchedulerError :=
  if maskTarget k mask ≠ s.home t ∧ !s.admissionExempted t then
    s.admissionCheckCpu wcet t (maskTarget k mask)
  else .ok

/-- A task that runs on another CPU is left alone, with success as the answer. -/
def setAffinityErr (here : Cpu k) (s : Scheduler n k) (t : Fin n)
    (mask : BitVec 64) : Option (Scheduler n k × SchedulerError) :=
  let answer := s.affinityAnswer wcet t (s.affinityMask t mask)
  let asked := !(s.isCurrentOnAnyCpu t && s.current here ≠ some t) &&
    (s.tcb t).cpuAffinity ≠ s.affinityMask t mask
  (s.setAffinity here t mask (answer = .ok)).map
    (fun s' => (s', if asked then answer else .ok))

/-! ## The sum of a CPU -/

/-- The registered tasks that are counted for CPU `c`. -/
def counted (c : Cpu k) : List (Fin n) := s.allTasks.filter (s.countedOn c)

def scaledUtil (t : Fin n) : ℕ :=
  s.serverBudgetForAdmission wcet t * 1000000 / (s.tcb t).periodTicks

/-- The tasks `us` are within the bound for their number. -/
def WithinBound (us : List (Fin n)) : Prop :=
  (us.map (s.scaledUtil wcet)).sum ≤ liuLeylandBound us.length
  deriving Decidable

variable {wcet} {s} {us vs : List (Fin n)}

theorem liuLeylandBound_anti {m l : ℕ} (hm : 0 < m) (hml : m ≤ l) :
    liuLeylandBound l ≤ liuLeylandBound m := by
  have htable : ∀ l ≤ 20, ∀ m ≤ l, 0 < m → liuLeylandBound l ≤ liuLeylandBound m := by decide
  have hlimit : ∀ m ≤ 20, 0 < m → liuLeylandLimit ≤ liuLeylandBound m := by decide
  by_cases hl : l ≤ 20
  · exact htable l hl m hml hm
  · have hbound : liuLeylandBound l = liuLeylandLimit := if_neg hl
    rw [hbound]
    by_cases hm' : m ≤ 20
    · exact hlimit m hm' hm
    · exact (if_neg hm' : liuLeylandBound m = liuLeylandLimit).ge

theorem liuLeylandBound_le (m : ℕ) : liuLeylandBound m ≤ 1000000 := by
  rcases Nat.eq_zero_or_pos m with rfl | hm
  · decide
  · exact liuLeylandBound_anti one_pos hm

theorem WithinBound.sublist (h : s.WithinBound wcet us) (hsub : vs.Sublist us) :
    s.WithinBound wcet vs := by
  rcases Nat.eq_zero_or_pos vs.length with hzero | hpos
  · rw [eq_nil_of_length_eq_zero hzero]
    exact zero_le _
  · calc (vs.map (s.scaledUtil wcet)).sum ≤ (us.map (s.scaledUtil wcet)).sum :=
          (hsub.map _).sum_le_sum (fun _ _ => zero_le _)
      _ ≤ liuLeylandBound us.length := h
      _ ≤ liuLeylandBound vs.length := liuLeylandBound_anti hpos hsub.length_le

/-- The tasks among `us` that a candidate `t` for CPU `c` is tested with. -/
def others (s : Scheduler n k) (t : Fin n) (c : Cpu k) (us : List (Fin n)) : List (Fin n) :=
  us.filter (fun u => (s.tcb u).id ≠ (s.tcb t).id ∧ s.countedOn c u)

theorem admissionLoop_eq (us : List (Fin n)) (total tasks : ℕ) :
    s.admissionLoop wcet t c us (total % 2 ^ 64, tasks) =
      ((total + ((s.others t c us).map (s.utilWord wcet)).sum) % 2 ^ 64,
        tasks + (s.others t c us).length) := by
  induction us generalizing total tasks with
  | nil => rfl
  | cons u us ih =>
    unfold others at ih ⊢
    by_cases hu : (s.tcb u).id ≠ (s.tcb t).id ∧ s.countedOn c u
    · rw [admissionLoop, if_pos hu, mod_add_mod, ih, filter_cons_of_pos (by simpa using hu)]
      simp only [map_cons, sum_cons, length_cons, add_assoc, add_comm 1]
    · rw [admissionLoop, if_neg hu, ih, filter_cons_of_neg (by simpa using hu)]

theorem le_bound_of_check (hexempt : s.admissionExempted t = false)
    (hcheck : s.admissionCheckCpu wcet t c = .ok) : s.checkWcet wcet t = .ok ∧
      (((s.others t c s.allTasks).map (s.utilWord wcet)).sum + s.utilWord wcet t) % 2 ^ 64 ≤
        liuLeylandBound ((s.others t c s.allTasks).length + 1) := by
  have hvalid : s.checkWcet wcet t = .ok := by
    by_contra hinvalid
    rw [admissionCheckCpu, if_neg (by simp [hexempt]), if_pos hinvalid] at hcheck
    exact hinvalid hcheck
  have hloop : s.admissionLoop wcet t c s.allTasks (0 % 2 ^ 64, 0) = _ :=
    s.admissionLoop_eq s.allTasks 0 0
  simp only [zero_mod, zero_add] at hloop
  rw [admissionCheckCpu, if_neg (by simp [hexempt]), if_neg (by simp [hvalid])] at hcheck
  simp only [hloop, mod_add_mod] at hcheck
  split_ifs at hcheck with hover
  exact ⟨hvalid, not_lt.mp hover⟩

/-- Every registered task is the one that its id stands for. -/
structure Registered (s : Scheduler n k) : Prop where
  owned : ∀ u ∈ s.allTasks, s.findTask (s.tcb u).id = some u
  nodup : s.allTasks.Nodup

theorem Registered.not_mem (h : s.Registered) (hfree : s.findTask (s.tcb t).id = none) :
    t ∉ s.allTasks := by
  intro ht
  rw [h.owned t ht] at hfree
  cases hfree

theorem Registered.register (h : s.Registered) (hfree : s.findTask (s.tcb t).id = none) :
    (s.register t).Registered := by
  have hnot := h.not_mem hfree
  refine ⟨fun u hu => ?_, ?_⟩
  · rcases mem_append.mp hu with hu | hu
    · have hid : (s.tcb u).id ≠ (s.tcb t).id := by
        intro he
        have howned := h.owned u hu
        rw [he, hfree] at howned
        cases howned
      exact (update_of_ne hid _ _).trans (h.owned u hu)
    · obtain rfl := mem_singleton.mp hu
      exact update_self _ _ _
  · refine nodup_append.mpr ⟨h.nodup, nodup_singleton t, ?_⟩
    rintro u hu v hv rfl
    exact hnot (mem_singleton.mp hv ▸ hu)

theorem Registered.unregister (h : s.Registered) (t : Fin n) : (s.unregister t).Registered := by
  refine ⟨fun u hu => ?_, h.nodup.sublist erase_sublist⟩
  obtain ⟨hne, hmem⟩ := h.nodup.mem_erase_iff.mp hu
  have howned := h.owned u hmem
  change (if s.owned t then update s.idTable (s.tcb t).id none else s.idTable) (s.tcb u).id = some u
  split_ifs with ht
  · have hid : (s.tcb u).id ≠ (s.tcb t).id := by
      intro he
      rw [he] at howned
      have ht' : s.findTask (s.tcb t).id = some t := of_decide_eq_true ht
      exact hne (some.inj (howned.symm.trans ht'))
    rw [update_of_ne hid]
    exact howned
  · exact howned

theorem counted_register (s : Scheduler n k) (t : Fin n) (c : Cpu k) :
    (s.register t).counted c = s.counted c ++ if s.countedOn c t then [t] else [] := by
  change (s.allTasks ++ [t]).filter (s.countedOn c) = _
  rw [filter_append, filter_singleton, Bool.cond_eq_ite]
  rfl

theorem counted_unregister_sublist (t : Fin n) :
    ((s.unregister t).counted c).Sublist (s.counted c) :=
  erase_sublist.filter _

theorem Registered.others_eq (h : s.Registered) (hhome : t ∈ s.allTasks → s.home t ≠ c)
    (hfree : t ∉ s.allTasks → s.findTask (s.tcb t).id = none) :
    s.others t c s.allTasks = s.counted c := by
  refine filter_congr (fun u hu => ?_)
  by_cases hid : (s.tcb u).id = (s.tcb t).id
  · have hut := h.owned u hu
    rw [hid] at hut
    by_cases ht : t ∈ s.allTasks
    · obtain rfl : t = u := some.inj ((h.owned t ht).symm.trans hut)
      simp [countedOn, hhome ht]
    · rw [hfree ht] at hut
      cases hut
  · simp [hid]

theorem withinBound_of_check (hothers : s.others t c s.allTasks = s.counted c)
    (hexempt : s.admissionExempted t = false) (hwcet : 0 < wcet t)
    (hsmall : ∀ u ∈ s.counted c ++ [t], s.utilWord wcet u = s.scaledUtil wcet u)
    (hbound : s.WithinBound wcet (s.counted c)) (hcheck : s.admissionCheckCpu wcet t c = .ok) :
    s.WithinBound wcet (s.counted c ++ [t]) := by
  obtain ⟨hvalid, hpass⟩ := le_bound_of_check hexempt hcheck
  -- an explicit WCET that is valid is at most the period
  have hle : wcet t ≤ (s.tcb t).periodTicks := by
    unfold checkWcet at hvalid
    split_ifs at hvalid <;> omega
  have hmine : s.scaledUtil wcet t ≤ 1000000 := by
    unfold scaledUtil serverBudgetForAdmission
    rw [if_pos hwcet]
    exact Nat.div_le_of_le_mul (Nat.mul_le_mul_right _ hle)
  have htotal : ((s.counted c).map (s.scaledUtil wcet)).sum ≤ 1000000 :=
    hbound.trans (liuLeylandBound_le _)
  have hwords : (s.counted c ++ [t]).map (s.utilWord wcet) =
      (s.counted c ++ [t]).map (s.scaledUtil wcet) := map_congr_left hsmall
  have hsum : ((s.counted c).map (s.utilWord wcet)).sum + s.utilWord wcet t =
      ((s.counted c).map (s.scaledUtil wcet)).sum + s.scaledUtil wcet t := by
    simpa using congrArg List.sum hwords
  rw [hothers, hsum, mod_eq_of_lt (by omega)] at hpass
  simpa [WithinBound] using hpass

theorem WithinBound.perm (h : s.WithinBound wcet us) (hperm : vs.Perm us) :
    s.WithinBound wcet vs := by
  unfold WithinBound at h ⊢
  rw [(hperm.map _).sum_eq, hperm.length_eq]
  exact h

/-! ## What the operations change -/

structure SameDemand (s s' : Scheduler n k) : Prop where
  tcb : ∀ u, ∃ state deferred mask, s'.tcb u =
    { s.tcb u with state := state, readyDeferred := deferred, cpuAffinity := mask }
  idle : s'.idle = s.idle

theorem Quiet.sameDemand (h : Quiet s s') : SameDemand s s' :=
  ⟨fun u => ⟨_, _, (s.tcb u).cpuAffinity, h.tcb u⟩, h.idle⟩

theorem setMask_sameDemand (mask : BitVec 64) : SameDemand s (s.setMask t mask) := by
  refine ⟨fun u => ?_, rfl⟩
  by_cases hu : u = t
  · subst hu
    exact ⟨_, _, mask, update_self _ _ _⟩
  · exact ⟨_, _, _, update_of_ne hu _ _⟩

namespace SameDemand

variable (h : SameDemand s s')
include h

theorem exempted_eq (u : Fin n) : s'.admissionExempted u = s.admissionExempted u := by
  obtain ⟨_, _, _, hu⟩ := h.tcb u
  unfold admissionExempted isIdleTask
  rw [hu, h.idle]
  rfl

theorem scaledUtil_eq : s'.scaledUtil wcet = s.scaledUtil wcet := by
  funext u
  obtain ⟨_, _, _, hu⟩ := h.tcb u
  unfold scaledUtil serverBudgetForAdmission
  rw [hu]

theorem withinBound (hus : s.WithinBound wcet us) : s'.WithinBound wcet us := by
  unfold WithinBound
  rw [h.scaledUtil_eq]
  exact hus

theorem id_eq (u : Fin n) : (s'.tcb u).id = (s.tcb u).id := by
  obtain ⟨_, _, _, hu⟩ := h.tcb u
  rw [hu]

end SameDemand

theorem Quiet.countedOn_eq (h : Quiet s s') : s'.countedOn c = s.countedOn c := by
  funext u
  unfold countedOn
  rw [h.sameDemand.exempted_eq, h.home_eq]

theorem Quiet.counted_eq (h : Quiet s s') : s'.counted c = s.counted c := by
  unfold counted
  rw [h.countedOn_eq, h.allTasks]

theorem Registered.congr (h : s.Registered) (hid : ∀ u, (s'.tcb u).id = (s.tcb u).id)
    (htable : s'.idTable = s.idTable) (htasks : s'.allTasks = s.allTasks) : s'.Registered := by
  refine ⟨fun u hu => ?_, htasks ▸ h.nodup⟩
  unfold findTask
  rw [htable, hid]
  exact h.owned u (htasks ▸ hu)

theorem Quiet.setMask (h : Quiet s s') (mask : BitVec 64) :
    Quiet (s.setMask t mask) (s'.setMask t mask) := by
  refine { h with tcb := fun u => ?_ }
  have hu := h.tcb u
  unfold Tcb.Quiet at hu ⊢
  unfold Scheduler.setMask Scheduler.modify
  by_cases hut : u = t
  · subst hut
    simp only [update_self]
    rw [hu]
  · simp only [update_of_ne hut]
    exact hu

theorem setAffinity_cases {mask : BitVec 64} {admitted : Bool}
    (he : s.setAffinity here t mask admitted = some s') :
    s' = s.quiesceEnter ∨ Quiet (s.setMask t (s.affinityMask t mask)) s' ∧
      (maskTarget k (s.affinityMask t mask) = s.home t ∨ admitted = true) := by
  have hstore : ∀ {s₁ : Scheduler n k} {wasQueued : Bool}, Quiet s s₁ →
      s₁.storeMask here t (s.affinityMask t mask) wasQueued = some s' →
      Quiet (s.setMask t (s.affinityMask t mask)) s' := by
    intro s₁ wasQueued hquiet hs'
    simp only [storeMask] at hs'
    split_ifs at hs'
    · exact (hquiet.setMask _).trans (enqueueReady_quiet hs').1
    · cases hs'
      exact hquiet.setMask _
  have hquiesce : Quiet s s.quiesceEnter := (Quiet.refl s).withArmed _
  simp only [setAffinity, changeAffinity] at he
  split_ifs at he with _ _ hrefused
  · exact .inl (some.inj he).symm
  · exact .inl (some.inj he).symm
  · exact .inl (some.inj he).symm
  all_goals
    rw [not_and_or, not_not, Bool.not_eq_false] at hrefused
    refine .inr ⟨?_, hrefused⟩
  · obtain ⟨s₁, hs₁, hs'⟩ := bind_eq_some_iff.mp he
    exact hstore (hquiesce.trans (dequeueReady_quiet hs₁).1) hs'
  · exact hstore hquiesce he

theorem addTaskErr_cases {err : SchedulerError} (he : s.addTaskErr wcet here t = some (s', err)) :
    s' = s ∧ err ≠ .ok ∨ err = .ok ∧ s.findTask (s.tcb t).id = none ∧
      s.admissionCheckCpu wcet t (s.home t) = .ok ∧ Quiet (s.register t) s' := by
  simp only [addTaskErr] at he
  split_ifs at he with hfull hdup hdenied
  · cases he
    exact .inl ⟨rfl, nofun⟩
  · cases he
    exact .inl ⟨rfl, nofun⟩
  · cases he
    exact .inl ⟨rfl, hdenied⟩
  · obtain ⟨s₁, hs₁, hpair⟩ := map_eq_some_iff.mp he
    cases hpair
    exact .inr ⟨rfl, by simpa using hdup, not_not.mp hdenied, (enqueueReady_quiet hs₁).1⟩

theorem removeTaskErr_cases {err : SchedulerError} (he : s.removeTaskErr t = some (s', err)) :
    s' = s ∧ err ≠ .ok ∨ err = .ok ∧ Quiet (s.unregister t) s' := by
  simp only [removeTaskErr] at he
  split_ifs at he
  · cases he
    exact .inl ⟨rfl, nofun⟩
  · obtain ⟨s₁, hs₁, hpair⟩ := map_eq_some_iff.mp he
    cases hpair
    exact .inr ⟨rfl, (dequeueReady_quiet hs₁).1⟩

/-! ## Runs -/

end Scheduler

inductive AdmissionCall (n k : ℕ)
  | add (here : Cpu k) (t : Fin n)
  | remove (t : Fin n)
  | setAffinity (here : Cpu k) (t : Fin n) (mask : BitVec 64)

namespace Scheduler

variable {wcet : Fin n → ℕ} {s s' s₁ : Scheduler n k} {here c : Cpu k} {t u : Fin n}
  {err : SchedulerError} {mask : BitVec 64} {a : AdmissionCall n k}

def answer (wcet : Fin n → ℕ) (s : Scheduler n k) :
    AdmissionCall n k → Option (Scheduler n k × SchedulerError)
  | .add here t => s.addTaskErr wcet here t
  | .remove t => s.removeTaskErr t
  | .setAffinity here t mask => s.setAffinityErr wcet here t mask

def runCall (wcet : Fin n → ℕ) (s : Scheduler n k) (a : AdmissionCall n k) : Option (Scheduler n k) :=
  (s.answer wcet a).map Prod.fst

/-- The product of the WCET of an added task with 1000000 is a machine word. -/
def WcetFits (wcet : Fin n → ℕ) (s : Scheduler n k) : AdmissionCall n k → Prop
  | .add _ t => s.admissionExempted t = false → wcet t * 1000000 < 2 ^ 64
  | _ => True

instance (a : AdmissionCall n k) : Decidable (WcetFits wcet s a) := by
  unfold WcetFits
  split <;> infer_instance

/-- The registry, the tasks with their masks and the queues are the same. -/
structure Untouched (s s' : Scheduler n k) : Prop where
  allTasks : s'.allTasks = s.allTasks
  idTable : s'.idTable = s.idTable
  tcb : s'.tcb = s.tcb
  rq : s'.rq = s.rq
  edf : s'.edf = s.edf

theorem Untouched.refl (s : Scheduler n k) : Untouched s s := ⟨rfl, rfl, rfl, rfl, rfl⟩

theorem untouched_of_refused (he : s.answer wcet a = some (s', err)) (hrefused : err ≠ .ok) :
    Untouched s s' := by
  cases a with
  | add here t =>
    rcases addTaskErr_cases he with ⟨rfl, -⟩ | ⟨hok, -⟩
    · exact .refl s'
    · exact absurd hok hrefused
  | remove t =>
    rcases removeTaskErr_cases he with ⟨rfl, -⟩ | ⟨hok, -⟩
    · exact .refl s'
    · exact absurd hok hrefused
  | setAffinity here t mask =>
    obtain ⟨s₁, hs₁, hpair⟩ := map_eq_some_iff.mp he
    obtain rfl : s₁ = s' := congrArg Prod.fst hpair
    have herr := congrArg Prod.snd hpair
    simp only at herr
    split_ifs at herr with hasked
    · -- asked and denied: the target differs, and the answer is no
      have hdenied : s.affinityAnswer wcet t (s.affinityMask t mask) ≠ .ok := herr ▸ hrefused
      rcases setAffinity_cases hs₁ with rfl | ⟨-, htarget | hok⟩
      · exact ⟨rfl, rfl, rfl, rfl, rfl⟩
      · exact absurd (if_neg (fun h => h.1 htarget)) hdenied
      · exact absurd (of_decide_eq_true hok) hdenied
    · exact absurd herr.symm hrefused

structure Admitted (wcet : Fin n → ℕ) (s : Scheduler n k) : Prop where
  registered : s.Registered
  explicit : ∀ u, s.admissionExempted u = false → 0 < wcet u
  fits : ∀ u ∈ s.allTasks, s.admissionExempted u = false → wcet u * 1000000 < 2 ^ 64
  bound : ∀ c, s.WithinBound wcet (s.counted c)

theorem mem_counted : u ∈ s.counted c ↔
    u ∈ s.allTasks ∧ s.admissionExempted u = false ∧ s.home u = c := by
  simp [counted, countedOn]

theorem utilWord_eq (hwcet : 0 < wcet u) (hfits : wcet u * 1000000 < 2 ^ 64) :
    s.utilWord wcet u = s.scaledUtil wcet u := by
  unfold utilWord scaledUtil serverBudgetForAdmission
  rw [if_pos hwcet, mod_eq_of_lt hfits]

theorem setMask_countedOn (hu : u ≠ t) : (s.setMask t mask).countedOn c u = s.countedOn c u := by
  unfold countedOn
  rw [(setMask_sameDemand mask).exempted_eq, setMask_home, update_of_ne hu]

theorem setMask_countedOn_self :
    (s.setMask t mask).countedOn c t = (!s.admissionExempted t && maskTarget k mask = c) := by
  unfold countedOn
  rw [(setMask_sameDemand mask).exempted_eq, setMask_home, update_self]

section

variable (h : s.Admitted wcet)
include h

theorem Admitted.of_quiet (hq : Quiet s s') : s'.Admitted wcet where
  registered := h.registered.congr hq.sameDemand.id_eq hq.idTable hq.allTasks
  explicit := fun u hu => h.explicit u (hq.sameDemand.exempted_eq u ▸ hu)
  fits := fun u hu hex => h.fits u (hq.allTasks ▸ hu) (hq.sameDemand.exempted_eq u ▸ hex)
  bound := fun c => by
    rw [hq.counted_eq]
    exact hq.sameDemand.withinBound (h.bound c)

theorem Admitted.joins (hhome : t ∈ s.allTasks → s.home t ≠ c)
    (hfree : t ∉ s.allTasks → s.findTask (s.tcb t).id = none)
    (hexempt : s.admissionExempted t = false) (hfits : wcet t * 1000000 < 2 ^ 64)
    (hcheck : s.admissionCheckCpu wcet t c = .ok) : s.WithinBound wcet (s.counted c ++ [t]) := by
  refine withinBound_of_check (h.registered.others_eq hhome hfree) hexempt (h.explicit t hexempt)
    (fun u hu => ?_) (h.bound c) hcheck
  rcases mem_append.mp hu with hu | hu
  · obtain ⟨hmem, hex, -⟩ := mem_counted.mp hu
    exact utilWord_eq (h.explicit u hex) (h.fits u hmem hex)
  · obtain rfl := mem_singleton.mp hu
    exact utilWord_eq (h.explicit u hexempt) hfits

theorem Admitted.register (hfree : s.findTask (s.tcb t).id = none)
    (hcheck : s.admissionCheckCpu wcet t (s.home t) = .ok)
    (hfits : s.admissionExempted t = false → wcet t * 1000000 < 2 ^ 64) :
    (s.register t).Admitted wcet := by
  have hnot := h.registered.not_mem hfree
  have hsame : SameDemand s (s.register t) := ⟨fun u => ⟨_, _, _, rfl⟩, rfl⟩
  refine ⟨h.registered.register hfree, h.explicit, fun u hu hex => ?_,
    fun c => hsame.withinBound ?_⟩
  · rcases mem_append.mp hu with hu | hu
    · exact h.fits u hu hex
    · obtain rfl := mem_singleton.mp hu
      exact hfits hex
  · rw [counted_register]
    split_ifs with hc
    · obtain ⟨hex, rfl⟩ : s.admissionExempted t = false ∧ s.home t = c := by
        simpa [countedOn] using hc
      exact h.joins (fun ht => absurd ht hnot) (fun _ => hfree) hex (hfits hex) hcheck
    · rw [append_nil]
      exact h.bound c

theorem Admitted.unregister (t : Fin n) : (s.unregister t).Admitted wcet := by
  have hsame : SameDemand s (s.unregister t) := ⟨fun u => ⟨_, _, _, rfl⟩, rfl⟩
  exact ⟨h.registered.unregister t, h.explicit,
    fun u hu => h.fits u (erase_sublist.subset hu),
    fun c => hsame.withinBound ((h.bound c).sublist (counted_unregister_sublist t))⟩

theorem Admitted.setMask
    (hanswer : maskTarget k mask = s.home t ∨ s.affinityAnswer wcet t mask = .ok) :
    (s.setMask t mask).Admitted wcet := by
  have hsame : SameDemand s (s.setMask t mask) := setMask_sameDemand mask
  refine ⟨h.registered.congr hsame.id_eq rfl rfl,
    fun u hu => h.explicit u (hsame.exempted_eq u ▸ hu),
    fun u hu hex => h.fits u hu (hsame.exempted_eq u ▸ hex), fun c => hsame.withinBound ?_⟩
  -- the tasks of `c` are what they were, unless the task arrives at `c`
  by_cases harrives : (s.setMask t mask).countedOn c t = true ∧ s.countedOn c t = false ∧
      t ∈ s.allTasks
  · obtain ⟨hnow, hbefore, hmem⟩ := harrives
    rw [setMask_countedOn_self] at hnow
    obtain ⟨hex, rfl⟩ : s.admissionExempted t = false ∧ maskTarget k mask = c := by
      simpa using hnow
    have hhome : s.home t ≠ maskTarget k mask := by
      intro he
      simp [countedOn, hex, he] at hbefore
    have hcheck : s.admissionCheckCpu wcet t (maskTarget k mask) = .ok := by
      rcases hanswer with htarget | hok
      · exact absurd htarget.symm hhome
      · rwa [affinityAnswer, if_pos ⟨hhome.symm, by simp [hex]⟩] at hok
    refine (h.joins (fun _ => hhome) (absurd hmem) hex (h.fits t hmem hex)
      hcheck).perm ?_
    refine (filter_perm_cons h.registered.nodup hmem hbefore ?_ (fun u hu => ?_)).trans
      (perm_append_singleton t _).symm
    · rw [setMask_countedOn_self]
      exact hnow
    · exact setMask_countedOn hu
  · refine (h.bound c).sublist (filter_sublist_filter (fun u hu hnow => ?_))
    by_cases hut : u = t
    · subst hut
      by_contra hbefore
      exact harrives ⟨hnow, Bool.eq_false_iff.mpr hbefore, hu⟩
    · rwa [setMask_countedOn hut] at hnow

theorem Admitted.runCall (hok : WcetFits wcet s a) (he : s.runCall wcet a = some s') :
    s'.Admitted wcet := by
  obtain ⟨⟨s₁, err⟩, hanswer, rfl⟩ := map_eq_some_iff.mp he
  cases a with
  | add here t =>
    rcases addTaskErr_cases hanswer with ⟨rfl, -⟩ | ⟨-, hfree, hcheck, hquiet⟩
    · exact h
    · exact (h.register hfree hcheck hok).of_quiet hquiet
  | remove t =>
    rcases removeTaskErr_cases hanswer with ⟨rfl, -⟩ | ⟨-, hquiet⟩
    · exact h
    · exact (h.unregister t).of_quiet hquiet
  | setAffinity here t mask =>
    obtain ⟨s₂, hs₂, hpair⟩ := map_eq_some_iff.mp hanswer
    cases hpair
    rcases setAffinity_cases hs₂ with rfl | ⟨hquiet, hadmitted⟩
    · exact h.of_quiet ((Quiet.refl s).withArmed _)
    · exact (h.setMask (hadmitted.imp_right of_decide_eq_true)).of_quiet hquiet

end

/-- If every task inside the gate carries an explicit WCET, then in every run from a registry of
exempt tasks, in which no product of an added WCET with 1000000 overflows, the tasks of each CPU are
within the bound for their number; and a refused call changes neither registry nor masks nor
queues. -/
theorem utilization_within_bound {as : List (AdmissionCall n k)} (hstart : s.Registered)
    (hexempt : ∀ u ∈ s.allTasks, s.admissionExempted u = true)
    (hwcet : ∀ u, s.admissionExempted u = false → 0 < wcet u)
    (hrun : Run (runCall wcet) (WcetFits wcet) s as s') :
    (∀ c, s'.WithinBound wcet (s'.counted c)) ∧
      ∀ a s'' err, s'.answer wcet a = some (s'', err) → err ≠ .ok → Untouched s' s'' := by
  have hinit : s.Admitted wcet := by
    refine ⟨hstart, hwcet, fun u hu hex => ?_, fun c => ?_⟩
    · rw [hexempt u hu] at hex
      cases hex
    · have hnone : s.counted c = [] :=
        filter_eq_nil_iff.mpr (fun u hu => by simp [countedOn, hexempt u hu])
      rw [hnone]
      exact Nat.zero_le _
  have hadmitted : s'.Admitted wcet :=
    hrun.invariant (I := Admitted wcet) (fun _ _ _ hs hok he => hs.runCall hok he) hinit
  exact ⟨hadmitted.bound, fun a s'' err => untouched_of_refused⟩

/-- Two CPUs and two tasks that are not registered yet, both for CPU 0 and of the given period. -/
def newcomers (period : ℕ) : Scheduler 2 1 :=
  unqueued (fun t =>
    { Tcb.plain (t + 1) with
      deadlineTicks := period, periodTicks := period, remainingTicks := period }) [] 2

theorem newcomers_registered (period : ℕ) : (newcomers period).Registered ∧
    ∀ u ∈ (newcomers period).allTasks, (newcomers period).admissionExempted u = true :=
  ⟨⟨nofun, nodup_nil⟩, nofun⟩

/-- The second task is refused on CPU 0, admitted on CPU 1, and refused when it wants to go back. -/
theorem utilization_within_bound_newcomers : ∃ s', Run (runCall fun _ => 5)
    (WcetFits fun _ => 5) (newcomers 10)
    [.add 0 0, .add 0 1, .setAffinity 0 1 2#64, .add 0 1, .setAffinity 0 1 1#64] s' ∧
    s'.allTasks = [0, 1] ∧ s'.home 1 = 1 ∧ ∀ c, s'.WithinBound (fun _ => 5) (s'.counted c) := by
  refine Run.exists_imp_of_exec (fun s' => s'.allTasks = [0, 1] ∧ s'.home 1 = 1)
    (by decide +kernel) ?_
  rintro s' hrun ⟨htasks, hhome⟩
  obtain ⟨hstart, hexempt⟩ := newcomers_registered 10
  exact ⟨htasks, hhome,
    (utilization_within_bound hstart hexempt (fun _ _ => Nat.succ_pos 4) hrun).1⟩

/-- The first task needs its whole period of `2 ^ 45` ticks, the second a third of it. -/
def longWcet (t : Fin 2) : ℕ := if t = 0 then 2 ^ 45 else 2 ^ 45 / 3

/-- The first task is counted with 475712 millionths, and the second one is admitted beside it:
1333333 millionths on one CPU. -/
theorem overflow_admits :
    (newcomers (2 ^ 45)).Registered ∧ (newcomers (2 ^ 45)).allTasks = [] ∧
    (∀ u, 0 < longWcet u ∧ longWcet u ≤ 2 ^ 45) ∧
    ∃ s', Run (runCall longWcet) anyStep (newcomers (2 ^ 45)) [.add 0 0, .add 0 1] s' ∧
      s'.counted 0 = [0, 1] ∧ ¬ s'.WithinBound longWcet (s'.counted 0) := by
  refine ⟨(newcomers_registered _).1, rfl, by decide, ?_⟩
  exact Run.exists_of_exec (by decide +kernel)

end Scheduler

end Nexios.Sched
