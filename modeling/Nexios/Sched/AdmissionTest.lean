import Nexios.Lib.LiuLeyland
import Nexios.Sched.Admission
import Nexios.Sched.Change
import Nexios.Sched.ServerBudget

/-!
# What admission guarantees

The tasks that the test has let through pass the exact test of Liu and Leyland as long as the sum
that the code compares is the sum of their utilizations. It is not when

* a quotient is rounded down,
* a product or the sum overflows,
* a task without WCET and server has used up part of its period, since it is counted with the rest,
* the table is consulted for 18 or 19 tasks, where its entries are above the exact bounds,
* or a task that was exempt for want of a deadline gets one in a tick.
-/

open Option List Bool

namespace Nexios.Sched

variable {n k : ℕ} {f : SporadicServer → SporadicServer}

/-! ## The table -/

def exactBound (tasks : ℕ) : ℕ :=
  if tasks = 18 then 706666 else if tasks = 19 then 705945 else liuLeylandBound tasks

theorem exactBound_table : ∀ m ≤ 20, (1 + (exactBound m : ℚ) / 1000000 / m) ^ m ≤ 2 := by
  decide +kernel

theorem liuLeylandBound_too_high :
    ∀ m, m = 18 ∨ m = 19 → 2 < (1 + (liuLeylandBound m : ℚ) / 1000000 / m) ^ m := by
  rintro m (rfl | rfl) <;> decide +kernel

theorem liuLeyland_of_exactBound {us : List ℚ} (hus : 0 ≤ us.sum)
    (hbound : us.sum ≤ exactBound us.length / 1000000) : LiuLeyland us := by
  by_cases hm : us.length ≤ 20
  · calc (1 + us.sum / us.length) ^ us.length
        ≤ (1 + (exactBound us.length : ℚ) / 1000000 / us.length) ^ us.length := by gcongr
      _ ≤ 2 := exactBound_table us.length hm
  have hlimit : exactBound us.length = liuLeylandLimit := by
    unfold exactBound liuLeylandBound liuLeylandMaxTasks
    rw [if_neg (by omega), if_neg (by omega), if_neg hm]
  rw [hlimit] at hbound
  refine liuLeyland_of_le_log hus ((Rat.cast_le.mpr hbound).trans ?_)
  have hlog := Real.log_two_gt_d9
  norm_num [liuLeylandLimit] at hlog ⊢
  linarith

/-- The bound for `m` tasks is safe, whatever their utilizations, unless `m` is 18 or 19. -/
theorem liuLeylandBound_safe_iff (m : ℕ) : (∀ us : List ℚ, us.length = m → 0 ≤ us.sum →
      us.sum ≤ liuLeylandBound m / 1000000 → LiuLeyland us) ↔ m ≠ 18 ∧ m ≠ 19 := by
  constructor
  · intro h
    -- equal utilizations that add up to the entry of the table
    have hpass := h (replicate m (liuLeylandBound m / 1000000 / m)) length_replicate
    constructor <;> rintro rfl <;> revert hpass <;> decide +kernel
  · rintro ⟨h₁, h₂⟩ us rfl hus hbound
    refine liuLeyland_of_exactBound hus ?_
    rwa [exactBound, if_neg h₁, if_neg h₂]

inductive AdmissionEvent (n k : ℕ)
  | add (here : Cpu k) (t : Fin n)
  | remove (t : Fin n)
  | account (here : Cpu k) (t : Fin n)
  | scanDeadline (now : ℕ) (t : Fin n)
  | replenish (here : Cpu k) (now : ℕ) (t : Fin n)
  | consume (here : Cpu k)

namespace Scheduler

variable {cfg : Config} {wcet : Fin n → ℕ} {s s' s₀ s₁ s₂ s₃ : Scheduler n k}
  {here c : Cpu k} {t u : Fin n}

/-- The calls and the parts of a tick. -/
def gate (cfg : Config) (wcet : Fin n → ℕ) (s : Scheduler n k) :
    AdmissionEvent n k → Option (Scheduler n k)
  | .add here t => (s.addTaskErr wcet here t).map Prod.fst
  | .remove t => (s.removeTaskErr t).map Prod.fst
  | .account here t => s.account cfg here t
  | .scanDeadline now t => s.scanDeadline cfg now t
  | .replenish here now t => s.replenish here now t
  | .consume here => some (s.consume here)

def exemptAnyway (s : Scheduler n k) (t : Fin n) : Bool :=
  s.isIdleTask t || (s.tcb t).edfExempt || !(s.tcb t).isRtTask

def tested (s : Scheduler n k) (t : Fin n) : List (Fin n) :=
  s.others t (s.home t) s.allTasks ++ [t]

/-- The condition on an event: the sum that the test compares is the sum of the utilizations, the
tasks being counted with no less than they had at the start `s₀` of the run. -/
def CountsExactly (cfg : Config) (wcet : Fin n → ℕ) (s₀ s : Scheduler n k) :
    AdmissionEvent n k → Prop
  | .add _ t => s.admissionExempted t = false →
    (∀ u ∈ s.tested t, (s.tcb u).periodTicks ∣ s.serverBudgetForAdmission wcet u * 1000000) ∧
    ((s.tested t).map (fun u => s.serverBudgetForAdmission wcet u * 1000000)).sum < 2 ^ 64 ∧
    (∀ u ∈ s.tested t, wcet u = 0 → (s.tcb u).sporadicServer.isNone →
      (s₀.tcb u).remainingTicks ≤ (s.tcb u).remainingTicks) ∧
    ((s.tested t).length = 18 → ((s.tested t).map (s.scaledUtil wcet)).sum ≤ 706666) ∧
    ((s.tested t).length = 19 → ((s.tested t).map (s.scaledUtil wcet)).sum ≤ 705945)
  | .account _ t => (s.tcb t).rollsOver → cfg.monitorTask = false →
    (s.tcb t).deadlineTicks = 0 → s.exemptAnyway t
  | _ => True

instance (e : AdmissionEvent n k) : Decidable (CountsExactly cfg wcet s₀ s e) := by
  unfold CountsExactly
  split <;> infer_instance

/-! ## What a tick leaves alone -/

end Scheduler

/-- What the demand of a task and its place depend on, except what remains of its period. -/
structure Tcb.SameRate (a b : Tcb) : Prop where
  id : b.id = a.id
  period : b.periodTicks = a.periodTicks
  exempt : b.edfExempt = a.edfExempt
  mask : b.cpuAffinity = a.cpuAffinity
  server : b.sporadicServer.map SporadicServer.budgetC = a.sporadicServer.map SporadicServer.budgetC

theorem Tcb.SameRate.refl (a : Tcb) : a.SameRate a := ⟨rfl, rfl, rfl, rfl, rfl⟩

theorem Tcb.SameRate.trans {a b d : Tcb} (h : a.SameRate b) (h' : b.SameRate d) : a.SameRate d :=
  ⟨h'.id.trans h.id, h'.period.trans h.period, h'.exempt.trans h.exempt, h'.mask.trans h.mask,
    h'.server.trans h.server⟩

theorem Tcb.sameRate_onServer (hf : ∀ ss, (f ss).budgetC = ss.budgetC) (a : Tcb) :
    a.SameRate (a.onServer f) := by
  refine ⟨rfl, rfl, rfl, rfl, ?_⟩
  unfold Tcb.onServer
  cases a.sporadicServer with
  | none => rfl
  | some ss => exact congrArg some (hf ss)

namespace Scheduler

variable {cfg : Config} {wcet : Fin n → ℕ} {s s' s₀ s₁ s₂ s₃ : Scheduler n k}
  {here c : Cpu k} {t u : Fin n} {now : ℕ} {us : List (Fin n)}

/-- The registry is the same, and the tasks differ in nothing that matters to admission. -/
structure SameRates (s s' : Scheduler n k) : Prop where
  tcb : ∀ u, (s.tcb u).SameRate (s'.tcb u)
  idle : s'.idle = s.idle
  idTable : s'.idTable = s.idTable
  allTasks : s'.allTasks = s.allTasks

theorem SameRates.refl (s : Scheduler n k) : SameRates s s := ⟨fun _ => .refl _, rfl, rfl, rfl⟩

theorem SameRates.trans (h : SameRates s s₁) (h' : SameRates s₁ s') : SameRates s s' :=
  ⟨fun u => (h.tcb u).trans (h'.tcb u), h'.idle.trans h.idle, h'.idTable.trans h.idTable,
    h'.allTasks.trans h.allTasks⟩

theorem SameRates.modify {f : Tcb → Tcb} (hf : ∀ a : Tcb, a.SameRate (f a)) (s : Scheduler n k)
    (t : Fin n) : SameRates s (s.modify t f) :=
  ⟨(Function.forall_update_iff s.tcb fun u a => (s.tcb u).SameRate a).mpr ⟨hf _, fun _ _ => .refl _⟩,
    rfl, rfl, rfl⟩

theorem SameRates.withQueues (h : SameRates s s') (rq : RunQueues n k) (edf : EdfLists n k) :
    SameRates s (s'.withQueues rq edf) :=
  { h with }

theorem Quiet.sameRates (h : Quiet s s') : SameRates s s' := by
  refine { h with tcb := fun u => ?_ }
  rw [h.tcb u]
  exact ⟨rfl, rfl, rfl, rfl, rfl⟩

theorem SameRates.exemptAnyway_eq (h : SameRates s s') (u : Fin n) :
    s'.exemptAnyway u = s.exemptAnyway u := by
  unfold exemptAnyway isIdleTask Tcb.isRtTask
  rw [h.idle, (h.tcb u).exempt, (h.tcb u).period]

theorem exempted_eq (s : Scheduler n k) (u : Fin n) :
    s.admissionExempted u = (s.exemptAnyway u || (s.tcb u).deadlineTicks = 0) := rfl

theorem SameRates.home_eq (h : SameRates s s') : s'.home = s.home := by
  funext u
  unfold home Tcb.queueTarget
  rw [(h.tcb u).mask]

structure Ticked (s s' : Scheduler n k) : Prop extends SameRates s s' where
  exempt : ∀ u, s.admissionExempted u → s'.admissionExempted u

theorem Ticked.refl (s : Scheduler n k) : Ticked s s := ⟨.refl s, fun _ h => h⟩

theorem Ticked.of_deadline (h : SameRates s s') (hdeadline : ∀ u, (s.tcb u).deadlineTicks = 0 →
      s.exemptAnyway u = true ∨ (s'.tcb u).deadlineTicks = 0) : Ticked s s' := by
  refine ⟨h, fun u hu => ?_⟩
  rw [exempted_eq, or_eq_true, decide_eq_true_eq] at hu ⊢
  rw [h.exemptAnyway_eq]
  rcases hu with hu | hu
  · exact .inl hu
  · exact hdeadline u hu

theorem Ticked.counted_sublist (h : Ticked s s') : (s'.counted c).Sublist (s.counted c) := by
  unfold counted
  rw [h.allTasks]
  refine filter_sublist_filter (fun u _ hu => ?_)
  unfold countedOn at hu ⊢
  rw [and_eq_true, h.home_eq] at hu
  rw [and_eq_true]
  refine ⟨?_, hu.2⟩
  by_contra hex
  rw [not_eq_true, not_eq_false'] at hex
  rw [h.exempt u hex] at hu
  exact Bool.noConfusion hu.1

theorem Ticked.of_sameDeadlines (h : SameRates s s')
    (hdeadline : ∀ u, (s'.tcb u).deadlineTicks = (s.tcb u).deadlineTicks) : Ticked s s' :=
  .of_deadline h (fun u hu => .inr ((hdeadline u).trans hu))

theorem modify_deadline {f : Tcb → Tcb} (hf : ∀ a, (f a).deadlineTicks = a.deadlineTicks)
    (s : Scheduler n k) (t u : Fin n) :
    ((s.modify t f).tcb u).deadlineTicks = (s.tcb u).deadlineTicks :=
  update_field Tcb.deadlineTicks (hf _) u

theorem ticked_account (hok : CountsExactly cfg wcet s₀ s (.account here t))
    (he : s.account cfg here t = some s') : Ticked s s' := by
  simp only [account] at he
  split_ifs at he with _ hrolls
  · cases he
    exact .refl s
  · obtain ⟨edf, -, rfl⟩ := map_eq_some_iff.mp he
    have hrate : SameRates s ({ s with edf }.modify t (fun a =>
        { (if cfg.monitorTask then a else a.rearm) with remainingTicks := a.periodTicks })) := by
      refine ((SameRates.refl s).withQueues s.rq edf).trans (.modify (fun a => ?_) _ t)
      split_ifs <;> exact ⟨rfl, rfl, rfl, rfl, rfl⟩
    refine .of_deadline hrate (fun u hu => ?_)
    by_cases hut : u = t
    · subst hut
      by_cases hmonitor : cfg.monitorTask = true
      · exact .inr (by simp [modify, hmonitor, hu])
      · exact .inl (hok hrolls (eq_false_iff.mpr hmonitor) hu)
    · exact .inr (by simp [modify, hut, hu])
  · cases he
    exact .of_sameDeadlines (.modify (fun _ => by constructor <;> rfl) s t)
      (modify_deadline (fun _ => by rfl) s t)

theorem sameRates_demote (he : s.demote t = some s') : SameRates s s' ∧
    ∀ u, (s'.tcb u).deadlineTicks = (s.tcb u).deadlineTicks := by
  have hrate : SameRates s (s.modify t Tcb.demoted) :=
    .modify (fun _ => by constructor <;> rfl) s t
  have hdeadline := modify_deadline (f := .demoted) (fun a => rfl) s t
  simp only [demote] at he
  split_ifs at he
  · obtain ⟨rq, -, rfl⟩ := map_eq_some_iff.mp he
    exact ⟨hrate.withQueues rq _, hdeadline⟩
  · cases he
    exact ⟨hrate, hdeadline⟩
  · cases he
    exact ⟨.refl s, fun _ => rfl⟩

theorem ticked_scanDeadline (he : s.scanDeadline cfg now t = some s') : Ticked s s' := by
  by_cases hoverdue : (s.tcb t).overdue now = true
  · rw [scanDeadline, if_pos hoverdue] at he
    obtain ⟨s₁, hs₁, rfl⟩ := map_eq_some_iff.mp he
    obtain ⟨hrate, hdeadline⟩ : SameRates s s₁ ∧
        ∀ u, (s₁.tcb u).deadlineTicks = (s.tcb u).deadlineTicks := by
      split_ifs at hs₁
      · exact sameRates_demote hs₁
      · cases hs₁
        exact ⟨.refl s, fun _ => rfl⟩
    refine .of_deadline (hrate.trans (.modify (fun _ => by constructor <;> rfl) s₁ t))
      fun u hu => .inr ?_
    -- a task without a deadline is not overdue
    have hut : u ≠ t := by
      rintro rfl
      simp [Tcb.overdue, hu] at hoverdue
    simp [modify, hut, hdeadline u, hu]
  · rw [scanDeadline, if_neg hoverdue] at he
    cases he
    exact .refl s

theorem movePriority_eq {old new : ℕ} (he : s.movePriority t old new = some s') :
    ∃ rq edf, s' = s.withQueues rq edf := by
  unfold movePriority at he
  split_ifs at he
  · obtain ⟨edf, -, hs'⟩ := bind_eq_some_iff.mp he
    exact ⟨s.rq, edf, (some.inj hs').symm⟩
  · obtain ⟨rq, -, hs'⟩ := bind_eq_some_iff.mp he
    exact ⟨rq, s.edf, (some.inj hs').symm⟩

theorem ticked_onServer (hf : ∀ ss, (f ss).budgetC = ss.budgetC) (s : Scheduler n k) (t : Fin n) :
    Ticked s (s.modify t (fun a => a.onServer f)) :=
  .of_sameDeadlines (SameRates.modify (Tcb.sameRate_onServer hf) s t)
    (modify_deadline (f := fun a => a.onServer f) (fun _ => rfl) s t)

theorem budgetC_processReplenishments (now : ℕ) (ss : SporadicServer) :
    (ss.processReplenishments now).budgetC = ss.budgetC :=
  (Ledger.sameConfig_replenishDue now _ _).1.trans (Ledger.sameConfig_topUp now ss).1

theorem ticked_replenish (he : s.replenish here now t = some s') : Ticked s s' := by
  have hticked := ticked_onServer (budgetC_processReplenishments now) s t
  simp only [replenish] at he
  split_ifs at he
  · cases he
    exact .refl s
  · obtain ⟨rq, edf, rfl⟩ := movePriority_eq he
    exact ⟨hticked.toSameRates.withQueues rq edf, hticked.exempt⟩
  · cases he
    exact hticked

theorem ticked_consume (here : Cpu k) (s : Scheduler n k) : Ticked s (s.consume here) := by
  unfold consume
  split
  · exact .refl s
  · rename_i t _
    split_ifs
    · exact ticked_onServer (fun ss => (Ledger.sameConfig_consume ss).1) s t
    · exact .refl s

/-! ## The tasks of a CPU -/

/-- The utilizations of the tasks `us`, with the demands that they had in `s₀`. -/
def declaredUtils (wcet : Fin n → ℕ) (s₀ s : Scheduler n k) (us : List (Fin n)) : List ℚ :=
  us.map (fun u => (s₀.serverBudgetForAdmission wcet u : ℚ) / (s.tcb u).periodTicks)

/-- The tasks of CPU `c` pass the exact test. -/
def Feasible (wcet : Fin n → ℕ) (s₀ s : Scheduler n k) (c : Cpu k) : Prop :=
  LiuLeyland (declaredUtils wcet s₀ s (s.counted c))
  deriving Decidable

theorem Feasible.sublist (h : Feasible wcet s₀ s c)
    (hperiod : ∀ u, (s'.tcb u).periodTicks = (s.tcb u).periodTicks)
    (hsub : (s'.counted c).Sublist (s.counted c)) : Feasible wcet s₀ s' c := by
  have hutils : declaredUtils wcet s₀ s' (s'.counted c) =
      declaredUtils wcet s₀ s (s'.counted c) := by
    unfold declaredUtils
    simp only [hperiod]
  unfold Feasible
  rw [hutils]
  refine LiuLeyland.sublist h (hsub.map _) (fun q hq => ?_)
  obtain ⟨u, -, rfl⟩ := mem_map.mp hq
  positivity

/-- What holds all along a run from `s₀`. -/
structure Gated (s₀ s : Scheduler n k) : Prop where
  registered : s.Registered
  rates : ∀ u, (s₀.tcb u).SameRate (s.tcb u)

theorem Gated.start (h : s₀.Registered) : Gated s₀ s₀ := ⟨h, fun _ => .refl _⟩

theorem period_pos (h : s.admissionExempted u = false) : 0 < (s.tcb u).periodTicks := by
  rcases Nat.eq_zero_or_pos (s.tcb u).periodTicks with hzero | hpos
  · simp [admissionExempted, Tcb.isRtTask, hzero] at h
  · exact hpos

theorem sum_utils_eq (hpos : ∀ u ∈ us, 0 < (s.tcb u).periodTicks)
    (hwhole : ∀ u ∈ us, (s.tcb u).periodTicks ∣ s.serverBudgetForAdmission wcet u * 1000000) :
    (declaredUtils wcet s s us).sum = ((us.map (s.scaledUtil wcet)).sum : ℚ) / 1000000 := by
  unfold declaredUtils
  induction us with
  | nil => simp
  | cons u us ih =>
    have hu : (s.serverBudgetForAdmission wcet u : ℚ) / (s.tcb u).periodTicks =
        (s.scaledUtil wcet u : ℚ) / 1000000 := by
      have hperiod : ((s.tcb u).periodTicks : ℚ) ≠ 0 := by
        exact_mod_cast (hpos u mem_cons_self).ne'
      unfold scaledUtil
      rw [Nat.cast_div (hwhole u mem_cons_self) hperiod]
      push_cast
      field_simp
    rw [map_cons, sum_cons, map_cons, sum_cons, hu, ih (fun v hv => hpos v (mem_cons_of_mem _ hv))
        (fun v hv => hwhole v (mem_cons_of_mem _ hv))]
    push_cast
    ring

theorem sum_utilWord_eq
    (hfits : (us.map (fun u => s.serverBudgetForAdmission wcet u * 1000000)).sum < 2 ^ 64) :
    (us.map (s.utilWord wcet)).sum = (us.map (s.scaledUtil wcet)).sum ∧
      (us.map (s.scaledUtil wcet)).sum < 2 ^ 64 := by
  have hword : ∀ u ∈ us, s.utilWord wcet u = s.scaledUtil wcet u := by
    intro u hu
    have hle := single_le_sum (fun _ _ => Nat.zero_le _) _
      (mem_map_of_mem (f := fun u => s.serverBudgetForAdmission wcet u * 1000000) hu)
    unfold utilWord scaledUtil
    rw [Nat.mod_eq_of_lt (hle.trans_lt hfits)]
  refine ⟨by rw [map_congr_left hword], lt_of_le_of_lt ?_ hfits⟩
  exact sum_le_sum (fun u _ => Nat.div_le_self _ _)

section

variable (h : Gated s₀ s)
include h

theorem Gated.of_sameRates (hs : SameRates s s') : Gated s₀ s' :=
  ⟨h.registered.congr (fun u => (hs.tcb u).id) hs.idTable hs.allTasks,
    fun u => (h.rates u).trans (hs.tcb u)⟩

theorem Gated.demand_le (hremaining : wcet u = 0 → (s.tcb u).sporadicServer.isNone →
      (s₀.tcb u).remainingTicks ≤ (s.tcb u).remainingTicks) :
    s₀.serverBudgetForAdmission wcet u ≤ s.serverBudgetForAdmission wcet u := by
  have hserver := (h.rates u).server
  unfold serverBudgetForAdmission
  by_cases hwcet : 0 < wcet u
  · rw [if_pos hwcet, if_pos hwcet]
  rw [if_neg hwcet, if_neg hwcet]
  cases hnow : (s.tcb u).sporadicServer with
  | none =>
    rw [hnow, map_none, eq_comm, map_eq_none_iff] at hserver
    rw [hserver]
    exact hremaining (by omega) (by rw [hnow]; rfl)
  | some ss =>
    rw [hnow, eq_comm] at hserver
    obtain ⟨ss₀, hss₀, hbudget⟩ := map_eq_some_iff.mp hserver
    rw [hss₀]
    exact hbudget.le

theorem Gated.feasible_register (hfree : s.findTask (s.tcb t).id = none)
    (hexempt : s.admissionExempted t = false) (hcheck : s.admissionCheckCpu wcet t (s.home t) = .ok)
    (hok : CountsExactly cfg wcet s₀ s (.add here t)) :
    Feasible wcet s₀ (s.register t) (s.home t) := by
  have hnot := h.registered.not_mem hfree
  have hothers := h.registered.others_eq (c := s.home t) (fun ht => absurd ht hnot) (fun _ => hfree)
  have htested : s.tested t = s.counted (s.home t) ++ [t] := by rw [tested, hothers]
  obtain ⟨hwhole, hfits, hremaining, h18, h19⟩ := hok hexempt
  have hpos : ∀ u ∈ s.tested t, 0 < (s.tcb u).periodTicks := by
    intro u hu
    rw [htested] at hu
    rcases mem_append.mp hu with hu | hu
    · exact period_pos (mem_counted.mp hu).2.1
    · obtain rfl := mem_singleton.mp hu
      exact period_pos hexempt
  -- what the code has compared is the sum of the utilizations
  obtain ⟨hsum, hsmall⟩ := sum_utilWord_eq hfits
  have hpass : ((s.tested t).map (s.scaledUtil wcet)).sum ≤ liuLeylandBound (s.tested t).length := by
    have hle := (le_bound_of_check hexempt hcheck).2
    have hwords : ((s.others t (s.home t) s.allTasks).map (s.utilWord wcet)).sum +
        s.utilWord wcet t = ((s.tested t).map (s.scaledUtil wcet)).sum := by
      rw [← hsum]
      simp [tested]
    have hlength : (s.others t (s.home t) s.allTasks).length + 1 = (s.tested t).length := by
      simp [tested]
    rwa [hwords, hlength, Nat.mod_eq_of_lt hsmall] at hle
  have hexact : ((s.tested t).map (s.scaledUtil wcet)).sum ≤ exactBound (s.tested t).length := by
    unfold exactBound
    split_ifs with h1 h2
    · exact h18 h1
    · exact h19 h2
    · exact hpass
  have hutils := sum_utils_eq hpos hwhole
  have hnonneg : ∀ s₁ : Scheduler n k, 0 ≤ (declaredUtils wcet s₁ s (s.tested t)).sum := by
    intro s₁
    refine sum_nonneg (fun q hq => ?_)
    obtain ⟨u, -, rfl⟩ := mem_map.mp hq
    positivity
  have hnow : LiuLeyland (declaredUtils wcet s s (s.tested t)) := by
    refine liuLeyland_of_exactBound (hnonneg s) ?_
    have hlength : (declaredUtils wcet s s (s.tested t)).length = (s.tested t).length :=
      length_map _
    rw [hutils, hlength]
    gcongr
  have hcounted : (s.register t).counted (s.home t) = s.tested t := by
    rw [counted_register, htested, if_pos (by simp [countedOn, hexempt])]
  unfold Feasible
  rw [hcounted]
  refine hnow.of_le (hnonneg s₀) ?_ (by simp [declaredUtils])
  -- at the start the tasks had declared no more
  refine sum_le_sum (fun u hu => ?_)
  have hdemand : s₀.serverBudgetForAdmission wcet u ≤ s.serverBudgetForAdmission wcet u :=
    h.demand_le (hremaining u hu)
  change _ / ((s.tcb u).periodTicks : ℚ) ≤ _
  gcongr

theorem Gated.event {e : AdmissionEvent n k} (hok : CountsExactly cfg wcet s₀ s e)
    (he : s.gate cfg wcet e = some s') :
    Gated s₀ s' ∧ ∀ c, Feasible wcet s₀ s c → Feasible wcet s₀ s' c := by
  have hticked : Ticked s s' → Gated s₀ s' ∧ ∀ c, Feasible wcet s₀ s c → Feasible wcet s₀ s' c :=
    fun ht => ⟨h.of_sameRates ht.toSameRates,
      fun c hc => hc.sublist (fun u => (ht.tcb u).period) ht.counted_sublist⟩
  cases e with
  | add here t =>
    obtain ⟨⟨s₁, err⟩, hadd, rfl⟩ := map_eq_some_iff.mp he
    rcases addTaskErr_cases hadd with ⟨rfl, -⟩ | ⟨-, hfree, hcheck, hquiet⟩
    · exact ⟨h, fun _ hc => hc⟩
    have hregister : Gated s₀ (s.register t) := ⟨h.registered.register hfree, h.rates⟩
    refine ⟨hregister.of_sameRates hquiet.sameRates, fun c hc => ?_⟩
    refine .sublist (s := s.register t) ?_ (fun u => (hquiet.sameRates.tcb u).period)
      (hquiet.counted_eq ▸ List.Sublist.refl _)
    by_cases hjoins : s.countedOn c t = true
    · obtain ⟨hexempt, rfl⟩ : s.admissionExempted t = false ∧ s.home t = c := by
        simpa [countedOn] using hjoins
      exact h.feasible_register hfree hexempt hcheck hok
    · refine hc.sublist (fun u => rfl) ?_
      rw [counted_register, if_neg hjoins, append_nil]
  | remove t =>
    obtain ⟨⟨s₁, err⟩, hremove, rfl⟩ := map_eq_some_iff.mp he
    rcases removeTaskErr_cases hremove with ⟨rfl, -⟩ | ⟨-, hquiet⟩
    · exact ⟨h, fun _ hc => hc⟩
    · have hunregister : Gated s₀ (s.unregister t) := ⟨h.registered.unregister t, h.rates⟩
      refine ⟨hunregister.of_sameRates hquiet.sameRates, fun c hc => ?_⟩
      refine hc.sublist (fun u => (hquiet.sameRates.tcb u).period) ?_
      rw [hquiet.counted_eq]
      exact counted_unregister_sublist t
  | account here t => exact hticked (ticked_account hok he)
  | scanDeadline now t => exact hticked (ticked_scanDeadline he)
  | replenish here now t => exact hticked (ticked_replenish he)
  | consume here =>
    cases he
    exact hticked (ticked_consume here s)

theorem Gated.run {es : List (AdmissionEvent n k)}
    (hrun : Run (gate cfg wcet) (CountsExactly cfg wcet s₀) s es s') :
    Gated s₀ s' ∧ ∀ c, Feasible wcet s₀ s c → Feasible wcet s₀ s' c := by
  induction hrun with
  | nil s => exact ⟨h, fun _ hc => hc⟩
  | cons hok hs _ ih =>
    obtain ⟨hnext, hkeeps⟩ := h.event hok hs
    obtain ⟨hlast, hrest⟩ := ih hnext
    exact ⟨hlast, fun c hc => hrest c (hkeeps c hc)⟩

end

/-- In a run whose events all meet the condition, once a task inside the gate has been added to a
CPU with success, the tasks of that CPU pass the exact test, and go on passing it. -/
theorem admission_sound {before after : List (AdmissionEvent n k)} (hstart : s₀.Registered)
    (hbefore : Run (gate cfg wcet) (CountsExactly cfg wcet s₀) s₀ before s₁)
    (hexempt : s₁.admissionExempted t = false) (hok : CountsExactly cfg wcet s₀ s₁ (.add here t))
    (hadd : s₁.addTaskErr wcet here t = some (s₂, .ok))
    (hafter : Run (gate cfg wcet) (CountsExactly cfg wcet s₀) s₂ after s₃) :
    Feasible wcet s₀ s₃ (s₁.home t) := by
  have h₁ := ((Gated.start hstart).run hbefore).1
  have h₂ : Gated s₀ s₂ := (h₁.event (e := .add here t) hok (by rw [gate, hadd]; rfl)).1
  rcases addTaskErr_cases hadd with ⟨-, herr⟩ | ⟨-, hfree, hcheck, hquiet⟩
  · exact absurd rfl herr
  · refine (h₂.run hafter).2 _ (Feasible.sublist (s := s₁.register t) ?_
      (fun u => (hquiet.sameRates.tcb u).period) (hquiet.counted_eq ▸ List.Sublist.refl _))
    exact h₁.feasible_register hfree hexempt hcheck hok

def halfAndThree (t : Fin 2) : ℕ := if t = 0 then 5 else 3

/-- The first task is added and a tick passes; the second one is added, another tick passes, and the
first one leaves. -/
theorem admission_sound_newcomers : ∃ s₁ s₂ s₃ : Scheduler 2 1,
    Run (gate ⟨false, false⟩ halfAndThree) (CountsExactly ⟨false, false⟩ halfAndThree (newcomers 10))
      (newcomers 10) [.add 0 0, .account 0 0] s₁ ∧
    s₁.addTaskErr halfAndThree 0 1 = some (s₂, .ok) ∧
    Run (gate ⟨false, false⟩ halfAndThree) (CountsExactly ⟨false, false⟩ halfAndThree (newcomers 10))
      s₂ [.account 0 1, .remove 0] s₃ ∧
    Feasible halfAndThree (newcomers 10) s₃ (s₁.home 1) := by
  simp only [exists_and_left]
  refine Run.exists_imp_of_exec (fun s₁ => s₁.admissionExempted 1 = false ∧
    CountsExactly ⟨false, false⟩ halfAndThree (newcomers 10) s₁ (.add 0 1) ∧
    ∃ r ∈ s₁.addTaskErr halfAndThree 0 1, r.2 = .ok ∧ (exec (gate ⟨false, false⟩ halfAndThree)
      (CountsExactly ⟨false, false⟩ halfAndThree (newcomers 10)) r.1
      [.account 0 1, .remove 0]).isSome) (by decide +kernel) ?_
  rintro s₁ hbefore ⟨hexempt, hok, ⟨s₂, err⟩, hadd, rfl, hsome⟩
  obtain ⟨s₃, hs₃⟩ := isSome_iff_exists.mp hsome
  have hafter := Run.of_exec hs₃
  exact ⟨s₂, hadd, s₃, hafter,
    admission_sound (newcomers_registered 10).1 hbefore hexempt hok hadd hafter⟩

/-- A task without WCET is admitted with its whole period of 10 ticks; nine ticks later it is
counted with the rest of it, and a second task that needs 7 ticks of 10 is admitted. Two tasks that
need 985 ticks of 2378 are admitted together, since both quotients are rounded down. -/
theorem admitted_beyond_test :
    (∃ s, Run (gate ⟨false, false⟩ (fun t : Fin 2 => if t = 0 then 0 else 7)) anyStep (newcomers 10)
        (.add 0 0 :: List.replicate 9 (.account 0 0) ++ [.add 0 1]) s ∧
      s.counted 0 = [0, 1] ∧ ¬ Feasible (fun t => if t = 0 then 0 else 7) (newcomers 10) s 0) ∧
    ∃ s, Run (gate ⟨false, false⟩ (fun _ => 985)) anyStep (newcomers 2378)
        [.add 0 0, .add 0 1] s ∧
      s.counted 0 = [0, 1] ∧ ¬ Feasible (fun _ => 985) (newcomers 2378) s 0 :=
  ⟨Run.exists_of_exec (by decide +kernel),
    Run.exists_of_exec (by decide +kernel)⟩

end Scheduler

end Nexios.Sched
