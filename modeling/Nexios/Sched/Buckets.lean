import Nexios.Sched.Tracking

/-!
# A task stands in the queue of its effective priority

The queues do not look at the fields of a task again, so whoever changes a priority has to move the
task. Most places do. `set_priority` and the deadline-monotonic assignment move a linked task to the
queue of the priority they write, which is not the effective one if the task has a server; a
replenishment and a demotion go through `move_priority` also for a task that is not queued, and link
it.
-/

open Option

namespace Nexios.Sched

variable {n k : ℕ}

def Change.PriorityOnly : Change n k → Prop
  | .setPriority _ _ | .inherit _ _ | .assignDeadlinePriority _ | .demote _ | .scanDeadline _ _
  | .replenish _ _ _ | .consume _ | .onActivation _ _ | .onCompletion _ => True
  | _ => False

namespace Scheduler

variable {s s' s₀ : Scheduler n k} {cfg : Config} {c : Cpu k} {t u : Fin n} {p : ℕ}
  {old new : ℕ}

def InQueue (s : Scheduler n k) (t : Fin n) : Prop := ∃ i, s.rq.Linked i t

theorem Inv.inQueue_iff {le : Fin n → Fin n → Prop} {bucket : Fin n → ℕ → Prop}
    (h : Inv le bucket s) : s.InQueue t ↔ s.rq.inReadyQueue t = true := by
  constructor
  · rintro ⟨⟨c, p⟩, hlinked⟩
    exact (h.rq.linked_iff.mp hlinked).1
  · intro hflag
    exact ⟨(s.home t, s.rq.rqPriority t), h.rq.linked_iff.mpr ⟨hflag, rfl, rfl⟩⟩

/-- A change of level that moves the task moves it between queues: it was linked before. -/
def NoNewLink (cfg : Config) (s : Scheduler n k) : Change n k → Prop
  | .demote t => 1 < (s.tcb t).priority → (s.tcb t).demoted.effectivePriority ≠ s.eff t →
      s.rq.inReadyQueue t
  | .scanDeadline now t => cfg.demotes → (s.tcb t).overdue now →
      1 < (s.tcb t).priority → (s.tcb t).demoted.effectivePriority ≠ s.eff t →
      s.rq.inReadyQueue t
  | .replenish here now t => s.home t = here → s.current here ≠ some t →
      ((s.tcb t).onServer (fun ss => ss.processReplenishments now)).effectivePriority ≠ s.eff t →
      s.queued t
  | _ => True

instance (cfg : Config) (s : Scheduler n k) (c : Change n k) : Decidable (s.NoNewLink cfg c) := by
  unfold NoNewLink
  exact match c with
  | .act _ | .note .. | .setPriority .. | .inherit .. | .assignDeadlinePriority _ | .demote _
  | .setSchedPolicy .. | .setEdfExempt .. | .account .. | .scanDeadline .. | .replenish ..
  | .consume _ | .onActivation .. | .onCompletion _ => inferInstance

def LevelsFollowed (cfg : Config) (s : Scheduler n k) (c : Change n k) : Prop :=
  s.Proper cfg c ∧ s.BucketOk c ∧ s.NoNewLink cfg c
  deriving Decidable

/-! ## Who is linked after a change of priority -/

theorem movePriority_rq_flag {r r' : RunQueues n k} {home : Fin n → Cpu k} (hg : r.Good home)
    (ht : r.inReadyQueue t) (he : r.movePriority (home t) t old new = some r')
    (hu : r'.inReadyQueue u) : r.inReadyQueue u = true := by
  by_cases hne : old = new
  · rw [RunQueues.movePriority, if_pos hne] at he
    exact some.inj he ▸ hu
  obtain ⟨hflag, -⟩ := hg.movePriority_fields rfl hne he
  rw [hflag, Function.update_apply] at hu
  split_ifs at hu with hut
  · rw [hut]
    exact ht
  · exact hu

section

variable (hg : s.rq.Good s.home)
include hg

theorem movePriority_flag (ht : s.queued t) (he : s.movePriority t old new = some s')
    (hu : s'.rq.inReadyQueue u) : s.rq.inReadyQueue u = true := by
  unfold movePriority at he
  split_ifs at he with hedf
  · obtain ⟨edf, -, hs'⟩ := bind_eq_some_iff.mp he
    rw [← some.inj hs'] at hu
    exact hu
  · obtain ⟨rq, hrq, hs'⟩ := bind_eq_some_iff.mp he
    rw [← some.inj hs'] at hu
    have hin : s.rq.inReadyQueue t = true := (Bool.or_eq_true_iff.mp ht).resolve_right hedf
    exact movePriority_rq_flag hg hin hrq hu

theorem demote_flag (hin : 1 < (s.tcb t).priority → (s.tcb t).demoted.effectivePriority ≠ s.eff t →
      s.rq.inReadyQueue t) (he : s.demote t = some s') (hu : s'.rq.inReadyQueue u) :
    s.rq.inReadyQueue u = true := by
  have hf : Stationary Tcb.demoted := fun _ => ⟨rfl, rfl⟩
  simp only [demote] at he
  rw [modify_eff_self, hf.home_eq] at he
  split_ifs at he with hlow hne
  · obtain ⟨rq, hrq, rfl⟩ := map_eq_some_iff.mp he
    exact movePriority_rq_flag hg (hin hlow hne.symm) hrq hu
  all_goals
    cases he
    exact hu

theorem Good.modify {f : Tcb → Tcb} (hf : Stationary f) (t : Fin n) :
    (s.modify t f).rq.Good (s.modify t f).home := by
  rw [hf.home_eq]
  exact hg

theorem change_flag {d : Change n k} (honly : d.PriorityOnly)
    (hok : s.NoNewLink cfg d) (he : s.change cfg d = some s') (hu : s'.rq.inReadyQueue u) :
    s.rq.inReadyQueue u = true := by
  cases d with try rw [← some.inj he] at hu
  | setPriority t p =>
    simp only [change, setPriority] at he
    split_ifs at he with hsame hin
    · exact some.inj he ▸ hu
    · obtain ⟨s₁, hs₁, rfl⟩ := map_eq_some_iff.mp he
      exact movePriority_flag hg (by simp [queued, hin]) hs₁ hu
    · cases he
      exact hu
  | inherit t p =>
    simp only [change, inherit] at he
    split_ifs at he with hcond
    · have hf : Stationary (fun a => a.lend p) := fun _ => ⟨rfl, rfl⟩
      have hin : s.queued t = true := Bool.or_eq_true_iff.mpr (.inl hcond.2)
      exact movePriority_flag (s := s.modify t (fun a => a.lend p)) (Good.modify hg hf t) hin he hu
    · cases he
      exact hu
  | assignDeadlinePriority t =>
    simp only [change, assignDeadlinePriority] at he
    split_ifs at he with hsame hedf hrq
    · exact some.inj he ▸ hu
    · obtain ⟨edf, -, rfl⟩ := map_eq_some_iff.mp he
      exact hu
    · have hf : Stationary (fun a => a.setPriority (deadlinePriority (s.tcb t).periodTicks)) :=
        fun _ => ⟨rfl, rfl⟩
      obtain ⟨rq, hmove, rfl⟩ := map_eq_some_iff.mp he
      exact movePriority_rq_flag (Good.modify hg hf t) hrq hmove hu
    · cases he
      exact hu
  | demote t => exact demote_flag hg hok he hu
  | scanDeadline now t =>
    simp only [change, scanDeadline] at he
    split_ifs at he with hdue hdemote
    · obtain ⟨s₁, hs₁, rfl⟩ := map_eq_some_iff.mp he
      exact demote_flag hg (hok hdemote hdue) hs₁ hu
    · obtain ⟨s₁, hs₁, rfl⟩ := map_eq_some_iff.mp he
      rw [some.inj hs₁]
      exact hu
    · exact some.inj he ▸ hu
  | replenish here now t =>
    simp only [change, replenish] at he
    split_ifs at he with hhome hcond
    · exact some.inj he ▸ hu
    · obtain ⟨hne, hcur⟩ := hcond
      rw [modify_eff_self] at hne
      have hin := hok (not_not.mp hhome) hcur hne.symm
      exact movePriority_flag (s := s.modify t (fun a => a.onServer _))
        (Good.modify hg (Stationary.onServer _) t) hin he hu
    · cases he
      exact hu
  | consume here =>
    unfold consume at hu
    split at hu
    · exact hu
    · split_ifs at hu
      all_goals exact hu
  | onActivation t now => exact hu
  | onCompletion t => exact hu
  | act _ | note _ _ _ _ | setSchedPolicy _ _ _ | setEdfExempt _ _ _ | account _ _ => cases honly

end

/-- In every run whose steps tell the queues of the effective priority, each linked task stands in
the queue of its effective priority, and a step that only changes a priority links no task. -/
theorem levels_consistent {cs : List (Change n k)} (hstart : s₀.Start)
    (hrun : Run (change cfg) (LevelsFollowed cfg) s₀ cs s) :
    (∀ t c p, s.rq.Linked (c, p) t → p = s.eff t) ∧
      ∀ d s', d.PriorityOnly → s.LevelsFollowed cfg d → s.change cfg d = some s' →
        ∀ t, s'.InQueue t → s.InQueue t := by
  have htracked : Tracked false true s :=
    hrun.invariant (fun _ _ _ h hok he => h.change hok.1 nofun (fun _ => hok.2.1) he)
      (hstart.inv (fits_tracked false true s₀))
  constructor
  · intro t c p hlinked
    obtain ⟨hflag, -, rfl⟩ := (Inv.rq htracked).linked_iff.mp hlinked
    exact Inv.bucket htracked t hflag rfl
  · intro d s' honly hok he t ht
    have htracked' := htracked.change hok.1 nofun (fun _ => hok.2.1) he
    rw [Inv.inQueue_iff htracked'] at ht
    rw [Inv.inQueue_iff htracked]
    exact change_flag (Inv.rq htracked) honly hok.2.2 he ht

/-- One blocked task whose server has used up its budget and gets it back at time 0: level 5 until
then, level 30 from then on. -/
def exhausted : Scheduler 1 0 :=
  unqueued (fun _ =>
    { Tcb.plain 1 with
      state := .blocked
      sporadicServer := some
        { budgetC := 5, periodT := 10, basePriority := 30, bgPriority := 5, budgetGranularity := 1,
          mode := .sporadic, budgetRemaining := 0, consumedSinceActive := 0, activationTime := 0,
          consumeCounter := 0, lastPeriodicTick := 0, state := .exhausted,
          replenishments := fun _ => ⟨0, 5⟩, replenishmentHead := 0, replenishmentTail := 1,
          replenishmentCount := 1, coalesceCount := 0 } }) [0] 1

theorem exhausted_start : exhausted.Start := start_unqueued nofun

theorem linked_of_head {i : Cpu k × ℕ} (hhead : (s.rq.queue i).head = some t) :
    s.rq.Linked i t := by
  unfold RunQueues.Linked
  rw [hhead]
  exact .here t

/-- The task is woken, and the replenishment moves it to the level of its budget. -/
theorem levels_consistent_exhausted :
    ∃ s, Run (change ⟨true, false⟩) (LevelsFollowed ⟨true, false⟩) exhausted
        [.act (.setTaskReady 0 0), .replenish 0 5 0] s ∧
      s.rq.Linked (0, 30) 0 ∧ s.eff 0 = 30 ∧
      ∀ s', s.change ⟨true, false⟩ (.inherit 0 40) = some s' → ∀ t, s'.InQueue t → s.InQueue t := by
  refine Run.exists_imp_of_exec
    (fun s => (s.rq.queue (0, 30)).head = some 0 ∧ s.LevelsFollowed ⟨true, false⟩ (.inherit 0 40))
    (by decide +kernel) ?_
  rintro s hrun ⟨hhead, hok⟩
  have hlinked := linked_of_head hhead
  obtain ⟨hlevel, hlinks⟩ := levels_consistent exhausted_start hrun
  exact ⟨hlinked, (hlevel 0 0 30 hlinked).symm, fun s' => hlinks _ s' trivial hok⟩

/-- `set_priority` of a queued task with a server links it away from its effective priority; a
replenishment links a task that is blocked and was in no queue. -/
theorem levels_diverge :
    exhausted.Start ∧ (∃ s, Run (change ⟨true, false⟩) anyStep exhausted
        [.act (.setTaskReady 0 0), .setPriority 0 20] s ∧
      s.rq.Linked (0, 20) 0 ∧ s.eff 0 = 5) ∧
    ∃ s, exhausted.change ⟨true, false⟩ (.replenish 0 5 0) = some s ∧
      ¬ exhausted.InQueue 0 ∧ s.InQueue 0 ∧ (s.tcb 0).state = .blocked := by
  refine ⟨exhausted_start, ?_, ?_⟩
  · refine Run.exists_imp_of_exec (fun s => (s.rq.queue (0, 20)).head = some 0 ∧ s.eff 0 = 5)
      (by decide +kernel) ?_
    rintro s - ⟨hhead, heff⟩
    exact ⟨linked_of_head hhead, heff⟩
  · obtain ⟨s, hrun, hhead, hblocked⟩ : ∃ s, Run (change ⟨true, false⟩) anyStep exhausted
        [.replenish 0 5 0] s ∧ (s.rq.queue (0, 30)).head = some 0 ∧ (s.tcb 0).state = .blocked :=
      Run.exists_of_exec (by decide +kernel)
    cases hrun with
    | cons hok hs hrest =>
      cases hrest
      refine ⟨s, hs, ?_, ⟨_, linked_of_head hhead⟩, hblocked⟩
      rw [Inv.inQueue_iff (exhausted_start.inv (fits_true exhausted))]
      decide

end Scheduler

end Nexios.Sched
