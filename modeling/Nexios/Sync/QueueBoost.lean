import Mathlib.Data.Fin.VecNotation
import Nexios.Sync.Queue

/-!
# The boosts of a queue

A sender that has to wait boosts the last receiver, and the next message takes the boost back from
whoever is the last receiver then; receivers do the same to senders. Boosts are balanced as long as
nobody but the boosted task calls in its role while it is boosted, and a call that has to wait does
wait. Otherwise a task keeps a boost, and another is given a priority that was never its own.
-/

open Function

namespace Nexios.Sync.QueueState

open TaskTable Side TaskInfo

variable {n : ℕ} {s s' s₁ : QueueState n} {t u : Fin n} {q : Request} {r : Role} {err : Bool}
  {base : Fin n → ℕ} {w : Waiter n} {p h : ℕ} {r' : Role}

def InCall (s : QueueState n) (r : Role) (t : Fin n) : Prop := ∃ c ∈ s.pc t, c.1.role = r

def Quiet (s : QueueState n) : Prop := ∀ t, s.pc t = none
  deriving Decidable

/-- The condition on a round of a call: while someone is boosted in the role of the caller, it is
the caller itself; and a call that has to wait finds room in the array, and does not boost a task of
the priority 0, which stands for no priority. -/
def Orderly (s : QueueState n) (t : Fin n) (q : Request) : Prop :=
  ((s.side q.role).holderPrio ≠ 0 → (s.side q.role).last = some (s.tasks.waiter t)) ∧
    (s.canMove q = false → (s.side q.role).waiters.length < maxWaiters ∧
      ∀ w ∈ (s.side q.role.other).last, s.tasks.prio w < (s.tasks t).priority → 0 < s.tasks.prio w)
  deriving Decidable

/-- The condition on a step. A wait is not given up while the task that it boosted is boosted, and
the tasks live on. -/
def Paired (s : QueueState n) : QueueAction n → Prop
  | .call t q _ => tooLarge q = false → s.Orderly t q
  | .retry t => ∀ c ∈ s.pc t, s.Orderly t c.1
  | .rollback t => ∀ c ∈ s.pc t, (s.side c.1.role.other).holderPrio = 0
  | .tryCall t q => s.canMove q → s.Orderly t q
  | .removeWaiter _ | .ready _ => True
  | .terminate _ | .reap _ | .recycle _ _ => False

instance (s : QueueState n) (a : QueueAction n) : Decidable (s.Paired a) := by
  unfold Paired
  split <;> infer_instance

/-- What is known of the boosts: `base` are the priorities of the tasks without them. -/
structure Boosted (base : Fin n → ℕ) (s : QueueState n) : Prop where
  live : ∀ t, s.tasks.live t = true
  current : ∀ r w, (s.side r).last = some w → s.tasks.current w
  holder : ∀ r, (s.side r).holderPrio ≠ 0 →
    ∃ w, (s.side r).last = some w ∧ (s.side r).holderPrio = base w.task
  prio : ∀ t, (s.tasks t).priority = base t ∨
    ∃ r w, (s.side r).holderPrio ≠ 0 ∧ (s.side r).last = some w ∧ w.task = t

/-- Whoever is boosted is boosted for a task that is in a call. -/
def Awaiting (s : QueueState n) : Prop :=
  ∀ r, (s.side r).holderPrio ≠ 0 → ∃ t, s.InCall r.other t

/-! ## What does not change the boosts -/

structure SameBoost (s s' : QueueState n) : Prop where
  priority : ∀ t, (s'.tasks t).priority = (s.tasks t).priority
  generation : ∀ t, (s'.tasks t).generation = (s.tasks t).generation
  live : ∀ t, s.tasks.live t → s'.tasks.live t
  last : ∀ r, (s'.side r).last = (s.side r).last
  holder : ∀ r, (s'.side r).holderPrio = (s.side r).holderPrio

theorem Boosted.same (hs : s.Boosted base) (h : SameBoost s s') : s'.Boosted base := by
  refine ⟨fun t => h.live t (hs.live t), fun r w hw => ?_, fun r hr => ?_, fun t => ?_⟩
  · rw [h.last] at hw
    rw [TaskTable.current, h.generation]
    exact hs.current r w hw
  · rw [h.holder] at hr ⊢
    rw [h.last]
    exact hs.holder r hr
  rw [h.priority]
  refine (hs.prio t).imp id (fun ⟨r, w, hr, hw, ht⟩ => ⟨r, w, ?_, ?_, ht⟩)
  · rw [h.holder]
    exact hr
  · rw [h.last]
    exact hw

namespace SameBoost

theorem of_eq (htasks : s'.tasks = s.tasks) (hside : s'.side = s.side) : SameBoost s s' := by
  constructor
  all_goals simp only [htasks, hside, imp_self, implies_true]

theorem trans (h : SameBoost s s₁) (h' : SameBoost s₁ s') : SameBoost s s' :=
  ⟨fun t => (h'.priority t).trans (h.priority t),
    fun t => (h'.generation t).trans (h.generation t), fun t hl => h'.live t (h.live t hl),
    fun r => (h'.last r).trans (h.last r), fun r => (h'.holder r).trans (h.holder r)⟩

theorem onSide {f : Side n → Side n} (hlast : (f (s.side r)).last = (s.side r).last)
    (hholder : (f (s.side r)).holderPrio = (s.side r).holderPrio) : SameBoost s (s.onSide r f) :=
  ⟨fun _ => rfl, fun _ => rfl, fun _ h => h, onSide_field Side.last hlast,
    onSide_field holderPrio hholder⟩

theorem setState (t : Fin n) (st : Sched.TaskState) (hst : st ≠ .terminated)
    (hst' : st ≠ .reaped) : SameBoost s (s.setTasks (s.tasks.setState t st)) := by
  exact ⟨TaskTable.modify_field TaskInfo.priority rfl,
    TaskTable.modify_field TaskInfo.generation rfl, fun _ hu => TaskTable.live_setState hst hst' hu,
    fun _ => rfl, fun _ => rfl⟩

theorem wakeOne (s : QueueState n) (r : Role) : SameBoost s (s.wakeOne r) := by
  have hside : SameBoost s (s.onSide r (fun d =>
      { d with waiters := (s.tasks.wakeOne d.waiters).1 })) := onSide rfl rfl
  cases hw : (s.tasks.wakeOne (s.side r).waiters).2 with
  | none =>
    refine hside.trans (of_eq ?_ rfl)
    rw [QueueState.wakeOne, hw]
    rfl
  | some w =>
    refine (hside.trans (setState w.task .ready nofun nofun)).trans (of_eq ?_ rfl)
    rw [QueueState.wakeOne, hw]
    rfl

end SameBoost

/-! ## Calls -/

theorem setLast_holder (s : QueueState n) (r : Role) (t : Fin n) (r' : Role) :
    ((s.setLast r t).side r').holderPrio = (s.side r').holderPrio :=
  onSide_field holderPrio rfl r'

theorem setLast_last (s : QueueState n) (r : Role) (t : Fin n) :
    ((s.setLast r t).side r).last = some (s.tasks.waiter t) := by
  rw [setLast, onSide_self]

theorem Boosted.setLast (hs : s.Boosted base)
    (hown : (s.side r).holderPrio ≠ 0 → (s.side r).last = some (s.tasks.waiter t)) :
    (s.setLast r t).Boosted base := by
  have hother : ∀ r', r' ≠ r → ((s.setLast r t).side r').last = (s.side r').last :=
    fun r' hr => congrArg last (onSide_ne _ hr)
  have hlast : ∀ r', (s.side r').holderPrio ≠ 0 →
      ((s.setLast r t).side r').last = (s.side r').last := by
    intro r' hr'
    by_cases hr : r' = r
    · subst hr
      rw [setLast_last, hown hr']
    · exact hother r' hr
  refine ⟨hs.live, fun r' w hw => ?_, fun r' hr' => ?_, fun u => ?_⟩
  · by_cases hr : r' = r
    · subst hr
      rw [setLast_last] at hw
      cases hw
      exact decide_eq_true rfl
    · exact hs.current r' w (hother r' hr ▸ hw)
  · rw [setLast_holder] at hr' ⊢
    rw [hlast r' hr']
    exact hs.holder r' hr'
  · refine (hs.prio u).imp id (fun ⟨r', w, hr', hw, hu⟩ => ⟨r', w, ?_, ?_, hu⟩)
    · rw [setLast_holder]
      exact hr'
    · rw [hlast r' hr', hw]

theorem Boosted.not_stale (hs : s.Boosted base) (hw : (s.side r).last = some w) :
    s.stale w = false := by
  have hlive := hs.live w.task
  simp only [TaskTable.live, Bool.and_eq_true, decide_eq_true_eq] at hlive
  simp [stale, hs.current r w hw, hlive.2]

/-- The last caller `w` of the role gets the priority `p`, and `h` is saved. -/
def assign (s : QueueState n) (r : Role) (w : Waiter n) (p h : ℕ) : QueueState n :=
  (s.onSide r (fun d => { d with holderPrio := h })).setTasks (s.tasks.setPriority w.task p)

theorem assign_last (r' : Role) : ((s.assign r w p h).side r').last = (s.side r').last := by
  rw [assign, setTasks_side]
  exact onSide_field last rfl r'

theorem assign_holder : ((s.assign r w p h).side r).holderPrio = h := by
  rw [assign, setTasks_side, onSide_self]

theorem assign_holder_ne (hr : r' ≠ r) :
    ((s.assign r w p h).side r').holderPrio = (s.side r').holderPrio := by
  rw [assign, setTasks_side, onSide_ne _ hr]

section

variable (hs : s.Boosted base)
include hs

theorem Boosted.assign (hw : (s.side r).last = some w) (hholder : h ≠ 0 → h = base w.task)
    (hprio : h = 0 → p = base w.task) : (s.assign r w p h).Boosted base := by
  have hstate : ∀ u, ((s.assign r w p h).tasks u).state = (s.tasks u).state :=
    modify_field state rfl
  have hgeneration : ∀ u, ((s.assign r w p h).tasks u).generation = (s.tasks u).generation :=
    modify_field generation rfl
  refine ⟨fun u => ?_, fun r' v hv => ?_, fun r' hr' => ?_, fun u => ?_⟩
  · rw [TaskTable.live, hstate]
    exact hs.live u
  · rw [TaskTable.current, hgeneration]
    exact hs.current r' v (assign_last r' ▸ hv)
  · rw [assign_last]
    by_cases hr : r' = r
    · subst hr
      rw [assign_holder] at hr' ⊢
      exact ⟨w, hw, hholder hr'⟩
    · rw [assign_holder_ne hr] at hr' ⊢
      exact hs.holder r' hr'
  · by_cases hu : u = w.task
    · subst hu
      by_cases hh : h = 0
      · left
        rw [← hprio hh]
        exact congrArg priority (modify_self _)
      · exact .inr ⟨r, w, assign_holder.trans_ne hh, (assign_last r).trans hw, rfl⟩
    · have hsame : (s.assign r w p h).tasks u = s.tasks u := update_of_ne hu ..
      rw [hsame]
      refine (hs.prio u).imp_right ?_
      rintro ⟨r', v, hr', hv, hvu⟩
      -- the other task is not the last caller of this role
      have hr : r' ≠ r := by
        rintro rfl
        rw [hw] at hv
        cases hv
        exact hu hvu.symm
      exact ⟨r', v, (assign_holder_ne hr).trans_ne hr', (assign_last r').trans hv, hvu⟩

theorem Boosted.boost
    (hlast : (s.side r.other).holderPrio ≠ 0 → (s.side r.other).last = some (s.tasks.waiter t))
    (hpos : ∀ w ∈ (s.side r).last, s.tasks.prio w < (s.tasks t).priority → 0 < s.tasks.prio w) :
    (s.boost r t).Boosted base := by
  unfold QueueState.boost
  split
  · exact hs
  rename_i w hw
  rw [if_neg (by simp [hs.not_stale hw])]
  split_ifs with hlt
  · refine hs.assign (h := if (s.side r).holderPrio = 0 then s.tasks.prio w
      else (s.side r).holderPrio) hw (fun hne => ?_) (fun hzero => ?_)
    · split_ifs with hholder
      · -- the boosted task is not the caller, so it has its own priority
        refine (hs.prio w.task).resolve_right (fun ⟨r', v, hr', hv, hvw⟩ => ?_)
        have hr : r' = r.other := eq_other_of_ne (fun he => hr' (he ▸ hholder))
        subst hr
        rw [hlast hr'] at hv
        cases hv
        have htw : t = w.task := hvw
        rw [htw] at hlt
        exact lt_irrefl _ hlt
      · obtain ⟨v, hv, hbase⟩ := hs.holder r hholder
        rw [hw] at hv
        cases hv
        exact hbase
    · split_ifs at hzero with hholder
      · exact absurd hzero (hpos w hw hlt).ne'
      · exact absurd hzero hholder
  · exact hs

theorem Boosted.restore : (s.restore r).Boosted base := by
  unfold QueueState.restore
  split
  · exact hs
  rename_i w hw
  split_ifs with hholder hstale
  · exact hs
  · rw [hs.not_stale hw] at hstale
    cases hstale
  · refine hs.assign (h := 0) hw (absurd rfl) (fun _ => ?_)
    obtain ⟨v, hv, hbase⟩ := hs.holder r hholder
    rw [hw] at hv
    cases hv
    exact hbase

theorem Boosted.restore_holder : ((s.restore r).side r).holderPrio = 0 := by
  unfold QueueState.restore
  split
  · rename_i hnone
    by_contra hne
    obtain ⟨w, hw, -⟩ := hs.holder r hne
    rw [hnone] at hw
    cases hw
  · rename_i w hw
    split_ifs with hholder hstale
    · exact hholder
    · rw [hs.not_stale hw] at hstale
      cases hstale
    · exact assign_holder

end

theorem restore_holder_ne (hr : r' ≠ r) :
    ((s.restore r).side r').holderPrio = (s.side r').holderPrio := by
  unfold restore
  split
  · rfl
  · split_ifs
    · rfl
    · rw [forget, onSide_ne _ hr]
    · exact assign_holder_ne hr

theorem boost_holder_ne (hr : r' ≠ r) :
    ((s.boost r t).side r').holderPrio = (s.side r').holderPrio := by
  unfold boost
  split
  · rfl
  · split_ifs
    · rw [forget, onSide_ne _ hr]
    · rw [setTasks_side, onSide_ne _ hr]
    · rfl

/-! ## The steps -/

section

variable (hs : s.Boosted base) (hok : s.Orderly t q)
include hs hok

theorem Boosted.move : (s.move t q).Boosted base := by
  rw [QueueState.move, restorePeer_eq]
  exact .restore ((hs.setLast hok.1).same (.of_eq rfl rfl))

theorem Boosted.transfer : (s.transfer t q).Boosted base := by
  rw [QueueState.transfer, wakePeer_eq]
  exact (hs.move hok).same (.wakeOne ..)

theorem Boosted.transfer_holder (r : Role) : ((s.transfer t q).side r).holderPrio =
      if r = q.role then (s.side r).holderPrio else 0 := by
  have hlast : (({ s.setLast q.role t with msgs := s.moved q } : QueueState n)).Boosted base :=
    (hs.setLast hok.1).same (.of_eq rfl rfl)
  rw [QueueState.transfer, wakePeer_eq, (SameBoost.wakeOne ..).holder, QueueState.move,
    restorePeer_eq]
  split_ifs with hr
  · subst hr
    rw [restore_holder_ne (other_ne q.role).symm]
    exact setLast_holder ..
  · rw [eq_other_of_ne hr]
    exact hlast.restore_holder

end

section

variable (s : QueueState n)

theorem boost_pc (r : Role) (t : Fin n) : (s.boost r t).pc = s.pc := by
  unfold boost
  split
  · rfl
  · split_ifs
    · rfl
    · rfl
    · rfl

theorem boost_waiters (r : Role) (t : Fin n) (r' : Role) :
    ((s.boost r t).side r').waiters = (s.side r').waiters := by
  unfold boost
  split
  · rfl
  · split_ifs
    · exact onSide_field waiters rfl r'
    · rw [setTasks_side]
      exact onSide_field waiters rfl r'
    · rfl

theorem transfer_pc (t : Fin n) (q : Request) : (s.transfer t q).pc = s.pc := by
  rw [transfer, wakePeer_eq, move, restorePeer_eq, restore]
  split
  · rfl
  · split_ifs
    all_goals rfl

end

/-- Only the caller leaves or enters a call: what is saved in its own role is as before, and what is
saved in the other role is saved for a task in a call. -/
theorem Awaiting.of (hs : s.Awaiting) (hpc : ∀ c ∈ s.pc t, c.1.role = q.role)
    (hother : ∀ u, u ≠ t → s'.pc u = s.pc u)
    (hown : (s'.side q.role).holderPrio = (s.side q.role).holderPrio)
    (hpeer : (s'.side q.role.other).holderPrio ≠ 0 → s'.InCall q.role t) : s'.Awaiting := by
  intro r hr
  by_cases hrole : r = q.role
  · subst hrole
    rw [hown] at hr
    obtain ⟨u, c, hc, hcrole⟩ := hs q.role hr
    -- the task that waits is not the caller, which is in the other role
    have hu : u ≠ t := by
      rintro rfl
      exact other_ne q.role (hcrole.symm.trans (hpc c hc))
    exact ⟨u, c, (hother u hu).symm ▸ hc, hcrole⟩
  · obtain rfl := eq_other_of_ne hrole
    have hback : q.role.other.other = q.role := (eq_other_of_ne (other_ne q.role).symm).symm
    rw [hback]
    exact ⟨t, hpeer hr⟩

def waitFor (s : QueueState n) (t : Fin n) (q : Request) (err : Bool) : QueueState n :=
  let s := (s.setLast q.role t).boost q.role.other t
  ((s.addWaiter q.role t).setTasks (s.tasks.setState t .blocked)).setPc t (some (q, err))

theorem round_eq (hok : s.Orderly t q) : (s.round t q err).1 =
      if s.canMove q then (s.transfer t q).setPc t none else s.waitFor t q err := by
  unfold round
  split_ifs with hmove
  · rfl
  have hroom := (hok.2 (Bool.eq_false_iff.mpr hmove)).1
  have hlast : ((s.setLast q.role t).side q.role).waiters = (s.side q.role).waiters :=
    onSide_field Side.waiters rfl q.role
  have hboost : (((s.setLast q.role t).boostPeer t q).side q.role).waiters =
      (s.side q.role).waiters := by
    rw [boostPeer_eq, boost_waiters, hlast]
  simp only [hlast, hboost, Nat.not_le.mpr hroom, and_false]
  rw [boostPeer_eq]
  rfl

theorem Boosted.waitFor (hs : s.Boosted base) (hok : s.Orderly t q) (hmove : s.canMove q = false) :
    (s.waitFor t q err).Boosted base := by
  have hlast := hs.setLast hok.1
  have hboost : ((s.setLast q.role t).boost q.role.other t).Boosted base := by
    refine hlast.boost (fun _ => ?_) ?_
    · rw [← eq_other_of_ne (other_ne q.role).symm]
      exact setLast_last ..
    · have hpeer : ((s.setLast q.role t).side q.role.other).last = (s.side q.role.other).last :=
        congrArg last (onSide_ne _ (other_ne q.role))
      rw [hpeer]
      exact (hok.2 hmove).2
  have hadd := hboost.same (SameBoost.onSide (r := q.role) (f := fun d =>
    { d with waiters := d.waiters ++ [((s.setLast q.role t).boost q.role.other t).tasks.waiter t] })
    rfl rfl)
  have hstate := hadd.same (.setState t .blocked nofun nofun)
  exact hstate.same (.of_eq rfl rfl)

theorem Awaiting.transfer (hs : s.Awaiting) (hboosted : s.Boosted base) (hok : s.Orderly t q)
    (hpc : ∀ c ∈ s.pc t, c.1.role = q.role) (hside : s'.side = (s.transfer t q).side)
    (hother : ∀ u, u ≠ t → s'.pc u = s.pc u) : s'.Awaiting := by
  have hholder := hboosted.transfer_holder hok
  refine hs.of hpc hother ?_ (absurd ?_)
  · rw [hside, hholder, if_pos rfl]
  · rw [hside, hholder, if_neg (other_ne q.role)]

theorem Awaiting.waitFor (hs : s.Awaiting) (hpc : ∀ c ∈ s.pc t, c.1.role = q.role) :
    (s.waitFor t q err).Awaiting := by
  refine hs.of hpc (fun u hu => ?_) ?_ (fun _ => ?_)
  · exact (update_of_ne hu ..).trans (congrFun (boost_pc ..) u)
  · have hadd := onSide_field (s := (s.setLast q.role t).boost q.role.other t) (r := q.role)
      (f := fun d => { d with
        waiters := d.waiters ++ [((s.setLast q.role t).boost q.role.other t).tasks.waiter t] })
      holderPrio rfl q.role
    refine hadd.trans ?_
    rw [boost_holder_ne (other_ne q.role).symm, setLast_holder]
  · exact ⟨(q, err), update_self .., rfl⟩

theorem Boosted.round (hs : s.Boosted base) (hawaiting : s.Awaiting) (hok : s.Orderly t q)
    (hpc : ∀ c ∈ s.pc t, c.1.role = q.role) :
    (s.round t q err).1.Boosted base ∧ (s.round t q err).1.Awaiting := by
  rw [round_eq hok]
  split_ifs with hmove
  · refine ⟨(hs.transfer hok).same (.of_eq rfl rfl),
      hawaiting.transfer hs hok hpc rfl fun u hu => ?_⟩
    exact (update_of_ne hu ..).trans (congrFun (transfer_pc s t q) u)
  · exact ⟨hs.waitFor hok (Bool.eq_false_iff.mpr hmove), hawaiting.waitFor hpc⟩

section

variable (s : QueueState n)

theorem SameBoost.removeWaiterOf (r : Role) (t : Fin n) : SameBoost s (s.removeWaiterOf r t) := by
  unfold QueueState.removeWaiterOf
  split
  · exact .of_eq rfl rfl
  · exact .onSide rfl rfl

theorem removeWaiterOf_pc (r : Role) (t : Fin n) : (s.removeWaiterOf r t).pc = s.pc := by
  unfold removeWaiterOf
  split
  · rfl
  · rfl

theorem SameBoost.rollback (t : Fin n) (r : Role) : SameBoost s (s.rollback t r) := by
  have hstate : SameBoost (s.removeWaiterOf r t)
      ((s.removeWaiterOf r t).setTasks ((s.removeWaiterOf r t).tasks.setState t .running)) :=
    .setState _ _ nofun nofun
  have htasks : (s.removeWaiterOf r t).tasks = s.tasks := by
    unfold QueueState.removeWaiterOf
    split <;> rfl
  rw [htasks] at hstate
  exact ((SameBoost.removeWaiterOf s r t).trans hstate).trans (.of_eq rfl rfl)

end

theorem Awaiting.same (hs : s.Awaiting) (h : SameBoost s s') (hpc : s'.pc = s.pc) :
    s'.Awaiting := by
  intro r hr
  rw [h.holder] at hr
  obtain ⟨u, c, hc, hrole⟩ := hs r hr
  exact ⟨u, c, hpc ▸ hc, hrole⟩

theorem Boosted.tryCall (hs : s.Boosted base) (hawaiting : s.Awaiting)
    (hok : s.canMove q → s.Orderly t q) (hpc : s.pc t = none) :
    (s.tryCall t q).1.Boosted base ∧ (s.tryCall t q).1.Awaiting := by
  unfold QueueState.tryCall
  split_ifs with hfails
  · exact ⟨hs, hawaiting⟩
  · rw [not_or, Bool.not_eq_false] at hfails
    have horderly := hok hfails.2
    refine ⟨hs.transfer horderly, hawaiting.transfer hs horderly (fun c hc => ?_) rfl fun u _ => ?_⟩
    · rw [hpc] at hc
      cases hc
    · exact congrFun (transfer_pc s t q) u

theorem Boosted.step {a : QueueAction n} (hs : s.Boosted base) (hawaiting : s.Awaiting)
    (hok : s.Paired a) (h : s.step a = some s') : s'.Boosted base ∧ s'.Awaiting := by
  cases a with try obtain ⟨hruns, rfl⟩ := Option.ite_some_none_eq_some.mp h
  | call t q err =>
    unfold QueueState.call
    split_ifs with hsize
    · exact ⟨hs, hawaiting⟩
    · have horderly := hok (Bool.eq_false_iff.mpr hsize)
      refine hs.round hawaiting horderly fun c hc => ?_
      rw [hruns.2] at hc
      cases hc
  | retry t =>
    simp only [QueueState.step] at h
    split at h
    · cases h
    rename_i q err hpc
    split_ifs at h
    cases h
    have horderly := hok (q, err) hpc
    refine hs.round hawaiting horderly fun c hc => ?_
    rw [hpc] at hc
    cases hc
    rfl
  | rollback t =>
    simp only [QueueState.step] at h
    split at h
    · cases h
    rename_i q err hpc
    split_ifs at h
    cases h
    have hsame := SameBoost.rollback s t q.role
    refine ⟨hs.same hsame, hawaiting.of (t := t) (q := q) (fun c hc => ?_) (fun u hu => ?_)
      (hsame.holder _) (fun hne => ?_)⟩
    · rw [hpc] at hc
      cases hc
      rfl
    · exact (update_of_ne hu ..).trans (congrFun (removeWaiterOf_pc ..) u)
    · rw [hsame.holder] at hne
      exact absurd (hok (q, err) hpc) hne
  | tryCall t q => exact hs.tryCall hawaiting hok hruns.2
  | removeWaiter t =>
    cases h
    have hsame := (SameBoost.removeWaiterOf s .sender t).trans (.removeWaiterOf _ .receiver t)
    refine ⟨hs.same hsame, hawaiting.same hsame ?_⟩
    exact (removeWaiterOf_pc ..).trans (removeWaiterOf_pc ..)
  | ready t =>
    have hsame : SameBoost s (s.setTasks (s.tasks.setState t .ready)) :=
      .setState _ _ (by decide) (by decide)
    exact ⟨hs.same hsame, hawaiting.same hsame rfl⟩
  | _ => exact hok.elim

/-- In every run from an unused queue whose steps meet the condition: when no task is in a blocking
call, each has the priority that it had at the start. -/
theorem boosts_balanced {as : List (QueueAction n)} (hstart : s.Start)
    (hrun : Run step Paired s as s') (hquiet : s'.Quiet) (t : Fin n) :
    (s'.tasks t).priority = (s.tasks t).priority := by
  have hinit : s.Boosted (fun t => (s.tasks t).priority) ∧ s.Awaiting := by
    refine ⟨⟨hstart.live, fun r w hw => ?_, fun r hr => ?_, fun _ => .inl rfl⟩, fun r hr => ?_⟩
    · rw [hstart.side] at hw
      cases hw
    all_goals
      rw [hstart.side] at hr
      exact absurd rfl hr
  obtain ⟨hboosted, hawaiting⟩ := hrun.invariant
    (I := fun c => c.Boosted (fun t => (s.tasks t).priority) ∧ c.Awaiting)
    (fun _ _ _ hs hok h => hs.1.step hs.2 hok h) hinit
  refine (hboosted.prio t).resolve_right (fun ⟨r, w, hr, _, _⟩ => ?_)
  obtain ⟨u, c, hc, -⟩ := hawaiting r hr
  rw [hquiet u] at hc
  cases hc

def threePeers : QueueState 3 where
  tasks := fun t => ⟨.running, 1, ![5, 9, 7] t⟩
  msgs := []
  side := fun _ => ⟨[], none, 0⟩
  pc := fun _ => none
  woken := []

/-- The second task receives the message of the first, which it boosts when it waits for another;
the next message of the first ends the boost. -/
theorem boosts_balanced_pair :
    (∃ s, Run step Paired threePeers [.call 0 (.send [1]) false, .call 1 (.receive none) false,
      .call 1 (.receive none) false] s ∧ (s.tasks 0).priority = 9) ∧
    ∃ s, Run step Paired threePeers [.call 0 (.send [1]) false, .call 1 (.receive none) false,
      .call 1 (.receive none) false, .call 0 (.send [2]) false, .retry 1] s ∧
      (s.tasks 0).priority = 5 := by
  constructor
  · exact Run.exists_of_exec (by decide +kernel)
  · refine Run.exists_imp_of_exec Quiet (by decide +kernel) ?_
    intro s hrun hquiet
    exact boosts_balanced ⟨fun _ => rfl, rfl, fun _ => rfl, fun _ => rfl, rfl⟩ hrun hquiet 0

/-- A third task sends instead of the boosted one: it is given the priority of the first, and the
first keeps that of the receiver. -/
theorem boost_kept : ∃ s, Run step anyStep threePeers
    [.call 0 (.send [1]) false, .call 1 (.receive none) false, .call 1 (.receive none) false,
      .call 2 (.send [2]) false, .retry 1] s ∧
    s.Quiet ∧ (s.side .sender).waiters = [] ∧ (s.side .receiver).waiters = [] ∧
      (s.tasks 0).priority = 9 ∧ (s.tasks 2).priority = 5 :=
  Run.exists_of_exec (by decide +kernel)

end Nexios.Sync.QueueState
