import Mathlib.Data.Fin.VecNotation
import Nexios.Sync.Mutex

/-!
# Lost hand-overs

A waiter stores BLOCKED after it has left the critical section in which it registered, so an
`unlock` on another CPU can hand the mutex to it and store READY before that. The BLOCKED then
stays: the waiter is no longer in the array, owns the mutex, and nobody wakes it. Hand-overs are not
lost as long as the last READY of a wake-up is not stored in that window.
-/

open Function Option

namespace Nexios.Sync

variable {n m : ℕ}

namespace Pc

/-- The mutex for which a task has registered itself without having stored BLOCKED yet. -/
def registeredFor : Pc m → Option (Fin m)
  | .registered x _ _ _ => some x
  | _ => none

def blockedOn : Pc m → Option (Fin m)
  | .blocked x _ _ _ => some x
  | _ => none

end Pc

namespace State

variable {s s' s₁ : State n m} {t u : Fin n} {x y : Fin m} {st : Sched.TaskState}

/-- The task has registered itself for the mutex, and sleeps or is about to. -/
def awaits (s : State n m) (t : Fin n) (x : Fin m) : Prop :=
  (s.pc t).registeredFor = some x ∧ s.live t = true ∨
    (s.pc t).blockedOn = some x ∧ (s.tcb t).state = .blocked

def handed (s : State n m) (t : Fin n) (x : Fin m) : Prop :=
  s.waking x = some t ∨ s.waiter t ∈ s.mail

/-- The task sleeps in its call for a mutex that it owns already, and the wake-up is over. -/
def Lost (s : State n m) (t : Fin n) (x : Fin m) : Prop :=
  (s.pc t).blockedOn = some x ∧ (s.tcb t).state = .blocked ∧ s.waiter t ∉ s.waiters x ∧
    s.owner x = some t ∧ s.waking x ≠ some t ∧ s.waiter t ∉ s.mail
  deriving Decidable

/-- The task owns the mutex for which it has registered itself, and has not stored BLOCKED yet. -/
def InWindow (s : State n m) (t : Fin n) : Prop :=
  ∃ x ∈ (s.pc t).registeredFor, s.owner x = some t
  deriving Decidable

/-- The condition on a step: the last READY of a wake-up, that of `set_task_ready` or of the CPU
that finds the task in its mailbox, is not stored in the window. -/
def InTime (s : State n m) : Action n m → Prop
  | .wake x false => ∀ t ∈ s.waking x, ¬ s.InWindow t
  | .drain w => s.awakeable w → ¬ s.InWindow w.task
  | _ => True

instance (s : State n m) (a : Action n m) : Decidable (s.InTime a) := by
  unfold InTime
  exact match a with
  | .lock .. | .block _ | .resume _ | .retry _ | .tryLock .. | .unlock .. | .wake _ false
  | .wake _ true | .drain _ | .removeWaiter .. | .ready _ | .terminate _ | .recycle .. =>
    inferInstance

def Awaited (s : State n m) : Prop :=
  ∀ t x, s.awaits t x → s.owner x = some t → s.handed t x

theorem not_awaits_of_idle (h : s.pc t = .idle) : ¬ s.awaits t x := by
  simp [awaits, h, Pc.registeredFor, Pc.blockedOn]

theorem live_of_awaits (h : s.awaits t x) : s.live t = true := by
  obtain ⟨-, hlive⟩ | ⟨-, hblocked⟩ := h
  · exact hlive
  · simp [live, hblocked]

/-! ## What a step of one task is to the others -/

/-- The tasks other than `t` wait as before, and do not come to own anything. -/
structure Beside (t : Fin n) (s s' : State n m) : Prop where
  awaits : ∀ u, u ≠ t → ∀ y, s'.awaits u y → s.awaits u y
  owner : ∀ u, u ≠ t → ∀ y, s'.owner y = some u → s.owner y = some u
  handed : ∀ u, u ≠ t → ∀ y, s.handed u y → s'.handed u y

theorem Awaited.beside (hs : s.Awaited) (h : Beside t s s')
    (hself : ∀ x, s'.awaits t x → s'.owner x = some t → s'.handed t x) : s'.Awaited := by
  intro u y hawaits howner
  by_cases hu : u = t
  · subst hu
    exact hself y hawaits howner
  · exact h.handed u hu y (hs u y (h.awaits u hu y hawaits) (h.owner u hu y howner))

/-- What `awaits` and `handed` speak of, and the owners. -/
def awaiting (s : State n m) :=
  (s.pc, fun t => ((s.tcb t).state, (s.tcb t).generation), s.owner, s.waking, s.mail)

theorem awaiting_modify {f : Tcb m → Tcb m} (hstate : (f (s.tcb t)).state = (s.tcb t).state)
    (hgeneration : (f (s.tcb t)).generation = (s.tcb t).generation) :
    (s.modify t f).awaiting = s.awaiting := by
  unfold awaiting
  simp only [modify_field Tcb.state hstate, modify_field Tcb.generation hgeneration]
  rfl

theorem awaiting_onMutex {f : Mutex n → Mutex n} (howner : (f (s.mutex x)).owner = s.owner x) :
    (s.onMutex x f).awaiting = s.awaiting := by
  have hsame : (s.onMutex x f).owner = s.owner := funext (onMutex_field Mutex.owner howner)
  unfold awaiting
  rw [hsame]
  rfl

theorem awaiting_setAcquired (t : Fin n) (x : Fin m) (k : ℕ) :
    (s.setAcquired t x k).awaiting = s.awaiting :=
  rfl

theorem awaiting_popCeiling (t : Fin n) (c : ℕ) :
    (s.modify t (Tcb.popCeiling c)).awaiting = s.awaiting := by
  apply awaiting_modify
  all_goals
    unfold Tcb.popCeiling
    split_ifs <;> rfl

theorem awaiting_enlist (x : Fin m) (t : Fin n) : (s.enlist x t).awaiting = s.awaiting := by
  unfold State.enlist
  refine (awaiting_modify rfl rfl).trans ?_
  split_ifs
  · rfl
  · exact awaiting_onMutex rfl

theorem awaiting_reacquire (x : Fin m) (t : Fin n) : (s.reacquire x t).awaiting = s.awaiting :=
  (awaiting_setAcquired ..).trans (awaiting_onMutex rfl)

theorem awaiting_removeWaiter (t : Fin n) (x : Fin m) :
    (s.removeWaiter t x).awaiting = s.awaiting := by
  unfold State.removeWaiter
  split
  · rfl
  · exact (awaiting_modify rfl rfl).trans (awaiting_onMutex rfl)

theorem Lent.awaiting_eq (h : Lent s s') : s'.awaiting = s.awaiting := by
  unfold awaiting
  simp only [h.tcb_field Tcb.state fun _ _ => rfl, h.tcb_field Tcb.generation fun _ _ => rfl,
    funext h.owner_eq, h.pc, h.waking, h.mail]

theorem same_of_awaiting (h : s'.awaiting = s.awaiting) :
    (∀ t x, s'.awaits t x ↔ s.awaits t x) ∧ s'.owner = s.owner ∧
      ∀ t x, s'.handed t x ↔ s.handed t x := by
  simp only [awaiting, Prod.mk.injEq] at h
  obtain ⟨hpc, htcb, howner, hwaking, hmail⟩ := h
  refine ⟨fun t x => ?_, howner, fun t x => ?_⟩
  · have hstate : (s'.tcb t).state = (s.tcb t).state := congrArg Prod.fst (congrFun htcb t)
    rw [awaits, awaits, live, live, hpc, hstate]
  · have hgeneration : (s'.tcb t).generation = (s.tcb t).generation :=
      congrArg Prod.snd (congrFun htcb t)
    rw [handed, handed, waiter, waiter, hgeneration, hwaking, hmail]

theorem Awaited.congr (hs : s.Awaited) (h : s'.awaiting = s.awaiting) : s'.Awaited := by
  obtain ⟨hawaits, howner, hhanded⟩ := same_of_awaiting h
  exact fun t x hw ho => (hhanded t x).mpr (hs t x ((hawaits t x).mp hw) (howner ▸ ho))

theorem Beside.of_awaiting (t : Fin n) (h : s'.awaiting = s.awaiting) : Beside t s s' := by
  obtain ⟨hawaits, howner, hhanded⟩ := same_of_awaiting h
  exact ⟨fun u _ y => (hawaits u y).mp, fun _ _ _ ho => howner ▸ ho, fun u _ y => (hhanded u y).mpr⟩

namespace Beside

theorem trans (h : Beside t s s₁) (h' : Beside t s₁ s') : Beside t s s' :=
  ⟨fun u hu y hw => h.awaits u hu y (h'.awaits u hu y hw),
    fun u hu y ho => h.owner u hu y (h'.owner u hu y ho),
    fun u hu y hw => h'.handed u hu y (h.handed u hu y hw)⟩

theorem setPc (s : State n m) (t : Fin n) (p : Pc m) : Beside t s (s.setPc t p) := by
  refine ⟨fun u hu y hw => ?_, fun _ _ _ ho => ho, fun _ _ _ hw => hw⟩
  have hpc : (s.setPc t p).pc u = s.pc u := update_of_ne hu ..
  rw [State.awaits, hpc] at hw
  exact hw

theorem modify (s : State n m) (t : Fin n) (f : Tcb m → Tcb m) : Beside t s (s.modify t f) := by
  refine ⟨fun u hu y hw => ?_, fun _ _ _ ho => ho, fun u hu y hw => ?_⟩
  · rw [State.awaits, live, modify_ne f hu] at hw
    exact hw
  · rw [State.handed, waiter, modify_ne f hu]
    exact hw

theorem onMutex {f : Mutex n → Mutex n}
    (h : ∀ u, u ≠ t → (f (s.mutex x)).owner = some u → s.owner x = some u) :
    Beside t s (s.onMutex x f) := by
  refine ⟨fun _ _ _ hw => hw, fun u hu y ho => ?_, fun _ _ _ hw => hw⟩
  by_cases hy : y = x
  · subst hy
    rw [State.owner, onMutex_self] at ho
    exact h u hu ho
  · rw [State.owner, onMutex_ne f hy] at ho
    exact ho

theorem acquire (s : State n m) (x : Fin m) (t : Fin n) (push : Bool) :
    Beside t s (s.acquire x t push) := by
  have htake : Beside t s (s.onMutex x (fun mu => { mu with owner := some t, lockCount := 1 })) :=
    onMutex (fun u hu ho => absurd (some.inj ho).symm hu)
  cases push with
  | false => exact htake.trans (.of_awaiting t (awaiting_setAcquired ..))
  | true => exact (htake.trans (modify ..)).trans (.of_awaiting t (awaiting_setAcquired ..))

theorem free (s : State n m) (t : Fin n) (x : Fin m) : Beside t s (s.free t x) :=
  ((of_awaiting t (Lent.restorePriority s x).awaiting_eq).trans
    (onMutex (fun _ _ ho => (by cases ho)))).trans (modify ..)

end Beside

/-! ## The steps -/

theorem setState_state : ((s.setState t st).tcb t).state = st := by
  rw [setState, modify_self]

theorem setState_waiter : (s.setState t st).waiter u = s.waiter u := by
  have hgeneration := modify_field (s := s) (t := t) (f := fun tcb => { tcb with state := st })
    Tcb.generation rfl u
  rw [waiter, waiter, setState, hgeneration]

theorem setState_handed : (s.setState t st).handed u x ↔ s.handed u x := by
  rw [handed, setState_waiter]
  rfl

namespace Awaited

variable (hs : s.Awaited)
include hs

theorem setPc_idle (h : Beside t s s₁) : (s₁.setPc t .idle).Awaited :=
  hs.beside (h.trans (.setPc ..))
    (fun _ hw _ => absurd hw (not_awaits_of_idle (update_self ..)))

theorem register {call : LockCall} {retry : ℕ} {ceiling : Bool}
    (howner : s.owner x ≠ some t) : (s.register t x call retry ceiling).Awaited := by
  unfold State.register
  split_ifs
  · refine hs.beside (Beside.setPc ..) (fun y hw ho => ?_)
    simp [awaits, setPc, Pc.registeredFor, Pc.blockedOn] at hw
  have henlist : (s.enlist x t).awaiting = s.awaiting := awaiting_enlist x t
  refine (hs.congr henlist).beside (.setPc ..) (fun y hw ho => ?_)
  simp only [awaits, setPc, update_self, Pc.registeredFor, Pc.blockedOn, Option.some.injEq,
    reduceCtorEq, false_and, or_false] at hw
  obtain ⟨rfl, -⟩ := hw
  exact absurd ((same_of_awaiting henlist).2.1 ▸ ho) howner

theorem round {call : LockCall} (h : Round s t x call s') : s'.Awaited := by
  cases h with
  | refused => exact hs.setPc_idle (.of_awaiting t rfl)
  | owned call howner => exact hs.setPc_idle (.of_awaiting t (awaiting_reacquire x t))
  | free call howner => exact hs.setPc_idle (.acquire s x t true)
  | ceiling call retry howner hblocks => exact hs.register howner
  | contended call retry howner hne hblocks hinherit =>
    have hlent := Lent.inheritPriority hinherit
    refine (hs.congr hlent.awaiting_eq).register ?_
    rw [hlent.owner_eq, howner]
    exact fun he => hne (some.inj he)

theorem block {call : LockCall} {retry : ℕ} {ceiling : Bool}
    (hpc : s.pc t = .registered x call retry ceiling) (hlive : s.live t) :
    ((s.setState t .blocked).setPc t (.blocked x call retry ceiling)).Awaited := by
  refine hs.beside ((Beside.modify ..).trans (.setPc ..)) (fun y hw ho => ?_)
  simp only [awaits, setPc, update_self, Pc.registeredFor, Pc.blockedOn, Option.some.injEq,
    reduceCtorEq, false_and, false_or] at hw
  obtain ⟨rfl, -⟩ := hw
  have hregistered : (s.pc t).registeredFor = some x := by rw [hpc, Pc.registeredFor]
  exact setState_handed.mpr (hs t x (.inl ⟨hregistered, hlive⟩) ho)

theorem call (hruns : s.runs t) (h : Beside t s s')
    (hpc : s'.pc t = s.pc t) : s'.Awaited := by
  have hidle : s.pc t = .idle := by
    simpa using (Bool.and_eq_true_iff.mp hruns).2
  exact hs.beside h (fun _ hw _ => absurd hw (not_awaits_of_idle (hpc.trans hidle)))

theorem tryLock (hruns : s.runs t) : (s.tryLock t x).Awaited := by
  unfold State.tryLock
  split_ifs
  · exact hs.congr (awaiting_reacquire x t)
  · exact hs.call hruns (.acquire s x t false) rfl
  · exact hs

theorem setState (hlive : s.live t) (hst : st ≠ .blocked) : (s.setState t st).Awaited := by
  refine hs.beside (.modify ..) (fun x hw ho => setState_handed.mpr ?_)
  obtain ⟨hregistered, -⟩ | ⟨-, hblocked⟩ := hw
  · exact hs t x (.inl ⟨hregistered, hlive⟩) ho
  · exact absurd (setState_state.symm.trans hblocked) hst

theorem ready (h : Beside t s s') (hpc : s'.pc = s.pc)
    (hstate : (s'.tcb t).state = .ready) (howner : s'.owner = s.owner)
    (hwindow : s.InWindow t → ∀ x, s'.handed t x) : s'.Awaited := by
  refine hs.beside h (fun x hw ho => ?_)
  obtain ⟨hregistered, -⟩ | ⟨-, hblocked⟩ := hw
  · exact hwindow ⟨x, hpc ▸ hregistered, howner ▸ ho⟩ x
  · rw [hstate] at hblocked
    cases hblocked

theorem wake {remote : Bool} (hok : s.InTime (.wake x remote))
    (hwaking : s.waking x = some t) : (s.wake x t remote).Awaited := by
  have hothers : Beside t (s.setState t .ready) (s.wake x t remote) := by
    refine ⟨fun _ _ _ hw => hw, fun _ _ _ ho => ho, fun u hu y hw => ?_⟩
    refine hw.imp (fun hy => ?_) (fun hmail => ?_)
    · have hyx : y ≠ x := by
        rintro rfl
        exact hu (some.inj (hy.symm.trans hwaking))
      exact (update_of_ne hyx ..).trans hy
    · cases remote with
      | false => exact hmail
      | true => exact List.mem_cons_of_mem _ hmail
  refine hs.ready ((Beside.modify ..).trans hothers) rfl ?_ rfl (fun hwindow y => ?_)
  · exact setState_state
  · cases remote with
    | false => exact absurd hwindow (hok t hwaking)
    | true =>
      refine .inr (List.mem_cons.mpr (.inl ?_))
      exact setState_waiter

theorem drain {w : Waiter n} (hok : s.InTime (.drain w)) : (s.drain w).Awaited := by
  have hothers : Beside w.task s { s with mail := s.mail.erase w } := by
    refine ⟨fun _ _ _ hw => hw, fun _ _ _ ho => ho, fun u hu y hw => hw.imp id (fun hmail => ?_)⟩
    refine (List.mem_erase_of_ne ?_).mpr hmail
    exact fun heq => hu (congrArg Waiter.task heq)
  unfold State.drain
  split_ifs with hawake
  · refine hs.ready (hothers.trans (.modify ..)) rfl ?_ rfl
      (fun hwindow _ => absurd hwindow (hok hawake))
    exact setState_state
  refine hs.beside hothers (fun x hw ho => (hs w.task x hw ho).imp id (fun hmail => ?_))
  refine (List.mem_erase_of_ne ?_).mpr hmail
  -- a wake-up of its generation is dropped only if the task is gone
  intro heq
  have hlive : s.live w.task = true := live_of_awaits (s := s) hw
  have hgeneration : (s.tcb w.task).generation = w.generation := congrArg Waiter.generation heq
  simp [awakeable, hlive, hgeneration] at hawake

theorem handOver (i : ℕ) (w : Waiter n) : (s.handOver t x i w).Awaited := by
  -- the array, the priorities and the ceilings first, then the owner
  generalize hs₁ : ((s.dequeued x i w).restorePriority x).modify t
      (.popCeiling (s.mutex x).priorityCeiling) = s₁
  have hsame : s₁.awaiting = s.awaiting := by
    rw [← hs₁]
    exact ((awaiting_popCeiling ..).trans (Lent.restorePriority _ x).awaiting_eq).trans
      ((awaiting_onMutex rfl).trans (awaiting_modify rfl rfl))
  obtain ⟨hawaits, howner, hhanded⟩ := same_of_awaiting hsame
  have hgiven : s.handOver t x i w =
      { s₁.onMutex x (fun mu => { mu with owner := some w.task, lockCount := 0 }) with
        waking := update s₁.waking x (some w.task) } := by
    have hwaking := (Lent.restorePriority (s.dequeued x i w) x).waking
    rw [← hs₁, State.modify, hwaking]
    rfl
  rw [hgiven]
  intro u y hw ho
  by_cases hy : y = x
  · subst hy
    rw [owner, onMutex_self] at ho
    exact .inl ((update_self ..).trans ho)
  · rw [owner, onMutex_ne _ hy] at ho
    exact ((hhanded u y).mpr (hs u y ((hawaits u y).mp hw) (howner ▸ ho))).imp_left
      (update_of_ne hy ..).trans

theorem unlock (hruns : s.runs t) : (s.unlock t x).Awaited := by
  unfold State.unlock
  split_ifs with howner hnested
  · exact hs
  · exact hs.congr ((awaiting_setAcquired ..).trans (awaiting_onMutex rfl))
  · split
    · rename_i i w _
      exact (hs.handOver i w).congr (awaiting_setAcquired ..)
    · refine (hs.call hruns (.free s t x) ?_).congr (awaiting_setAcquired ..)
      exact congrFun (Lent.restorePriority s x).pc t

theorem step {a : Action n m} (hok : s.InTime a) (h : s.step a = some s') : s'.Awaited := by
  cases a with try obtain ⟨hguard, rfl⟩ := ite_some_none_eq_some.mp h
  | lock t x call => exact hs.round (step_lock h).2.2
  | block t =>
    obtain ⟨_, _, _, _, hpc, hlive, rfl⟩ := step_block h
    exact hs.block hpc hlive
  | resume t =>
    obtain ⟨_, _, _, _, -, -, -, -, hround⟩ := step_resume h
    exact hs.round hround
  | retry t =>
    obtain ⟨_, _, _, -, -, -, hround⟩ := step_retry h
    exact hs.round hround
  | tryLock t x => exact hs.tryLock hguard.1
  | unlock t x => exact hs.unlock hguard.1
  | wake x remote =>
    obtain ⟨t, hwaking, rfl⟩ := map_eq_some_iff.mp h
    exact hs.wake hok hwaking
  | drain w => exact hs.drain hok
  | removeWaiter t x => exact hs.congr (awaiting_removeWaiter t x)
  | ready t | terminate t => exact hs.setState hguard nofun
  | recycle t p => exact hs.setPc_idle (.modify ..)

end Awaited

/-- No hand-over is lost in a run from unused mutexes in which the last READY of each wake-up is
stored in time. -/
theorem no_lost_handOver {as : List (Action n m)} (hstart : s.Start)
    (hrun : Run step InTime s as s') (t : Fin n) (x : Fin m) : ¬ s'.Lost t x := by
  have hinit : s.Awaited :=
    fun t x hw _ => absurd hw (not_awaits_of_idle (hstart.pc t))
  have hawaited : s'.Awaited :=
    hrun.invariant (I := Awaited) (fun _ _ _ hs hok h => hs.step hok h) hinit
  rintro ⟨hpc, hstate, -, howner, hwaking, hmail⟩
  exact (hawaited t x (.inr ⟨hpc, hstate⟩) howner).elim hwaking hmail

def waiterPair : State 2 1 := unused ![5, 9] fun _ => 0

/-- The wake-up comes in the window, but from another CPU: the second READY ends the wait. -/
theorem no_lost_handOver_mail : ∃ s', Run step InTime waiterPair
    [.lock 0 0 .lock, .lock 1 0 .lock, .unlock 0 0, .wake 0 true, .block 1, .drain ⟨1, 1⟩] s' ∧
    s'.owner 0 = some 1 ∧ (s'.tcb 1).state = .ready ∧ ¬ s'.Lost 1 0 := by
  refine Run.exists_imp_of_exec (fun s' => s'.owner 0 = some 1 ∧ (s'.tcb 1).state = .ready)
    (by decide +kernel) ?_
  rintro s' hrun ⟨howner, hready⟩
  exact ⟨howner, hready, no_lost_handOver (start_unused ..) hrun 1 0⟩

/-- The owner unlocks and wakes the waiter before that has stored BLOCKED. -/
theorem handOver_lost : ∃ s', Run step anyStep waiterPair
    [.lock 0 0 .lock, .lock 1 0 .lock, .unlock 0 0, .wake 0 false, .block 1] s' ∧ s'.Lost 1 0 :=
  Run.exists_of_exec (by decide +kernel)

end State

end Nexios.Sync
