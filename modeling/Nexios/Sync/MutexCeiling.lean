import Mathlib.Data.Fin.VecNotation
import Nexios.Lib.Filter
import Nexios.Sync.Mutex

/-!
# The held ceilings

`unlock` removes the ceiling of the mutex from the stack of the task, but only one of the ways to
acquire a mutex puts it there: a mutex that is taken by `try_lock`, or handed over by `unlock`, has
no entry. The stacks are right as long as mutexes with a ceiling are taken by `lock` or `lock_err`
when they are free, and released when nobody waits for them.
-/

open Function Option List

namespace Nexios.Sync.State

open State

variable {n m : ℕ} {s s' : State n m} {t u : Fin n} {x y : Fin m} {f : Mutex n → Mutex n}

def ceiling (s : State n m) (x : Fin m) : ℕ := (s.mutex x).priorityCeiling

def ownsCeiling (s : State n m) (t : Fin n) (x : Fin m) : Bool :=
  s.owner x = some t && 0 < s.ceiling x

def ownedCeilings (s : State n m) (t : Fin n) : List ℕ :=
  ((List.finRange m).filter (s.ownsCeiling t)).map s.ceiling

/-- The stacks of the tasks hold the ceilings of their mutexes. -/
def CeilingsHeld (s : State n m) : Prop :=
  ∀ t, (s.tcb t).heldCeilings.Perm (s.ownedCeilings t) ∧
    (s.tcb t).systemCeiling = (s.ownedCeilings t).foldl max 0

/-- The condition on a step: there is room on the stack, no mutex with a ceiling is taken by
`try_lock`, and none is handed over. -/
def Tracked (s : State n m) : Action n m → Prop
  | .lock t _ _ | .resume t | .retry t => (s.tcb t).heldCeilings.length < maxHeldCeilings
  | .tryLock _ x => s.owner x = none → s.ceiling x = 0
  | .unlock t x => s.owner x = some t → (s.mutex x).lockCount ≤ 1 → 0 < s.ceiling x →
    s.selectBestWaiter x = none
  | _ => True

instance (s : State n m) (a : Action n m) : Decidable (s.Tracked a) := by
  unfold Tracked
  split <;> infer_instance

/-! ## Owners and stacks -/

theorem ownedCeilings_congr (hceiling : ∀ x, s'.ceiling x = s.ceiling x)
    (howner : ∀ x, 0 < s.ceiling x → (s'.owner x = some t ↔ s.owner x = some t)) :
    s'.ownedCeilings t = s.ownedCeilings t := by
  unfold ownedCeilings
  rw [funext hceiling]
  congr 1
  refine filter_congr (fun x _ => ?_)
  unfold ownsCeiling
  rw [hceiling]
  by_cases hc : 0 < s.ceiling x
  · simp [howner x hc]
  · simp [hc]

theorem ownedCeilings_of_ne (hceiling : ∀ y, s'.ceiling y = s.ceiling y)
    (hne : ∀ y, y ≠ x → s'.owner y = s.owner y)
    (hx : 0 < s.ceiling x → (s'.owner x = some t ↔ s.owner x = some t)) :
    s'.ownedCeilings t = s.ownedCeilings t := by
  refine ownedCeilings_congr hceiling (fun y hy => ?_)
  by_cases hyx : y = x
  · exact hyx ▸ hx (hyx ▸ hy)
  · rw [hne y hyx]

theorem ownedCeilings_perm_cons (hceiling : ∀ x, s'.ceiling x = s.ceiling x)
    (hx : 0 < s.ceiling x) (hbefore : s.owner x ≠ some t) (hafter : s'.owner x = some t)
    (hne : ∀ y, y ≠ x → s'.owner y = s.owner y) :
    (s'.ownedCeilings t).Perm (s.ceiling x :: s.ownedCeilings t) := by
  unfold ownedCeilings
  rw [funext hceiling]
  refine (filter_perm_cons (nodup_finRange m) (mem_finRange x) ?_ ?_ (fun y hy => ?_)).map _
  · simp [ownsCeiling, hbefore]
  · simp [ownsCeiling, hafter, hceiling, hx]
  · simp [ownsCeiling, hne y hy, hceiling]

theorem owners_onMutex (s₁ : State n m) (hmutex : s₁.mutex = (s.onMutex x f).mutex)
    (hf : (f (s.mutex x)).priorityCeiling = s.ceiling x) :
    (∀ y, s₁.ceiling y = s.ceiling y) ∧ s₁.owner x = (f (s.mutex x)).owner ∧
      ∀ y, y ≠ x → s₁.owner y = s.owner y := by
  refine ⟨fun y => ?_, ?_, fun y hy => ?_⟩
  · rw [ceiling, hmutex]
    exact onMutex_field Mutex.priorityCeiling hf y
  · rw [owner, hmutex, onMutex_self]
  · rw [owner, hmutex, onMutex_ne _ hy]
    rfl

namespace CeilingsHeld

variable (hs : s.CeilingsHeld)
include hs

theorem congr (hceiling : ∀ x, s'.ceiling x = s.ceiling x)
    (howner : ∀ x, 0 < s.ceiling x → s'.owner x = s.owner x)
    (hheld : ∀ t, (s'.tcb t).heldCeilings = (s.tcb t).heldCeilings)
    (hsystem : ∀ t, (s'.tcb t).systemCeiling = (s.tcb t).systemCeiling) : s'.CeilingsHeld := by
  intro t
  rw [ownedCeilings_congr hceiling (fun x hx => by rw [howner x hx]), hheld, hsystem]
  exact hs t

theorem setPc {p : Pc m} : (s.setPc t p).CeilingsHeld := hs

theorem setAcquired {k : ℕ} : (s.setAcquired t x k).CeilingsHeld := hs

theorem modify {f : Tcb m → Tcb m}
    (hheld : (f (s.tcb t)).heldCeilings = (s.tcb t).heldCeilings)
    (hsystem : (f (s.tcb t)).systemCeiling = (s.tcb t).systemCeiling) :
    (s.modify t f).CeilingsHeld :=
  hs.congr (fun _ => rfl) (fun _ _ => rfl) (modify_field Tcb.heldCeilings hheld)
    (modify_field Tcb.systemCeiling hsystem)

theorem onMutex
    (hceiling : (f (s.mutex x)).priorityCeiling = (s.mutex x).priorityCeiling)
    (howner : 0 < s.ceiling x → (f (s.mutex x)).owner = (s.mutex x).owner) :
    (s.onMutex x f).CeilingsHeld := by
  refine hs.congr (onMutex_field Mutex.priorityCeiling hceiling) (fun y hy => ?_) (fun _ => rfl)
    (fun _ => rfl)
  by_cases hyx : y = x
  · subst hyx
    rw [State.owner, onMutex_self, howner hy]
    rfl
  · rw [State.owner, onMutex_ne _ hyx]
    rfl

theorem register (t : Fin n) (x : Fin m) (call : LockCall) (retry : ℕ)
    (ceiling : Bool) : (s.register t x call retry ceiling).CeilingsHeld := by
  unfold State.register enlist
  split_ifs
  · exact hs.setPc
  · exact setPc (hs.modify rfl rfl)
  · exact setPc (.modify (hs.onMutex rfl (fun _ => rfl)) rfl rfl)

theorem removeWaiter (t : Fin n) (x : Fin m) : (s.removeWaiter t x).CeilingsHeld := by
  unfold State.removeWaiter
  split
  · exact hs
  · exact (hs.onMutex rfl (fun _ => rfl)).modify rfl rfl

theorem lent (h : Lent s s') : s'.CeilingsHeld :=
  hs.congr h.ceiling_eq (fun x _ => h.owner_eq x) (h.tcb_field Tcb.heldCeilings fun _ _ => rfl)
    (h.tcb_field Tcb.systemCeiling fun _ _ => rfl)

/-! ## Taking and releasing a mutex with a ceiling -/

theorem acquire (howner : s.owner x = none)
    (hroom : (s.tcb t).heldCeilings.length < maxHeldCeilings) :
    (s.acquire x t true).CeilingsHeld := by
  obtain ⟨hceiling, hnew, hne⟩ := owners_onMutex (s.acquire x t true) (s := s) (x := x)
    (f := fun mu => { mu with owner := some t, lockCount := 1 }) rfl rfl
  have hother : ∀ u, u ≠ t → (s.acquire x t true).tcb u = s.tcb u := fun u hu => modify_ne _ hu
  have hself : (s.acquire x t true).tcb t = (s.tcb t).pushCeiling (s.ceiling x) := modify_self _
  intro u
  by_cases hut : u = t
  · subst hut
    obtain ⟨hperm, hsystem⟩ := hs u
    rw [hself, Tcb.pushCeiling]
    by_cases hc : 0 < s.ceiling x
    · rw [if_pos ⟨hc, hroom⟩]
      have howned := ownedCeilings_perm_cons hceiling hc (by simp [howner]) hnew hne
      refine ⟨?_, ?_⟩
      · exact ((hperm.append_right _).trans (perm_append_singleton _ _)).trans howned.symm
      · rw [(howned.trans (perm_append_singleton _ _).symm).foldl_eq 0, foldl_append, hsystem]
        rfl
    · rw [if_neg (fun h => hc h.1), ownedCeilings_of_ne hceiling hne (fun h => absurd h hc)]
      exact ⟨hperm, hsystem⟩
  · rw [hother u hut, ownedCeilings_of_ne hceiling hne (by simp [hnew, howner, Ne.symm hut])]
    exact hs u

theorem pop (howner : s.owner x = some t) :
    ((s.onMutex x (fun mu => { mu with owner := none, lockCount := 0 })).modify t
      (.popCeiling (s.ceiling x))).CeilingsHeld := by
  intro u
  generalize hs₁ : (s.onMutex x (fun mu => { mu with owner := none, lockCount := 0 })).modify t
    (.popCeiling (s.ceiling x)) = s₁
  obtain ⟨hceiling, hnew, hne⟩ := owners_onMutex s₁ (by rw [← hs₁, modify_mutex]) rfl
  obtain ⟨hperm, hsystem⟩ := hs u
  by_cases hut : u = t
  · subst hut
    have hself : s₁.tcb u = (s.tcb u).popCeiling (s.ceiling x) := hs₁ ▸ modify_self _
    rw [hself, Tcb.popCeiling]
    by_cases hc : 0 < s.ceiling x
    · -- the stack has an entry for the mutex
      have howned := ownedCeilings_perm_cons (fun y => (hceiling y).symm) ((hceiling x).symm ▸ hc)
        (by simp [hnew]) howner (fun y hy => (hne y hy).symm)
      rw [hceiling] at howned
      have herase := (hperm.trans howned).erase (s.ceiling x)
      rw [erase_cons_head] at herase
      have hmem := (hperm.trans howned).mem_iff.mpr mem_cons_self
      rw [if_neg (not_or.mpr ⟨hc.ne', ne_nil_of_mem hmem⟩)]
      exact ⟨herase, herase.foldl_eq 0⟩
    · rw [if_pos (.inl (by omega)), ownedCeilings_of_ne hceiling hne (fun h => absurd h hc)]
      exact ⟨hperm, hsystem⟩
  · have hother : s₁.tcb u = s.tcb u := hs₁ ▸ modify_ne _ hut
    rw [hother, ownedCeilings_of_ne hceiling hne (by simp [hnew, howner, Ne.symm hut])]
    exact ⟨hperm, hsystem⟩

theorem free (howner : s.owner x = some t) : (s.free t x).CeilingsHeld := by
  have hlent := Lent.restorePriority s x
  have h := (hs.lent hlent).pop ((hlent.owner_eq x).trans howner)
  rw [ceiling, hlent.ceiling_eq] at h
  exact h

theorem handOver (hceiling : s.ceiling x = 0) (i : ℕ) (w : Waiter n) :
    (s.handOver t x i w).CeilingsHeld := by
  have hpop : ∀ s₁ : State n m, s₁.modify t (.popCeiling (s.mutex x).priorityCeiling) = s₁ := by
    intro s₁
    change (s.mutex x).priorityCeiling = 0 at hceiling
    unfold State.modify
    rw [hceiling, Tcb.popCeiling, if_pos (.inl rfl), update_eq_self]
  unfold State.handOver
  simp only [hpop]
  -- the array and the priorities first, then the owner
  have hlent := Lent.restorePriority (s.dequeued x i w) x
  have hbefore : (s.dequeued x i w).CeilingsHeld :=
    (hs.modify rfl rfl).onMutex rfl (fun _ => rfl)
  have hzero : (s.dequeued x i w).ceiling x = 0 := by
    rw [← hceiling, State.ceiling, State.dequeued, onMutex_self]
    rfl
  have hafter : (((s.dequeued x i w).restorePriority x).onMutex x (fun mu =>
      { mu with owner := some w.task, lockCount := 0 })).CeilingsHeld := by
    refine (hbefore.lent hlent).onMutex rfl (fun hpos => absurd hpos ?_)
    rw [State.ceiling, hlent.ceiling_eq]
    exact hzero.not_gt
  exact hafter

theorem unlock (hok : s.Tracked (.unlock t x)) : (s.unlock t x).CeilingsHeld := by
  by_cases howner : s.owner x = some t
  swap
  · rw [State.unlock, if_pos howner]
    exact hs
  rw [State.unlock, if_neg (not_not.mpr howner)]
  split_ifs with hnested
  · exact setAcquired (hs.onMutex rfl (fun _ => rfl))
  split
  · rename_i i w hbest
    have hzero : s.ceiling x = 0 := by
      by_contra hne
      rw [hok howner (by omega) (Nat.pos_of_ne_zero hne)] at hbest
      cases hbest
    exact hs.handOver hzero i w
  · exact hs.free howner

theorem reacquire : (s.reacquire x t).CeilingsHeld :=
  setAcquired (hs.onMutex rfl (fun _ => rfl))

theorem round {call : LockCall}
    (hroom : (s.tcb t).heldCeilings.length < maxHeldCeilings) (h : Round s t x call s') :
    s'.CeilingsHeld := by
  cases h with
  | refused => exact hs
  | owned call howner => exact setPc hs.reacquire
  | free call howner => exact setPc (hs.acquire howner hroom)
  | ceiling call retry howner hblocks => exact hs.register _ _ _ _ _
  | contended call retry howner hne hblocks hinherit =>
    exact (hs.lent (.inheritPriority hinherit)).register _ _ _ _ _

theorem tryLock (hok : s.Tracked (.tryLock t x)) : (s.tryLock t x).CeilingsHeld := by
  unfold State.tryLock
  split_ifs with howner hnone
  · exact hs.reacquire
  · exact setAcquired (hs.onMutex (x := x) (f := fun mu =>
      { mu with owner := some t, lockCount := 1 }) rfl (fun hpos => absurd (hok hnone) hpos.ne'))
  · exact hs

theorem recycle (hnone : ∀ x, s.owner x ≠ some t) (p : ℕ) :
    (s.recycle t p).CeilingsHeld := by
  intro u
  have howned : (s.recycle t p).ownedCeilings u = s.ownedCeilings u :=
    ownedCeilings_congr (fun _ => rfl) (fun _ _ => .rfl)
  rw [howned]
  by_cases hut : u = t
  · subst hut
    have hempty : s.ownedCeilings u = [] := by
      simp [ownedCeilings, ownsCeiling, hnone]
    have htcb : (s.recycle u p).tcb u = ⟨.ready, (s.tcb u).generation + 1, p, p, none, [], 0⟩ :=
      update_self ..
    rw [hempty, htcb]
    exact ⟨.refl _, rfl⟩
  · have htcb : (s.recycle t p).tcb u = s.tcb u := update_of_ne hut ..
    rw [htcb]
    exact hs u

theorem step {a : Action n m} (hok : s.Tracked a)
    (h : s.step a = some s') : s'.CeilingsHeld := by
  cases a with try obtain ⟨hgone, rfl⟩ := ite_some_none_eq_some.mp h
  | lock t x call => exact hs.round hok (step_lock h).2.2
  | block t =>
    obtain ⟨_, _, _, _, -, -, rfl⟩ := step_block h
    exact setPc (hs.modify rfl rfl)
  | resume t =>
    obtain ⟨_, _, _, _, -, -, -, -, hround⟩ := step_resume h
    exact hs.round hok hround
  | retry t =>
    obtain ⟨_, _, _, -, -, -, hround⟩ := step_retry h
    exact hs.round hok hround
  | tryLock t x => exact hs.tryLock hok
  | unlock t x => exact hs.unlock hok
  | wake x remote =>
    obtain ⟨t, -, rfl⟩ := map_eq_some_iff.mp h
    exact hs.modify (t := t) (f := fun tcb => { tcb with state := .ready }) rfl rfl
  | drain w =>
    unfold drain
    split_ifs
    · exact hs.modify (t := w.task) (f := fun tcb => { tcb with state := .ready }) rfl rfl
    · exact hs
  | removeWaiter t x => exact hs.removeWaiter t x
  | ready t | terminate t => exact hs.modify rfl rfl
  | recycle t p => exact hs.recycle hgone.2 p

end CeilingsHeld

/-- In every run from unused mutexes whose steps meet the condition, the stack of each task holds
the ceilings of the mutexes it owns, and its system ceiling is the greatest of them. -/
theorem ceilings_held {as : List (Action n m)} (hstart : s.Start) (hrun : Run step Tracked s as s')
    (t : Fin n) :
    (s'.tcb t).heldCeilings.Perm (s'.ownedCeilings t) ∧
      (s'.tcb t).systemCeiling = (s'.ownedCeilings t).foldl max 0 := by
  have hinit : s.CeilingsHeld := by
    intro t
    have hempty : s.ownedCeilings t = [] := by
      simp [ownedCeilings, ownsCeiling, (hstart.mutex _).1]
    obtain ⟨-, -, hheld, hsystem, -⟩ := hstart.tcb t
    rw [hempty, hheld, hsystem]
    exact ⟨.refl _, rfl⟩
  exact hrun.invariant (I := CeilingsHeld) (fun _ _ _ hs hok h => hs.step hok h) hinit t

/-- Two tasks of priority 20 and two mutexes with the ceilings 8 and 12. -/
def ceilingPair : State 2 2 := unused (fun _ => 20) ![8, 12]

/-- Both mutexes are taken, and the one with the greater ceiling released first. -/
theorem ceilings_held_pair : ∃ s', Run step Tracked ceilingPair
    [.lock 0 0 .lock, .lock 0 1 .lockErr, .unlock 0 1] s' ∧
    s'.ownedCeilings 0 = [8] ∧ (s'.tcb 0).heldCeilings.Perm [8] := by
  exact Run.exists_and_of_exec (by decide +kernel) fun _ hrun howned =>
    howned ▸ (ceilings_held (start_unused ..) hrun 0).1

/-- A mutex that is handed over has no entry on the stack of its new owner, and neither has one that
is taken by `try_lock`. -/
theorem ceiling_not_pushed :
    (∃ s', Run step anyStep ceilingPair
        [.lock 0 0 .lock, .lock 1 0 .lock, .block 1, .unlock 0 0, .wake 0 false, .resume 1] s' ∧
      s'.ownedCeilings 1 = [8] ∧ s'.acquired 1 0 = 1 ∧ (s'.tcb 1).heldCeilings = []) ∧
    ∃ s', Run step anyStep ceilingPair [.tryLock 0 1] s' ∧
      s'.ownedCeilings 0 = [12] ∧ (s'.tcb 0).heldCeilings = [] ∧ (s'.tcb 0).systemCeiling = 0 :=
  ⟨Run.exists_of_exec (by decide +kernel),
    Run.exists_of_exec (by decide +kernel)⟩

end Nexios.Sync.State
