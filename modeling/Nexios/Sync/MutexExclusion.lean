import Mathlib.Data.Fin.VecNotation
import Nexios.Sync.Mutex

/-!
# Exclusion and hand-off

The number of acquisitions of a task that are not released is the recursion count of the mutexes it
owns, and 0 for all others. A mutex that is handed over has the count 0 until its new owner has
resumed, which has not acquired it yet.

A task that has waited for the ceiling can take the mutex while its entry is still in the array. Its
`unlock` may then choose that entry and hand the mutex to the task itself: those that wait sleep on.
-/

open Option

namespace Nexios.Sync.State

variable {n m : ℕ} {s s' s₁ : State n m} {t u : Fin n} {x y : Fin m}

def Counted (s : State n m) : Prop :=
  ∀ t x, s.acquired t x = if s.owner x = some t then (s.mutex x).lockCount else 0

/-- What `Counted` speaks of. -/
def holds (s : State n m) : (Fin m → Option (Fin n)) × (Fin m → ℕ) × (Fin n → Fin m → ℕ) :=
  (s.owner, fun x => (s.mutex x).lockCount, s.acquired)

theorem Counted.congr (hs : s.Counted) (h : s'.holds = s.holds) : s'.Counted := by
  obtain ⟨howner, hrest⟩ := Prod.mk.inj h
  obtain ⟨hcount, hacquired⟩ := Prod.mk.inj hrest
  intro t x
  rw [hacquired, howner, congrFun hcount x]
  exact hs t x

theorem holds_waiters (x : Fin m) (f : List (Waiter n) → List (Waiter n)) :
    (s.onMutex x (fun mu => { mu with waiters := f mu.waiters })).holds = s.holds :=
  Prod.ext (funext (onMutex_field Mutex.owner rfl))
    (Prod.ext (funext (onMutex_field Mutex.lockCount rfl)) rfl)

theorem holds_register (t : Fin n) (x : Fin m) (call : LockCall) (retry : ℕ) (ceiling : Bool) :
    (s.register t x call retry ceiling).holds = s.holds := by
  unfold State.register enlist
  split_ifs
  · rfl
  · rfl
  · exact holds_waiters x (· ++ [s.waiter t])

theorem holds_removeWaiter (t : Fin n) (x : Fin m) : (s.removeWaiter t x).holds = s.holds := by
  unfold State.removeWaiter
  split
  · rfl
  · exact holds_waiters x (WaitArray.swapRemove · _)

theorem holds_drain (w : Waiter n) : (s.drain w).holds = s.holds := by
  unfold State.drain
  split_ifs <;> rfl

theorem Lent.holds_eq (h : Lent s s') : s'.holds = s.holds :=
  Prod.ext (funext h.owner_eq) (Prod.ext (funext h.lockCount_eq) h.acquired)

/-! ## The steps that count -/

theorem ne_owner (howner : s.owner x = some t) (u : Fin n) (hu : u ≠ t) : s.owner x ≠ some u := by
  rw [howner]
  simpa using hu.symm

namespace Counted

variable (hs : s.Counted)
include hs

theorem set {f : Mutex n → Mutex n} {k : ℕ} (hold : ∀ u, u ≠ t → s.owner x ≠ some u)
    (hnew : ∀ u, (if u = t then k else 0) =
      if (f (s.mutex x)).owner = some u then (f (s.mutex x)).lockCount else 0) :
    ((s.onMutex x f).setAcquired t x k).Counted := by
  intro u y
  change Function.update s.acquired t (Function.update (s.acquired t) x k) u y =
    if ((s.onMutex x f).mutex y).owner = some u then ((s.onMutex x f).mutex y).lockCount else 0
  by_cases hy : y = x
  · subst hy
    rw [onMutex_self, ← hnew u]
    split_ifs with hu
    · rw [hu, Function.update_self, Function.update_self]
    · rw [Function.update_of_ne hu, hs u y, if_neg (hold u hu)]
  · rw [onMutex_ne f hy]
    refine .trans ?_ (hs u y)
    by_cases hu : u = t
    · rw [hu, Function.update_self, Function.update_of_ne hy]
    · rw [Function.update_of_ne hu]

theorem onMutex {f : Mutex n → Mutex n} (hnew : (f (s.mutex x)).owner = some t)
    (hold : ∀ u, u ≠ t → s.owner x ≠ some u) :
    ((s.onMutex x f).setAcquired t x (f (s.mutex x)).lockCount).Counted :=
  hs.set hold fun u => by simp [hnew, eq_comm]

theorem release (h : s₁.holds = s.holds) (hold : ∀ u, u ≠ t → s.owner x ≠ some u)
    (o : Option (Fin n)) : ((s₁.onMutex x (fun mu =>
      { mu with owner := o, lockCount := 0 })).setAcquired t x 0).Counted := by
  refine (hs.congr h).set (fun u hu => ?_) fun u => by simp
  rw [(Prod.mk.inj h).1]
  exact hold u hu

theorem reacquire (howner : s.owner x = some t) : (s.reacquire x t).Counted := by
  rw [State.reacquire, hs t x, if_pos howner]
  exact hs.onMutex howner (ne_owner howner)

theorem acquire (howner : s.owner x = none) (push : Bool) : (s.acquire x t push).Counted := by
  have hset : ((s.onMutex x (fun mu => { mu with owner := some t, lockCount := 1 })).setAcquired
      t x (s.acquired t x + 1)).Counted := by
    rw [hs t x, howner]
    refine hs.onMutex rfl fun u _ => ?_
    rw [howner]
    simp
  cases push with
  | false => exact hset
  | true => exact hset.congr rfl

theorem unlock : (s.unlock t x).Counted := by
  by_cases howner : s.owner x = some t
  swap
  · rw [State.unlock, if_pos howner]
    exact hs
  have hmine := hs t x
  rw [if_pos howner] at hmine
  have hold := ne_owner howner
  rw [State.unlock, if_neg (not_not.mpr howner)]
  split_ifs with hnested
  · rw [hmine]
    exact hs.onMutex howner hold
  have hlast : s.acquired t x - 1 = 0 := by omega
  rw [hlast]
  split
  · rename_i i w _
    have hleave := (Lent.restorePriority (s.dequeued x i w) x).holds_eq.trans
      (holds_waiters x (WaitArray.swapRemove · i))
    exact (hs.release hleave hold (some w.task)).congr rfl
  · exact (hs.release (Lent.restorePriority s x).holds_eq hold none).congr rfl

theorem round {call : LockCall} (h : Round s t x call s') : s'.Counted := by
  cases h with
  | refused => exact hs.congr rfl
  | owned call howner => exact (hs.reacquire howner).congr rfl
  | free call howner => exact (hs.acquire howner true).congr rfl
  | ceiling call retry howner hblocks => exact hs.congr (holds_register ..)
  | contended call retry howner hne hblocks hinherit =>
    exact hs.congr ((holds_register ..).trans (Lent.inheritPriority hinherit).holds_eq)

theorem step {a : Action n m} (h : s.step a = some s') : s'.Counted := by
  cases a with try obtain ⟨-, rfl⟩ := ite_some_none_eq_some.mp h
  | lock t x call => exact hs.round (step_lock h).2.2
  | block t =>
    obtain ⟨_, _, _, _, -, -, rfl⟩ := step_block h
    exact hs.congr rfl
  | resume t =>
    obtain ⟨_, _, _, _, -, -, -, -, hround⟩ := step_resume h
    exact hs.round hround
  | retry t =>
    obtain ⟨_, _, _, -, -, -, hround⟩ := step_retry h
    exact hs.round hround
  | tryLock t x =>
    unfold State.tryLock
    split_ifs with howner hnone
    · exact hs.reacquire howner
    · exact hs.acquire hnone false
    · exact hs
  | unlock t x => exact hs.unlock
  | wake x remote =>
    obtain ⟨t, -, rfl⟩ := map_eq_some_iff.mp h
    exact hs.congr rfl
  | drain w => exact hs.congr (holds_drain w)
  | removeWaiter t x => exact hs.congr (holds_removeWaiter t x)
  | ready t | terminate t | recycle t priority => exact hs.congr rfl

end Counted

/-! ## The arrays -/

/-- The condition on a step: a task resumes when its entry has left the array. A hand-over takes the
entry out, but a late wake-up does not. -/
def Unlisted (s : State n m) : Action n m → Prop
  | .resume t => ∀ x, s.waiter t ∉ s.waiters x
  | _ => True

instance (s : State n m) (a : Action n m) : Decidable (s.Unlisted a) :=
  match a with
  | .resume t => decidable_of_iff (∀ x, (s.waiters x).contains (s.waiter t) = false)
      (by simp [Unlisted])
  | .lock .. | .block _ | .retry _ | .tryLock .. | .unlock .. | .wake .. | .drain _
  | .removeWaiter .. | .ready _ | .terminate _ | .recycle .. => isTrue trivial

/-- The entries of an array are tasks that wait for the mutex, or tasks of earlier generations. -/
def Listed (s : State n m) : Prop :=
  ∀ x, ∀ w ∈ s.waiters x, w.generation ≤ (s.waiter w.task).generation ∧
    (w = s.waiter w.task → (s.pc w.task).waitsFor = some x)

/-- The tasks are where they were, and the arrays have lost entries at most. -/
structure Shrinks (s s' : State n m) : Prop where
  pc : s'.pc = s.pc
  waiter : s'.waiter = s.waiter
  waiters : ∀ x, s'.waiters x ⊆ s.waiters x

namespace Shrinks

theorem trans (h : Shrinks s s₁) (h' : Shrinks s₁ s') : Shrinks s s' :=
  ⟨h'.pc.trans h.pc, h'.waiter.trans h.waiter, fun x _ hw => h.waiters x (h'.waiters x hw)⟩

theorem of_lent (h : Lent s s') : Shrinks s s' :=
  ⟨h.pc, funext h.waiter_eq, fun x _ hw => h.waiters_eq x ▸ hw⟩

theorem modify {f : Tcb m → Tcb m} (h : (f (s.tcb t)).generation = (s.tcb t).generation) :
    Shrinks s (s.modify t f) :=
  ⟨rfl, funext fun u => congrArg (Waiter.mk u) (modify_field Tcb.generation h u), fun _ _ hw => hw⟩

theorem onMutex {f : Mutex n → Mutex n} (h : (f (s.mutex x)).waiters ⊆ s.waiters x) :
    Shrinks s (s.onMutex x f) := by
  refine ⟨rfl, rfl, fun y => ?_⟩
  by_cases hy : y = x
  · subst hy
    rwa [State.waiters, onMutex_self]
  · rw [State.waiters, onMutex_ne f hy]
    exact List.Subset.refl _

theorem count (x : Fin m) (o : Option (Fin n) → Option (Fin n)) (k : ℕ → ℕ) : Shrinks s (s.onMutex x
    (fun mu => { mu with owner := o mu.owner, lockCount := k mu.lockCount })) :=
  onMutex (List.Subset.refl _)

theorem popCeiling (c : ℕ) : Shrinks s (s.modify t (.popCeiling c)) := by
  refine modify ?_
  unfold Tcb.popCeiling
  split_ifs <;> rfl

theorem acquire (x : Fin m) (t : Fin n) (push : Bool) : Shrinks s (s.acquire x t push) := by
  have htake : Shrinks s _ := count x (fun _ => some t) fun _ => 1
  cases push with
  | false => exact ⟨htake.pc, htake.waiter, htake.waiters⟩
  | true =>
    have hpush := htake.trans (modify (t := t) (f := .pushCeiling (s.mutex x).priorityCeiling) ?_)
    · exact ⟨hpush.pc, hpush.waiter, hpush.waiters⟩
    · unfold Tcb.pushCeiling
      split_ifs <;> rfl

theorem reacquire (x : Fin m) (t : Fin n) : Shrinks s (s.reacquire x t) :=
  have h : Shrinks s _ := count x id (· + 1)
  ⟨h.pc, h.waiter, h.waiters⟩

theorem removeWaiter (t : Fin n) (x : Fin m) : Shrinks s (s.removeWaiter t x) := by
  unfold State.removeWaiter
  split
  · exact of_lent (.refl s)
  · rename_i i hi
    have hperm := WaitArray.perm_swapRemove (List.findIdx?_eq_some_iff_getElem.mp hi).choose
    exact (onMutex fun _ hw => hperm.mem_iff.mpr (List.mem_cons_of_mem _ hw)).trans (modify rfl)

theorem unlock (t : Fin n) (x : Fin m) : Shrinks s (s.unlock t x) := by
  unfold State.unlock
  split_ifs
  · exact of_lent (.refl s)
  · have h : Shrinks s _ := count x id (· - 1)
    exact ⟨h.pc, h.waiter, h.waiters⟩
  split
  · rename_i i w hbest
    have hperm := (WaitArray.perm_of_best hbest).1
    have hleave : Shrinks s (s.dequeued x i w) := (modify rfl).trans
      (onMutex fun _ hw => hperm.mem_iff.mpr (List.mem_cons_of_mem _ hw))
    have h := ((hleave.trans (of_lent (.restorePriority _ x))).trans
      (popCeiling (t := t) (s.mutex x).priorityCeiling)).trans
        (count x (fun _ => some w.task) fun _ => 0)
    exact ⟨h.pc, h.waiter, h.waiters⟩
  · have h := ((of_lent (.restorePriority s x)).trans (count x (fun _ => none) fun _ => 0)).trans
      (popCeiling (t := t) (s.mutex x).priorityCeiling)
    exact ⟨h.pc, h.waiter, h.waiters⟩

end Shrinks

theorem waiter_of_awakeable {w : Waiter n} (h : s.awakeable w) : w = s.waiter w.task := by
  rw [awakeable, Bool.and_eq_true, decide_eq_true_eq] at h
  exact congrArg (Waiter.mk w.task) h.1.symm

namespace Listed

variable (hs : s.Listed)
include hs

theorem shrink (h : Shrinks s s') : s'.Listed := by
  intro x w hw
  rw [h.waiter, h.pc]
  exact hs x w (h.waiters x hw)

/-- A task is put where it waits for the mutex in whose array it is. -/
theorem setPc {p : Pc m} (h : ∀ y, s.waiter t ∈ s.waiters y → p.waitsFor = some y) :
    (s.setPc t p).Listed := by
  refine fun y w hw => ⟨(hs y w hw).1, fun hlive => ?_⟩
  by_cases hwt : w.task = t
  · rw [hlive, hwt] at hw
    rw [hwt]
    exact (congrArg Pc.waitsFor (Function.update_self t p s.pc)).trans (h y hw)
  · exact (congrArg Pc.waitsFor (Function.update_of_ne hwt p s.pc)).trans ((hs y w hw).2 hlive)

theorem register (hout : ∀ y, s.waiter t ∉ s.waiters y) (call : LockCall) (retry : ℕ)
    (ceiling : Bool) : (s.register t x call retry ceiling).Listed := by
  unfold State.register enlist
  rw [if_neg (hout x)]
  split_ifs
  · exact hs.setPc fun y hy => absurd hy (hout y)
  have hpc := hs.setPc (t := t) (p := .registered x call retry ceiling)
    fun y hy => absurd hy (hout y)
  have hnew : ((s.setPc t (.registered x call retry ceiling)).onMutex x (fun mu =>
      { mu with waiters := mu.waiters ++ [s.waiter t] })).Listed := by
    intro y w hw
    by_cases hy : y = x
    · subst hy
      rw [waiters, onMutex_self] at hw
      rcases List.mem_append.mp hw with hold | hnew
      · exact hpc y w hold
      · cases List.mem_singleton.mp hnew
        refine ⟨le_rfl, fun _ => congrArg Pc.waitsFor (?_ : _ = Pc.registered y call retry ceiling)⟩
        exact Function.update_self ..
    · rw [waiters, onMutex_ne _ hy] at hw
      exact hpc y w hw
  exact hnew.shrink (.modify (t := t) (f := fun tcb => { tcb with waitingOnMutex := some x }) rfl)

theorem recycle (t : Fin n) (p : ℕ) : (s.recycle t p).Listed := by
  intro x w hw
  have hold := (hs x w hw).1
  by_cases hwt : w.task = t
  · have hgen : ((s.recycle t p).waiter t).generation = (s.waiter t).generation + 1 := by
      simp [State.recycle, State.setPc, waiter]
    rw [hwt] at hold ⊢
    refine ⟨by omega, fun hlive => absurd (congrArg Waiter.generation hlive) (by omega)⟩
  · have hsame : (s.recycle t p).waiter w.task = s.waiter w.task ∧
        (s.recycle t p).pc w.task = s.pc w.task := by
      simp [State.recycle, State.setPc, waiter, State.modify, hwt]
    rw [hsame.1, hsame.2]
    exact hs x w hw

theorem round {call : LockCall} (hout : ∀ y, s.waiter t ∉ s.waiters y) (h : Round s t x call s') :
    s'.Listed := by
  have hidle := hs.setPc (t := t) (p := .idle) fun y hy => absurd hy (hout y)
  cases h with
  | refused => exact hidle
  | owned call howner => exact hidle.shrink (.reacquire x t)
  | free call howner => exact hidle.shrink (.acquire x t true)
  | ceiling call retry howner hblocks => exact hs.register hout call retry true
  | contended call retry howner hne hblocks hinherit =>
    have hlent := Shrinks.of_lent (.inheritPriority hinherit)
    refine (hs.shrink hlent).register (fun y hy => hout y (hlent.waiters y ?_)) call retry false
    rwa [hlent.waiter] at hy

theorem step {a : Action n m} (hout : s.Unlisted a) (h : s.step a = some s') : s'.Listed := by
  have hidle : ∀ {t}, (s.pc t).waitsFor = none → ∀ y, s.waiter t ∉ s.waiters y := by
    intro t hpc y hy
    cases hpc.symm.trans ((hs y _ hy).2 rfl)
  cases a with try obtain ⟨-, rfl⟩ := ite_some_none_eq_some.mp h
  | lock t x call =>
    obtain ⟨hruns, -, hround⟩ := step_lock h
    rw [runs, Bool.and_eq_true, decide_eq_true_eq] at hruns
    exact hs.round (hidle (congrArg Pc.waitsFor hruns.2)) hround
  | block t =>
    obtain ⟨x, call, retry, ceiling, hpc, -, rfl⟩ := step_block h
    have hblocked : (s.setState t .blocked).Listed := hs.shrink (.modify rfl)
    refine hblocked.setPc fun y hy => ?_
    have hwaits : (s.pc t).waitsFor = some y := (hblocked y _ hy).2 rfl
    rwa [hpc] at hwaits
  | resume t =>
    obtain ⟨_, _, _, _, -, -, -, -, hround⟩ := step_resume h
    exact hs.round hout hround
  | retry t =>
    obtain ⟨x, call, retry, hpc, -, -, hround⟩ := step_retry h
    exact hs.round (hidle (congrArg Pc.waitsFor hpc)) hround
  | tryLock t x =>
    unfold State.tryLock
    split_ifs
    · exact hs.shrink (.reacquire x t)
    · exact hs.shrink (.acquire x t false)
    · exact hs
  | unlock t x => exact hs.shrink (.unlock t x)
  | wake x remote =>
    obtain ⟨t, -, rfl⟩ := map_eq_some_iff.mp h
    exact (hs.shrink (.modify rfl) : (s.setState t .ready).Listed)
  | drain w =>
    unfold State.drain
    split_ifs
    · exact (hs.shrink (.modify rfl) : (s.setState w.task .ready).Listed)
    · exact hs
  | removeWaiter t x => exact hs.shrink (.removeWaiter t x)
  | ready t | terminate t => exact hs.shrink (.modify rfl)
  | recycle t p => exact hs.recycle t p

end Listed

/-- In every state that a run from unused mutexes reaches: at most one task has acquired a mutex and
not released it, the recursion count is the number of acquisitions of the owner, and the last
`unlock` of the owner makes a live task of the greatest priority in the array the owner and removes
its entry from the array, if there is any. The new owner waits for the mutex if no task has resumed
with its entry left in the array. -/
theorem mutex_exclusion {as : List (Action n m)} (hstart : s.Start)
    (hrun : Run step anyStep s as s') :
    (∀ x t u, 0 < s'.acquired t x → 0 < s'.acquired u x → t = u) ∧
    (∀ x t, s'.owner x = some t → (s'.mutex x).lockCount = s'.acquired t x) ∧
    ∀ x t s'', s'.owner x = some t → (s'.mutex x).lockCount ≤ 1 →
      (∃ w ∈ s'.waiters x, s'.awakeable w = true) → s'.step (.unlock t x) = some s'' →
      ∃ w ∈ s'.waiters x, s'.awakeable w = true ∧
        (∀ v ∈ s'.waiters x, s'.awakeable v → s'.prio v.task ≤ s'.prio w.task) ∧
        s''.owner x = some w.task ∧ (s'.waiters x).Perm (w :: s''.waiters x) ∧
        (Run step Unlisted s as s' → (s'.pc w.task).waitsFor = some x) := by
  have hinit : s.Counted := by
    intro t x
    rw [hstart.acquired, (hstart.mutex x).1]
    rfl
  have hcounted : s'.Counted := hrun.invariant (I := Counted) (fun _ _ _ hs _ h => hs.step h) hinit
  refine ⟨fun x t u ht hu => ?_, fun x t ht => ?_, fun x t s'' howner hcount hlive h => ?_⟩
  · have howns : ∀ v, 0 < s'.acquired v x → s'.owner x = some v := by
      intro v hv
      by_contra hne
      rw [hcounted v x, if_neg hne] at hv
      exact absurd hv (lt_irrefl 0)
    exact some.inj ((howns t ht).symm.trans (howns u hu))
  · rw [hcounted t x, if_pos ht]
  · obtain ⟨-, rfl⟩ := ite_some_none_eq_some.mp h
    cases hbest : s'.selectBestWaiter x with
    | none =>
      obtain ⟨w, hw, hawake⟩ := hlive
      rw [WaitArray.best_eq_none_iff.mp hbest w hw] at hawake
      cases hawake
    | some b =>
      obtain ⟨i, w⟩ := b
      obtain ⟨hperm, hawake, hgreatest⟩ := WaitArray.perm_of_best hbest
      obtain ⟨p, hp⟩ := s'.handOver_mutex t x i w
      have hunlock : (s'.unlock t x).mutex = (s'.handOver t x i w).mutex := by
        rw [State.unlock, if_neg (not_not.mpr howner), if_neg (by omega), hbest]
        rfl
      have hmem : w ∈ s'.waiters x := hperm.mem_iff.mpr List.mem_cons_self
      refine ⟨w, hmem, hawake, hgreatest, ?_, ?_, fun hout => ?_⟩
      · rw [State.owner, hunlock, hp]
      · have hrest : (s'.unlock t x).waiters x = WaitArray.swapRemove (s'.waiters x) i := by
          rw [State.waiters, hunlock, hp]
        rw [hrest]
        exact hperm
      · have hlisted : s'.Listed := by
          refine hout.invariant (I := Listed) (fun _ _ _ hs ha h => hs.step ha h) fun y v hv => ?_
          rw [(hstart.mutex y).2.2] at hv
          cases hv
        exact (hlisted x w hmem).2 (waiter_of_awakeable hawake)

def contenders : State 3 1 := unused ![5, 9, 7] fun _ => 0

/-- The first task locks twice and unlocks once while the others wait: its count is 1, and its last
`unlock` makes the second task the owner, which waits. -/
theorem mutex_exclusion_contenders : ∃ s', Run step anyStep contenders
    [.lock 0 0 .lock, .lock 0 0 .lock, .lock 2 0 .lock, .block 2, .lock 1 0 .lock, .block 1,
      .unlock 0 0] s' ∧
    (s'.mutex 0).lockCount = s'.acquired 0 0 ∧
    ∃ s'' w, s'.step (.unlock 0 0) = some s'' ∧ s''.owner 0 = some w ∧
      s'.prio 1 ≤ s'.prio w ∧ (s'.pc w).waitsFor = some 0 := by
  obtain ⟨s', hrun, howner, hcount, hlive, hwaits, hsome⟩ : ∃ s', Run step Unlisted contenders
      [.lock 0 0 .lock, .lock 0 0 .lock, .lock 2 0 .lock, .block 2, .lock 1 0 .lock, .block 1,
        .unlock 0 0] s' ∧ s'.owner 0 = some 0 ∧ (s'.mutex 0).lockCount ≤ 1 ∧
      s'.awakeable (s'.waiter 1) = true ∧ s'.waiter 1 ∈ s'.waiters 0 ∧
      (s'.step (.unlock 0 0)).isSome := Run.exists_of_exec (by decide +kernel)
  obtain ⟨-, hcounts, hhand⟩ := mutex_exclusion (start_unused ..) hrun.any
  obtain ⟨s'', hs''⟩ := isSome_iff_exists.mp hsome
  obtain ⟨w, -, -, hgreatest, hnew, -, hcall⟩ := hhand 0 0 s'' howner hcount ⟨_, hwaits, hlive⟩ hs''
  exact ⟨s', hrun.any, hcounts 0 0 howner, s'', w.task, hs'', hnew, hgreatest _ hwaits hlive,
    hcall hrun⟩

/-- The first task waits for the ceiling of the second mutex, which it holds. It inherits the
priority 20, a late wake-up of an earlier hand-over ends its wait, and it takes the first mutex with
its entry left in the array. When it unlocks, it is made the owner again, and the second task sleeps
on. -/
theorem unlock_hands_to_itself : ∃ s', Run step anyStep (unused ![5, 9, 20] fun _ : Fin 2 => 8)
    [.lock 1 0 .lock, .lock 0 0 .lock, .block 0, .unlock 1 0, .wake 0 true, .resume 0, .unlock 0 0,
      .lock 0 1 .lock, .lock 0 0 .lock, .block 0, .lock 2 1 .lock, .drain ⟨0, 1⟩, .resume 0,
      .lock 1 0 .lock, .block 1, .unlock 0 0] s' ∧
    s'.owner 0 = some 0 ∧ (s'.mutex 0).lockCount = 0 ∧ s'.pc 0 = .idle ∧
    (s'.pc 1).waitsFor = some 0 ∧ (s'.tcb 1).state = .blocked :=
  Run.exists_of_exec (by decide +kernel)

end Nexios.Sync.State
