import Nexios.Sync.Mutex

/-!
# Waking one waiter

What the wake-ups of semaphores and queues have in common. Entries of recycled control blocks are
dropped first; then the first entry of the greatest priority is removed, and its task woken if it is
alive. Whether it is alive does not matter for the choice, so a dead waiter in front takes the
wake-up of a live one behind it.
-/

open Function

namespace Nexios.Sync

open WaitArray

open Sched (TaskState)

variable {n : ℕ}

structure TaskInfo where
  state : TaskState
  generation : ℕ
  priority : ℕ
  deriving DecidableEq

abbrev TaskTable (n : ℕ) := Fin n → TaskInfo

namespace TaskTable

variable {ts : TaskTable n} {l : List (Waiter n)} {w : Waiter n} {t u : Fin n}

variable (ts : TaskTable n)

def modify (t : Fin n) (f : TaskInfo → TaskInfo) : TaskTable n :=
  update ts t (f (ts t))

def setState (t : Fin n) (st : TaskState) : TaskTable n :=
  ts.modify t (fun i => { i with state := st })

def setPriority (t : Fin n) (p : ℕ) : TaskTable n :=
  ts.modify t (fun i => { i with priority := p })

def waiter (t : Fin n) : Waiter n := ⟨t, (ts t).generation⟩

def current (w : Waiter n) : Bool := (ts w.task).generation = w.generation

def prio (w : Waiter n) : ℕ := (ts w.task).priority

def live (t : Fin n) : Bool :=
  (ts t).state ≠ .terminated && (ts t).state ≠ .reaped

def runs (t : Fin n) : Bool := (ts t).state = .ready || (ts t).state = .running

def awakeable (w : Waiter n) : Bool :=
  ts.current w && ts.live w.task

def recycle (t : Fin n) (p : ℕ) : TaskTable n :=
  ts.modify t (fun i => ⟨.ready, i.generation + 1, p⟩)

def hasLive (l : List (Waiter n)) : Bool := l.any ts.awakeable

/-- The entry that is chosen, after those of recycled control blocks have been dropped. -/
def choice (l : List (Waiter n)) : Option (ℕ × Waiter n) :=
  best (fun _ => true) ts.prio (purge ts.current l)

def wakeOne (l : List (Waiter n)) : List (Waiter n) × Option (Waiter n) :=
  match ts.choice l with
  | none => ([], none)
  | some (i, w) =>
    (swapRemove (purge ts.current l) i, if ts.awakeable w then some w else none)

/-- `set_task_ready` on the waiter that is woken. -/
def setReady (w : Option (Waiter n)) : TaskTable n :=
  match w with
  | none => ts
  | some w => ts.setState w.task .ready

/-- The entry that is chosen is that of a live task. -/
def Served (l : List (Waiter n)) : Prop := ∃ b ∈ ts.choice l, ts.awakeable b.2
  deriving Decidable

/-- The waiter `w` is a live one of the greatest priority. -/
def IsFirst (l : List (Waiter n)) (w : Waiter n) : Prop :=
  w ∈ l ∧ ts.awakeable w = true ∧ ∀ v ∈ l, ts.awakeable v → ts.prio v ≤ ts.prio w

variable {ts} {st : TaskState}

@[simp] theorem modify_self (f : TaskInfo → TaskInfo) : ts.modify t f t = f (ts t) :=
  update_self ..

theorem modify_ne (f : TaskInfo → TaskInfo) (h : u ≠ t) : ts.modify t f u = ts u :=
  update_of_ne h ..

theorem modify_field {β : Type*} (π : TaskInfo → β) {f : TaskInfo → TaskInfo}
    (h : π (f (ts t)) = π (ts t)) (u : Fin n) : π (ts.modify t f u) = π (ts u) :=
  update_field π h u

theorem live_of_runs {ts : TaskTable n} {t : Fin n} (h : ts.runs t) : ts.live t = true := by
  unfold live
  rcases Bool.or_eq_true_iff.mp h with hst | hst
  all_goals
    rw [of_decide_eq_true hst]
    rfl

theorem live_setState_ne (h : u ≠ t) : (ts.setState t st).live u = ts.live u := by
  unfold live
  rw [setState, modify_ne _ h]

theorem live_setState (hst : st ≠ .terminated) (hst' : st ≠ .reaped) (h : ts.live u) :
    (ts.setState t st).live u = true := by
  by_cases hu : u = t
  · subst hu
    simp [live, setState, hst, hst']
  · rw [live, setState, modify_ne _ hu]
    exact h

theorem current_of_awakeable (h : ts.awakeable w) : ts.current w = true :=
  (Bool.and_eq_true_iff.mp h).1

theorem mem_purge : w ∈ purge ts.current l ↔ w ∈ l ∧ ts.current w = true := by
  rw [(purge_perm ts.current l).mem_iff, List.mem_filter]

theorem wakeOne_isSome_iff : (ts.wakeOne l).2.isSome = true ↔ ts.Served l := by
  unfold wakeOne Served
  cases ts.choice l with
  | none => simp
  | some b =>
    by_cases hawake : ts.awakeable b.2 = true
    all_goals simp [hawake]

theorem wakeOne_eq_some (h : (ts.wakeOne l).2 = some w) :
    ts.IsFirst l w ∧ (l.filter ts.current).Perm (w :: (ts.wakeOne l).1) := by
  unfold wakeOne at h ⊢
  cases hb : ts.choice l with
  | none =>
    rw [hb] at h
    cases h
  | some b =>
    obtain ⟨i, v⟩ := b
    simp only [hb] at h ⊢
    split_ifs at h with hawake
    cases h
    obtain ⟨hperm, -, hgreatest⟩ := perm_of_best hb
    have hmem : w ∈ purge ts.current l := hperm.mem_iff.mpr List.mem_cons_self
    refine ⟨⟨(mem_purge.mp hmem).1, hawake, fun u hu hlive => ?_⟩,
      (purge_perm ts.current l).symm.trans hperm⟩
    exact hgreatest u (mem_purge.mpr ⟨hu, current_of_awakeable hlive⟩) rfl

theorem hasLive_of_served (h : ts.Served l) : ts.hasLive l = true := by
  obtain ⟨w, hw⟩ := Option.isSome_iff_exists.mp (wakeOne_isSome_iff.mpr h)
  obtain ⟨⟨hmem, hawake, -⟩, -⟩ := wakeOne_eq_some hw
  exact List.any_eq_true.mpr ⟨w, hmem, hawake⟩

/-- The wake-up reaches a live waiter of the greatest priority exactly if the chosen entry is alive.
-/
theorem exists_isFirst_iff : (∃ w, (ts.wakeOne l).2 = some w ∧ ts.IsFirst l w) ↔ ts.Served l := by
  rw [← wakeOne_isSome_iff, Option.isSome_iff_exists]
  exact ⟨fun ⟨w, hw, _⟩ => ⟨w, hw⟩, fun ⟨w, hw⟩ => ⟨w, hw, (wakeOne_eq_some hw).1⟩⟩

end TaskTable

end Nexios.Sync
