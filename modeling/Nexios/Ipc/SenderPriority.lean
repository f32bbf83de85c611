import Nexios.Ipc.SenderLists
import Nexios.Lib.Inheritance

/-!
# Priority inheritance of senders

`block_sender` raises the owner of a queue to the priority of the sender, and `wake_sender` sets the
priority of the receiver to the greatest of its base priority and those of the senders left on this
one queue. Neither knows of the other reasons for a raised priority: senders on another queue,
waiters for a mutex that the receiver holds, or a queue that the receiver does not own. A sender
that gives up leaves the owner raised, and an owner that waits itself does not pass its priority on.
In the runs without these cases the priority of each task is the greatest of its base priority and
those of the tasks that wait for it.
-/

open Function Option List

namespace Nexios.Ipc

open WaitArray

open Sched (TaskState)
open Inheritance (DirectLaw)

variable {n m k : ℕ}

namespace SenderState

variable (s : SenderState n m k)

/-- The task that `t` waits for: the owner of the queue on which it is blocked, or of the mutex. -/
def waitsFor (t : Fin n) : Option (Fin n) :=
  match s.onQueue t with
  | some q => s.owner q
  | none => (s.onMutex t).bind s.mutexOwner

def Free (t : Fin n) : Prop := s.onQueue t = none ∧ s.onMutex t = none
  deriving Decidable

/-- Everyone who waits for `o` is blocked on the queue `q`. -/
def OnlyQueue (o : Fin n) (q : Fin m) : Prop :=
  ∀ u, s.waitsFor u = some o → s.onQueue u = some q
  deriving Decidable

/-- Everyone who waits for `o` waits for the mutex `x`. -/
def OnlyMutex (o : Fin n) (x : Fin k) : Prop :=
  ∀ u, s.waitsFor u = some o → s.onMutex u = some x
  deriving Decidable

/-- The condition on `unlock`: the task has its base priority once the waiters of this mutex are
gone, and those that go on waiting are not above it. -/
def MayUnlock (x : Fin k) (t : Fin n) : Prop :=
  s.OnlyMutex t x ∧
    (0 < s.base t ∧ s.holderPriority x = s.base t ∨
      s.holderPriority x = 0 ∧ s.priority t = s.base t) ∧
    ∀ b ∈ best (fun _ => true) s.priority (s.waiters x),
      ∀ u ∈ swapRemove (s.waiters x) b.1, s.priority u ≤ s.base t
  deriving Decidable

/-- The condition on the priorities: an owner that is raised does not wait itself; a receiver owns
the queue, and is raised for this queue alone, or nobody owns it, and it raises nobody; a sender
that gives up is not the reason for a raised priority; and a queue that goes away, like a mutex that
is unlocked, is the only reason of its owner. -/
def Sole : SenderAction n m k → Prop
  | .block q t => ∀ o, s.owner q = some o → s.priority o < s.priority t → s.Free o
  | .wake q r _ =>
    s.owner q = some r ∧ s.OnlyQueue r q ∨
      s.owner q = none ∧ s.priority r = s.base r ∧
        ∀ u, s.onQueue u = some q → s.priority u ≤ s.base r
  | .rollback q t =>
    ∀ o, s.owner q = some o → s.priority o = s.base o ∨
      ∃ u, u ≠ t ∧ s.waitsFor u = some o ∧ s.priority u = s.priority o
  | .destroy q _ =>
    ∀ o, s.owner q = some o → s.OnlyQueue o q ∧ (s.priority o = s.base o ∨ s.waitsFor o = none)
  | .mutexWait x t => ∀ o, s.mutexOwner x = some o → s.priority o < s.priority t → s.Free o
  | .mutexUnlock x t => s.MayUnlock x t
  | _ => True

instance (s : SenderState n m k) (a : SenderAction n m k) : Decidable (s.Sole a) := by
  unfold Sole
  exact match a with
  | .block .. | .wake .. | .rollback .. | .destroy .. | .send .. | .sendViaCap .. | .flags ..
  | .sleep _ | .rouse _ | .drain _ | .terminate _ | .mutexLock .. | .mutexWait ..
  | .mutexUnlock .. => inferInstance

def Balanced (a : SenderAction n m k) : Prop := s.Unlinked a ∧ s.Sole a
  deriving Decidable

variable {s s' : SenderState n m k} {t u w r o : Fin n} {q : Fin m} {x : Fin k} {remote : Bool}
  {a : SenderAction n m k} {as : List (SenderAction n m k)} {l : List (Fin n)}
  {lists : Fin m → List (Fin n)}

/-- The law in terms of `waitsFor`; a mutex that is free has no waiters. -/
structure Boosts (s : SenderState n m k) : Prop where
  law : DirectLaw s.waitsFor s.base s.priority
  free : ∀ x, s.mutexOwner x = none → s.waiters x = []

/-! ## Who waits for whom -/

theorem waitsFor_of_queue (h : s.onQueue t = some q) : s.waitsFor t = s.owner q := by
  unfold waitsFor
  rw [h]

theorem waitsFor_of_mutex (hq : s.onQueue t = none) (hx : s.onMutex t = some x) :
    s.waitsFor t = s.mutexOwner x := by
  unfold waitsFor
  rw [hq, hx]
  rfl

theorem Free.waitsFor (h : s.Free t) : s.waitsFor t = none := by
  unfold SenderState.waitsFor
  rw [h.1, h.2]
  rfl

theorem waitsFor_congr (hqueue : s'.onQueue t = s.onQueue t) (howner : s'.owner = s.owner)
    (hmutex : s'.onMutex t = s.onMutex t) (hmutexOwner : s'.mutexOwner = s.mutexOwner) :
    s'.waitsFor t = s.waitsFor t := by
  unfold waitsFor
  rw [hqueue, howner, hmutex, hmutexOwner]

theorem waitsFor_handover {c : Option (Fin n)} (hx : s.onMutex t ≠ some x)
    (hqueue : s'.onQueue t = s.onQueue t) (howner : s'.owner = s.owner)
    (hmutex : s'.onMutex t = s.onMutex t) (hmutexOwner : s'.mutexOwner = update s.mutexOwner x c) :
    s'.waitsFor t = s.waitsFor t := by
  unfold waitsFor
  rw [hqueue, howner, hmutex, hmutexOwner]
  cases s.onQueue t with
  | some q => rfl
  | none =>
    cases ht : s.onMutex t with
    | none => rfl
    | some y =>
      have hy : y ≠ x := fun he => hx (he ▸ ht)
      exact update_of_ne hy ..

theorem isGreatest_maxPriority (s : SenderState n m k) (p : ℕ) (l : List (Fin n)) :
    IsGreatest {b | b = p ∨ ∃ u ∈ l, b = s.priority u} (s.maxPriority p l) := by
  induction l generalizing p with
  | nil => exact ⟨.inl rfl, by rintro b (rfl | ⟨u, ⟨⟩, -⟩); exact le_rfl⟩
  | cons v l ih =>
    have hcons : s.maxPriority p (v :: l) = s.maxPriority (max p (s.priority v)) l := by
      rw [max_def_lt]
      rfl
    rw [hcons]
    obtain ⟨hmem, hle⟩ := ih (max p (s.priority v))
    have hstart := hle (.inl rfl)
    constructor
    · rcases hmem with hp | ⟨u, hu, hp⟩
      · rw [hp]
        exact (max_choice p (s.priority v)).imp_right fun hv => ⟨v, mem_cons_self, hv⟩
      · exact .inr ⟨u, mem_cons_of_mem _ hu, hp⟩
    · rintro b (rfl | ⟨u, hu, rfl⟩)
      · exact (le_max_left ..).trans hstart
      rcases mem_cons.mp hu with rfl | hu
      · exact (le_max_right ..).trans hstart
      · exact hle (.inr ⟨u, hu, rfl⟩)

theorem maxPriority_le {p b : ℕ} (hp : p ≤ b) (hl : ∀ u ∈ l, s.priority u ≤ b) :
    s.maxPriority p l ≤ b := by
  rcases (s.isGreatest_maxPriority p l).1 with he | ⟨u, hu, he⟩
  · exact he.trans_le hp
  · exact he.trans_le (hl u hu)

/-- The waits when the mutex `x` goes to the waiter `w`. -/
def handedOver (s : SenderState n m k) (x : Fin k) (w u : Fin n) : Option (Fin n) :=
  if u = w then none else if s.onMutex u = some x then some w else s.waitsFor u

theorem onMutex_ne (hinv : s.Inv lists) (hx : s.waiters x = []) (u : Fin n) :
    s.onMutex u ≠ some x :=
  fun hu => not_mem_nil (hx ▸ (hinv.waiter x u).mpr hu)

namespace Boosts

theorem of_waitsFor {next : Fin n → Option (Fin n)} (hlaw : DirectLaw next s.base s.priority)
    (hwaits : ∀ u, s.waitsFor u = next u) (hfree : ∀ x, s.mutexOwner x = none → s.waiters x = []) :
    s.Boosts where
  law := (funext hwaits : s.waitsFor = next) ▸ hlaw
  free := hfree

variable (h : s.Boosts)
include h

omit h in
theorem boostOwner_eq (h : s.owner q = some o) (p : ℕ) :
    s.boostOwner q p = s.setPriority o (max (s.priority o) p) := by
  unfold boostOwner
  rw [h]
  dsimp only
  split_ifs with hlt
  · rw [max_eq_right hlt.le]
  · rw [max_eq_left (Nat.not_lt.mp hlt)]
    unfold setPriority
    rw [update_eq_self]

theorem block (hinv : s.Inv lists) (hr : s.runs t) (hself : s.owner q ≠ some t)
    (hfree : ∀ o, s.owner q = some o → s.priority o < s.priority t → s.Free o) (f : Fifo (Fin n)) :
    ((((s.setState t .blocked).setOnQueue t (some q)).setSenders q f).boostOwner q
      (s.priority t)).Boosts := by
  have hnone : s.waitsFor t = none := Free.waitsFor (onQueue_of_runs hinv hr)
  set s₁ := ((s.setState t .blocked).setOnQueue t (some q)).setSenders q f
  have hwaits : s₁.waitsFor = update s.waitsFor t (s.owner q) := eq_update_iff.mpr
    ⟨waitsFor_of_queue (update_self ..), fun u hu => waitsFor_congr (update_of_ne hu ..) rfl rfl rfl⟩
  cases ho : s.owner q with
  | none =>
    have hboost : s₁.boostOwner q (s.priority t) = s₁ := by
      unfold boostOwner
      rw [show s₁.owner q = none from ho]
    rw [hboost]
    refine ⟨?_, h.free⟩
    rw [hwaits, ho, ← hnone, update_eq_self]
    exact h.law
  | some o =>
    rw [boostOwner_eq (s := s₁) ho]
    refine ⟨?_, h.free⟩
    have hne : t ≠ o := fun he => hself (he ▸ ho)
    have hjoin := h.law.join hnone hne fun hlt => (hfree o ho hlt).waitsFor
    rw [← ho, ← hwaits] at hjoin
    exact hjoin

omit h in
theorem waitsFor_unlinked (hinv : s.Inv lists) (hq : s.onQueue t = some q)
    (hqueue : s'.onQueue = update s.onQueue t none) (howner : s'.owner = s.owner)
    (hmutex : s'.onMutex = s.onMutex) (hmutexOwner : s'.mutexOwner = s.mutexOwner) :
    s'.waitsFor = update s.waitsFor t none := by
  have hfree : s.onMutex t = none := by
    by_contra hne
    exact some_ne_none q (hq.symm.trans (hinv.mutex t hne))
  refine eq_update_iff.mpr ⟨Free.waitsFor ⟨?_, by rw [hmutex, hfree]⟩, fun u hu => ?_⟩
  · rw [hqueue, update_self]
  · refine waitsFor_congr ?_ howner (by rw [hmutex]) hmutexOwner
    rw [hqueue, update_of_ne hu]

section

variable (hinv : s.Inv lists)
include hinv

theorem wake (hr : s.runs r) (hl : lists q = t :: l)
    (hsole : s.owner q = some r ∧ s.OnlyQueue r q ∨ s.owner q = none ∧ s.priority r = s.base r ∧
      ∀ u, s.onQueue u = some q → s.priority u ≤ s.base r) (f : Fifo (Fin n)) (remote : Bool) :
    ((((s.setSenders q f).setOnQueue t none).ready t remote).setPriority r
      (s.maxPriority (s.base r) l)).Boosts := by
  have hmem : ∀ u, u ∈ t :: l → s.onQueue u = some q := fun u hu => (hinv.mem u q).mp (hl ▸ hu)
  have htl : t ∉ l := (nodup_cons.mp (hl ▸ (hinv.holds q).nodup)).1
  have htq : s.waitsFor t = s.owner q := waitsFor_of_queue (hmem t mem_cons_self)
  have hrfree : s.waitsFor r = none := Free.waitsFor (onQueue_of_runs hinv hr)
  obtain ⟨hmax, hrest⟩ := s.isGreatest_maxPriority (s.base r) l
  have hbase := hrest (.inl rfl)
  refine of_waitsFor ?_ (congrFun (waitsFor_unlinked hinv (hmem t mem_cons_self) rfl rfl rfl rfl))
    h.free
  rcases hsole with ⟨howner, honly⟩ | ⟨howner, hprio, hle⟩
  · rw [howner] at htq
    have hself : update s.priority r (s.maxPriority (s.base r) l) r =
      s.maxPriority (s.base r) l := update_self ..
    have hother : ∀ u v, s.waitsFor u = some v →
        update s.priority r (s.maxPriority (s.base r) l) u = s.priority u := by
      intro u v hu
      refine update_of_ne ?_ ..
      rintro rfl
      exact some_ne_none v (hu.symm.trans hrfree)
    refine h.law.leave htq (fun u hu => update_of_ne hu ..) (.inr hrfree)
      (hbase.trans_eq hself.symm) (fun u hut hu => ?_) ?_
    · have hul : u ∈ t :: l := hl ▸ (hinv.mem u q).mpr (honly u hu)
      change update s.priority r _ u ≤ update s.priority r _ r
      rw [hself, hother u r hu]
      exact hrest (.inr ⟨u, (mem_cons.mp hul).resolve_left hut, rfl⟩)
    · change update s.priority r _ r = s.base r ∨ ∃ u, _ ∧ _ ∧
        update s.priority r _ u = update s.priority r _ r
      rw [hself]
      refine hmax.imp id fun ⟨u, hu, hp⟩ => ?_
      have hur : s.waitsFor u = some r :=
        (waitsFor_of_queue (hmem u (mem_cons_of_mem _ hu))).trans howner
      refine ⟨u, ne_of_mem_of_not_mem hu htl, hur, ?_⟩
      rw [hother u r hur, hp]
  · -- nobody is raised for this queue, and the receiver keeps its base priority
    have hmax : s.maxPriority (s.base r) l = s.priority r := by
      rw [hprio]
      refine le_antisymm (maxPriority_le le_rfl fun u hu => ?_) hbase
      exact hle u (hmem u (mem_cons_of_mem _ hu))
    rw [howner] at htq
    rw [hmax, ← htq, update_eq_self]
    change DirectLaw s.waitsFor s.base (update s.priority r (s.priority r))
    rw [update_eq_self]
    exact h.law

theorem rollback (hq : s.onQueue t = some q)
    (hsole : ∀ o, s.owner q = some o → s.priority o = s.base o ∨
      ∃ u, u ≠ t ∧ s.waitsFor u = some o ∧ s.priority u = s.priority o) (f : Fifo (Fin n)) :
    (((s.setSenders q f).setOnQueue t none).setState t .running).Boosts := by
  have htq : s.waitsFor t = s.owner q := waitsFor_of_queue hq
  refine of_waitsFor ?_ (congrFun (waitsFor_unlinked hinv hq rfl rfl rfl rfl)) h.free
  cases ho : s.owner q with
  | none =>
    rw [ho] at htq
    rw [← htq, update_eq_self]
    exact h.law
  | some o =>
    rw [ho] at htq
    exact h.law.leave htq (fun _ _ => rfl) (.inl rfl) (h.law.base_le o)
      (fun u _ hu => h.law.le_next u o hu) (hsole o ho)

theorem destroy (hsole : ∀ o, s.owner q = some o →
      s.OnlyQueue o q ∧ (s.priority o = s.base o ∨ s.waitsFor o = none)) (mail : List (Fin n)) :
    ((s.emptied q (lists q) mail).resetOwner q).Boosts := by
  set s₁ := s.emptied q (lists q) mail
  have hout : ∀ u, u ∉ lists q → s₁.waitsFor u = s.waitsFor u := fun u hu =>
    waitsFor_congr (if_neg hu) rfl rfl rfl
  have hin : ∀ u, u ∈ lists q → s₁.waitsFor u = none ∧ s.waitsFor u = s.owner q := by
    intro u hu
    have hq := (hinv.mem u q).mp hu
    refine ⟨Free.waitsFor ⟨if_pos hu, ?_⟩, waitsFor_of_queue hq⟩
    by_contra hne
    exact some_ne_none q (hq.symm.trans (hinv.mutex u hne))
  unfold resetOwner
  cases ho : s.owner q with
  | none =>
    rw [show s₁.owner q = none from ho]
    refine of_waitsFor h.law (fun u => ?_) h.free
    by_cases hu : u ∈ lists q
    · rw [(hin u hu).1, (hin u hu).2, ho]
    · exact hout u hu
  | some o =>
    rw [show s₁.owner q = some o from ho]
    obtain ⟨honly, hfree⟩ := hsole o ho
    refine of_waitsFor (h.law.disband hfree) (fun u => ?_) h.free
    by_cases hu : u ∈ lists q
    · exact (hin u hu).1.trans (if_pos ((hin u hu).2.trans ho)).symm
    · exact (hout u hu).trans (if_neg fun he => hu ((hinv.mem u q).mpr (honly u he))).symm

theorem mutexLock (hx : s.mutexOwner x = none) :
    Boosts { s with mutexOwner := update s.mutexOwner x (some t) } := by
  have hnone := onMutex_ne hinv (h.free x hx)
  refine of_waitsFor h.law (fun u => waitsFor_handover (hnone u) rfl rfl rfl rfl) fun y hy => ?_
  by_cases hyx : y = x
  · subst hyx
    exact nomatch (update_self ..).symm.trans hy
  · exact h.free y ((update_of_ne hyx ..).symm.trans hy)

/-- `inherit_priority` raises an owner that does not wait itself to the priority of the waiter. -/
theorem inheritPriority_eq (ho : s.mutexOwner x = some o)
    (hfree : s.priority o < s.priority t → s.Free o) :
    ∃ c, s.inheritPriority x t = some { s with
      priority := update s.priority o (max (s.priority o) (s.priority t))
      holderPriority := c } := by
  have hle : ∀ u ∈ s.waiters x, s.priority u ≤ s.priority o := by
    intro u hu
    have hmutex := (hinv.waiter x u).mp hu
    have hqueue := hinv.mutex u (hmutex ▸ some_ne_none x)
    exact h.law.le_next u o ((waitsFor_of_mutex hqueue hmutex).trans ho)
  have hmax : s.maxPriority (s.priority t) (s.waiters x) ≤ max (s.priority o) (s.priority t) :=
    maxPriority_le (le_max_right ..) fun u hu => (hle u hu).trans (le_max_left ..)
  have hstart := (s.isGreatest_maxPriority (s.priority t) (s.waiters x)).2 (.inl rfl)
  unfold inheritPriority
  rw [ho]
  dsimp only
  split_ifs with hlt
  · have hraise : s.priority o < s.priority t := by
      rcases lt_max_iff.mp (hlt.trans_le hmax) with hlt | hlt
      · exact absurd hlt (lt_irrefl _)
      · exact hlt
    have heq : s.maxPriority (s.priority t) (s.waiters x) = max (s.priority o) (s.priority t) :=
      le_antisymm hmax (max_le hlt.le hstart)
    rw [(hfree hraise).2, heq]
    exact ⟨_, rfl⟩
  · refine ⟨s.holderPriority, ?_⟩
    rw [max_eq_left (hstart.trans (Nat.not_lt.mp hlt)), update_eq_self]

theorem mutexWait (hr : s.runs t) (ho : s.mutexOwner x = some o) (hne : t ≠ o)
    (hfree : s.priority o < s.priority t → s.Free o) (hs : s.mutexWait x t = some s') :
    s'.Boosts := by
  obtain ⟨hqueue, hmutex⟩ := onQueue_of_runs hinv hr
  obtain ⟨c, hc⟩ := h.inheritPriority_eq hinv ho hfree
  unfold SenderState.mutexWait at hs
  rw [hc] at hs
  cases hs
  have hjoin := h.law.join (Free.waitsFor ⟨hqueue, hmutex⟩) hne fun hlt => (hfree hlt).waitsFor
  refine of_waitsFor hjoin (congrFun (eq_update_iff.mpr ⟨?_, fun u hu => ?_⟩)) fun y hy => ?_
  · rw [← ho]
    exact waitsFor_of_mutex hqueue (update_self ..)
  · exact waitsFor_congr rfl rfl (update_of_ne hu ..) rfl
  · have hyx : y ≠ x := by
      rintro rfl
      exact some_ne_none o (ho.symm.trans hy)
    exact (update_of_ne hyx ..).trans (h.free y hy)

end

omit h in
theorem restorePriority_eq (ho : s.mutexOwner x = some t)
    (hsaved : 0 < s.base t ∧ s.holderPriority x = s.base t ∨
      s.holderPriority x = 0 ∧ s.priority t = s.base t)
    (hle : ∀ u ∈ s.waiters x, s.priority u ≤ s.base t) : ∃ c, s.restorePriority x =
      { s with priority := update s.priority t (s.base t), holderPriority := c } := by
  unfold restorePriority
  rw [ho]
  dsimp only
  rcases hsaved with ⟨hpos, hsaved⟩ | ⟨hsaved, hprio⟩
  · have hremaining : ¬ s.base t < s.maxPriority 0 (s.waiters x) :=
      Nat.not_lt.mpr (maxPriority_le (Nat.zero_le _) hle)
    rw [hsaved, if_neg hpos.ne', if_neg hremaining]
    exact ⟨_, rfl⟩
  · refine ⟨s.holderPriority, ?_⟩
    rw [if_pos hsaved, ← hprio, update_eq_self]

theorem mutexUnlock_none (hinv : s.Inv lists) (ho : s.mutexOwner x = some t)
    (hmay : s.MayUnlock x t) (hwaiters : s.waiters x = []) :
    Boosts { s.restorePriority x with
      mutexOwner := update (s.restorePriority x).mutexOwner x none } := by
  have hnone := onMutex_ne hinv hwaiters
  obtain ⟨c, hc⟩ := restorePriority_eq ho hmay.2.1 (by rw [hwaiters]; nofun)
  have hprio : s.priority t = s.base t :=
    (h.law.attained t).resolve_right fun ⟨u, hu, _⟩ => hnone u (hmay.1 u hu)
  rw [hc, ← hprio, update_eq_self]
  refine of_waitsFor h.law (fun u => ?_) fun y hy => ?_
  · exact waitsFor_handover (hnone u) rfl rfl rfl rfl
  · by_cases hyx : y = x
    · exact hyx ▸ hwaiters
    · exact h.free y ((update_of_ne hyx ..).symm.trans hy)

section

variable (hinv : s.Inv lists) (hr : s.runs t) (ho : s.mutexOwner x = some t)
include hinv hr ho

/-- The waiters of the mutex stop waiting for `t`, which falls back to its base priority, and then
all but `w` wait for `w`. -/
theorem directLaw_handedOver (honly : s.OnlyMutex t x) (hw : s.onMutex w = some x)
    (hbest : ∀ u, s.onMutex u = some x → s.priority u ≤ s.priority w) :
    DirectLaw (s.handedOver x w) s.base (update s.priority t (s.base t)) := by
  have hfree := onQueue_of_runs hinv hr
  have hwait : ∀ u, s.onMutex u = some x → s.waitsFor u = some t := fun u hu =>
    (waitsFor_of_mutex (hinv.mutex u (hu ▸ some_ne_none x)) hu).trans ho
  have hother : ∀ u, s.onMutex u = some x → update s.priority t (s.base t) u = s.priority u := by
    intro u hu
    refine update_of_ne ?_ ..
    rintro rfl
    exact some_ne_none x (hu.symm.trans hfree.2)
  have hlost : DirectLaw (fun u => if s.onMutex u = some x then none else s.waitsFor u) s.base
      (update s.priority t (s.base t)) := by
    have hiff : ∀ u, s.waitsFor u = some t ↔ s.onMutex u = some x := fun u => ⟨honly u, hwait u⟩
    simpa only [hiff] using h.law.disband (.inr (Free.waitsFor hfree))
  refine hlost.retarget (o := w) (fun u v hv => ?_) (fun _ _ => rfl) (.inl rfl) (hlost.base_le w)
    (fun u hu => ?_) ?_
  · unfold handedOver
    by_cases huw : u = w
    · rw [if_pos huw, if_pos (huw ▸ hw)]
    · split_ifs
      · exact iff_of_false (fun he => hv (some.inj he).symm) nofun
      · rfl
  · obtain ⟨huw, hu⟩ := ite_none_left_eq_some.mp hu
    by_cases hux : s.onMutex u = some x
    · rw [hother u hux, hother w hw]
      exact hbest u hux
    · rw [if_neg hux] at hu
      exact hlost.le_next u w ((if_neg hux).trans hu)
  · refine (hlost.attained w).imp id fun ⟨u, hu, hp⟩ => ⟨u, ?_, hp⟩
    obtain ⟨hux, hu⟩ := ite_none_left_eq_some.mp hu
    have huw : u ≠ w := fun he => hux (he ▸ hw)
    unfold handedOver
    rw [if_neg huw, if_neg hux, hu]

theorem mutexUnlock (hmay : s.MayUnlock x t) : (s.mutexUnlock x).Boosts := by
  unfold SenderState.mutexUnlock
  cases hb : best (fun _ => true) s.priority (s.waiters x) with
  | none =>
    have hwaiters : s.waiters x = [] :=
      eq_nil_iff_forall_not_mem.mpr fun u hu => nomatch best_eq_none_iff.mp hb u hu
    exact h.mutexUnlock_none hinv ho hmay hwaiters
  | some b =>
    obtain ⟨i, w⟩ := b
    obtain ⟨hperm, -, hgreatest⟩ := perm_of_best hb
    have hw : s.onMutex w = some x := (hinv.waiter x w).mp (hperm.mem_iff.mpr mem_cons_self)
    set s₁ : SenderState n m k := { s with
      onMutex := update s.onMutex w none
      waiters := update s.waiters x (swapRemove (s.waiters x) i) }
    have hrest : ∀ u ∈ s₁.waiters x, s₁.priority u ≤ s₁.base t := by
      intro u hu
      have hu : u ∈ update s.waiters x (swapRemove (s.waiters x) i) x := hu
      rw [update_self] at hu
      exact hmay.2.2 (i, w) hb u hu
    obtain ⟨c, hc⟩ := restorePriority_eq (s := s₁) ho hmay.2.1 hrest
    change ({ s₁.restorePriority x with
      mutexOwner := update (s₁.restorePriority x).mutexOwner x (some w) }.ready w
        false).Boosts
    rw [hc]
    have hlaw := h.directLaw_handedOver hinv hr ho hmay.1 hw fun u hu =>
      hgreatest u ((hinv.waiter x u).mpr hu) rfl
    refine of_waitsFor hlaw (fun u => ?_) fun y hy => ?_
    · unfold handedOver
      by_cases huw : u = w
      · subst huw
        rw [if_pos rfl]
        refine Free.waitsFor ⟨hinv.mutex u (hw ▸ some_ne_none x), ?_⟩
        exact update_self ..
      · rw [if_neg huw]
        have hmutex : update s.onMutex w none u = s.onMutex u := update_of_ne huw ..
        by_cases hux : s.onMutex u = some x
        · rw [if_pos hux]
          have hqueue := hinv.mutex u (hux ▸ some_ne_none x)
          refine .trans (waitsFor_of_mutex hqueue (hmutex.trans hux)) ?_
          exact update_self ..
        · rw [if_neg hux]
          exact waitsFor_handover hux rfl rfl hmutex rfl
    · have hyx : y ≠ x := by
        rintro rfl
        exact nomatch (update_self ..).symm.trans hy
      refine (update_of_ne hyx ..).trans (h.free y ?_)
      exact (update_of_ne hyx ..).symm.trans hy

end

theorem wakeReceiver (d : Fin n) (remote : Bool) : (s.wakeReceiver d remote).Boosts := by
  unfold SenderState.wakeReceiver
  split_ifs
  · exact { h with }
  · exact h

theorem sendEnd (d : Fin n) (remote : Bool) : (s.sendEnd d remote).Boosts := by
  refine .wakeReceiver ?_ d remote
  split_ifs
  · exact { h with }
  · exact { h with }
  · exact h

theorem step (hinv : s.Inv lists) (hok : s.Sole a) (hs : s.step a = some s') : s'.Boosts := by
  cases a with try obtain ⟨hguard, rfl⟩ := ite_some_none_eq_some.mp hs
  | block q t =>
    obtain ⟨⟨hr, howner⟩, hs⟩ := ite_none_right_eq_some.mp hs
    obtain ⟨f, l, hblock, -⟩ := hinv.block hr q
    cases hblock.symm.trans hs
    exact h.block hinv hr howner hok f
  | wake q r remote =>
    obtain ⟨hr, hs⟩ := ite_none_right_eq_some.mp hs
    cases hhead : s.head q with
    | none =>
      rw [wakeSender, hhead] at hs
      cases hs
      exact h
    | some t =>
      obtain ⟨l, hl, hwake, -⟩ := hinv.wake hhead r remote
      cases hwake.symm.trans hs
      exact h.wake hinv hr hl hok _ remote
  | rollback q t =>
    obtain ⟨hqueue, hs⟩ := ite_none_right_eq_some.mp hs
    obtain ⟨f, l, -, hroll, -⟩ := hinv.rollback hqueue
    cases hroll.symm.trans hs
    exact h.rollback hinv hqueue hok f
  | destroy q remote =>
    cases hs
    obtain ⟨mail, hdestroy, -⟩ := hinv.destroy q remote
    rw [hdestroy]
    exact h.destroy hinv hok mail
  | send d remote => exact h.sendEnd d remote
  | sendViaCap d remote =>
    cases hs
    exact h.wakeReceiver d remote
  | flags | sleep | rouse | terminate => exact { h with }
  | drain t =>
    split_ifs
    all_goals exact { h with }
  | mutexLock x t =>
    obtain ⟨-, hx⟩ := hguard
    exact h.mutexLock hinv hx
  | mutexWait x t =>
    obtain ⟨⟨hr, howned, hother⟩, hs⟩ := ite_none_right_eq_some.mp hs
    obtain ⟨o, ho⟩ := ne_none_iff_exists'.mp howned
    exact h.mutexWait hinv hr ho (fun he => hother (he ▸ ho)) (hok o ho) hs
  | mutexUnlock x t =>
    obtain ⟨hr, ho⟩ := hguard
    exact h.mutexUnlock hinv hr ho hok

end Boosts

end SenderState

end Nexios.Ipc
