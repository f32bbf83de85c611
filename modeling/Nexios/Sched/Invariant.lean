import Nexios.Sched.Dispatch

/-!
# What the queue operations keep

`Inv le bucket s`: the queues and the deadline lists of all CPUs are proper, no task is in both, a
task that is queued at a level satisfies `bucket` there, and the deadline lists are sorted by `le`.
The operations keep it for every `le` that the comparison `edf_earlier` decides and every `bucket`
that holds of the effective priorities. They are proved once for all such relations.
-/

open Function Option Bool

namespace Nexios.Sched

open RunQueues EdfLists Scheduler

variable {n k : ℕ}

/-- `b` differs from `a` in its state and in the deferral flag only. -/
def Tcb.Quiet (a b : Tcb) : Prop :=
  b = { a with state := b.state, readyDeferred := b.readyDeferred }

theorem Tcb.Quiet.refl (a : Tcb) : a.Quiet a := rfl

theorem Tcb.Quiet.trans {a b d : Tcb} (h : a.Quiet b) (h' : b.Quiet d) : a.Quiet d := by
  unfold Tcb.Quiet at h h' ⊢
  rw [h'] at ⊢
  rw [h]

theorem Tcb.Quiet.eff {a b : Tcb} (h : a.Quiet b) : b.effectivePriority = a.effectivePriority := by
  rw [h]
  rfl

namespace Scheduler

variable {le : Fin n → Fin n → Prop} {bucket : Fin n → ℕ → Prop} {s s' s₁ s₂ : Scheduler n k}
  {here c : Cpu k} {t u cur next : Fin n} {mask : BitVec 64} {f : Tcb → Tcb} {live : Bool}

structure Fits (le : Fin n → Fin n → Prop) (bucket : Fin n → ℕ → Prop) (s : Scheduler n k) :
    Prop where
  decides : EdfLists.Decides s.earlier le
  eff : ∀ t, bucket t (s.eff t)

structure Inv (le : Fin n → Fin n → Prop) (bucket : Fin n → ℕ → Prop) (s : Scheduler n k) :
    Prop extends Fits le bucket s where
  rq : s.rq.Good s.home
  edf : s.edf.Good s.home le
  single : ∀ t, s.rq.inReadyQueue t → s.edf.inEdfQueue t = false
  bucket : ∀ t, s.rq.inReadyQueue t → bucket t (s.rq.rqPriority t)
  userHome : ∀ t, (s.tcb t).isUser → s.home t = 0

/-- The tasks keep everything but their states, and the data outside the queues stay. -/
structure Quiet (s s' : Scheduler n k) : Prop where
  tcb : ∀ t, (s.tcb t).Quiet (s'.tcb t)
  current : s'.current = s.current
  idle : s'.idle = s.idle
  idTable : s'.idTable = s.idTable
  allTasks : s'.allTasks = s.allTasks
  upCpus : s'.upCpus = s.upCpus

theorem Quiet.refl (s : Scheduler n k) : Quiet s s := ⟨fun _ => .refl _, rfl, rfl, rfl, rfl, rfl⟩

theorem Quiet.trans (h : Quiet s s₁) (h' : Quiet s₁ s₂) : Quiet s s₂ :=
  ⟨fun t => (h.tcb t).trans (h'.tcb t), h'.current.trans h.current, h'.idle.trans h.idle,
    h'.idTable.trans h.idTable, h'.allTasks.trans h.allTasks, h'.upCpus.trans h.upCpus⟩

section

variable (h : Quiet s s')
include h

theorem Quiet.home_eq : s'.home = s.home := by
  funext t
  unfold home
  rw [h.tcb t]
  rfl

theorem Quiet.eff_eq : s'.eff = s.eff := funext fun t => (h.tcb t).eff

theorem Quiet.earlier_eq : s'.earlier = s.earlier := by
  funext t u
  unfold earlier
  rw [h.tcb t, h.tcb u]
  rfl

theorem Quiet.isUser_eq (t : Fin n) : (s'.tcb t).isUser = (s.tcb t).isUser := by
  rw [h.tcb t]

theorem Quiet.owned_eq (t : Fin n) : s'.owned t = s.owned t := by
  unfold owned findTask
  rw [h.idTable, h.tcb t]

theorem Quiet.clampedTarget_eq (t : Fin n) : s'.clampedTarget t = s.clampedTarget t := by
  unfold clampedTarget
  rw [h.home_eq, h.isUser_eq]

end

theorem Quiet.modify (hf : ∀ a : Tcb, a.Quiet (f a)) (s : Scheduler n k) (t : Fin n) :
    Quiet s (s.modify t f) :=
  ⟨(forall_update_iff s.tcb fun u a => (s.tcb u).Quiet a).mpr ⟨hf _, fun _ _ => .refl _⟩,
    rfl, rfl, rfl, rfl, rfl⟩

theorem Quiet.setState (s : Scheduler n k) (t : Fin n) (st : TaskState) :
    Quiet s (s.setState t st) :=
  Quiet.modify (fun _ => by rfl) s t

theorem Quiet.setDeferred (s : Scheduler n k) (t : Fin n) (deferred : Bool) :
    Quiet s (s.setDeferred t deferred) :=
  Quiet.modify (fun _ => by rfl) s t

theorem Quiet.withQueues (h : Quiet s s') (rq : RunQueues n k) (edf : EdfLists n k) :
    Quiet s (s'.withQueues rq edf) :=
  { h with }

theorem Quiet.withArmed (h : Quiet s s') (armed : Cpu k → Option ℕ) :
    Quiet s { s' with armed := armed } :=
  { h with }

/-- No switch is armed, the current tasks stay, and no task is registered or removed. -/
structure Still (s s' : Scheduler n k) : Prop where
  armed : ∀ c, s.armed c = none → s'.armed c = none
  current : s'.current = s.current
  allTasks : s'.allTasks = s.allTasks

theorem Still.refl (s : Scheduler n k) : Still s s := ⟨fun _ h => h, rfl, rfl⟩

theorem Still.trans (h : Still s s₁) (h' : Still s₁ s₂) : Still s s₂ :=
  ⟨fun c hc => h'.armed c (h.armed c hc), h'.current.trans h.current,
    h'.allTasks.trans h.allTasks⟩

theorem Still.setState (s : Scheduler n k) (t : Fin n) (st : TaskState) :
    Still s (s.setState t st) :=
  ⟨fun _ h => h, rfl, rfl⟩

theorem deferReady_quiet (he : s.deferReady c t live = some s') : Quiet s s' ∧ Still s s' := by
  obtain ⟨rq, -, hs'⟩ := bind_eq_some_iff.mp he
  cases hs'
  cases live with refine ⟨.withQueues ?_ _ _, fun _ h => h, rfl, rfl⟩
  | true => exact (Quiet.setState s t .ready).trans (.setDeferred _ t true)
  | false => exact .refl s

theorem enqueueReady_quiet (he : s.enqueueReady here t = some s') : Quiet s s' ∧ Still s s' := by
  have hqueues : ∀ rq edf, Quiet s (s.withQueues rq edf) ∧ Still s (s.withQueues rq edf) :=
    fun rq edf => ⟨(Quiet.refl s).withQueues rq edf, fun _ h => h, rfl, rfl⟩
  unfold enqueueReady at he
  split_ifs at he
  · exact some.inj he ▸ hqueues _ s.edf
  · exact deferReady_quiet he
  unfold enqueueReadyInner at he
  split_ifs at he
  · obtain ⟨rq, -, he⟩ := bind_eq_some_iff.mp he
    obtain ⟨edf, -, he⟩ := bind_eq_some_iff.mp he
    exact some.inj he ▸ hqueues rq edf
  · obtain ⟨rq, -, he⟩ := bind_eq_some_iff.mp he
    exact some.inj he ▸ hqueues rq _

theorem dequeueReady_quiet (he : s.dequeueReady t = some s') :
    Quiet s s' ∧ Still s s' ∧ ∀ c, s'.armed c = none ∨ s'.armed c = s.armed c := by
  obtain ⟨rq, -, hs'⟩ := bind_eq_some_iff.mp he
  cases hs'
  have harmed : ∀ c, (if s.armed c = some (s.tcb t).id then none else s.armed c) = none ∨
      (if s.armed c = some (s.tcb t).id then none else s.armed c) = s.armed c :=
    fun c => ite_eq_or_eq ..
  exact ⟨((Quiet.setDeferred s t false).withQueues _ _).withArmed _,
    ⟨fun c hnone => (harmed c).elim id (·.trans hnone), rfl, rfl⟩, harmed⟩

theorem Fits.of_quiet (h : Fits le bucket s) (hq : Quiet s s') : Fits le bucket s' :=
  ⟨hq.earlier_eq ▸ h.decides, hq.eff_eq ▸ h.eff⟩

/-- Only the task `t` is affected. -/
structure Touches (s s' : Scheduler n k) (t : Fin n) : Prop where
  tcb : ∀ u, u ≠ t → s'.tcb u = s.tcb u
  rqFlag : ∀ u, u ≠ t → s'.rq.inReadyQueue u = s.rq.inReadyQueue u
  edfFlag : ∀ u, u ≠ t → s'.edf.inEdfQueue u = s.edf.inEdfQueue u

theorem Touches.refl (s : Scheduler n k) (t : Fin n) : Touches s s t :=
  ⟨fun _ _ => rfl, fun _ _ => rfl, fun _ _ => rfl⟩

theorem Touches.queued (h : Touches s s' t) (hu : u ≠ t) : s'.queued u = s.queued u := by
  unfold Scheduler.queued
  rw [h.rqFlag u hu, h.edfFlag u hu]

theorem Touches.trans (h : Touches s s₁ t) (h' : Touches s₁ s₂ t) : Touches s s₂ t :=
  ⟨fun u hu => (h'.tcb u hu).trans (h.tcb u hu), fun u hu => (h'.rqFlag u hu).trans (h.rqFlag u hu),
    fun u hu => (h'.edfFlag u hu).trans (h.edfFlag u hu)⟩

theorem Touches.of_flags {b d : Bool} (htcb : ∀ u, u ≠ t → s'.tcb u = s.tcb u)
    (hrq : s'.rq.inReadyQueue = update s.rq.inReadyQueue t b)
    (hedf : s'.edf.inEdfQueue = update s.edf.inEdfQueue t d) : Touches s s' t := by
  refine ⟨htcb, ?_, ?_⟩
  · intro u hu
    rw [hrq, update_of_ne hu]
  · intro u hu
    rw [hedf, update_of_ne hu]

theorem modify_tcb_of_ne (hu : u ≠ t) : (s.modify t f).tcb u = s.tcb u :=
  update_of_ne hu _ _

structure Kept (le : Fin n → Fin n → Prop) (bucket : Fin n → ℕ → Prop) (s s' : Scheduler n k) :
    Prop where
  inv : Inv le bucket s'
  quiet : Quiet s s'

theorem Kept.trans (h : Kept le bucket s s₁) (h' : Kept le bucket s₁ s₂) : Kept le bucket s s₂ :=
  ⟨h'.inv, h.quiet.trans h'.quiet⟩

theorem Touches.setState (s : Scheduler n k) (t : Fin n) (st : TaskState) :
    Touches s (s.setState t st) t :=
  { Touches.refl s t with tcb := fun _ hu => modify_tcb_of_ne hu }

section

variable (h : Inv le bucket s) {rq : RunQueues n k}
include h

theorem Inv.refl : Kept le bucket s s := ⟨h, .refl s⟩

theorem Inv.of_flag (ht : s.rq.inReadyQueue t) :
    s.edf.inEdfQueue t = false ∧ bucket t (s.rq.rqPriority t) := ⟨h.single t ht, h.bucket t ht⟩

theorem Inv.of_queues (hq : Quiet s s') (hrq : s'.rq.Good s.home) (hedf : s'.edf.Good s.home le)
    (hflag : ∀ t, s'.rq.inReadyQueue t →
      s'.edf.inEdfQueue t = false ∧ bucket t (s'.rq.rqPriority t)) : Kept le bucket s s' := by
  refine ⟨⟨h.toFits.of_quiet hq, hq.home_eq ▸ hrq, hq.home_eq ▸ hedf, fun t ht => (hflag t ht).1,
    fun t ht => (hflag t ht).2, fun t ht => ?_⟩, hq⟩
  rw [hq.home_eq]
  exact h.userHome t (hq.isUser_eq t ▸ ht)

theorem Inv.of_quiet (hq : Quiet s s') (hrq : s'.rq = s.rq)
    (hedf : s'.edf = s.edf) : Kept le bucket s s' := by
  refine h.of_queues hq (hrq ▸ h.rq) (hedf ▸ h.edf) ?_
  rw [hrq, hedf]
  exact fun _ => h.of_flag

theorem Inv.clampedTarget_eq (t : Fin n) : s.clampedTarget t = s.home t := by
  unfold clampedTarget
  split_ifs with huser
  · rw [and_eq_true] at huser
    exact (h.userHome t huser.1).symm
  · rfl

/-! ## Taking a task out -/

omit h in
/-- Both kinds of queues without the task `t`. -/
structure Unqueued (s s' : Scheduler n k) (t : Fin n) : Prop where
  rqFlag : s'.rq.inReadyQueue = update s.rq.inReadyQueue t false
  edfFlag : s'.edf.inEdfQueue = update s.edf.inEdfQueue t false

omit h in
theorem Unqueued.self (h : Unqueued s s' t) : s'.queued t = false := by
  unfold queued
  rw [h.rqFlag, h.edfFlag]
  simp

theorem Inv.unqueue (s' : Scheduler n k) (hq : Quiet s s')
    (hd : RunQueues.Detached s.home s.rq rq t) (hrq : s'.rq = rq)
    (hedf : s'.edf = s.edf.remove (s.home t) t) : Kept le bucket s s' ∧ Unqueued s s' t := by
  have hflag : s'.rq.inReadyQueue = update s.rq.inReadyQueue t false := hrq ▸ hd.flag
  have heflag : s'.edf.inEdfQueue = update s.edf.inEdfQueue t false := by
    rw [hedf, remove_flag]
  refine ⟨h.of_queues hq (hrq ▸ hd.good) (hedf ▸ h.edf.remove rfl) fun u hu => ?_, hflag, heflag⟩
  rw [hflag, update_apply] at hu
  split_ifs at hu with hut
  rw [heflag, update_of_ne hut, hrq, hd.prio u hut]
  exact h.of_flag hu

theorem Inv.dequeueReady (t : Fin n) :
    ∃ s', s.dequeueReady t = some s' ∧ Kept le bucket s s' ∧ Unqueued s s' t ∧ Touches s s' t ∧
      ∀ c, s'.armed c = none ∨ s'.armed c = s.armed c := by
  obtain ⟨rq, hrq, hd⟩ := h.rq.remove (rfl : s.home t = s.home t)
  have heq : s.dequeueReady t = some (((s.setDeferred t false).withQueues rq
      (s.edf.remove (s.home t) t)).invalidatePendingSwitchTo (s.tcb t).id) := by
    unfold Scheduler.dequeueReady
    rw [hrq]
    rfl
  obtain ⟨hq, -, harmed⟩ := dequeueReady_quiet heq
  obtain ⟨hkept, hun⟩ := h.unqueue _ hq hd rfl rfl
  exact ⟨_, heq, hkept, hun,
    .of_flags (fun _ hu => update_of_ne hu _ _) hun.rqFlag hun.edfFlag, harmed⟩

theorem Inv.deferReady {target : Cpu k} (hc : s.home t = target)
    (he : s.deferReady target t live = some s') : Kept le bucket s s' ∧ Touches s s' t := by
  subst hc
  obtain ⟨rq, hrq, hd⟩ := h.rq.removeQueued (rfl : s.home t = s.home t)
  have hq := (deferReady_quiet he).1
  have htcb : ∀ u, u ≠ t →
      (if live then (s.setState t .ready).setDeferred t true else s).tcb u = s.tcb u := by
    intro u hu
    split_ifs
    · exact (modify_tcb_of_ne hu).trans (modify_tcb_of_ne hu)
    · rfl
  unfold Scheduler.deferReady at he
  rw [hrq] at he
  cases he
  obtain ⟨hkept, hun⟩ := h.unqueue _ hq hd rfl rfl
  exact ⟨hkept, .of_flags htcb hun.rqFlag hun.edfFlag⟩

/-! ## Putting a task in -/

theorem Inv.joinReady {p : ℕ} (s' : Scheduler n k) (hq : Quiet s s')
    (hrq : s.rq.enqueue (s.home t) t p = some rq) (hb : bucket t p) (hrq' : s'.rq = rq)
    (hedf : s'.edf = s.edf.remove (s.home t) t) : Kept le bucket s s' := by
  have heflag : s'.edf.inEdfQueue = update s.edf.inEdfQueue t false := by
    rw [hedf, remove_flag]
  have hflag := enqueue_flag hrq
  have hprio := enqueue_prio hrq
  subst hrq'
  refine h.of_queues hq (h.rq.enqueue rfl hrq) (hedf ▸ h.edf.remove rfl) fun u hu => ?_
  rw [hflag, update_apply] at hu
  rw [heflag, hprio]
  by_cases hut : u = t
  · subst hut
    refine ⟨update_self .., ?_⟩
    split_ifs with hin
    · exact h.bucket u hin
    · rw [update_self]
      exact hb
  · rw [if_neg hut] at hu
    rw [update_of_ne hut]
    split_ifs
    · exact h.of_flag hu
    · rw [update_of_ne hut]
      exact h.of_flag hu

theorem Inv.enqueueReadyInner (he : s.enqueueReadyInner t = some s') :
    Kept le bucket s s' ∧ Touches s s' t := by
  unfold Scheduler.enqueueReadyInner at he
  simp only [h.clampedTarget_eq] at he
  by_cases helig : (s.tcb t).edfEligible = true
  · obtain ⟨rq, hrq, hd⟩ := h.rq.removeQueued (rfl : s.home t = s.home t)
    obtain ⟨edf, hedf, hgood, heflag⟩ := h.edf.insert h.decides (rfl : s.home t = s.home t)
    rw [if_pos helig, hrq, hedf] at he
    obtain rfl : s.withQueues rq edf = s' := some.inj he
    refine ⟨h.of_queues ((Quiet.refl s).withQueues rq edf) hd.good hgood fun u hu => ?_,
      .of_flags (fun _ _ => rfl) hd.flag heflag⟩
    change rq.inReadyQueue u = true at hu
    change edf.inEdfQueue u = false ∧ bucket u (rq.rqPriority u)
    rw [hd.flag, update_apply] at hu
    split_ifs at hu with hut
    rw [heflag, update_of_ne hut, hd.prio u hut]
    exact h.of_flag hu
  · rw [if_neg helig] at he
    obtain ⟨rq, hrq, hs'⟩ := bind_eq_some_iff.mp he
    obtain rfl : s.withQueues rq (s.edf.remove (s.home t) t) = s' := some.inj hs'
    exact ⟨h.joinReady _ ((Quiet.refl s).withQueues _ _) hrq (h.eff t) rfl rfl,
      .of_flags (fun _ _ => rfl) (enqueue_flag hrq) remove_flag⟩

omit h in
/-- The id table knows the task, or its flag is clear anyway. -/
def EnqueueOk (s : Scheduler n k) (t : Fin n) : Prop :=
  s.owned t = true ∨ s.rq.inReadyQueue t = false
  deriving Decidable

theorem Inv.enqueueReady (hok : s.EnqueueOk t)
    (he : s.enqueueReady here t = some s') : Kept le bucket s s' ∧ Touches s s' t := by
  unfold Scheduler.enqueueReady at he
  split_ifs at he with howned hcur
  · rcases hok with hown | hflag
    · rw [hown] at howned
      cases howned
    · have hsame : update s.rq.inReadyQueue t false = s.rq.inReadyQueue := by
        rw [← hflag, update_eq_self]
      rw [hsame] at he
      exact some.inj he ▸ ⟨h.refl, .refl s t⟩
  · exact h.deferReady rfl he
  · exact h.enqueueReadyInner he

theorem Inv.movePriority {old new : ℕ} (hb : old ≠ new → s.edf.inEdfQueue t = false → bucket t new)
    (he : s.movePriority t old new = some s') : Kept le bucket s s' := by
  unfold Scheduler.movePriority at he
  split_ifs at he with hedf
  · obtain ⟨edf, hsort, hgood, hflag⟩ := h.edf.resort h.decides (rfl : s.home t = s.home t)
    rw [hsort] at he
    obtain rfl : s.withQueues s.rq edf = s' := some.inj he
    refine h.of_queues ((Quiet.refl s).withQueues _ _) h.rq hgood fun u hu => ?_
    change edf.inEdfQueue u = false ∧ _
    rw [hflag]
    exact h.of_flag hu
  · obtain ⟨rq, hrq, hs'⟩ := bind_eq_some_iff.mp he
    obtain rfl : s.withQueues rq s.edf = s' := some.inj hs'
    have hgood := h.rq.movePriority rfl hrq
    by_cases hne : old = new
    · rw [RunQueues.movePriority, if_pos hne] at hrq
      cases hrq
      exact h.of_queues ((Quiet.refl s).withQueues _ _) hgood h.edf fun _ => h.of_flag
    obtain ⟨hflag, hprio⟩ := h.rq.movePriority_fields rfl hne hrq
    have hnew := hb hne ((not_eq_true _).mp hedf)
    refine h.of_queues ((Quiet.refl s).withQueues _ _) hgood h.edf fun u hu => ?_
    change rq.inReadyQueue u = true at hu
    change s.edf.inEdfQueue u = false ∧ bucket u (rq.rqPriority u)
    rw [hflag, update_apply] at hu
    rw [hprio, update_apply]
    split_ifs at hu ⊢ with hut
    · rw [hut]
      exact ⟨(not_eq_true _).mp hedf, hnew⟩
    · exact h.of_flag hu

theorem Inv.mailboxPublish (he : s.mailboxPublish c t = some s') :
    Kept le bucket s s' ∧ Touches s s' t := by
  unfold Scheduler.mailboxPublish at he
  split_ifs at he
  cases he
  exact ⟨h.of_quiet ⟨fun _ => .refl _, rfl, rfl, rfl, rfl, rfl⟩ rfl rfl, { Touches.refl s t with }⟩

end

/-- Where the flag of the woken task is cleared without unlinking it, the task is not queued. -/
def WakeOk (here : Cpu k) (s : Scheduler n k) (t : Fin n) : Prop :=
  if s.clampedTarget t = here then s.EnqueueOk t
  else ((s.clampedTarget t : ℕ) < s.upCpus ∧ 1 < s.upCpus) ∨ s.current here = some t ∨
    s.queued t = false
  deriving Decidable

theorem Inv.setTaskReady (h : Inv le bucket s) (hok : WakeOk here s t)
    (he : s.setTaskReady here t = some s') : Kept le bucket s s' ∧ Touches s s' t := by
  have hq := Quiet.setState s t .ready
  have h₁ := h.of_quiet hq rfl rfl
  have htouch := Touches.setState s t .ready
  have hthen : Kept le bucket (s.setState t .ready) s' ∧ Touches (s.setState t .ready) s' t →
      Kept le bucket s s' ∧ Touches s s' t := fun h' => ⟨h₁.trans h'.1, htouch.trans h'.2⟩
  have htarget : (s.setState t .ready).clampedTarget t = s.clampedTarget t := hq.clampedTarget_eq t
  unfold WakeOk at hok
  unfold Scheduler.setTaskReady at he
  simp only [htarget] at he
  split_ifs at he with hlocal hup hcur
  · exact hthen (h₁.inv.mailboxPublish he)
  · rw [h.clampedTarget_eq] at he
    exact hthen (h₁.inv.deferReady (congrFun hq.home_eq t) he)
  · rw [if_neg hlocal] at hok
    have hqueued : s.queued t = false := by
      rcases hok with hup' | hcur' | hno
      · exact absurd hup' hup
      · exact absurd hcur' hcur
      · exact hno
    obtain ⟨hflag, heflag⟩ := or_eq_false_iff.mp hqueued
    obtain ⟨rq, hrq, hs'⟩ := bind_eq_some_iff.mp he
    obtain rfl : (s.setState t .ready).withQueues rq s.edf = s' := some.inj hs'
    have hsame : update s.rq.inReadyQueue t false = s.rq.inReadyQueue := by
      rw [← hflag, update_eq_self]
    have hedf := remove_of_not_queued (c := s.home t) heflag
    change { s.rq with inReadyQueue := update s.rq.inReadyQueue t false }.enqueue
      (s.clampedTarget t) t ((s.setState t .ready).eff t) = some rq at hrq
    rw [hsame, h.clampedTarget_eq, hq.eff_eq] at hrq
    exact ⟨h.joinReady _ (hq.withQueues _ _) hrq (h.eff t) rfl hedf.symm,
      .of_flags htouch.tcb (enqueue_flag hrq) (update_eq_self t _).symm⟩
  · rw [if_pos (not_not.mp hlocal)] at hok
    have hok' : (s.setState t .ready).EnqueueOk t := by
      unfold EnqueueOk
      rw [hq.owned_eq]
      exact hok
    exact hthen (h₁.inv.enqueueReady hok' he)

/-! ## The mailboxes -/

section

variable (h : Inv le bucket s)
include h

omit h in
/-- The entries that are still good name different tasks, and none of these is queued. -/
def DrainOk (s : Scheduler n k) (ms : List (MailboxEntry n)) : Prop :=
  ms.Pairwise (fun m m' => s.entryLive m → s.entryLive m' → m.task ≠ m'.task) ∧
    ∀ m ∈ ms, s.entryLive m → s.queued m.task = false
  deriving Decidable

theorem Inv.drainEntry {m : MailboxEntry n} (hun : s.entryLive m → s.queued m.task = false)
    (he : s.drainEntry here m = some s') : Kept le bucket s s' ∧ Touches s s' m.task := by
  unfold Scheduler.drainEntry at he
  split_ifs at he with hlive
  · obtain ⟨hflag, heflag⟩ := or_eq_false_iff.mp (hun hlive)
    have hsame : update s.rq.inReadyQueue m.task false = s.rq.inReadyQueue := by
      rw [← hflag, update_eq_self]
    have hesame : update s.edf.inEdfQueue m.task false = s.edf.inEdfQueue := by
      rw [← heflag, update_eq_self]
    have hq := Quiet.setState s m.task .ready
    have hreset : Kept le bucket s ((s.setState m.task .ready).withQueues
        { s.rq with inReadyQueue := update s.rq.inReadyQueue m.task false }
        { s.edf with
          inEdfQueue := update s.edf.inEdfQueue m.task false
          links := (s.edf.links.setNext m.task none).setPrev m.task none }) := by
      refine h.of_queues (hq.withQueues _ _) ?_ (h.edf.reset heflag) ?_
      · rw [hsame]
        exact h.rq
      · rw [hsame, hesame]
        exact fun _ => h.of_flag
    obtain ⟨hkept, htouch⟩ := hreset.inv.enqueueReady (.inr (update_self _ _ _)) he
    refine ⟨hreset.trans hkept, .trans ?_ htouch⟩
    exact .of_flags (fun _ hu => update_of_ne hu _ _) rfl rfl
  · cases he
    exact ⟨h.refl, .refl s m.task⟩

theorem Inv.drainEntries {ms : List (MailboxEntry n)}
    (hok : s.DrainOk ms) (he : ms.foldlM (Scheduler.drainEntry here) s = some s') :
    Kept le bucket s s' := by
  induction ms generalizing s with
  | nil => exact some.inj he ▸ h.refl
  | cons m ms ih =>
    obtain ⟨s₁, hs₁, hrest⟩ := bind_eq_some_iff.mp he
    obtain ⟨hpair, hun⟩ := hok
    obtain ⟨hkept, htouch⟩ := h.drainEntry (hun m List.mem_cons_self) hs₁
    refine hkept.trans (ih hkept.inv ?_ hrest)
    obtain ⟨hfirst, hpair⟩ := List.pairwise_cons.mp hpair
    have hun' : ∀ m' ∈ ms, s.entryLive m' → s.queued m'.task = false :=
      fun m' hm' => hun m' (List.mem_cons_of_mem _ hm')
    by_cases hlive : s.entryLive m = true
    · -- A later entry that is good now was good before, so it names another task.
      have hlater : ∀ m' ∈ ms, s₁.entryLive m' →
          s.entryLive m' = true ∧ m'.task ≠ m.task := by
        intro m' hm' hlive'
        by_cases hsame : m'.task = m.task
        · have hwas : s.entryLive m' = true := by
            unfold entryLive at hlive hlive' ⊢
            rw [hkept.quiet.tcb] at hlive'
            simp only [and_eq_true] at hlive hlive' ⊢
            exact ⟨hlive'.1, hsame ▸ hlive.2⟩
          exact absurd hsame.symm (hfirst m' hm' hlive hwas)
        · refine ⟨?_, hsame⟩
          unfold entryLive at hlive' ⊢
          rwa [htouch.tcb _ hsame] at hlive'
      refine ⟨?_, ?_⟩
      · refine hpair.imp_of_mem ?_
        intro m₁ m₂ hm₁ hm₂ hne hl₁ hl₂
        exact hne (hlater m₁ hm₁ hl₁).1 (hlater m₂ hm₂ hl₂).1
      · intro m' hm' hl
        obtain ⟨hwas, hne⟩ := hlater m' hm' hl
        rw [htouch.queued hne]
        exact hun' m' hm' hwas
    · rw [Scheduler.drainEntry, if_neg hlive] at hs₁
      cases hs₁
      exact ⟨hpair, hun'⟩

theorem Inv.mailboxDrain (hok : s.DrainOk (s.mailbox here))
    (he : s.mailboxDrain here = some s') : Kept le bucket s s' := by
  have h₁ : Kept le bucket s { s with mailbox := update s.mailbox here [] } :=
    h.of_quiet ⟨fun _ => .refl _, rfl, rfl, rfl, rfl, rfl⟩ rfl rfl
  exact h₁.trans (h₁.inv.drainEntries hok he)

end

/-! ## Affinity -/

theorem maskTarget_shiftLeft (hc : (c : ℕ) < 64) : maskTarget k (1#64 <<< (c : ℕ)) = c := by
  have hctz : ∀ i : ℕ, i < 64 → ctz (if 1#64 <<< i = 0 then 1 else 1#64 <<< i) = i := by decide +kernel
  unfold maskTarget
  simp only [hctz c hc, c.isLt, dif_pos]

structure SameKeys (s s' : Scheduler n k) : Prop where
  earlier : s'.earlier = s.earlier
  eff : s'.eff = s.eff

theorem Quiet.sameKeys (h : Quiet s s') : SameKeys s s' := ⟨h.earlier_eq, h.eff_eq⟩

theorem SameKeys.trans (h : SameKeys s s₁) (h' : SameKeys s₁ s₂) : SameKeys s s₂ :=
  ⟨h'.earlier.trans h.earlier, h'.eff.trans h.eff⟩

theorem setMask_sameKeys (mask : BitVec 64) : SameKeys s (s.setMask t mask) := by
  have htcb : ∀ u, ∃ aff, (s.setMask t mask).tcb u = { s.tcb u with cpuAffinity := aff } := by
    intro u
    by_cases hu : u = t
    · subst hu
      exact ⟨mask, update_self _ _ _⟩
    · exact ⟨(s.tcb u).cpuAffinity, update_of_ne hu _ _⟩
  constructor
  · funext u v
    obtain ⟨a, ha⟩ := htcb u
    obtain ⟨b, hb⟩ := htcb v
    unfold earlier
    rw [ha, hb]
    rfl
  · funext u
    obtain ⟨a, ha⟩ := htcb u
    unfold eff
    rw [ha]
    rfl

theorem setMask_home (mask : BitVec 64) :
    (s.setMask t mask).home = update s.home t (maskTarget k mask) :=
  comp_update (fun a => Tcb.queueTarget k a) s.tcb t _

variable (h : Inv le bucket s) {admitted : Bool}
include h

theorem Inv.setMask (hun : s.queued t = false) (mask : BitVec 64)
    (huser : (s.tcb t).isUser → maskTarget k mask = 0) :
    Inv le bucket (s.setMask t mask) := by
  obtain ⟨hflag, heflag⟩ := or_eq_false_iff.mp hun
  have hkeys := setMask_sameKeys (s := s) (t := t) mask
  have hhome := setMask_home (s := s) (t := t) mask
  have hne : ∀ {flag : Fin n → Bool} {u}, flag t = false → flag u → u ≠ t := by
    rintro flag u ht hu rfl
    cases ht.symm.trans hu
  refine ⟨⟨hkeys.earlier ▸ h.decides, hkeys.eff ▸ h.eff⟩, ?_, ?_, h.single, h.bucket, ?_⟩
  · refine h.rq.rehome fun u hu => ?_
    rw [hhome, update_of_ne (hne hflag hu)]
  · refine h.edf.rehome fun u hu => ?_
    rw [hhome, update_of_ne (hne heflag hu)]
  intro u hu
  rw [hhome]
  by_cases hut : u = t
  · subst hut
    rw [update_self]
    have hu' : (s.tcb u).isUser = true := by simpa [setMask, modify] using hu
    exact huser hu'
  · rw [update_of_ne hut]
    have hu' : (s.tcb u).isUser = true := by simpa [Scheduler.setMask, modify, hut] using hu
    exact h.userHome u hu'

omit h in
theorem affinityMask_user (hu : (s.tcb t).isUser) (mask : BitVec 64) :
    s.affinityMask t mask = 1#64 := by
  simp only [affinityMask, hu, Bool.true_and, decide_eq_true_eq]
  split_ifs with h1 h2 h3
  · rfl
  · exact not_not.mp h2
  · rfl
  · exact not_not.mp h3

theorem Inv.quiesceEnter : Kept le bucket s s.quiesceEnter :=
  h.of_quiet ((Quiet.refl s).withArmed _) rfl rfl

theorem Inv.storeMask {wasQueued : Bool}
    (hun : s.queued t = false) (huser : (s.tcb t).isUser → maskTarget k mask = 0)
    (he : s.storeMask here t mask wasQueued = some s') : Inv le bucket s' ∧ SameKeys s s' := by
  have h₁ := h.setMask hun mask huser
  have hkeys := setMask_sameKeys (s := s) (t := t) mask
  simp only [Scheduler.storeMask] at he
  split_ifs at he
  · obtain ⟨hkept, -⟩ := h₁.enqueueReady (.inr (or_eq_false_iff.mp hun).1) he
    exact ⟨hkept.inv, hkeys.trans hkept.quiet.sameKeys⟩
  · cases he
    exact ⟨h₁, hkeys⟩

theorem Inv.changeAffinity (he : s.changeAffinity here t mask admitted = some s') :
    Inv le bucket s' ∧ SameKeys s s' := by
  have huser : (s.tcb t).isUser → maskTarget k (s.affinityMask t mask) = 0 := by
    intro hu
    rw [affinityMask_user hu]
    rfl
  have hdone : some s = some s' → Inv le bucket s' ∧ SameKeys s s' := by
    intro heq
    cases heq
    exact ⟨h, (Quiet.refl s).sameKeys⟩
  simp only [Scheduler.changeAffinity] at he
  split_ifs at he with _ _ _ hqueued
  · exact hdone he
  · exact hdone he
  · exact hdone he
  · obtain ⟨s₁, hs₁, hkept, hun, -⟩ := h.dequeueReady t
    rw [hs₁, bind_some] at he
    have huser₁ := huser
    rw [← hkept.quiet.isUser_eq] at huser₁
    obtain ⟨hinv, hkeys⟩ := hkept.inv.storeMask hun.self huser₁ he
    exact ⟨hinv, hkept.quiet.sameKeys.trans hkeys⟩
  · exact h.storeMask ((not_eq_true _).mp hqueued) huser he

theorem Inv.setAffinity (he : s.setAffinity here t mask admitted = some s') :
    Inv le bucket s' ∧ SameKeys s s' := by
  obtain ⟨hinv, hkeys⟩ := h.quiesceEnter.inv.changeAffinity he
  exact ⟨hinv, h.quiesceEnter.quiet.sameKeys.trans hkeys⟩

theorem Inv.balance (he : s.balance t c = some s') : Inv le bucket s' ∧ SameKeys s s' := by
  unfold Scheduler.balance at he
  split_ifs at he with hmove
  · simp only [movable, and_eq_true, not_eq_true'] at hmove
    obtain ⟨⟨⟨⟨⟨⟨⟨hflag, -⟩, huser⟩, -⟩, -⟩, -⟩, -⟩, hbit⟩ := hmove
    -- Take the task out, change its mask, and let it join the queue of the new CPU.
    obtain ⟨rq, hrq, hd⟩ := h.rq.remove (rfl : s.home t = s.home t)
    rw [hrq, bind_eq_bind, bind_some] at he
    obtain ⟨rq', hrq', hs'⟩ := bind_eq_some_iff.mp he
    cases hs'
    have heflag := h.single t hflag
    have hedf := fun d : Cpu k => remove_of_not_queued (c := d) heflag
    obtain ⟨hout, hun⟩ := h.unqueue (s.quiesceEnter.withQueues rq s.edf)
      (h.quiesceEnter.quiet.withQueues _ _) hd rfl (hedf _).symm
    have hmask := hout.inv.setMask hun.self (1#64 <<< (c : ℕ))
      (fun hu => Bool.noConfusion (huser.symm.trans hu))
    have hkeys := hout.quiet.sameKeys.trans (setMask_sameKeys (t := t) (1#64 <<< (c : ℕ)))
    have hhome : ((s.quiesceEnter.withQueues rq s.edf).setMask t (1#64 <<< (c : ℕ))).home t = c := by
      rw [setMask_home, update_self, maskTarget_shiftLeft (BitVec.lt_of_getLsbD hbit)]
    have heff : bucket t (s.eff t) := h.eff t
    have hjoin := hmask.joinReady
      ((s.quiesceEnter.setMask t (1#64 <<< (c : ℕ))).withQueues rq' s.edf)
      ⟨fun _ => .refl _, rfl, rfl, rfl, rfl, rfl⟩ (hhome.symm ▸ hrq') heff rfl (hedf _).symm
    exact ⟨hjoin.inv, hkeys.trans hjoin.quiet.sameKeys⟩
  · cases he
    exact ⟨h.quiesceEnter.inv, h.quiesceEnter.quiet.sameKeys⟩

end Scheduler

end Nexios.Sched
