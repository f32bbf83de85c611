import Nexios.Sched.Invariant

/-!
# What the dispatch decision keeps

The loops of the decision take tasks out of the queues until they find one to run; on proper queues
they end. The decision as a whole keeps the invariant of the queues.
-/

open Function Option Bool

namespace Nexios.Sched.Scheduler

open PriorityMap Scheduler

variable {n k : ℕ} {le : Fin n → Fin n → Prop} {bucket : Fin n → ℕ → Prop}
  {s s' s₁ s₂ : Scheduler n k} {here c : Cpu k} {t u cur next : Fin n}
  {picked : Option (Fin n)} {frameOk : Bool}

/-! ## The loops -/

theorem Inv.shrinkEdf {edf : EdfLists n k} (h : Inv le bucket s) (hgood : edf.Good s.home le)
    (hshrink : ∀ u, edf.inEdfQueue u → s.edf.inEdfQueue u) :
    Kept le bucket s (s.withQueues s.rq edf) := by
  refine h.of_queues ((Quiet.refl s).withQueues _ _) h.rq hgood fun u hu => ⟨?_, h.bucket u hu⟩
  by_contra hflag
  have hu' := hshrink u ((not_eq_false _).mp hflag)
  rw [h.single u hu] at hu'
  cases hu'

theorem Inv.edfPeekValidOwn (h : Inv le bucket s) (here : Cpu k) :
    ∃ edf found, s.edfPeekValidOwn here = some (s.withQueues s.rq edf, found) ∧
      EdfLists.Peeked s.home le (s.edfValid here) here s.edf edf found ∧
      Kept le bucket s (s.withQueues s.rq edf) := by
  obtain ⟨edf, found, heq, hp⟩ := h.edf.peekValid (s.edfValid here) here
  refine ⟨edf, found, ?_, hp, h.shrinkEdf hp.good hp.shrinks⟩
  unfold Scheduler.edfPeekValidOwn
  rw [heq]
  rfl

theorem Inv.edfPreemptCandidate (h : Inv le bucket s) (here : Cpu k) :
    ∃ edf found, s.edfPreemptCandidate here =
        some (s.withQueues s.rq edf, found.filter (s.edfPreempts here)) ∧
      EdfLists.Peeked s.home le (s.edfValid here) here s.edf edf found ∧
      Kept le bucket s (s.withQueues s.rq edf) := by
  obtain ⟨edf, found, heq, hp, hkept⟩ := h.edfPeekValidOwn here
  refine ⟨edf, found, ?_, hp, hkept⟩
  unfold Scheduler.edfPreemptCandidate
  rw [heq]
  rfl

/-- A loop has taken tasks out of the ready queues of one CPU: the task it picked, and tasks that
cannot be dispatched. -/
structure Picked (here : Cpu k) (s s' : Scheduler n k) (picked : Option (Fin n)) : Prop where
  frame : s' = s.withQueues s'.rq s.edf
  good : s'.rq.Good s.home
  shrinks : ∀ u, s'.rq.inReadyQueue u → s.rq.inReadyQueue u
  prio : ∀ u, s'.rq.inReadyQueue u → s'.rq.rqPriority u = s.rq.rqPriority u
  drops : ∀ u, s.rq.inReadyQueue u → s'.rq.inReadyQueue u = false →
    picked = some u ∨ s.dispatchable here u = false
  chosen : ∀ t, picked = some t → s.rq.inReadyQueue t = true ∧ s'.rq.inReadyQueue t = false ∧
    s.dispatchable here t = true

theorem Picked.of_detached {rq : RunQueues n k} (here : Cpu k)
    (hd : RunQueues.Detached s.home s.rq rq t) (ht : s.rq.inReadyQueue t) :
    (s.dispatchable here t → Picked here s (s.withQueues rq s.edf) (some t)) ∧
      (s.dispatchable here t = false → Picked here s (s.withQueues rq s.edf) none) := by
  have hflag : ∀ u, u ≠ t → rq.inReadyQueue u = s.rq.inReadyQueue u := by
    intro u hu
    rw [hd.flag, update_of_ne hu]
  have hout : rq.inReadyQueue t = false := by rw [hd.flag, update_self]
  have hne : ∀ u, rq.inReadyQueue u → u ≠ t := by
    rintro u hu rfl
    rw [hout] at hu
    cases hu
  have hdrop : ∀ u, s.rq.inReadyQueue u → rq.inReadyQueue u = false → u = t := by
    intro u hu hu'
    by_contra hut
    rw [hflag u hut, hu] at hu'
    cases hu'
  constructor
  all_goals intro hdisp
  · refine ⟨rfl, hd.good, ?_, fun u hu => hd.prio u (hne u hu), ?_, ?_⟩
    · exact fun u hu => (hflag u (hne u hu)).symm.trans hu
    · exact fun u hu hu' => .inl (congrArg some (hdrop u hu hu').symm)
    · rintro u ⟨⟩
      exact ⟨ht, hout, hdisp⟩
  · refine ⟨rfl, hd.good, ?_, fun u hu => hd.prio u (hne u hu), ?_, nofun⟩
    · exact fun u hu => (hflag u (hne u hu)).symm.trans hu
    · exact fun u hu hu' => .inr (hdrop u hu hu' ▸ hdisp)

theorem dispatchable_congr (hq : s' = s.withQueues s'.rq s.edf) (u : Fin n) :
    s'.dispatchable here u = s.dispatchable here u := by
  rw [hq]
  rfl

theorem Picked.trans (h : Picked here s s₁ none)
    (h' : Picked here s₁ s₂ picked) : Picked here s s₂ picked := by
  have hhome : s₁.home = s.home := by rw [h.frame]; rfl
  refine ⟨?_, hhome ▸ h'.good, fun u hu => h.shrinks u (h'.shrinks u hu), ?_, ?_, ?_⟩
  · rw [h'.frame, h.frame]
    rfl
  · exact fun u hu => (h'.prio u hu).trans (h.prio u (h'.shrinks u hu))
  · intro u hu hu'
    cases hmid : s₁.rq.inReadyQueue u with
    | true =>
      rw [← dispatchable_congr h.frame]
      exact h'.drops u hmid hu'
    | false => exact .inr ((h.drops u hu hmid).resolve_left (some_ne_none u).symm)
  · intro t ht
    obtain ⟨hin, hout, hdisp⟩ := h'.chosen t ht
    rw [dispatchable_congr h.frame] at hdisp
    exact ⟨h.shrinks t hin, hout, hdisp⟩

section

variable (h : Inv le bucket s) {fuel : ℕ}
include h

theorem Picked.refl (here : Cpu k) : Picked here s s none := by
  refine ⟨rfl, h.rq, fun _ hu => hu, fun _ _ => rfl, ?_, nofun⟩
  intro u hu hu'
  rw [hu] at hu'
  cases hu'

theorem Picked.kept (hp : Picked here s s' picked) : Kept le bucket s s' := by
  have hq : Quiet s s' := hp.frame ▸ (Quiet.refl s).withQueues _ _
  have hedf : s'.edf = s.edf := by rw [hp.frame]; rfl
  refine h.of_queues hq hp.good (hedf ▸ h.edf) fun u hu => ?_
  rw [hedf, hp.prio u hu]
  exact h.of_flag (hp.shrinks u hu)

theorem Inv.pickHighest (here : Cpu k) (hfuel : s.rq.load ≤ fuel) :
    ∃ s' picked, pickHighest here fuel s = some (s', picked) ∧ Picked here s s' picked ∧
      (∀ t u, picked = some t → s.rq.inReadyQueue u → s.dispatchable here u →
        s.rq.rqPriority u ≤ s.rq.rqPriority t) ∧
      (picked = none → ∀ u, s.home u = here → s'.rq.inReadyQueue u = false) := by
  induction fuel generalizing s with
  | zero =>
    have hempty : ∀ u, s.rq.inReadyQueue u = false := by
      intro u
      by_contra hu
      have hpos := RunQueues.load_pos ((not_eq_false _).mp hu)
      omega
    have hnone : s.rq.peekHighest here = none := by
      by_contra hsome
      obtain ⟨t, ht⟩ := ne_none_iff_exists'.mp hsome
      have hflag := (h.rq.peek_some ht).1
      rw [hempty t] at hflag
      cases hflag
    refine ⟨s, none, ?_, .refl h here, nofun, fun _ u _ => hempty u⟩
    unfold pickHighest
    rw [hnone]
  | succ fuel ih =>
    unfold pickHighest
    cases hpeek : s.rq.peekHighest here with
    | none =>
      exact ⟨s, none, rfl, .refl h here, nofun, fun _ u hu => h.rq.peek_none hpeek hu⟩
    | some t =>
      obtain ⟨hflag, hhome, htop, rq, hdeq, hd⟩ := h.rq.peek_some hpeek
      obtain ⟨hyes, hno⟩ := Picked.of_detached here hd hflag
      simp only [hdeq]
      split_ifs with hdisp
      · refine ⟨_, some t, rfl, hyes hdisp, ?_, nofun⟩
        rintro t' u ⟨⟩ hu hdu
        refine htop u hu ?_
        simp only [dispatchable, and_eq_true, decide_eq_true_eq] at hdu
        exact hdu.2
      · have hp := hno ((not_eq_true _).mp hdisp)
        have hkept := hp.kept h
        have hload := hd.load_lt hflag
        obtain ⟨s', picked, heq, hp', hhigh, hnone⟩ := ih hkept.inv (show rq.load ≤ fuel by omega)
        refine ⟨s', picked, heq, hp.trans hp', ?_, ?_⟩
        · intro t' u ht' hu hdu
          have hne : ∀ v, s.dispatchable here v → v ≠ t := by
            rintro v hv rfl
            exact hdisp hv
          have hdisp' := (hp'.chosen t' ht').2.2
          have hmid : (s.withQueues rq s.edf).rq.inReadyQueue u = true := by
            change rq.inReadyQueue u = true
            rw [hd.flag, update_of_ne (hne u hdu)]
            exact hu
          have hle := hhigh t' u ht' hmid hdu
          change rq.rqPriority u ≤ rq.rqPriority t' at hle
          rwa [hd.prio u (hne u hdu), hd.prio t' (hne t' hdisp')] at hle
        · exact hnone

theorem Inv.nextTaskBelow (here : Cpu k) {top : ℕ} (htop : top ≤ priorityCeiling)
    (hfuel : s.rq.load ≤ fuel) : ∃ s' picked, nextTaskBelow here top fuel s = some (s', picked) ∧
      Picked here s s' picked := by
  induction fuel generalizing s with
  | zero =>
    refine ⟨s, none, ?_, .refl h here⟩
    unfold nextTaskBelow
    have hidle : (s.rq.bitmap here).hasReady = false := by
      by_contra hready
      obtain ⟨p, hp⟩ := hasReady_iff.mp ((not_eq_false _).mp hready)
      obtain ⟨t, ht, -⟩ := h.rq.isSet_iff.mp hp
      have hpos := RunQueues.load_pos ht
      omega
    rw [hidle]
    rfl
  | succ fuel ih =>
    unfold nextTaskBelow
    split_ifs with hready
    · exact ⟨s, none, rfl, .refl h here⟩
    cases hlevel : (s.rq.bitmap here).highestStarvableBelow top with
    | none => exact ⟨s, none, rfl, .refl h here⟩
    | some level =>
      obtain ⟨hone, -, hset⟩ := highestStarvableBelow_some htop hlevel
      obtain ⟨t, rq, hdeq, hd, hflag, -⟩ := h.rq.dequeueLevel hset hone
      obtain ⟨hyes, hno⟩ := Picked.of_detached here hd hflag
      simp only [hdeq, filter_some]
      split_ifs with hdisp
      · exact ⟨_, some t, rfl, hyes hdisp⟩
      · have hp := hno ((not_eq_true _).mp hdisp)
        have hload := hd.load_lt hflag
        obtain ⟨s', picked, heq, hp'⟩ := ih (hp.kept h).inv (show rq.load ≤ fuel by omega)
        exact ⟨s', picked, heq, hp.trans hp'⟩

end

/-! ## The decision -/

/-- The task to run next: the idle task, or a task of this CPU that has left the queues. -/
def Chosen (s : Scheduler n k) (here : Cpu k) (t : Fin n) : Prop :=
  s.idle here = some t ∨ s.rq.inReadyQueue t = false ∧ s.home t = here

theorem dispatchable_home (h : s.dispatchable here t) : s.home t = here := by
  simp only [dispatchable, and_eq_true, decide_eq_true_eq] at h
  exact h.2

theorem Picked.isChosen (hp : Picked here s s' picked)
    (ht : picked = some t) : s'.Chosen here t := by
  obtain ⟨-, hout, hdisp⟩ := hp.chosen t ht
  refine .inr ⟨hout, ?_⟩
  rw [hp.frame]
  exact dispatchable_home hdisp

theorem getHighestPriority_le (m : PriorityMap) : m.getHighestPriority ≤ priorityCeiling := by
  by_cases hset : m.isSet m.getHighestPriority = true
  · exact isSet_le hset
  have hnone : m.hasReady = false := by
    by_contra hready
    obtain ⟨p, hp⟩ := hasReady_iff.mp ((not_eq_false _).mp hready)
    exact hset (isSet_getHighestPriority hp)
  unfold hasReady at hnone
  unfold getHighestPriority
  rw [or_eq_false_iff, decide_eq_false_iff_not, decide_eq_false_iff_not] at hnone
  rw [if_neg hnone.1, if_neg hnone.2]
  exact Nat.zero_le _

section

variable (h : Inv le bucket s)
include h

theorem Inv.nextTask (here : Cpu k) :
    ∃ s' next, s.nextTask here = some (s', next) ∧ Kept le bucket s s' ∧
      (∀ t, next = some t → s'.Chosen here t) ∧
      ∀ u, s'.rq.inReadyQueue u → s.rq.inReadyQueue u := by
  unfold Scheduler.nextTask
  split_ifs
  · exact ⟨s, s.idle here, rfl, h.refl, fun t ht => .inl ht, fun _ hu => hu⟩
  obtain ⟨edf, found, heq, hpeek, hkept⟩ := h.edfPreemptCandidate here
  rw [heq]
  cases hcand : found.filter (s.edfPreempts here) with
  | some e =>
    have hfound : found = some e := (filter_eq_some_iff.mp hcand).1
    obtain ⟨hflag, hhome, -⟩ := hpeek.queued e hfound
    have hrq : s.rq.inReadyQueue e = false := by
      by_contra hin
      have hout := hkept.inv.single e ((not_eq_false _).mp hin)
      rw [show (s.withQueues s.rq edf).edf.inEdfQueue e = true from hflag] at hout
      cases hout
    have hremove := hkept.inv.shrinkEdf (hkept.inv.edf.remove (t := e) (c := here) hhome) ?_
    · refine ⟨_, some e, rfl, hkept.trans hremove, ?_, fun _ hu => hu⟩
      rintro t ⟨⟩
      exact .inr ⟨hrq, hhome⟩
    · intro u hu
      rw [EdfLists.remove_flag, update_apply] at hu
      split_ifs at hu
      exact hu
  | none =>
    obtain ⟨s', picked, hpick, hp, -, -⟩ := hkept.inv.pickHighest here
      (s.withQueues s.rq edf).rq.load_le
    have hkept' := hkept.trans (hp.kept hkept.inv)
    refine ⟨s', picked <|> s'.idle here, ?_, hkept', ?_, hp.shrinks⟩
    · simp only [bind_eq_bind, bind_some, hpick]
    intro t ht
    cases hpicked : picked with rw [hpicked] at ht
    | none => exact .inl ht
    | some t' =>
      obtain rfl : t' = t := some.inj ht
      exact hp.isChosen hpicked

theorem Inv.setStarve (level : Option ℕ) (ticks : ℕ) :
    Kept le bucket s (s.setStarve here level ticks) :=
  h.of_quiet ⟨fun _ => .refl _, rfl, rfl, rfl, rfl, rfl⟩ rfl rfl

theorem Inv.forceBelow (here : Cpu k) :
    ∃ edf s' forced, s.forceBelow here = some (s', forced) ∧
      Kept le bucket s (s.withQueues s.rq edf) ∧ Picked here (s.withQueues s.rq edf) s' forced := by
  obtain ⟨edf, found, heq, -, hkept⟩ := h.edfPreemptCandidate here
  unfold Scheduler.forceBelow
  rw [heq]
  cases hcand : found.filter (s.edfPreempts here) with
  | some e => exact ⟨edf, _, none, rfl, hkept, .refl hkept.inv here⟩
  | none =>
    have hload := (s.withQueues s.rq edf).rq.load_le
    obtain ⟨s', forced, hbelow, hp⟩ := hkept.inv.nextTaskBelow here
      (getHighestPriority_le ((s.withQueues s.rq edf).rq.bitmap here))
      (show (s.withQueues s.rq edf).rq.load ≤ n + 128 by omega)
    refine ⟨edf, s', forced, ?_, hkept, hp⟩
    simp only [bind_eq_bind, bind_some, hbelow]

theorem Inv.breaker (here : Cpu k) :
    ∃ s' forced, s.breaker here = some (s', forced) ∧ Kept le bucket s s' ∧
      (∀ t, forced = some t → s'.Chosen here t) ∧
      ∀ u, s'.rq.inReadyQueue u → s.rq.inReadyQueue u := by
  simp only [Scheduler.breaker]
  split_ifs
  · obtain ⟨edf, s₁, forced, heq, hkept, hp⟩ := h.forceBelow here
    have hkept₁ := hkept.trans (hp.kept hkept.inv)
    rw [heq]
    exact ⟨_, forced, rfl, hkept₁.trans (hkept₁.inv.setStarve none 0),
      fun t ht => hp.isChosen ht, hp.shrinks⟩
  · exact ⟨_, none, rfl, h.setStarve _ _, nofun, fun _ hu => hu⟩

theorem Inv.resumeCurrent (cur : Fin n) :
    ∃ s', s.resumeCurrent cur = some s' ∧ Kept le bucket s s' ∧ Touches s s' cur ∧
      (s.rq.inReadyQueue cur = false → s'.rq.inReadyQueue cur = false) := by
  have hset : ∀ s₁ : Scheduler n k, Inv le bucket s₁ →
      Kept le bucket s₁ (if (s₁.tcb cur).state = .ready then s₁.setState cur .running else s₁) ∧
        Touches s₁ (if (s₁.tcb cur).state = .ready then s₁.setState cur .running else s₁) cur := by
    intro s₁ h₁
    split_ifs
    · exact ⟨h₁.of_quiet (.setState s₁ cur .running) rfl rfl, .setState s₁ cur .running⟩
    · exact ⟨h₁.refl, .refl s₁ cur⟩
  unfold Scheduler.resumeCurrent
  split_ifs
  · rename_i hin
    obtain ⟨s₁, hs₁, hkept, -, htouch, -⟩ := h.dequeueReady cur
    obtain ⟨hkept', htouch'⟩ := hset s₁ hkept.inv
    rw [hs₁]
    refine ⟨_, rfl, hkept.trans hkept', htouch.trans htouch', fun hflag => ?_⟩
    rw [hin] at hflag
    cases hflag
  · obtain ⟨hkept, htouch⟩ := hset s h
    refine ⟨_, rfl, hkept, htouch, fun hflag => ?_⟩
    split_ifs <;> exact hflag

end

theorem WakeOk.congr (hok : WakeOk here s t) (hq : Quiet s s') (htouch : Touches s s' u)
    (hne : t ≠ u) : WakeOk here s' t := by
  unfold WakeOk EnqueueOk at hok ⊢
  rw [hq.clampedTarget_eq, hq.owned_eq, hq.upCpus, hq.current, htouch.rqFlag t hne,
    htouch.queued hne]
  exact hok

theorem EnqueueOk.congr (hok : s.EnqueueOk t) (hq : Quiet s s')
    (hflag : s.rq.inReadyQueue t = false → s'.rq.inReadyQueue t = false) : s'.EnqueueOk t := by
  unfold EnqueueOk at hok ⊢
  rw [hq.owned_eq]
  exact hok.imp_right hflag

section

variable (h : Inv le bucket s)
include h

theorem Inv.restorePreemptedCurrent {armed : ℕ}
    (hok : ∀ target, s.findTask armed = some target → target ≠ cur → WakeOk here s target)
    (hcur : s.EnqueueOk cur) (he : s.restorePreemptedCurrent here cur armed = some s') :
    Kept le bucket s s' ∧ s'.EnqueueOk cur := by
  obtain ⟨s₁, hs₁, hkept, htouch, hshrink⟩ := h.resumeCurrent cur
  have hcur₁ := hcur.congr hkept.quiet hshrink
  unfold Scheduler.restorePreemptedCurrent at he
  rw [hs₁, bind_eq_bind, bind_some] at he
  split_ifs at he
  · exact some.inj he ▸ ⟨hkept, hcur₁⟩
  have hfind : s₁.findTask armed = s.findTask armed := congrFun hkept.quiet.idTable armed
  rw [hfind] at he
  split at he
  · exact some.inj he ▸ ⟨hkept, hcur₁⟩
  rename_i target htarget
  split_ifs at he with hcond
  · have hok' := (hok target htarget hcond.1).congr hkept.quiet htouch hcond.1
    obtain ⟨hkept', htouch'⟩ := hkept.inv.setTaskReady hok' he
    refine ⟨hkept.trans hkept', hcur₁.congr hkept'.quiet ?_⟩
    intro hflag
    rw [htouch'.rqFlag cur hcond.1.symm]
    exact hflag
  · exact some.inj he ▸ ⟨hkept, hcur₁⟩

theorem Inv.consumeDeferral (he : s.consumeDeferral cur = some s') : Kept le bucket s s' := by
  have hkept := h.of_quiet (.setDeferred s cur false) rfl rfl
  simp only [Scheduler.consumeDeferral] at he
  split_ifs at he
  · have hkept' := hkept.trans (hkept.inv.of_quiet (.setState _ cur .ready) rfl rfl)
    exact hkept'.trans (hkept'.inv.enqueueReadyInner he).1
  · exact some.inj he ▸ hkept
  · exact some.inj he ▸ h.refl

theorem Inv.requeueCurrent (hok : s.EnqueueOk cur)
    (he : s.requeueCurrent here cur = some s') : Kept le bucket s s' := by
  unfold Scheduler.requeueCurrent at he
  split_ifs at he
  · obtain ⟨s₁, hs₁, hrest⟩ := bind_eq_some_iff.mp he
    have hready := h.of_quiet (.setState s cur .ready) rfl rfl
    have hkept := hready.trans
      (hready.inv.enqueueReady (hok.congr hready.quiet (fun hflag => hflag)) hs₁).1
    exact hkept.trans (hkept.inv.consumeDeferral hrest)
  · exact h.consumeDeferral he

omit h in
theorem isIdleTask_of_idle (h : s.idle here = some t) : s.isIdleTask t = true := by
  unfold isIdleTask
  rw [List.any_eq_true]
  exact ⟨here, List.mem_finRange here, decide_eq_true h⟩

theorem Inv.wakeOk (hflag : s.rq.inReadyQueue t = false) (hhome : s.home t = here) :
    WakeOk here s t := by
  unfold WakeOk
  rw [h.clampedTarget_eq, if_pos hhome]
  exact .inr hflag

theorem Inv.switchToTask (hcur : s.EnqueueOk cur)
    (hnext : s.Chosen here next) (he : s.switchToTask here cur next frameOk = some s') :
    Kept le bucket s s' := by
  unfold Scheduler.switchToTask at he
  split_ifs at he with hskip hframe hidle
  · exact some.inj he ▸ h.refl
  · exact some.inj he ▸ h.refl
  · -- The task goes back: it is not idle, so it has left the queues of this CPU.
    rcases hnext with hidle' | ⟨hflag, hhome⟩
    · exact absurd (isIdleTask_of_idle hidle') hidle
    · exact (h.setTaskReady (h.wakeOk hflag hhome) he).1
  · obtain ⟨s₁, hs₁, hs'⟩ := bind_eq_some_iff.mp he
    have hkept := h.requeueCurrent hcur hs₁
    have hrun := hkept.trans (hkept.inv.of_quiet (.setState s₁ next .running) rfl rfl)
    cases hs'
    exact hrun.trans (hrun.inv.of_quiet ((Quiet.refl _).withArmed _) rfl rfl)

theorem Inv.choose (here : Cpu k) :
    ∃ s' next, s.choose here = some (s', next) ∧ Kept le bucket s s' ∧
      (∀ t, next = some t → s'.Chosen here t) ∧
      ∀ u, s'.rq.inReadyQueue u → s.rq.inReadyQueue u := by
  obtain ⟨s₁, forced, hbreak, hkept, hchosen, hshrink⟩ := h.breaker here
  unfold Scheduler.choose
  rw [hbreak]
  cases forced with
  | some t => exact ⟨s₁, some t, rfl, hkept, hchosen, hshrink⟩
  | none =>
    obtain ⟨s₂, next, hnext, hkept', hchosen', hshrink'⟩ := hkept.inv.nextTask here
    exact ⟨s₂, next, hnext, hkept.trans hkept', hchosen', fun u hu => hshrink u (hshrink' u hu)⟩

theorem Inv.turnTo {next : Option (Fin n)}
    (hcur : s.EnqueueOk cur) (hchosen : ∀ t, next = some t → s.Chosen here t)
    (he : s.turnTo here cur next frameOk = some s') : Kept le bucket s s' := by
  unfold Scheduler.turnTo at he
  cases next with
  | none => exact some.inj he ▸ h.refl
  | some t =>
    simp only at he
    split_ifs at he
    · exact h.switchToTask hcur (hchosen t rfl) he
    · exact some.inj he ▸ h.refl

theorem Inv.decide (hcur : s.EnqueueOk cur)
    (he : s.decide here cur frameOk = some s') : Kept le bucket s s' := by
  obtain ⟨s₁, next, hchoose, hkept, hchosen, hshrink⟩ := h.choose here
  unfold Scheduler.decide at he
  rw [hchoose, bind_eq_bind, bind_some] at he
  obtain ⟨s₂, hturn, hs'⟩ := bind_eq_some_iff.mp he
  have hcur₁ : s₁.EnqueueOk cur := by
    refine hcur.congr hkept.quiet ?_
    intro hflag
    by_contra hin
    rw [hshrink cur ((not_eq_false _).mp hin)] at hflag
    cases hflag
  have hkept₂ := hkept.trans (hkept.inv.turnTo hcur₁ hchosen hturn)
  cases hs'
  exact hkept₂.trans (hkept₂.inv.of_quiet ⟨fun _ => .refl _, rfl, rfl, rfl, rfl, rfl⟩ rfl rfl)

end

/-- The target of a pending switch may be put back into the queues. -/
def ArmOk (here : Cpu k) (s : Scheduler n k) : Prop :=
  ∀ target, (s.armed here).bind s.findTask = some target →
    s.current here = some target ∨ WakeOk here s target
  deriving Decidable

/-- The condition on a tick: so may the current task. -/
def ScheduleOk (here : Cpu k) (s : Scheduler n k) : Prop :=
  ArmOk here s ∧ ∀ cur, s.current here = some cur → s.EnqueueOk cur
  deriving Decidable

variable (h : Inv le bucket s) {park : Bool}
include h

theorem Inv.parkCurrent (cur : Fin n) (park : Bool) :
    ∃ s', s.parkCurrent cur park = some s' ∧ Kept le bucket s s' ∧ Touches s s' cur ∧
      (s.rq.inReadyQueue cur = false → s'.rq.inReadyQueue cur = false) ∧
      ∀ c, s'.armed c = none ∨ s'.armed c = s.armed c := by
  unfold Scheduler.parkCurrent
  split_ifs
  · have hset := h.of_quiet (.setState s cur .blocked) rfl rfl
    obtain ⟨s₁, hs₁, hkept, hun, htouch, harmed⟩ := hset.inv.dequeueReady cur
    refine ⟨s₁, hs₁, hset.trans hkept, (Touches.setState s cur .blocked).trans htouch, ?_, harmed⟩
    intro _
    rw [hun.rqFlag, update_self]
  · exact ⟨s, rfl, h.refl, .refl s cur, fun hflag => hflag, fun _ => .inr rfl⟩

theorem Inv.clearArm (hcur : s.EnqueueOk cur)
    (hok : ∀ target, (s.armed here).bind s.findTask = some target → target ≠ cur →
      WakeOk here s target)
    (he : s.clearArm here cur = some s') : Kept le bucket s s' ∧ s'.EnqueueOk cur := by
  unfold Scheduler.clearArm at he
  split at he
  · exact some.inj he ▸ ⟨h.refl, hcur⟩
  rename_i id harmed
  rw [harmed] at hok
  have hclear : Kept le bucket s { s with armed := update s.armed here none } :=
    h.of_quiet ((Quiet.refl s).withArmed _) rfl rfl
  obtain ⟨hkept, hcur'⟩ := hclear.inv.restorePreemptedCurrent hok hcur he
  exact ⟨hclear.trans hkept, hcur'⟩

theorem Inv.settle (hcur : s.current here = some cur) (hok : ScheduleOk here s)
    (he : s.settle here cur park = some s') : Kept le bucket s s' ∧ s'.EnqueueOk cur := by
  obtain ⟨s₁, hs₁, hkept, htouch, hshrink, harmed⟩ := h.parkCurrent cur park
  have hcur₁ : s₁.EnqueueOk cur := (hok.2 cur hcur).congr hkept.quiet hshrink
  unfold Scheduler.settle at he
  rw [hs₁] at he
  -- A pending switch that is still there is the one of the state before the tick.
  have hok₁ : ∀ target, (s₁.armed here).bind s₁.findTask = some target → target ≠ cur →
      WakeOk here s₁ target := by
    intro target htarget hne
    have hfind : s₁.findTask = s.findTask := hkept.quiet.idTable
    rcases harmed here with hnone | hsame
    · rw [hnone] at htarget
      cases htarget
    · rw [hsame, hfind] at htarget
      rcases hok.1 target htarget with hcur' | hwake
      · exact absurd (some.inj (hcur'.symm.trans hcur)) hne
      · exact hwake.congr hkept.quiet htouch hne
  obtain ⟨hkept', hcur'⟩ := hkept.inv.clearArm hcur₁ hok₁ he
  exact ⟨hkept.trans hkept', hcur'⟩

theorem Inv.rateMonotonicSchedule {frameOk : Bool} (hok : ScheduleOk here s)
    (he : s.rateMonotonicSchedule here park frameOk = some s') : Kept le bucket s s' := by
  unfold Scheduler.rateMonotonicSchedule at he
  split_ifs at he
  · exact some.inj he ▸ h.refl
  split at he
  · exact some.inj he ▸ h.refl
  · next cur hcur =>
    obtain ⟨s₁, hs₁, hs'⟩ := bind_eq_some_iff.mp he
    obtain ⟨hkept, hcur₁⟩ := h.settle hcur hok hs₁
    exact hkept.trans (hkept.inv.decide hcur₁ hs')

theorem Inv.reschedule (he : s.reschedule here = some s') : Kept le bucket s s' := by
  have harm : ∀ s₁ : Scheduler n k, Kept le bucket s s₁ →
      Kept le bucket s { s₁ with needResched := update s₁.needResched here true } := by
    intro s₁ h₁
    exact h₁.trans (h₁.inv.of_quiet ⟨fun _ => .refl _, rfl, rfl, rfl, rfl, rfl⟩ rfl rfl)
  obtain ⟨edf, found, heq, -, hkept⟩ := h.edfPreemptCandidate here
  unfold Scheduler.reschedule at he
  split_ifs at he
  · exact some.inj he ▸ h.refl
  split at he
  · exact some.inj he ▸ h.refl
  rw [heq] at he
  simp only [bind_eq_bind, bind_some] at he
  split at he
  · exact some.inj he ▸ harm _ hkept
  · exact some.inj he ▸ hkept
  · split_ifs at he
    · exact some.inj he ▸ hkept
    · exact some.inj he ▸ harm _ hkept

theorem Inv.congr (htcb : s'.tcb = s.tcb) (hrq : s'.rq = s.rq)
    (hedf : s'.edf = s.edf) : Inv le bucket s' ∧ SameKeys s s' := by
  have hhome : s'.home = s.home := by unfold home; rw [htcb]
  have hearlier : s'.earlier = s.earlier := by unfold earlier; rw [htcb]
  have heff : s'.eff = s.eff := by unfold eff; rw [htcb]
  refine ⟨⟨⟨hearlier ▸ h.decides, heff ▸ h.eff⟩, ?_, ?_, ?_, ?_, ?_⟩, hearlier, heff⟩
  · rw [hrq, hhome]
    exact h.rq
  · rw [hedf, hhome]
    exact h.edf
  · rw [hrq, hedf]
    exact h.single
  · rw [hrq]
    exact h.bucket
  · rw [htcb, hhome]
    exact h.userHome

theorem Inv.applySwitch (here : Cpu k) :
    Inv le bucket (s.applySwitch here) ∧ SameKeys s (s.applySwitch here) := by
  unfold Scheduler.applySwitch
  cases s.armed here with
  | none => exact h.congr rfl rfl rfl
  | some id =>
    simp only [findTask]
    cases s.idTable id with
    | none => exact h.congr rfl rfl rfl
    | some t => exact h.congr rfl rfl rfl

theorem Inv.wakeTarget {id : ℕ}
    (hok : ∀ target, s.findTask id = some target → s.current here ≠ some target →
      WakeOk here s target) (he : s.wakeTarget here id = some s') : Kept le bucket s s' := by
  unfold Scheduler.wakeTarget at he
  split at he
  · exact some.inj he ▸ h.refl
  · next target htarget =>
    split_ifs at he with hcond
    · exact (h.setTaskReady (hok target htarget hcond.2.1) he).1
    · exact some.inj he ▸ h.refl

theorem Inv.dropArm (hok : ArmOk here s) (he : s.dropArm here = some s') : Kept le bucket s s' := by
  unfold Scheduler.dropArm at he
  unfold ArmOk at hok
  split at he
  · exact some.inj he ▸ h.refl
  rename_i id harmed
  rw [harmed] at hok
  simp only at he
  split_ifs at he
  · exact some.inj he ▸ h.refl
  have hclear : Kept le bucket s { s with armed := update s.armed here none } :=
    h.of_quiet ((Quiet.refl s).withArmed _) rfl rfl
  have hwake : ∀ target, s.findTask id = some target → s.current here ≠ some target →
      WakeOk here s target := fun target htarget hne => (hok target htarget).resolve_left hne
  split at he
  · exact hclear.trans (hclear.inv.wakeTarget hwake he)
  rename_i cur hcur
  obtain ⟨s₁, hs₁, hkept, htouch, -⟩ := hclear.inv.resumeCurrent cur
  simp only [hs₁] at he
  refine (hclear.trans hkept).trans (hkept.inv.wakeTarget ?_ he)
  intro target htarget hne
  rw [(hclear.trans hkept).quiet.current] at hne
  have hfind : s₁.findTask id = s.findTask id :=
    congrFun (hclear.trans hkept).quiet.idTable id
  rw [hfind] at htarget
  have htouch' : Touches s s₁ cur := { htouch with }
  refine .congr (hwake target htarget hne) (hclear.trans hkept).quiet htouch' ?_
  rintro rfl
  exact hne hcur

end Nexios.Sched.Scheduler
