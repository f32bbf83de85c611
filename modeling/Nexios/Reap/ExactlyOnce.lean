import Nexios.Reap.Teardown

/-!
# Every control block is freed at most once

A terminate, `sys_waitpid` and `reap_orphans` find a task without knowing who else works on it: the
teardown claim comes after the tables have been changed, `flush_zombies` does not ask for it, and
only the functions that take zombies off the list look at the current tasks of all CPUs. If a
terminate and a collector take only tasks that are in the tables and in nobody's hands, and a
collector none that is current on a CPU (`Orderly`), every task is in one place at a time, is
cleaned up and freed at most once, and is out of the zombie list, the tables, the ready queues and
the CPUs when it is freed.
-/

open Function Option List

namespace Nexios.Reap

open Job Tcb

variable {n k m : ℕ}

namespace State

variable {s s' : State n k m} {l l' : List (Fin n)} {t : Fin n} {c : Fin (m + 1)}
  {p : Fin (k + 1)} {f : Tcb n → Tcb n} {kind : Kind} {todo : List (Fin n)} {w : Sweep}
  {choice : Bool} {a : Action n k m} {as : List (Action n k m)}

/-- Who takes a task finds it available, and a collector finds it off the CPUs. -/
def Orderly (s : State n k m) : Action n k m → Prop
  | .terminate _ p t => ¬ s.refuses p t → s.Available t
  | .select t => s.reaps t → s.Available t ∧ ¬ s.Current t
  | .advance c _ => ∀ t, s.claims c = some t → s.Available t ∧ ¬ s.Current t
  | _ => True

instance (s : State n k m) (a : Action n k m) : Decidable (s.Orderly a) := by
  unfold Orderly
  cases a <;> infer_instance

namespace TaskOk

theorem intact_of_alive (h : s.TaskOk l t) (hd : ¬ (s.tcb t).Dead)
    (hdone : ¬ (s.tcb t).Done (s.Current t)) : (s.tcb t).Intact :=
  (h.rest (h.not_owned hd)).resolve_right hdone

end TaskOk

namespace Inv

theorem alive (h : s.Inv l) (hd : ¬ (s.tcb t).Dead) (hdone : ¬ (s.tcb t).Done (s.Current t))
    (hf : (s.tcb t).Intact → (f (s.tcb t)).Intact)
    (hq : (f (s.tcb t)).queued → (f (s.tcb t)).state = .ready) : (s.modify t f).Inv l := by
  have hi := hf ((h.task t).intact_of_alive hd hdone)
  have hself := modify_self s t f
  refine h.modify ((h.task t).write ((h.task t).not_owned hd) (fun _ => rfl) ?_ ?_
    ((h.task t).not_mem hd) (.inl (hself.symm ▸ hi)))
  · rw [hself]
    exact fun _ => ⟨.inl hi.magic, fun hdead => absurd hdead hd⟩
  · exact hself.symm ▸ hq

theorem current (h : s.Inv l) (hrun : (s.tcb (s.current p)).state = .running)
    (hf : (s.tcb (s.current p)).Intact → (f (s.tcb (s.current p))).Intact)
    (hq : (f (s.tcb (s.current p))).queued → (f (s.tcb (s.current p))).state = .ready) :
    (s.modify (s.current p) f).Inv l :=
  h.alive (fun hd => hd.not_running hrun) (fun hdone => hdone.notCurrent ⟨p, rfl⟩) hf hq

theorem setCurrent (h : s.Inv l) (hd : ¬ (s.tcb t).Dead) (hi : (s.tcb t).Intact) :
    State.Inv { s with current := update s.current p t } l where
  holds := h.holds
  task u := by
    by_cases hu : u = t
    · subst hu
      exact (h.task u).write ((h.task u).not_owned hd) (fun _ => rfl) (.refl _) (h.task u).queued
        ((h.task u).not_mem hd) (.inl hi)
    · refine (h.task u).frame rfl (fun ⟨q, hq⟩ => ?_) id fun _ => .inl rfl
      have hqp : q ≠ p := by
        rintro rfl
        exact hu ((update_self ..).symm.trans hq).symm
      exact ⟨q, (update_of_ne hqp ..).symm.trans hq⟩
  wf := h.wf

theorem not_done_of_queued (hq : (s.tcb t).queued) : ¬ (s.tcb t).Done (s.Current t) :=
  fun hdone => Bool.false_ne_true (hdone.queued.symm.trans hq)

theorem leave (h : s.Inv l) (p : Fin (k + 1)) : (s.leave p).Inv l := by
  unfold State.leave
  split_ifs with hrun
  · exact h.current hrun (fun hi => { hi with }) fun _ => rfl
  · exact h

theorem leave_tcb (hready : (s.tcb t).state = .ready) (p : Fin (k + 1)) :
    (s.leave p).tcb t = s.tcb t := by
  unfold State.leave
  split_ifs with hrun
  · refine modify_ne s _ fun heq => ?_
    rw [← heq, hready] at hrun
    exact absurd hrun (by decide)
  · rfl

theorem dispatch (h : s.Inv l) (hq : (s.tcb t).queued) (hready : (s.tcb t).state = .ready) :
    (s.dispatch p t).Inv l := by
  have hl := h.leave p
  have htcb := leave_tcb hready p
  rw [← htcb] at hq hready
  have hd : ¬ ((s.leave p).tcb t).Dead := fun hd => hd.not_ready hready
  have hdone := not_done_of_queued hq
  have hi := (hl.task t).intact_of_alive hd hdone
  let f : Tcb n → Tcb n := fun x => { x with state := .running, queued := false }
  have hf : (f ((s.leave p).tcb t)).Intact := { hi with }
  have hm : ((s.leave p).modify t f).Inv l := hl.alive hd hdone (fun _ => hf) nofun
  refine hm.setCurrent ?_ ?_
  all_goals rw [modify_self]
  · exact fun hd => hd.not_running rfl
  · exact hf

theorem create (h : s.Inv l) (hm : (s.tcb t).magic = false) (hfrees : (s.tcb t).frees = 0)
    (parent : Option (Fin n)) (isThread : Bool) :
    (s.modify t fun _ => .created parent isThread).Inv l := by
  have hself := modify_self s t fun _ => .created parent isThread
  have hunused : ¬ (s.tcb t).Used := by
    rintro (hmagic | hpos)
    · exact Bool.false_ne_true (hm.symm.trans hmagic)
    · exact hpos.ne' hfrees
  have hno : ∀ c, ¬ (s.role c t).Owns := fun c ho =>
    hunused (.inl ((h.task t).fits c |>.of_owns ho).1)
  refine h.modify ((h.task t).write hno (fun _ => rfl) (fun hu => absurd hu hunused) ?_ ?_ (.inl ?_))
  · rw [hself]
    exact fun _ => rfl
  · exact fun ht => hunused (.inl ((h.task t).zombie ht).1.magic)
  · rw [hself]
    exact ⟨rfl, rfl, rfl, rfl, rfl⟩

theorem adopt_block (s : State n k m) (t u : Fin n) :
    ((s.adopt t).tcb u).toBlock = (s.tcb u).toBlock := by
  simp only [State.adopt]
  split_ifs <;> rfl

theorem adopt (h : s.Inv l) (t : Fin n) : (s.adopt t).Inv l :=
  h.congr (adopt_block s t) rfl rfl rfl

theorem same (h : s.Inv l) (hf : (f (s.tcb t)).toBlock = (s.tcb t).toBlock) :
    (s.modify t f).Inv l :=
  h.congr (update_field toBlock hf) rfl rfl rfl

theorem idle_others (hj : s.job c = .idle) {j : Job n} (u : Fin n) (hrole : j.role u = .out) :
    ((s.job c).role u).Follows (j.role u) := by
  rw [hj, hrole]
  exact .inl rfl

theorem terminate (h : s.Inv l) (hj : s.job c = .idle) (ha : s.Available t) :
    (s.terminate c t).Inv l := by
  obtain ⟨hi, hnot⟩ := (h.task t).intact ha
  have hrole : (unlisting t).role t = .unlisting := if_pos rfl
  refine h.act (j := .unlisting t) (f := fun x => { x.dequeue with state := .terminated })
    (fun c' _ => ha.unowned c') trivial h.holds
    (fun u hu => ⟨id, idle_others hj u (if_neg hu)⟩) (fun _ => ⟨.inl hi.magic, fun _ => .inl rfl⟩)
    nofun (fun ht => absurd ht hnot) ?_ ?_
  · rw [hrole]
    exact ⟨{ hi with }, .inl rfl, rfl⟩
  · rw [hrole]
    exact absurd trivial

theorem reorder (h : s.Inv l) {z : Fifo (Fin n)} (hz : z.Holds l') (hl : ∀ u ∈ l', u ∈ l) :
    State.Inv { s with zombies := z } l' where
  holds := hz
  task u := (h.task u).frame rfl id (hl u) fun _ => .inl rfl
  wf := h.wf

theorem rotate {l : List (Fin n)} (h : s.Inv (t :: l)) :
    State.Inv { s with zombies := s.zombies.rotate t } (l ++ [t]) := by
  refine h.reorder h.holds.rotate fun u hu => ?_
  exact (mem_append.mp hu).elim (mem_cons_of_mem _) fun hu =>
    mem_singleton.mp hu ▸ mem_cons_self

theorem pop {l : List (Fin n)} (h : s.Inv (t :: l)) (hj : s.job c = .idle) (hcur : ¬ s.Current t)
    (hkind : .joinClaim ∉ kind.program) :
    State.Inv (({ s with zombies := s.zombies.pop t }.modify t dequeue).setJob c
      (.hand kind t kind.program [])) l := by
  obtain ⟨hended, hun, hno⟩ := (h.task t).zombie mem_cons_self
  have hnot : t ∉ l := (nodup_cons.mp h.holds.nodup).1
  have hrole : (hand kind t kind.program []).role t = .hand kind.program :=
    role_hand_self hkind
  have hothers : ∀ u, u ≠ t → (hand kind t kind.program []).role u = .out := fun u hu =>
    (role_hand_ne hu).trans (if_neg not_mem_nil)
  have hended' : (dequeue (s.tcb t)).Ended :=
    ⟨⟨hended.1.1, hended.1.2, hended.1.3, hended.1.4, hended.1.5⟩, hended.dead, rfl⟩
  refine h.act (f := dequeue) (fun c' _ => hno c') ⟨suffix_rfl, nodup_singleton t⟩ h.holds.pop
    (fun u hu => ⟨mem_cons_of_mem _, idle_others hj u (hothers u hu)⟩)
    (fun hu => ⟨hu, id⟩) nofun (fun ht => absurd ht hnot) ?_ ?_
  · rw [hrole]
    exact ⟨hended'.inHand fun _ _ => hun, hcur⟩
  · rw [hrole]
    exact absurd trivial

variable (h : s.Inv l)
include h

theorem sweep (hj : s.job c = .idle) : ∃ l', (s.sweep c w).Inv l' := by
  unfold State.sweep
  cases hhead : s.zombies.head with
  | none => exact ⟨l, h⟩
  | some t =>
    obtain ⟨l, rfl⟩ := h.holds.eq_cons hhead
    have hmagic : ¬ (!(s.tcb t).magic) = true := by
      simp [((h.task t).zombie mem_cons_self).1.magic]
    dsimp only
    rw [if_neg hmagic]
    by_cases hspare : s.Current t ∨ s.pinned t = true
    · rw [if_pos hspare]
      cases w with
      | flush => exact ⟨_, h.rotate⟩
      | cleanupStep => exact ⟨_, h⟩
      | drain =>
        split_ifs
        · exact ⟨_, h⟩
        · exact ⟨_, h.rotate⟩
    · rw [if_neg hspare]
      refine ⟨l, h.pop hj (fun hc => hspare (.inl hc)) ?_⟩
      cases w <;> decide

theorem select (hj : s.job 0 = .collecting todo) (ht : t ∉ todo)
    (hok : s.reaps t → s.Available t ∧ ¬ s.Current t) : (s.select t todo).Inv l := by
  unfold State.select
  split_ifs with hreaps hended
  · obtain ⟨ha, hcur⟩ := hok hreaps
    have hnodup : todo.Nodup := by
      have hwf := h.wf 0
      rwa [hj] at hwf
    have hblock := adopt_block s t t
    have hrole : (collecting (todo ++ [t])).role t = .todo :=
      if_pos (mem_append_right _ (mem_singleton_self t))
    have hend := (h.task t).ended ha (.inl hreaps.1.2.1)
    refine (h.adopt t).act (f := takeJoin) (fun c' _ => ha.unowned c')
      (nodup_append.mpr ⟨hnodup, nodup_singleton t, ?_⟩) h.holds (fun u hu => ⟨id, ?_⟩)
      (.refl _) ((h.adopt t).task t).queued ?_ ?_ ?_
    · exact fun a ha b hb hab => ht (mem_singleton.mp hb ▸ hab ▸ ha)
    · change ((s.job 0).role u).Follows _
      rw [hj]
      left
      simp only [Job.role, mem_append, mem_singleton, hu, or_false]
    · exact fun hl => absurd hl ((h.task t).intact ha).2
    · rw [hrole]
      change ((s.adopt t).tcb t).toBlock.Ended ∧ ¬ s.Current t
      rw [hblock]
      exact ⟨hend, hcur⟩
    · rw [hrole]
      exact absurd trivial
  · exact h.adopt t
  · exact h

theorem meet (hj : s.job c = .idle) (hlisted : ¬ (s.tcb t).Unlisted)
    (hjoin : .joinClaim ∈ kind.program) (hlook : .look ∈ kind.program) :
    (s.setJob c (.hand kind t kind.program [])).Inv l := by
  have hrole : (hand kind t kind.program []).role t = .pending kind.program :=
    role_pending_self hjoin
  refine h.known (t := t) ⟨suffix_rfl, nodup_singleton t⟩ (fun u hu => ?_) ?_ ?_ ?_
  · exact idle_others hj u ((role_hand_ne hu).trans (if_neg not_mem_nil))
  · unfold State.role
    rw [hj]
    exact id
  · rw [hrole]
    exact id
  · rw [hrole]
    exact ⟨.inl ((h.task t).magic_of_listed hlisted), absurd hlook⟩

theorem unlisting (hj : s.job c = .unlisting t) :
    ((s.modify t unlist).setJob c (.pushing t)).Inv l := by
  have hrole : s.role c t = .unlisting := by
    unfold State.role
    rw [hj]
    exact if_pos rfl
  have hrole' : (pushing t).role t = .pushing := if_pos rfl
  have hended := (h.task t).fits c
  rw [hrole] at hended
  obtain ⟨hnot, halone⟩ := (h.task t).alone (c := c) (hrole ▸ trivial)
  have hended' : (unlist (s.tcb t)).Ended :=
    ⟨⟨hended.1.1, hended.1.2, hended.1.3, hended.1.4, hended.1.5⟩, hended.dead, hended.queued⟩
  refine h.act halone trivial h.holds (fun u hu => ⟨id, ?_⟩) (fun hu => ⟨hu, id⟩) (h.task t).queued
    (fun ht => absurd ht hnot) ?_ ?_
  · rw [hj]
    exact .inl ((if_neg hu).trans (if_neg hu).symm)
  · rw [hrole']
    exact ⟨hended', rfl, rfl⟩
  · rw [hrole']
    exact absurd trivial

theorem pushing (hj : s.job c = .pushing t) :
    State.Inv ({ s with zombies := s.zombies.push t }.setJob c .idle) (l ++ [t]) := by
  have hrole : s.role c t = .pushing := by
    unfold State.role
    rw [hj]
    exact if_pos rfl
  have hfits := (h.task t).fits c
  rw [hrole] at hfits
  obtain ⟨hnot, halone⟩ := (h.task t).alone (c := c) (hrole ▸ trivial)
  have hact := h.act (f := fun x => x) (j := .idle) halone trivial
    (h.holds.push hnot) (fun u hu => ⟨fun hl => ?_, ?_⟩) (.refl _) (h.task t).queued
    (fun _ => ⟨hfits.1, hfits.2, id⟩) trivial fun _ => .inl hfits.1.toIntact
  · rwa [modify_id] at hact
  · exact (mem_append.mp hl).resolve_right fun hm => hu (mem_singleton.mp hm)
  · rw [hj]
    exact .inl (if_neg hu).symm

theorem advance (hok : ∀ t, s.claims c = some t → s.Available t ∧ ¬ s.Current t)
    (hs : s.advance c choice = some s') : ∃ l', s'.Inv l' := by
  unfold State.advance at hs
  split at hs
  · cases hs
  · cases hs
  · cases hs
  · rename_i t hj
    cases hs
    exact ⟨l, h.unlisting hj⟩
  · rename_i t hj
    cases hs
    exact ⟨l ++ [t], h.pushing hj⟩
  · rename_i hj
    exact ⟨l, h.perform hj hok hs⟩

theorem step (hok : s.Orderly a) (hs : step s a = some s') : ∃ l', s'.Inv l' := by
  cases a with try obtain ⟨hguard, rfl⟩ := ite_some_none_eq_some.mp hs
  | create t parent isThread => exact ⟨l, h.create hguard.1 hguard.2 parent isThread⟩
  | dispatch p t => exact ⟨l, h.dispatch hguard.1 hguard.2⟩
  | block p =>
    refine ⟨l, h.current hguard (fun hi => { hi with }) fun hq => ?_⟩
    exact absurd ((h.task _).queued hq) (hguard ▸ by decide)
  | wake t =>
    have hd : ¬ (s.tcb t).Dead := fun hd => hd.not_blocked hguard.2
    exact ⟨l, h.alive hd (fun hdone => hd (hdone.dead hguard.1))
      (fun hi => { hi with }) fun _ => rfl⟩
  | joiner t present | orphan t => exact ⟨l, h.same rfl⟩
  | exit p =>
    refine ⟨l, h.current hguard.1 (fun hi => { hi with }) fun hq => ?_⟩
    exact absurd ((h.task _).queued hq) (hguard.1 ▸ by decide)
  | rehome t => exact ⟨l, h.adopt t⟩
  | terminate c p t =>
    simp only [Reap.step] at hs
    split_ifs at hs with hguard hrefuses hlocked
    · exact ⟨l, some.inj hs ▸ h⟩
    · cases hs
      exact ⟨l, h.terminate hguard.1 (hok hrefuses)⟩
  | sweep c w => exact h.sweep hguard
  | reapOrphans =>
    have hrole : ∀ u : Fin n, (collecting []).role u = .out := fun _ => rfl
    exact ⟨l, h.setJob nodup_nil fun u => idle_others hguard u (hrole u)⟩
  | select t =>
    simp only [Reap.step] at hs
    split at hs
    · rename_i todo hj
      split_ifs at hs with hguard
      cases hs
      exact ⟨l, h.select hj hguard.2.1 hok⟩
    · cases hs
  | destroy =>
    simp only [Reap.step] at hs
    split at hs
    · rename_i todo hj
      cases hs
      have hwf := h.wf 0
      rw [hj] at hwf
      refine ⟨l, h.setJob (wf_next hwf) fun u => ?_⟩
      rw [hj]
      exact role_next todo u
    · cases hs
  | waitpid c p t =>
    have hlisted : ¬ (s.tcb t).Unlisted := fun hun =>
      Bool.false_ne_true (hun.2.symm.trans hguard.2.1)
    exact ⟨l, h.meet hguard.1 hlisted (by decide) (by decide)⟩
  | join c t =>
    have hlisted : ¬ (s.tcb t).Unlisted := fun hun =>
      Bool.false_ne_true (hun.1.symm.trans hguard.2.1)
    exact ⟨l, h.meet hguard.1 hlisted (by decide) (by decide)⟩
  | advance c choice => exact h.advance hok hs

end Inv

structure Start (s : State n k m) : Prop where
  zombies : s.zombies.head = none ∧ s.zombies.tail = none
  idle : ∀ c, s.job c = .idle
  queued : ∀ t, (s.tcb t).queued → (s.tcb t).state = .ready
  task : ∀ t, (s.tcb t).Intact ∨
    (s.tcb t).magic = false ∧ (s.tcb t).cleanups = 0 ∧ (s.tcb t).frees = 0 ∧ (s.tcb t).Unlisted ∧
      (s.tcb t).queued = false ∧ ¬ s.Current t

theorem Start.inv (h : s.Start) : s.Inv [] := by
  have hrole : ∀ c t, s.role c t = .out := fun c t => by
    unfold role
    rw [h.idle c]
    rfl
  refine ⟨Fifo.holds_nil h.zombies.1 h.zombies.2, fun t => ⟨h.queued t, ?_, nofun, ?_, ?_⟩, ?_⟩
  · intro c c' ho
    rw [hrole c t] at ho
    exact ho.elim
  · intro c
    rw [hrole c t]
    trivial
  · intro _
    refine (h.task t).imp_right fun ⟨hm, hc, hf, hun, hq, hcur⟩ => ?_
    exact ⟨hc.trans_le (Nat.zero_le _), hf.trans_le (Nat.zero_le _), hun, hq, hcur,
      fun hmagic => nomatch hm.symm.trans hmagic⟩
  · intro c
    rw [h.idle c]
    trivial

/-- `t` has been torn down and freed at most once, off the CPUs, and cannot be reached once it has
been freed. -/
structure ReclaimedOnce (s : State n k m) (t : Fin n) : Prop where
  cleanups : (s.tcb t).cleanups ≤ 1
  frees : (s.tcb t).frees ≤ 1
  cleaned : 0 < (s.tcb t).cleanups → ∀ p, s.current p ≠ t
  freed : 0 < (s.tcb t).frees → ¬ s.zombies.Reaches t ∧ (s.tcb t).inTable = false ∧
    (s.tcb t).inRegistry = false ∧ (s.tcb t).queued = false ∧ ∀ p, s.current p ≠ t

theorem Inv.reclaimed (h : s.Inv l) (t : Fin n) : s.ReclaimedOnce t := by
  have ht := h.task t
  by_cases ho : ∃ c, (s.role c t).Owns
  · obtain ⟨c, ho⟩ := ho
    obtain ⟨-, hfrees, hcleanups, -, -, hcur⟩ := (ht.fits c).of_owns ho
    exact ⟨hcleanups, hfrees.trans_le (Nat.zero_le _), fun hpos p hp => hcur hpos ⟨p, hp⟩,
      fun hpos => absurd hfrees hpos.ne'⟩
  · rcases ht.rest (not_exists.mp ho) with hi | hd
    · exact ⟨hi.cleanups.trans_le (Nat.zero_le _), hi.frees.trans_le (Nat.zero_le _),
        fun hpos => absurd hi.cleanups hpos.ne', fun hpos => absurd hi.frees hpos.ne'⟩
    · have hcur : ∀ p, s.current p ≠ t := fun p hp => hd.notCurrent ⟨p, hp⟩
      refine ⟨hd.cleanups, hd.frees, fun _ => hcur, fun hpos => ?_⟩
      refine ⟨fun hr => ?_, hd.unlisted.1, hd.unlisted.2, hd.queued, hcur⟩
      exact hpos.ne' (ht.zombie (h.holds.mem_of_reaches hr)).1.frees

/-- In an orderly run every task is reclaimed at most once, and out of reach when it is freed. -/
theorem reclaimed_once (hstart : s.Start) (hrun : Run step Orderly s as s') (t : Fin n) :
    s'.ReclaimedOnce t := by
  have hinv : ∃ l, s'.Inv l := hrun.invariant (I := fun s => ∃ l, s.Inv l)
    (fun _ _ _ ⟨_, h⟩ hok hs => h.step hok hs) ⟨[], hstart.inv⟩
  obtain ⟨l, h⟩ := hinv
  exact h.reclaimed t

end State

/-- The idle task 0, tasks 1 and 2 running on two CPUs, a child 3 of task 1 and an orphan 4. -/
def boot : State 5 1 2 where
  tcb t :=
    let fresh := Tcb.created (if t = 3 then some 1 else none) false
    if t = 1 ∨ t = 2 then { fresh with state := .running, queued := false } else fresh
  current p := if p = 0 then 1 else 2
  zombies := ⟨fun _ => none, none, none⟩
  job _ := .idle
  idle := 0
  pinned _ := false

theorem boot_start : boot.Start where
  zombies := ⟨rfl, rfl⟩
  idle _ := rfl
  queued := by decide
  task t := by
    left
    constructor <;> revert t <;> decide

/-- `i` stages of the job of `c`, with nothing going wrong. -/
def advances (c : Fin (m + 1)) (i : ℕ) : List (Action n k m) := List.replicate i (.advance c true)

/-- A terminate with its `release_zombie`. -/
def terminates (c : Fin (m + 1)) (p : Fin (k + 1)) (t : Fin n) : List (Action n k m) :=
  .terminate c p t :: advances c 2

namespace State

/-- The child is terminated and flushed; the orphan exits, leaves its CPU and is reaped. -/
theorem reclaimed_once_both : ∃ as s', Run step Orderly boot as s' ∧
    ((s'.tcb 3).frees = 1 ∧ (s'.tcb 4).frees = 1) ∧ s'.ReclaimedOnce 3 ∧ s'.ReclaimedOnce 4 := by
  exact ⟨terminates 1 0 3 ++ .sweep 0 .flush :: advances 0 4 ++
      [.dispatch 1 4, .exit 1, .dispatch 1 2, .reapOrphans, .select 4, .destroy] ++ advances 0 5,
    Run.exists_and_of_exec (by decide +kernel) fun _ hrun _ =>
      ⟨reclaimed_once boot_start hrun 3, reclaimed_once boot_start hrun 4⟩⟩

/-- `reap_orphans` frees an orphan that has called `sys_exit` and is still current on another CPU;
`sys_waitpid` frees a child that a terminate puts on the zombie list after the look at its state;
two terminates of one task put it on the list twice, and it is cleaned up and freed twice. -/
theorem reclaim_races : boot.Start ∧
    (∃ as s', Run step anyStep boot as s' ∧ (s'.tcb 4).frees = 1 ∧ s'.current 1 = 4) ∧
    (∃ as s', Run step anyStep boot as s' ∧ (s'.tcb 3).frees = 1 ∧ s'.zombies.head = some 3) ∧
    ∃ as s', Run step anyStep boot as s' ∧ (s'.tcb 3).cleanups = 2 ∧ (s'.tcb 3).frees = 2 := by
  refine ⟨boot_start,
    ⟨[.dispatch 1 4, .exit 1, .reapOrphans, .select 4, .destroy] ++ advances 0 5, ?_⟩,
    ⟨[.dispatch 1 3, .exit 1, .dispatch 1 2, .waitpid 1 0 3, .advance 1 true] ++
      terminates 2 1 3 ++ advances 1 8, ?_⟩,
    ⟨terminates 1 0 3 ++ terminates 2 1 3 ++ [.sweep 0 .flush, .sweep 1 .drain] ++
      advances 0 2 ++ advances 1 4 ++ advances 0 2, ?_⟩⟩
  all_goals exact Run.exists_of_exec (by decide +kernel)

end State

end Nexios.Reap
