import Nexios.Reap.Custody

/-!
# The stages of a teardown

Every stage of a job keeps every task in one place, if the task that a collector makes its own is
available: in the tables, in nobody's hands and not on a CPU.
-/

open Function Option List

namespace Nexios.Reap

open Job Kind

variable {n k m : ℕ}

namespace State

variable {s s' : State n k m} {l l' : List (Fin n)} {t u : Fin n} {c : Fin (m + 1)}
  {f : Tcb n → Tcb n} {kind : Kind} {g : Stage} {rest rest' : List Stage} {todo : List (Fin n)}
  {j : Job n} {choice : Bool}

/-- In the tables, and in nobody's hands. -/
structure Available (s : State n k m) (t : Fin n) : Prop where
  inTable : (s.tcb t).inTable = true
  inRegistry : (s.tcb t).inRegistry = true
  unowned : ∀ c, ¬ (s.role c t).Owns

instance (s : State n k m) (t : Fin n) : Decidable (s.Available t) :=
  decidable_of_iff ((s.tcb t).inTable = true ∧ (s.tcb t).inRegistry = true ∧
    ∀ c, ¬ (s.role c t).Owns) ⟨fun h => ⟨h.1, h.2.1, h.2.2⟩, fun h => ⟨h.1, h.2, h.3⟩⟩

def claims (s : State n k m) (c : Fin (m + 1)) : Option (Fin n) :=
  match s.job c with
  | .hand _ t (.joinClaim :: _) _ => if s.joinLost t then none else some t
  | _ => none

section

variable (s : State n k m)

theorem modify_self (t : Fin n) (f : Tcb n → Tcb n) :
    (s.modify t f).tcb t = f (s.tcb t) := update_self ..

theorem modify_ne (f : Tcb n → Tcb n) (h : u ≠ t) :
    (s.modify t f).tcb u = s.tcb u := update_of_ne h ..

@[simp] theorem modify_id (t : Fin n) : (s.modify t fun x => x) = s := by
  unfold modify
  rw [update_eq_self]

theorem setJob_role_self (c : Fin (m + 1)) (j : Job n) (t : Fin n) :
    (s.setJob c j).role c t = j.role t := congrArg (Job.role · t) (update_self ..)

theorem setJob_role_ne {c c' : Fin (m + 1)} (j : Job n) (t : Fin n)
    (h : c' ≠ c) : (s.setJob c j).role c' t = s.role c' t :=
  congrArg (Job.role · t) (update_of_ne h ..)

end

theorem setJob_follows (h : ((s.job c).role t).Follows (j.role t)) (c' : Fin (m + 1)) :
    (s.role c' t).Follows ((s.setJob c j).role c' t) := by
  by_cases hc : c' = c
  · rw [hc, setJob_role_self]
    exact h
  · exact .inl (setJob_role_ne s j t hc)

theorem wf_setJob (h : ∀ c, (s.job c).Wf) (hj : j.Wf) (c' : Fin (m + 1)) :
    ((s.setJob c j).job c').Wf :=
  (forall_update_iff s.job fun _ j => j.Wf).mpr ⟨hj, fun c _ => h c⟩ c'

namespace TaskOk

theorem known (h : s.TaskOk l t) (hno : ¬ (s.role c t).Owns) (hno' : ¬ (j.role t).Owns)
    (hfits : (j.role t).Fits (s.tcb t).toBlock (s.Current t)) : (s.setJob c j).TaskOk l t := by
  have howns : ∀ c', ((s.setJob c j).role c' t).Owns ↔ (s.role c' t).Owns := fun c' => by
    by_cases hc : c' = c
    · rw [hc, setJob_role_self]
      exact iff_of_false hno' hno
    · rw [setJob_role_ne s j t hc]
  refine ⟨h.queued, fun c₁ c₂ h₁ h₂ => h.unique c₁ c₂ ((howns c₁).mp h₁) ((howns c₂).mp h₂),
    fun ht => ?_, fun c' => ?_, fun hall => h.rest fun c' ho => hall c' ((howns c').mpr ho)⟩
  · obtain ⟨hended, hun, hfree⟩ := h.zombie ht
    exact ⟨hended, hun, fun c' ho => hfree c' ((howns c').mp ho)⟩
  · by_cases hc : c' = c
    · rw [hc, setJob_role_self]
      exact hfits
    · rw [setJob_role_ne s j t hc]
      exact h.fits c'

theorem intact (h : s.TaskOk l t) (ha : s.Available t) : (s.tcb t).Intact ∧ t ∉ l := by
  have hlisted : ¬ (s.tcb t).Unlisted := fun hun =>
    Bool.false_ne_true (hun.1.symm.trans ha.inTable)
  refine ⟨(h.rest ha.unowned).resolve_right fun hd => hlisted hd.unlisted, fun ht => ?_⟩
  exact hlisted (h.zombie ht).2.1

theorem ended (h : s.TaskOk l t) (ha : s.Available t) (hd : (s.tcb t).Dead) : (s.tcb t).Ended where
  toIntact := (h.intact ha).1
  dead := hd
  queued := Bool.eq_false_iff.mpr fun hq => hd.not_ready (h.queued hq)

theorem magic_of_listed (h : s.TaskOk l t) (hl : ¬ (s.tcb t).Unlisted) :
    (s.tcb t).magic = true := by
  by_cases ho : ∃ c, (s.role c t).Owns
  · obtain ⟨c, ho⟩ := ho
    exact ((h.fits c).of_owns ho).1
  · rcases h.rest (not_exists.mp ho) with hi | hd
    · exact hi.magic
    · exact absurd hd.unlisted hl

end TaskOk

namespace Inv

theorem congr (h : s.Inv l) (hblock : ∀ u, (s'.tcb u).toBlock = (s.tcb u).toBlock)
    (hcur : s'.current = s.current) (hz : s'.zombies = s.zombies) (hjob : s'.job = s.job) :
    s'.Inv l where
  holds := hz ▸ h.holds
  task u := by
    have hrole : ∀ c, s'.role c u = s.role c u := fun c => congrArg (fun f => (f c).role u) hjob
    exact (h.task u).frame (hblock u) (fun ⟨p, hp⟩ => ⟨p, hcur ▸ hp⟩) id fun c => .inl (hrole c)
  wf c := hjob ▸ h.wf c

theorem modify (h : s.Inv l) (ht : (s.modify t f).TaskOk l t) : (s.modify t f).Inv l where
  holds := h.holds
  task u := by
    by_cases hu : u = t
    · exact hu ▸ ht
    · exact (h.task u).frame (congrArg Tcb.toBlock (modify_ne s f hu)) id id fun _ => .inl rfl
  wf := h.wf

theorem setJob (h : s.Inv l) (hwf : j.Wf) (hrole : ∀ u, ((s.job c).role u).Follows (j.role u)) :
    (s.setJob c j).Inv l where
  holds := h.holds
  task u := (h.task u).frame rfl id id (setJob_follows (hrole u))
  wf := wf_setJob h.wf hwf

theorem known (h : s.Inv l) (hwf : j.Wf)
    (hothers : ∀ u, u ≠ t → ((s.job c).role u).Follows (j.role u)) (hno : ¬ (s.role c t).Owns)
    (hno' : ¬ (j.role t).Owns) (hfits : (j.role t).Fits (s.tcb t).toBlock (s.Current t)) :
    (s.setJob c j).Inv l where
  holds := h.holds
  task u := by
    by_cases hu : u = t
    · subst hu
      exact (h.task u).known hno hno' hfits
    · exact (h.task u).frame rfl id id (setJob_follows (hothers u hu))
  wf := wf_setJob h.wf hwf

theorem act (h : s.Inv l) {z : Fifo (Fin n)} (halone : ∀ c', c' ≠ c → ¬ (s.role c' t).Owns)
    (hwf : j.Wf) (hholds : z.Holds l')
    (hothers : ∀ u, u ≠ t → (u ∈ l' → u ∈ l) ∧ ((s.job c).role u).Follows (j.role u))
    (hlater : (s.tcb t).toBlock.Later (f (s.tcb t)).toBlock)
    (hq : (f (s.tcb t)).queued → (f (s.tcb t)).state = .ready)
    (hl : t ∈ l' → (f (s.tcb t)).Ended ∧ (f (s.tcb t)).Unlisted ∧ ¬ (j.role t).Owns)
    (hfits : (j.role t).Fits (f (s.tcb t)).toBlock (s.Current t))
    (hrest : ¬ (j.role t).Owns → (f (s.tcb t)).Intact ∨ (f (s.tcb t)).Done (s.Current t)) :
    State.Inv { (s.modify t f).setJob c j with zombies := z } l' where
  holds := hholds
  task u := by
    by_cases hu : u = t
    · subst hu
      have hself := modify_self s u f
      have hrole := setJob_role_self s c j u
      refine (h.task u).act halone (fun c' hc => setJob_role_ne s j u hc) ?_ ?_ ?_ ?_ ?_
      · exact hself.symm ▸ hlater
      · exact hself.symm ▸ hq
      · intro hu
        obtain ⟨hended, hun, hno⟩ := hl hu
        exact ⟨hself.symm ▸ hended, hself.symm ▸ hun, hrole.symm ▸ hno⟩
      · exact hself.symm ▸ hrole.symm ▸ hfits
      · exact fun hno => hself.symm ▸ hrest (hrole ▸ hno)
    · exact (h.task u).frame (congrArg Tcb.toBlock (modify_ne s f hu)) id (hothers u hu).1
        (setJob_follows (hothers u hu).2)
  wf := wf_setJob h.wf hwf

section Hand

variable (h : s.Inv l) (hj : s.job c = .hand kind t (g :: rest) todo)

include h hj in
theorem hand_wf : g :: rest <:+ kind.program ∧ (t :: todo).Nodup := by
  have hwf := h.wf c
  rwa [hj] at hwf

include hj in
theorem hand_others (u : Fin n) (hu : u ≠ t) :
    ((s.job c).role u).Follows ((hand kind t rest' todo).role u) := by
  rw [hj, role_hand_ne hu, role_hand_ne hu]
  exact .inl rfl

include hj in
theorem next_others (u : Fin n) (hu : u ≠ t) :
    ((s.job c).role u).Follows ((Job.next todo).role u) := by
  rw [hj, role_hand_ne hu]
  exact role_next todo u

include h hj in
theorem next_self : (Job.next todo).role t = .out := by
  have hnot : t ∉ todo := (nodup_cons.mp (h.hand_wf hj).2).1
  have hrole := role_next todo t
  rw [if_neg hnot] at hrole
  exact hrole.resolve_right fun hc => nomatch hc.1

include h hj in
theorem inHand (hg : .joinClaim ∉ g :: rest) :
    (s.role c t).Owns ∧ (s.tcb t).InHand (g :: rest) ∧ ¬ s.Current t := by
  have hrole : s.role c t = .hand (g :: rest) := by
    unfold State.role
    rw [hj]
    exact role_hand_self hg
  have hfits := (h.task t).fits c
  rw [hrole] at hfits ⊢
  exact ⟨trivial, hfits⟩

include h hj in
theorem go (hg : .joinClaim ∉ g :: rest) (hrest : rest' <:+ rest)
    (hin : (s.tcb t).InHand (g :: rest) → (f (s.tcb t)).InHand rest') :
    ((s.modify t f).setJob c (.hand kind t rest' todo)).Inv l := by
  obtain ⟨howns, hhand, hcur⟩ := h.inHand hj hg
  obtain ⟨hsuffix, hnodup⟩ := h.hand_wf hj
  obtain ⟨hnot, halone⟩ := (h.task t).alone howns
  have hg' : .joinClaim ∉ rest' := fun hm => hg (mem_cons_of_mem _ (hrest.subset hm))
  have hrole : (hand kind t rest' todo).role t = .hand rest' := role_hand_self hg'
  have hlater : (s.tcb t).toBlock.Later (f (s.tcb t)).toBlock :=
    fun _ => ⟨.inl (hin hhand).magic, fun _ => (hin hhand).dead⟩
  refine h.act halone ⟨(hrest.trans (suffix_cons g rest)).trans hsuffix, hnodup⟩ h.holds
    (fun u hu => ⟨id, hand_others hj u hu⟩) hlater ?_ (fun ht => absurd ht hnot) ?_ ?_
  · exact fun hq => nomatch (hin hhand).queued.symm.trans hq
  · rw [hrole]
    exact ⟨hin hhand, hcur⟩
  · rw [hrole]
    exact fun hno => absurd trivial hno

include h hj in
theorem drop (hg : .joinClaim ∉ g :: rest) (hlater : (s.tcb t).toBlock.Later (f (s.tcb t)).toBlock)
    (hout : (s.tcb t).InHand (g :: rest) → ¬ s.Current t → (f (s.tcb t)).queued = false ∧
      ((f (s.tcb t)).Intact ∨ (f (s.tcb t)).Done (s.Current t))) :
    ((s.modify t f).setJob c (Job.next todo)).Inv l := by
  obtain ⟨howns, hhand, hcur⟩ := h.inHand hj hg
  obtain ⟨hnot, halone⟩ := (h.task t).alone howns
  obtain ⟨hq, hend⟩ := hout hhand hcur
  have hself := h.next_self hj
  refine h.act halone (wf_next (nodup_cons.mp (h.hand_wf hj).2).2) h.holds
    (fun u hu => ⟨id, next_others hj u hu⟩) hlater ?_ (fun ht => absurd ht hnot) ?_ (fun _ => hend)
  · exact fun hq' => nomatch hq.symm.trans hq'
  · rw [hself]
    trivial

include h hj in
theorem pass (hg : .joinClaim ∈ g :: rest) : (s.setJob c (Job.next todo)).Inv l := by
  have hself := h.next_self hj
  have hno : ¬ (s.role c t).Owns := by
    unfold State.role
    rw [hj, role_pending_self hg]
    exact id
  refine h.known (wf_next (nodup_cons.mp (h.hand_wf hj).2).2) (next_others hj) hno ?_ ?_
  · rw [hself]
    exact id
  · rw [hself]
    trivial

include h hj in
theorem stay (hg : .joinClaim ∉ g :: rest) (hu : g ≠ .unlist) (hr : g ≠ .remove) :
    (s.setJob c (.hand kind t rest todo)).Inv l := by
  have hgo := h.go hj (f := fun x => x) hg suffix_rfl fun hin => hin.tail hu hr
  rwa [modify_id] at hgo

end Hand

variable (h : s.Inv l) (hj : s.job c = .hand kind t (g :: rest) todo)

include h hj

theorem look (hg : g = .look) (hdead : (s.tcb t).state = .terminated) :
    (s.setJob c (.hand kind t rest todo)).Inv l := by
  subst hg
  obtain ⟨hsuffix, hnodup⟩ := h.hand_wf hj
  have hjoin : .joinClaim ∈ rest := after_look hsuffix
  have hrole : s.role c t = .pending (.look :: rest) := by
    unfold State.role
    rw [hj, role_pending_self (mem_cons_of_mem _ hjoin)]
  have hfits := (h.task t).fits c
  rw [hrole] at hfits
  refine h.known ⟨(suffix_cons _ _).trans hsuffix, hnodup⟩ (hand_others hj) ?_ ?_ ?_
  · rw [hrole]
    exact id
  · rw [role_pending_self hjoin]
    exact id
  · rw [role_pending_self hjoin]
    exact ⟨hfits.1, fun _ => .inl hdead⟩

theorem joinClaim (hg : g = .joinClaim) (ha : s.Available t) (hcur : ¬ s.Current t) :
    ((s.modify t Tcb.takeJoin).setJob c (.hand kind t rest todo)).Inv l := by
  subst hg
  obtain ⟨hsuffix, hnodup⟩ := h.hand_wf hj
  obtain ⟨hlook, hremove⟩ := after_joinClaim hsuffix
  have hdead : (s.tcb t).Dead := by
    have hfits := (h.task t).fits c
    unfold State.role at hfits
    rw [hj, role_pending_self mem_cons_self] at hfits
    exact hfits.2 hlook
  have hended := (h.task t).ended ha hdead
  have hrole : (hand kind t rest todo).role t = .hand rest :=
    role_hand_self (not_mem_rest hsuffix)
  have hwf : (hand kind t rest todo).Wf := ⟨(suffix_cons _ _).trans hsuffix, hnodup⟩
  refine h.act (f := .takeJoin) (fun c' _ => ha.unowned c') hwf h.holds
      (fun u hu => ⟨id, hand_others hj u hu⟩) (.refl _) (h.task t).queued ?_ ?_ ?_
  · exact fun ht => absurd ht ((h.task t).intact ha).2
  · rw [hrole]
    exact ⟨hended.inHand fun _ hr => absurd hremove hr, hcur⟩
  · rw [hrole]
    exact absurd trivial

theorem copyFails (hg : g = .copyStatus) (hblock : (f (s.tcb t)).toBlock = (s.tcb t).toBlock) :
    ((s.modify t f).setJob c (Job.next todo)).Inv l := by
  subst hg
  obtain ⟨hsuffix, -⟩ := h.hand_wf hj
  obtain ⟨hclean, hclaim⟩ := after_copyStatus hsuffix
  refine h.drop hj (mt (joinClaim_mem hsuffix).mp (by decide)) ?_ ?_
  · rw [hblock]
    exact .refl _
  · intro hin _
    obtain ⟨hcompleted, hzero⟩ := hin.uncleaned (mem_cons_of_mem _ hclean)
    rw [hblock]
    exact ⟨hin.queued, .inl ⟨hin.magic, hin.unclaimed (mem_cons_of_mem _ hclaim), hcompleted,
      hzero, hin.frees⟩⟩

theorem clean (hg : g = .clean) (hs : s.perform c choice kind t todo rest .clean = some s') :
    s'.Inv l := by
  subst hg
  obtain ⟨hsuffix, -⟩ := h.hand_wf hj
  have hjoin : .joinClaim ∉ .clean :: rest := mt (joinClaim_mem hsuffix).mp (by decide)
  obtain ⟨-, hin, -⟩ := h.inHand hj hjoin
  have hgoes : ¬ ((!(s.tcb t).magic) = true ∨ (s.tcb t).teardownCompleted = true) := by
    simp [hin.magic, (hin.uncleaned mem_cons_self).1]
  simp only [perform] at hs
  split_ifs at hs <;> cases hs
  · refine h.go hj hjoin (tail_suffix rest) fun hin => ?_
    obtain ⟨rest', rfl⟩ := after_clean hsuffix
    exact ((hin.tail (by decide) (by decide)).tail (by decide) (by decide)).reaped
  · exact h.go hj hjoin suffix_rfl fun hin => hin.cleaned (not_mem_rest hsuffix)

theorem finish (hg : g = .finish) (hs : s.perform c choice kind t todo rest .finish = some s') :
    s'.Inv l := by
  subst hg
  obtain ⟨hsuffix, -⟩ := h.hand_wf hj
  have hjoin : .joinClaim ∉ .finish :: rest := mt (joinClaim_mem hsuffix).mp (by decide)
  have hclean : .clean ∉ rest := after_finish hsuffix
  simp only [perform] at hs
  split_ifs at hs <;> cases hs
  · exact h.go hj hjoin suffix_rfl fun hin => hin.removed.completed hclean
  · exact h.go hj hjoin suffix_rfl fun hin =>
      (hin.tail (by decide) (by decide)).completed hclean

theorem free (hg : g = .free) (hs : s.perform c choice kind t todo rest .free = some s') :
    s'.Inv l := by
  subst hg
  obtain ⟨hsuffix, -⟩ := h.hand_wf hj
  obtain rfl := after_free hsuffix
  have hjoin : .joinClaim ∉ [Stage.free] := by decide
  simp only [perform] at hs
  split_ifs at hs <;> cases hs
  · refine h.drop hj hjoin (fun hu => ⟨hu, id⟩) fun hin hcur => ⟨hin.queued, .inr ?_⟩
    have hdone := hin.kept hcur
    exact { hdone with }
  · have hdrop := h.drop hj (f := fun x => x) hjoin (.refl _) fun hin hcur =>
      ⟨hin.queued, .inr (hin.kept hcur)⟩
    rwa [modify_id] at hdrop
  · exact h.drop hj hjoin (fun _ => ⟨.inr (Nat.succ_pos _), id⟩) fun hin hcur =>
      ⟨hin.queued, .inr (hin.freed hcur)⟩

theorem perform (hok : ∀ t, s.claims c = some t → s.Available t ∧ ¬ s.Current t)
    (hs : s.perform c choice kind t todo rest g = some s') : s'.Inv l := by
  obtain ⟨hsuffix, -⟩ := h.hand_wf hj
  have hjoin : ¬ (g = .look ∨ g = .joinClaim) → .joinClaim ∉ g :: rest :=
    mt (joinClaim_mem hsuffix).mp
  cases g with
  | check =>
    obtain ⟨-, hin, -⟩ := h.inHand hj (hjoin (by decide))
    obtain rfl := some.inj ((if_pos hin.magic).symm.trans hs)
    exact h.stay hj (hjoin (by decide)) (by decide) (by decide)
  | look =>
    simp only [State.perform] at hs
    split_ifs at hs with hdead <;> cases hs
    · exact h.look hj rfl hdead
    · exact h.pass hj ((joinClaim_mem hsuffix).mpr (.inl rfl))
  | joinClaim =>
    simp only [State.perform] at hs
    split_ifs at hs with hlost <;> cases hs
    · exact h.pass hj mem_cons_self
    have hclaims : s.claims c = some t := by
      unfold claims
      rw [hj]
      exact if_neg hlost
    obtain ⟨ha, hcur⟩ := hok t hclaims
    exact h.joinClaim hj rfl ha hcur
  | copyStatus =>
    simp only [State.perform] at hs
    split_ifs at hs <;> cases hs
    · exact h.stay hj (hjoin (by decide)) (by decide) (by decide)
    · exact h.copyFails hj rfl rfl
    · have hdrop := h.copyFails hj (f := fun x => x) rfl rfl
      rwa [modify_id] at hdrop
  | detach =>
    cases hs
    exact h.go hj (hjoin (by decide)) suffix_rfl fun hin => hin.tail (by decide) (by decide)
  | unlist =>
    cases hs
    exact h.go hj (hjoin (by decide)) suffix_rfl fun hin => hin.removed
  | claim =>
    obtain ⟨-, hin, -⟩ := h.inHand hj (hjoin (by decide))
    have hfree : (s.tcb t).magic = true ∧ (!(s.tcb t).teardownClaimed) = true := by
      simp [hin.magic, hin.unclaimed mem_cons_self]
    obtain rfl := some.inj ((if_pos hfree).symm.trans hs)
    exact h.go hj (hjoin (by decide)) suffix_rfl fun hin =>
      hin.claimed (not_mem_rest hsuffix)
  | clean => exact h.clean hj rfl hs
  | finish => exact h.finish hj rfl hs
  | remove =>
    simp only [State.perform] at hs
    split_ifs at hs
    cases hs
    refine h.go hj (hjoin (by decide)) suffix_rfl fun hin => ?_
    rw [if_pos hin.magic]
    exact hin.removed
  | free => exact h.free hj rfl hs

end Inv

end State

end Nexios.Reap
