import Mathlib.Data.Prod.Lex
import Nexios.Sched.Change
import Nexios.Sched.WellFormed

/-!
# The queues follow the keys

Two properties tie the queues to the fields of the tasks: the deadline lists are sorted by the keys,
and a task stands in the queue of its effective priority. A change of a key endangers them for the
task whose key it is. `Tracked o b s` carries the properties that `o` and `b` ask for, and each step
keeps those for which its condition is met: `OrderOk` for the order, `BucketOk` for the levels.
-/

open Function Option

namespace Nexios.Sched

open Scheduler Tcb

variable {n k : ℕ}

/-- Earlier deadlines first, then higher effective priorities, then lower ids. -/
def Tcb.edfKey (t : Tcb) : ℕ ×ₗ ℕᵒᵈ ×ₗ ℕ :=
  toLex (t.deadlineTicks, toLex (OrderDual.toDual t.effectivePriority, t.id))

theorem Tcb.edfEarlier_iff {a b : Tcb} : a.edfEarlier b = true ↔ a.edfKey < b.edfKey := by
  unfold edfEarlier edfKey
  rw [Prod.Lex.toLex_lt_toLex, Prod.Lex.toLex_lt_toLex, OrderDual.toDual_lt_toDual,
    OrderDual.toDual_inj]
  split_ifs with hdeadline heff
  · simp [hdeadline]
  all_goals
    simp only [decide_eq_true_eq]
    omega

namespace Scheduler

variable {o b : Bool} {s s' : Scheduler n k} {cfg : Config} {here : Cpu k} {t u v : Fin n}
  {f : Tcb → Tcb} {p : ℕ} {rq : RunQueues n k}

def orderBy (o : Bool) (s : Scheduler n k) (t u : Fin n) : Prop := o = true → s.earlier u t = false

def levelBy (b : Bool) (s : Scheduler n k) (t : Fin n) (p : ℕ) : Prop := b = true → p = s.eff t

def Tracked (o b : Bool) (s : Scheduler n k) : Prop := Inv (s.orderBy o) (s.levelBy b) s

theorem earlier_eq_false_iff : s.earlier u t = false ↔ (s.tcb t).edfKey ≤ (s.tcb u).edfKey := by
  rw [← Bool.not_eq_true, earlier, edfEarlier_iff, not_lt]

theorem decides_orderBy (o : Bool) (s : Scheduler n k) :
    EdfLists.Decides s.earlier (s.orderBy o) := by
  refine ⟨?_, fun t u hlate _ => hlate, ?_⟩
  · intro t u hearly _
    exact earlier_eq_false_iff.mpr (edfEarlier_iff.mp hearly).le
  · intro t u v htu huv ho
    have htu' := earlier_eq_false_iff.mp (htu ho)
    exact earlier_eq_false_iff.mpr (htu'.trans (earlier_eq_false_iff.mp (huv ho)))

theorem fits_tracked (o b : Bool) (s : Scheduler n k) : Fits (s.orderBy o) (s.levelBy b) s :=
  ⟨decides_orderBy o s, fun _ _ => rfl⟩

theorem Tracked.of_sameKeys (h : Inv (s.orderBy o) (s.levelBy b) s' ∧ SameKeys s s') :
    Tracked o b s' := by
  obtain ⟨hinv, hkeys⟩ := h
  have horder : s'.orderBy o = s.orderBy o := by
    unfold orderBy
    rw [hkeys.earlier]
  have hlevel : s'.levelBy b = s.levelBy b := by
    unfold levelBy
    rw [hkeys.eff]
  unfold Tracked
  rw [horder, hlevel]
  exact hinv

theorem Kept.tracked (h : Kept (s.orderBy o) (s.levelBy b) s s') : Tracked o b s' :=
  Tracked.of_sameKeys h.keys

/-! ## A control block is written -/

theorem modify_tcb_self : (s.modify t f).tcb t = f (s.tcb t) := update_self _ _ _

theorem modify_eff_self : (s.modify t f).eff t = (f (s.tcb t)).effectivePriority := by
  unfold eff
  rw [modify_tcb_self]

theorem modify_eff_of_ne (hu : u ≠ t) : (s.modify t f).eff u = s.eff u := by
  unfold eff
  rw [modify_tcb_of_ne hu]

theorem modify_earlier_of_ne (hu : u ≠ t) (hv : v ≠ t) :
    (s.modify t f).earlier u v = s.earlier u v := by
  unfold earlier
  rw [modify_tcb_of_ne hu, modify_tcb_of_ne hv]

def Stationary (f : Tcb → Tcb) : Prop :=
  ∀ a, (f a).cpuAffinity = a.cpuAffinity ∧ (f a).isUser = a.isUser

theorem Stationary.home_eq (hf : Stationary f) (s : Scheduler n k) (t : Fin n) :
    (s.modify t f).home = s.home := by
  funext u
  unfold home queueTarget
  exact congrArg (maskTarget k) (update_field cpuAffinity (hf _).1 u)

theorem Stationary.isUser_eq (hf : Stationary f) (s : Scheduler n k) (t u : Fin n) :
    ((s.modify t f).tcb u).isUser = (s.tcb u).isUser :=
  update_field isUser (hf _).2 u

theorem Tracked.of_stationary {edf : EdfLists n k} (h : Tracked o b s) (hf : Stationary f)
    (hrq : rq.Good s.home) (hedf : edf.Good s.home ((s.modify t f).orderBy o))
    (hflag : ∀ u, rq.inReadyQueue u →
      edf.inEdfQueue u = false ∧ (s.modify t f).levelBy b u (rq.rqPriority u)) :
    Tracked o b ((s.modify t f).withQueues rq edf) := by
  have hhome := hf.home_eq s t
  refine ⟨fits_tracked o b _, hhome ▸ hrq, hhome ▸ hedf, fun u hu => (hflag u hu).1,
    fun u hu => (hflag u hu).2, fun u hu => ?_⟩
  change (s.modify t f).home u = 0
  rw [hhome]
  exact Inv.userHome h u (hf.isUser_eq s t u ▸ hu)

section

variable (hf : Stationary f)
  (hkey : o → s.edf.inEdfQueue t → (f (s.tcb t)).edfKey = (s.tcb t).edfKey)
  (heff : b → s.rq.inReadyQueue t → (f (s.tcb t)).effectivePriority = s.eff t)

include hkey in
theorem orderBy_modify (hu : s.edf.inEdfQueue u) (hv : s.edf.inEdfQueue v)
    (h : s.orderBy o u v) : (s.modify t f).orderBy o u v := by
  intro ho
  have hsame : ∀ w, s.edf.inEdfQueue w →
      ((s.modify t f).tcb w).edfKey = (s.tcb w).edfKey := by
    intro w hw
    by_cases hwt : w = t
    · subst hwt
      rw [modify_tcb_self]
      exact hkey ho hw
    · rw [modify_tcb_of_ne hwt]
  rw [earlier_eq_false_iff, hsame u hu, hsame v hv]
  exact earlier_eq_false_iff.mp (h ho)

include heff in
theorem levelBy_modify (hu : s.rq.inReadyQueue u) (h : s.levelBy b u p) :
    (s.modify t f).levelBy b u p := by
  intro hb
  rw [h hb]
  by_cases hut : u = t
  · subst hut
    rw [modify_eff_self, heff hb hu]
  · rw [modify_eff_of_ne hut]

include hf hkey heff in
theorem Tracked.modify (h : Tracked o b s) : Tracked o b (s.modify t f) :=
  h.of_stationary hf (Inv.rq h) ((Inv.edf h).reorder fun _ _ hu hv hle =>
    orderBy_modify hkey hu hv hle) (fun u hu =>
      ⟨Inv.single h u hu, levelBy_modify heff hu (Inv.bucket h u hu)⟩)

end

section

variable (h : Tracked o b s) {old new : ℕ}
include h

/-- A write to a task of a deadline list that is followed by `edf_resort`. -/
theorem Tracked.modify_resort (hf : Stationary f) (hin : s.edf.inEdfQueue t) :
    ∃ edf, s.edf.resort (s.modify t f).earlier (s.home t) t = some edf ∧
      Tracked o b ((s.modify t f).withQueues s.rq edf) := by
  have hrq : ∀ u, s.rq.inReadyQueue u → u ≠ t := by
    rintro u hu rfl
    have hout := Inv.single h u hu
    rw [hin] at hout
    cases hout
  -- Without the task the list is sorted by the new keys as well.
  have hout : (s.edf.remove (s.home t) t).Good s.home ((s.modify t f).orderBy o) := by
    refine (Inv.edf h |>.remove rfl).reorder ?_
    intro u v hu hv hle ho
    have hne : ∀ w, (s.edf.remove (s.home t) t).inEdfQueue w → w ≠ t := by
      rintro w hw rfl
      rw [EdfLists.remove_flag, update_self] at hw
      cases hw
    rw [modify_earlier_of_ne (hne v hv) (hne u hu)]
    exact hle ho
  obtain ⟨edf, hedf, hgood, hflag⟩ :=
    hout.insert (decides_orderBy o (s.modify t f)) (rfl : s.home t = s.home t)
  rw [EdfLists.remove_flag, update_idem, ← hin, update_eq_self] at hflag
  refine ⟨edf, ?_, h.of_stationary hf (Inv.rq h) hgood fun u hu => ⟨?_, fun hb => ?_⟩⟩
  · unfold EdfLists.resort
    rw [if_pos hin]
    exact hedf
  · rw [hflag]
    exact Inv.single h u hu
  · rw [modify_eff_of_ne (hrq u hu)]
    exact Inv.bucket h u hu hb

theorem Tracked.modify_move (hf : Stationary f) (hout : s.edf.inEdfQueue t = false)
    (hne : old ≠ new) (hnew : b → new = (f (s.tcb t)).effectivePriority)
    (he : s.rq.movePriority (s.home t) t old new = some rq) :
    Tracked o b ((s.modify t f).withQueues rq s.edf) := by
  obtain ⟨hflag, hprio⟩ := (Inv.rq h).movePriority_fields rfl hne he
  refine h.of_stationary hf ((Inv.rq h).movePriority rfl he)
    ((Inv.edf h).reorder fun u v hu hv hle => orderBy_modify (fun _ hin => ?_) hu hv hle)
    (fun u hu => ?_)
  · rw [hout] at hin
    cases hin
  rw [hflag, update_apply] at hu
  rw [hprio, update_apply]
  split_ifs at hu ⊢ with hut
  · rw [hut]
    exact ⟨hout, fun hb => (hnew hb).trans modify_eff_self.symm⟩
  · refine ⟨Inv.single h u hu, fun hb => ?_⟩
    rw [modify_eff_of_ne hut]
    exact Inv.bucket h u hu hb

theorem Tracked.modify_movePriority (hf : Stationary f) (hne : old ≠ new)
    (hnew : b → new = (f (s.tcb t)).effectivePriority)
    (he : (s.modify t f).movePriority t old new = some s') : Tracked o b s' := by
  unfold movePriority at he
  rw [hf.home_eq] at he
  by_cases hin : s.edf.inEdfQueue t = true
  · obtain ⟨edf, hedf, htracked⟩ := h.modify_resort hf hin
    rw [if_pos (show (s.modify t f).edf.inEdfQueue t = true from hin)] at he
    obtain ⟨edf', hedf', hs'⟩ := bind_eq_some_iff.mp he
    obtain rfl : edf = edf' := some.inj (hedf.symm.trans hedf')
    exact some.inj hs' ▸ htracked
  · rw [if_neg (show ¬ (s.modify t f).edf.inEdfQueue t = true from hin)] at he
    obtain ⟨rq, hrq, hs'⟩ := bind_eq_some_iff.mp he
    have hmove := h.modify_move hf ((Bool.not_eq_true _).mp hin) hne hnew hrq
    exact some.inj hs' ▸ hmove

end

/-! ## The steps -/

theorem edfKey_congr {a c : Tcb} (hdeadline : a.deadlineTicks = c.deadlineTicks)
    (heff : a.effectivePriority = c.effectivePriority) (hid : a.id = c.id) :
    a.edfKey = c.edfKey := by
  unfold edfKey
  rw [hdeadline, heff, hid]

namespace Tracked

variable (h : Tracked o b s)
include h

theorem setPriority (hkey : o → s.edf.inEdfQueue t →
      ((s.tcb t).setPriority p).effectivePriority = s.eff t)
    (hlevel : b → s.rq.inReadyQueue t →
      ((s.tcb t).setPriority p).effectivePriority = p) (he : s.setPriority t p = some s') :
    Tracked o b s' := by
  have hf : Stationary (fun a => a.setPriority p) := fun _ => ⟨rfl, rfl⟩
  unfold Scheduler.setPriority at he
  split_ifs at he with hsame hin
  · exact some.inj he ▸ h
  · obtain ⟨s₁, hs₁, hs'⟩ := map_eq_some_iff.mp he
    have hout := Inv.single h t hin
    unfold movePriority at hs₁
    rw [if_neg (by simp [hout])] at hs₁
    obtain ⟨rq, hrq, hs₁⟩ := bind_eq_some_iff.mp hs₁
    cases hs₁
    have hmove := h.modify_move hf hout (.symm hsame) (fun hb => (hlevel hb hin).symm) hrq
    exact hs' ▸ hmove
  · cases he
    refine h.modify hf (fun ho hq => ?_) (fun _ hq => absurd hq hin)
    exact edfKey_congr rfl (hkey ho hq) rfl

theorem inherit (hkey : o → s.edf.inEdfQueue t →
      ((s.tcb t).lend p).effectivePriority = s.eff t) (he : s.inherit t p = some s') :
    Tracked o b s' := by
  have hf : Stationary (fun a => a.lend p) := fun _ => ⟨rfl, rfl⟩
  simp only [Scheduler.inherit] at he
  split_ifs at he with hcond
  · exact h.modify_movePriority hf hcond.1 (fun _ => modify_eff_self) he
  cases he
  refine h.modify hf (fun ho hq => edfKey_congr rfl (hkey ho hq) rfl) (fun _ hq => ?_)
  by_contra hne
  refine hcond ⟨?_, hq⟩
  rw [modify_eff_self]
  exact fun heq => hne heq.symm

theorem assignDeadlinePriority (hlevel : b → s.rq.inReadyQueue t →
      ((s.tcb t).setPriority (deadlinePriority (s.tcb t).periodTicks)).effectivePriority =
        deadlinePriority (s.tcb t).periodTicks)
    (he : s.assignDeadlinePriority t = some s') : Tracked o b s' := by
  simp only [Scheduler.assignDeadlinePriority] at he
  generalize deadlinePriority (s.tcb t).periodTicks = p at hlevel he
  have hf : Stationary (fun a => a.setPriority p) := fun _ => ⟨rfl, rfl⟩
  rw [hf.home_eq] at he
  split_ifs at he with hsame hedf hrq
  · exact some.inj he ▸ h
  · obtain ⟨edf, hsort, htracked⟩ := h.modify_resort hf hedf
    obtain ⟨edf', hsort', hs'⟩ := map_eq_some_iff.mp he
    obtain rfl : edf = edf' := some.inj (hsort.symm.trans hsort')
    exact hs' ▸ htracked
  · have hin : s.rq.inReadyQueue t = true := hrq
    have hout := Inv.single h t hin
    obtain ⟨rq, hmove, hs'⟩ := map_eq_some_iff.mp he
    change s.rq.movePriority (s.home t) t (s.rq.rqPriority t) p = some rq at hmove
    by_cases hne : s.rq.rqPriority t = p
    · -- The task already stands in the queue of its new level.
      rw [RunQueues.movePriority, if_pos hne] at hmove
      cases hmove
      have hkeep : Tracked o b (s.modify t (fun a => a.setPriority p)) := by
        refine h.modify hf (fun _ hq => ?_) (fun hb _ => ?_)
        · rw [hout] at hq
          cases hq
        · rw [hlevel hb hin, ← hne]
          exact Inv.bucket h t hin hb
      exact hs' ▸ hkeep
    · exact hs' ▸ h.modify_move hf hout hne (fun hb => (hlevel hb hin).symm) hmove
  · cases he
    exact h.modify hf (fun _ hq => absurd hq hedf) (fun _ hq => absurd hq hrq)

theorem demote
    (hout : 1 < (s.tcb t).priority → (s.tcb t).demoted.effectivePriority ≠ s.eff t →
      s.edf.inEdfQueue t = false) (he : s.demote t = some s') : Tracked o b s' := by
  have hf : Stationary demoted := fun _ => ⟨rfl, rfl⟩
  simp only [Scheduler.demote] at he
  rw [modify_eff_self, hf.home_eq] at he
  split_ifs at he with hlow hne
  · obtain ⟨rq, hmove, hs'⟩ := map_eq_some_iff.mp he
    exact hs' ▸ h.modify_move hf (hout hlow hne.symm) hne (fun _ => rfl) hmove
  · cases he
    have heff := (not_not.mp hne).symm
    exact h.modify hf (fun _ _ => edfKey_congr rfl heff rfl) (fun _ _ => heff)
  · exact some.inj he ▸ h

theorem migrateDispatchQueue (he : s.migrateDispatchQueue here t = some s') : Tracked o b s' := by
  obtain ⟨rq, hrq, hd⟩ := (Inv.rq h).removeQueued (rfl : s.home t = s.home t)
  unfold Scheduler.migrateDispatchQueue at he
  rw [hrq] at he
  obtain ⟨hkept, hun⟩ := Inv.unqueue h (s.withQueues rq (s.edf.remove (s.home t) t))
    ((Quiet.refl s).withQueues _ _) hd rfl rfl
  split_ifs at he
  · exact some.inj he ▸ h
  · have hflag := (Bool.or_eq_false_iff.mp hun.self).1
    exact (hkept.trans (hkept.inv.enqueueReady (.inr hflag) he).1).tracked
  · exact some.inj he ▸ hkept.tracked

theorem setSchedPolicy {policy : SchedPolicy}
    (he : s.setSchedPolicy here t policy = some s') : Tracked o b s' := by
  unfold Scheduler.setSchedPolicy at he
  split_ifs at he
  · exact some.inj he ▸ h
  · refine .migrateDispatchQueue (h.modify ?_ ?_ ?_) he
    · exact fun _ => ⟨rfl, rfl⟩
    all_goals exact fun _ _ => rfl

theorem setEdfExempt {exempt : Bool}
    (he : s.setEdfExempt here t exempt = some s') : Tracked o b s' := by
  refine .migrateDispatchQueue (h.modify ?_ ?_ ?_) he
  · exact fun _ => ⟨rfl, rfl⟩
  all_goals exact fun _ _ => rfl

theorem resort (t : Fin n) :
    ∃ edf, s.edf.resort s.earlier (s.home t) t = some edf ∧ edf.inEdfQueue = s.edf.inEdfQueue ∧
      Tracked o b { s with edf } := by
  obtain ⟨edf, hsort, hgood, hflag⟩ :=
    (Inv.edf h).resort (decides_orderBy o s) (rfl : s.home t = s.home t)
  have hkept := Inv.shrinkEdf h hgood (fun u hu => hflag ▸ hu)
  exact ⟨edf, hsort, hflag, hkept.tracked⟩

theorem account (hkey : o → s.edf.inEdfQueue t → s.home t = here →
      (s.tcb t).rollsOver → cfg.monitorTask)
    (he : s.account cfg here t = some s') : Tracked o b s' := by
  unfold Scheduler.account at he
  split_ifs at he with hskip hroll
  · exact some.inj he ▸ h
  · obtain ⟨edf, hsort, hflag, htracked⟩ := h.resort t
    unfold rollOver at he
    rw [hsort] at he
    cases he
    have heff : ∀ a : Tcb, ({ (if cfg.monitorTask then a else a.rearm) with
          remainingTicks := a.periodTicks } : Tcb).effectivePriority = a.effectivePriority := by
      intro a
      split_ifs
      · rfl
      · rfl
    refine htracked.modify ?_ ?_ (fun _ _ => heff _)
    · intro a
      split_ifs
      all_goals exact ⟨rfl, rfl⟩
    · intro ho hin
      simp only [not_or, not_not] at hskip
      rw [hkey ho (hflag ▸ hin) hskip.2.1 hroll]
      rfl
  · cases he
    refine h.modify ?_ ?_ ?_
    · exact fun _ => ⟨rfl, rfl⟩
    all_goals exact fun _ _ => rfl

end Tracked

theorem demote_edf (he : s.demote t = some s') : s'.edf = s.edf := by
  simp only [demote] at he
  split_ifs at he
  · obtain ⟨rq, -, hs'⟩ := map_eq_some_iff.mp he
    rw [← hs']
    rfl
  all_goals exact some.inj he ▸ rfl

theorem Stationary.onServer (g : SporadicServer → SporadicServer) :
    Stationary (fun a => a.onServer g) :=
  fun _ => ⟨rfl, rfl⟩

section

variable (h : Tracked o b s) {now : ℕ}
include h

theorem Tracked.scanDeadline
    (hkey : o → s.edf.inEdfQueue t → (s.tcb t).overdue now = false)
    (hout : cfg.demotes → (s.tcb t).overdue now → 1 < (s.tcb t).priority →
      (s.tcb t).demoted.effectivePriority ≠ s.eff t → s.edf.inEdfQueue t = false)
    (he : s.scanDeadline cfg now t = some s') : Tracked o b s' := by
  unfold Scheduler.scanDeadline at he
  split_ifs at he with hdue hdemote
  · obtain ⟨s₁, hs₁, rfl⟩ := map_eq_some_iff.mp he
    have hafter := h.demote (hout hdemote hdue) hs₁
    refine hafter.modify (fun _ => ⟨rfl, rfl⟩) (fun ho hin => ?_) (fun _ _ => rfl)
    rw [demote_edf hs₁] at hin
    rw [hkey ho hin] at hdue
    cases hdue
  · obtain ⟨s₁, hs₁, rfl⟩ := map_eq_some_iff.mp he
    cases hs₁
    refine h.modify (fun _ => ⟨rfl, rfl⟩) (fun ho hin => ?_) (fun _ _ => rfl)
    rw [hkey ho hin] at hdue
    cases hdue
  · exact some.inj he ▸ h

theorem Tracked.modify_server {g : SporadicServer → SporadicServer}
    (hkey : (o = true ∧ s.edf.inEdfQueue t = true) ∨ (b = true ∧ s.rq.inReadyQueue t = true) →
      ((s.tcb t).onServer g).effectivePriority = s.eff t) :
    Tracked o b (s.modify t (fun a => a.onServer g)) :=
  h.modify (.onServer g) (fun ho hin => edfKey_congr rfl (hkey (.inl ⟨ho, hin⟩)) rfl)
    (fun hb hin => hkey (.inr ⟨hb, hin⟩))

theorem Tracked.replenish (hkey : s.home t = here → s.current here = some t →
      (o = true ∧ s.edf.inEdfQueue t = true) ∨ (b = true ∧ s.rq.inReadyQueue t = true) →
      ((s.tcb t).onServer (fun ss => ss.processReplenishments now)).effectivePriority = s.eff t)
    (he : s.replenish here now t = some s') : Tracked o b s' := by
  have hf := Stationary.onServer (fun ss => ss.processReplenishments now)
  simp only [Scheduler.replenish] at he
  split_ifs at he with hhome hcond
  · exact some.inj he ▸ h
  · exact h.modify_movePriority hf hcond.1 (fun _ => modify_eff_self) he
  -- No move: the level is the same, or the task is the current one.
  cases he
  refine h.modify_server fun hwhere => ?_
  by_contra hne
  have hcur : s.current here = some t := by
    by_contra hcur
    exact hcond ⟨fun heq => hne (modify_eff_self.symm.trans heq.symm), hcur⟩
  exact hne (hkey (not_not.mp hhome) hcur hwhere)

theorem Tracked.consume (hkey : ∀ t, s.current here = some t →
      (o = true ∧ s.edf.inEdfQueue t = true) ∨ (b = true ∧ s.rq.inReadyQueue t = true) →
      ((s.tcb t).onServer (fun ss => ss.consume.1)).effectivePriority = s.eff t) :
    Tracked o b (s.consume here) := by
  unfold Scheduler.consume
  cases hcur : s.current here with
  | none => exact h
  | some t =>
    simp only
    split_ifs
    · exact h.modify_server (hkey t hcur)
    · exact h

theorem Tracked.onServer {g : SporadicServer → SporadicServer}
    (hg : ∀ ss, (g ss).currentPriority = ss.currentPriority) :
    Tracked o b (s.modify t (fun a => a.onServer g)) := by
  have heff : ((s.tcb t).onServer g).effectivePriority = s.eff t := by
    unfold Tcb.effectivePriority Tcb.onServer Scheduler.eff Tcb.effectivePriority
    cases (s.tcb t).sporadicServer with
    | none => rfl
    | some ss => exact hg ss
  exact h.modify_server fun _ => heff

end

/-! ## The conditions -/

/-- The links stay proper: the queue operations are guarded, and no task of a deadline list is moved
between ready queues. -/
def Proper (cfg : Config) (s : Scheduler n k) : Change n k → Prop
  | .act a => s.Guarded a
  | .demote t => 1 < (s.tcb t).priority →
      (s.tcb t).demoted.effectivePriority ≠ s.eff t → s.edf.inEdfQueue t = false
  | .scanDeadline now t => cfg.demotes → (s.tcb t).overdue now →
      1 < (s.tcb t).priority →
      (s.tcb t).demoted.effectivePriority ≠ s.eff t → s.edf.inEdfQueue t = false
  | _ => True

instance (cfg : Config) (s : Scheduler n k) (c : Change n k) : Decidable (s.Proper cfg c) := by
  unfold Proper
  split <;> infer_instance

/-- No key of a task in a deadline list changes without a re-sort. -/
def OrderOk (cfg : Config) (s : Scheduler n k) : Change n k → Prop
  | .setPriority t p => s.edf.inEdfQueue t →
      ((s.tcb t).setPriority p).effectivePriority = s.eff t
  | .inherit t p => s.edf.inEdfQueue t → ((s.tcb t).lend p).effectivePriority = s.eff t
  | .account here t => s.edf.inEdfQueue t → s.home t = here →
      (s.tcb t).rollsOver → cfg.monitorTask
  | .scanDeadline now t => s.edf.inEdfQueue t → (s.tcb t).overdue now = false
  | .replenish here now t => s.edf.inEdfQueue t → s.home t = here →
      s.current here = some t →
      ((s.tcb t).onServer (fun ss => ss.processReplenishments now)).effectivePriority = s.eff t
  | .consume here => ∀ t, s.current here = some t → s.edf.inEdfQueue t →
      ((s.tcb t).onServer (fun ss => ss.consume.1)).effectivePriority = s.eff t
  | _ => True

instance (cfg : Config) (s : Scheduler n k) (c : Change n k) : Decidable (s.OrderOk cfg c) := by
  unfold OrderOk
  split <;> infer_instance

/-- A queued task is told of its new level, and the level is its effective priority. -/
def BucketOk (s : Scheduler n k) : Change n k → Prop
  | .act (.movePriority t old new) =>
      old ≠ new → s.edf.inEdfQueue t = false → new = s.eff t
  | .setPriority t p => s.rq.inReadyQueue t →
      ((s.tcb t).setPriority p).effectivePriority = p
  | .assignDeadlinePriority t => s.rq.inReadyQueue t →
      ((s.tcb t).setPriority (deadlinePriority (s.tcb t).periodTicks)).effectivePriority =
        deadlinePriority (s.tcb t).periodTicks
  | .replenish here now t => s.rq.inReadyQueue t → s.home t = here →
      s.current here = some t →
      ((s.tcb t).onServer (fun ss => ss.processReplenishments now)).effectivePriority = s.eff t
  | .consume here => ∀ t, s.current here = some t → s.rq.inReadyQueue t →
      ((s.tcb t).onServer (fun ss => ss.consume.1)).effectivePriority = s.eff t
  | _ => True

instance (s : Scheduler n k) (c : Change n k) : Decidable (s.BucketOk c) := by
  unfold BucketOk
  split <;> infer_instance

theorem Tracked.change {c : Change n k} (h : Tracked o b s) (hproper : s.Proper cfg c)
    (horder : o → s.OrderOk cfg c) (hbucket : b → s.BucketOk c)
    (he : s.change cfg c = some s') : Tracked o b s' := by
  cases c with try cases he
  | act a =>
    refine .of_sameKeys (Inv.step h hproper ?_ he)
    rintro t old new rfl hne hout hb
    exact hbucket hb hne hout
  | note t state remaining missed =>
    refine h.modify ?_ ?_ ?_
    · exact fun _ => ⟨rfl, rfl⟩
    all_goals exact fun _ _ => rfl
  | setPriority t p => exact h.setPriority horder hbucket he
  | inherit t p => exact h.inherit horder he
  | assignDeadlinePriority t => exact h.assignDeadlinePriority hbucket he
  | demote t => exact h.demote hproper he
  | setSchedPolicy here t policy => exact h.setSchedPolicy he
  | setEdfExempt here t exempt => exact h.setEdfExempt he
  | account here t => exact h.account horder he
  | scanDeadline now t => exact h.scanDeadline horder hproper he
  | replenish here now t =>
    refine h.replenish (fun hhome hcur hwhere => ?_) he
    rcases hwhere with ⟨ho, hin⟩ | ⟨hb, hin⟩
    · exact horder ho hin hhome hcur
    · exact hbucket hb hin hhome hcur
  | consume here =>
    refine h.consume (fun t hcur hwhere => ?_)
    rcases hwhere with ⟨ho, hin⟩ | ⟨hb, hin⟩
    · exact horder ho t hcur hin
    · exact hbucket hb t hcur hin
  | onActivation t now =>
    exact h.onServer (fun ss => SporadicServer.onActivation_currentPriority ss now)
  | onCompletion t => exact h.onServer SporadicServer.onCompletion_currentPriority

end Scheduler

end Nexios.Sched
