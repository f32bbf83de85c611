import Nexios.Sync.Notify

/-!
# Delivery of notifications

A woken waiter fetches its value in a critical section of its own, and until then the notification
looks as if a value had arrived that nobody waits for. A `wait` or `try_wait` in between takes the
value, and the waiter returns without one. It also does when it finds interrupts disabled after it
has been woken, and when the wake-up of an earlier call reaches it through the mailbox. In the runs
that avoid these three a woken waiter returns a value that was delivered after it had registered,
and no one else returns that value.
-/

open Function Option List Bool Nat

namespace Nexios.Sync

open TaskTable TaskInfo NotifyPc NotifyState

open Sched (TaskState)

variable {n : ℕ} {r : Returned n} {ds : List (Delivery n)}

/-- What the claims of a return are worth: a waiter that has been woken has a value, delivered after
it registered, and a value that has woken a waiter is returned by that waiter. -/
structure Returned.Proper (ds : List (Delivery n)) (r : Returned n) : Prop where
  value : ∀ i, r.wokenBy = some i →
    r.value ≠ 0 ∧ ∃ j d, r.since ≤ j ∧ ds[j]? = some d ∧ d.value = r.value
  source : ∀ i d t, r.source = some i → ds[i]? = some d → d.woke = some t →
    r.task = t ∧ r.wokenBy = some i

theorem Returned.Proper.append (h : r.Proper ds) (hlt : ∀ i, r.source = some i → i < ds.length)
    (e : Delivery n) : r.Proper (ds ++ [e]) where
  value i hi := by
    obtain ⟨hne, j, d, hj, hd, hv⟩ := h.value i hi
    have hjlt := (List.getElem?_eq_some_iff.mp hd).1
    exact ⟨hne, j, d, hj, (List.getElem?_append_left hjlt).trans hd, hv⟩
  source i d t hi hd := by
    rw [List.getElem?_append_left (hlt i hi)] at hd
    exact h.source i d t hi hd

theorem Returned.Proper.of_none (hw : r.wokenBy = none) (hs : r.source = none) : r.Proper ds where
  value i hi := absurd (hw.symm.trans hi) (some_ne_none i).symm
  source i _ _ hi := absurd (hs.symm.trans hi) (some_ne_none i).symm

namespace NotifyState

variable {s s' : NotifyState n} {t u : Fin n} {w : Waiter n} {since i : ℕ} {value : BitVec 64}
  {wokenBy : Option ℕ} {p : NotifyPc} {st : TaskState} {as : List (NotifyAction n)}

/-- `t` has been woken and has not fetched its value. -/
def Woken (s : NotifyState n) (t : Fin n) : Prop := (s.pc t).wokenBy ≠ none
  deriving Decidable

def takes (s : NotifyState n) : Prop := s.waiter = none ∧ s.value ≠ 0
  deriving Decidable

/-- The condition on a step: values are not 0, no one takes a value that a woken waiter has not
fetched yet, a woken waiter neither goes back nor is killed, and the mailbox does not wake a task
that waits again. -/
def Orderly (s : NotifyState n) : NotifyAction n → Prop
  | .notify value _ => value ≠ 0
  | .wait _ _ | .retry _ | .tryWait _ => s.takes → ∀ u, ¬ s.Woken u
  | .rollback t | .terminate t => ¬ s.Woken t
  | .drain w _ => s.waiter ≠ some w
  | .resume _ | .restore _ | .recycle _ _ => True

instance (s : NotifyState n) (a : NotifyAction n) : Decidable (s.Orderly a) := by
  unfold Orderly
  cases a <;> infer_instance

/-- Delivery as it should be: all calls so far have returned properly, and no woken waiter is
BLOCKED. -/
structure Delivers (s : NotifyState n) : Prop where
  returned : ∀ r ∈ s.returned, r.Proper s.delivered
  awake : ∀ t, s.Woken t → (s.tasks t).state ≠ .blocked

/-- A woken waiter that was woken by the call `i`. -/
structure WokenAt (s : NotifyState n) (t : Fin n) (since i : ℕ) : Prop where
  value : s.value ≠ 0
  waiter : s.waiter = none
  live : s.tasks.live t = true
  state : (s.tasks t).state ≠ .blocked
  since : since ≤ i
  lt : i < s.delivered.length

structure Inv (s : NotifyState n) : Prop where
  waiting : ∀ t since, s.pc t = .waiting since none → s.tasks.live t →
    s.waiter = some (s.tasks.waiter t) ∧ (s.tasks t).state = .blocked ∧ since ≤ s.delivered.length
  registered : ∀ w, s.waiter = some w → w.generation ≤ (s.tasks w.task).generation ∧
    (s.tasks.awakeable w → ∃ since, s.pc w.task = .waiting since none)
  woken : ∀ t since i, s.pc t = .waiting since (some i) → s.WokenAt t since i
  one : ∀ t u, s.Woken t → s.Woken u → t = u
  rolling : ∀ t since wokenBy, s.pc t = .rollingBack since wokenBy → wokenBy = none
  last : s.value ≠ 0 → ∃ ds d, s.delivered = ds ++ [d] ∧ d.value = s.value ∧
    ∀ t, d.woke = some t → (s.pc t).wokenBy = some ds.length
  returned : ∀ r ∈ s.returned, r.Proper s.delivered ∧
    ∀ i, r.source = some i → i < s.delivered.length

@[simp] theorem setPc_self (s : NotifyState n) (t : Fin n) (p : NotifyPc) :
    (s.setPc t p).pc t = p := update_self ..

theorem setPc_ne (s : NotifyState n) (p : NotifyPc) (h : u ≠ t) : (s.setPc t p).pc u = s.pc u :=
  update_of_ne h ..

theorem Woken.exists_waiting (h : s.Woken t) : ∃ since i, s.pc t = .waiting since (some i) := by
  unfold Woken at h
  cases hp : s.pc t with
  | idle | retrying | rollingBack _ _ =>
    rw [hp] at h
    exact absurd rfl h
  | waiting since wokenBy =>
    rw [hp] at h
    obtain ⟨i, rfl⟩ := ne_none_iff_exists'.mp h
    exact ⟨since, i, rfl⟩

theorem woken_of_waiting (h : s.pc t = .waiting since (some i)) : s.Woken t := by
  unfold Woken
  rw [h]
  exact some_ne_none i

theorem waiter_of_awakeable (h : s.tasks.awakeable w) :
    s.tasks.waiter w.task = w ∧ s.tasks.live w.task = true := by
  obtain ⟨hcur, hlive⟩ := and_eq_true_iff.mp h
  refine ⟨?_, hlive⟩
  unfold TaskTable.waiter
  rw [of_decide_eq_true hcur]

namespace Inv

variable (h : s.Inv)
include h

theorem not_woken (hw : s.waiter ≠ none ∨ s.value = 0) (t : Fin n) : ¬ s.Woken t := by
  intro ht
  obtain ⟨since, i, hp⟩ := ht.exists_waiting
  have hat := h.woken t since i hp
  exact hw.elim (fun hw => hw hat.waiter) hat.value

theorem not_waiting (hw : ∀ w, s.waiter = some w → s.tasks.awakeable w = false)
    (hlive : s.tasks.live t) : s.pc t ≠ .waiting since none := by
  intro hp
  have hreg := (h.waiting t since hp hlive).1
  exact false_ne_true ((hw _ hreg).symm.trans (and_eq_true_iff.mpr ⟨decide_eq_true rfl, hlive⟩))

theorem delivers : s.Delivers where
  returned r hr := (h.returned r hr).1
  awake t ht := by
    obtain ⟨since, i, hp⟩ := ht.exists_waiting
    exact (h.woken t since i hp).state

theorem proper (hvalue : s.value ≠ 0) (hsince : ∀ i, wokenBy = some i → since < s.delivered.length)
    (hown : ∀ u i, (s.pc u).wokenBy = some i → t = u ∧ wokenBy = some i) :
    (⟨t, s.value, s.source, since, wokenBy⟩ : Returned n).Proper s.delivered ∧
      ∀ i, s.source = some i → i < s.delivered.length := by
  obtain ⟨ds, d, hds, hd, hwoke⟩ := h.last hvalue
  have hsource : s.source = some ds.length := by
    unfold source
    rw [if_neg hvalue, hds, length_append, length_singleton, Nat.add_sub_cancel]
  have hlen : s.delivered.length = ds.length + 1 := by
    rw [hds, length_append, length_singleton]
  have hlast : s.delivered[ds.length]? = some d := by
    rw [hds, List.getElem?_append_right le_rfl, Nat.sub_self]
    rfl
  refine ⟨⟨fun i hi => ⟨hvalue, ds.length, d, ?_, hlast, hd⟩, fun i e u hi he hu => ?_⟩, fun i hi => ?_⟩
  · have hlt := hsince i hi
    rw [hlen] at hlt
    exact le_of_lt_succ hlt
  · obtain rfl := some.inj (hsource.symm.trans hi)
    obtain rfl := some.inj (hlast.symm.trans he)
    exact hown u ds.length (hwoke u hu)
  · obtain rfl := some.inj (hsource.symm.trans hi)
    omega

/-- The task `t` goes on to `p`, where it no longer waits, and its registration is gone. -/
theorem moveOn {value : BitVec 64} {waiter : Option (Waiter n)} {returned : List (Returned n)}
    (hp : ∀ k o, p ≠ .waiting k o) (hroll : ∀ k o, p = .rollingBack k o → o = none)
    (hkeep : ∀ w, waiter = some w → s.waiter = some w ∧ (s.tasks.awakeable w → w.task ≠ t))
    (hleft : ∀ u, u ≠ t → s.waiter = some (s.tasks.waiter u) → waiter = s.waiter)
    (hvalue : ∀ u, u ≠ t → s.Woken u → value ≠ 0)
    (hlast : value ≠ 0 → value = s.value ∧ ¬ s.Woken t)
    (hret : ∀ r ∈ returned, r.Proper s.delivered ∧ ∀ i, r.source = some i → i < s.delivered.length) :
    Inv { s.setPc t p with value := value, waiter := waiter, returned := returned } := by
  have hpc : ∀ u k o, (s.setPc t p).pc u = .waiting k o → u ≠ t ∧ s.pc u = .waiting k o := by
    intro u k o hq
    obtain rfl | hut := eq_or_ne u t
    · exact absurd ((setPc_self s u p).symm.trans hq) (hp k o)
    · exact ⟨hut, (setPc_ne s p hut).symm.trans hq⟩
  refine ⟨fun u k hq hl => ?_, fun w hw => ?_, fun u k i hq => ?_, fun u v hu hv => ?_,
    fun u k o hq => ?_, fun hne => ?_, hret⟩
  · obtain ⟨hut, hq⟩ := hpc u k none hq
    obtain ⟨hreg, hrest⟩ := h.waiting u k hq hl
    exact ⟨(hleft u hut hreg).trans hreg, hrest⟩
  · obtain ⟨hw, hne⟩ := hkeep w hw
    obtain ⟨hgen, hreg⟩ := h.registered w hw
    refine ⟨hgen, fun hawake => ?_⟩
    obtain ⟨k, hq⟩ := hreg hawake
    exact ⟨k, (setPc_ne s p (hne hawake)).trans hq⟩
  · obtain ⟨hut, hq⟩ := hpc u k _ hq
    have hat := h.woken u k i hq
    refine { hat with value := hvalue u hut (woken_of_waiting hq), waiter := ?_ }
    exact eq_none_iff_forall_ne_some.mpr fun w hw => nomatch hat.waiter.symm.trans (hkeep w hw).1
  · obtain ⟨k, i, hq⟩ := hu.exists_waiting
    obtain ⟨k', i', hq'⟩ := hv.exists_waiting
    exact h.one u v (woken_of_waiting (hpc u k _ hq).2) (woken_of_waiting (hpc v k' _ hq').2)
  · obtain rfl | hut := eq_or_ne u t
    · exact hroll k o ((setPc_self s u p).symm.trans hq)
    · exact h.rolling u k o ((setPc_ne s p hut).symm.trans hq)
  · obtain ⟨rfl, hno⟩ := hlast hne
    obtain ⟨ds, d, hds, hd, hwoke⟩ := h.last hne
    refine ⟨ds, d, hds, hd, fun u hu => ?_⟩
    have hut : u ≠ t := fun hut => hno (hut ▸ fun hnone => nomatch (hwoke u hu).symm.trans hnone)
    exact (congrArg wokenBy (setPc_ne s p hut)).trans (hwoke u hu)

theorem collect (hvalue : s.value ≠ 0) (hwaiter : s.waiter = none)
    (hsince : ∀ i, wokenBy = some i → since < s.delivered.length)
    (hown : ∀ u i, (s.pc u).wokenBy = some i → t = u ∧ wokenBy = some i) :
    (s.collect t since wokenBy).Inv := by
  refine h.moveOn nofun nofun (fun w hw => nomatch hwaiter.symm.trans hw) (fun _ _ _ => rfl)
    (fun u hut hu => ?_) (absurd rfl) fun r hr => ?_
  · obtain ⟨i, hi⟩ := ne_none_iff_exists'.mp hu
    exact absurd (hown u i hi).1.symm hut
  · rcases mem_cons.mp hr with rfl | hr
    · exact h.proper hvalue hsince hown
    · exact h.returned r hr

/-- A task that does not wait, or is dead, can be anywhere else. -/
theorem setPc (ht : ∀ since wokenBy, s.pc t = .waiting since wokenBy → s.tasks.live t = false)
    (hp : ∀ since wokenBy, p ≠ .waiting since wokenBy)
    (hr : ∀ since wokenBy, p ≠ .rollingBack since wokenBy) : (s.setPc t p).Inv := by
  refine h.moveOn hp (fun k o hq => absurd hq (hr k o)) (fun w hw => ⟨hw, ?_⟩) (fun _ _ _ => rfl)
    (fun u _ hu => ?_) (fun _ => ⟨rfl, fun hw => ?_⟩) h.returned
  · rintro hawake rfl
    obtain ⟨k, hq⟩ := (h.registered w hw).2 hawake
    exact false_ne_true ((ht k none hq).symm.trans (waiter_of_awakeable hawake).2)
  · obtain ⟨k, i, hq⟩ := hu.exists_waiting
    exact (h.woken u k i hq).value
  · obtain ⟨k, i, hq⟩ := hw.exists_waiting
    exact false_ne_true ((ht k _ hq).symm.trans (h.woken t k i hq).live)

theorem register (hwaiter : s.waiter = none) (hvalue : s.value = 0)
    (hlive : s.tasks.live t) : (s.register t).Inv := by
  have hno := h.not_woken (.inr hvalue)
  have hone : ∀ u k, s.tasks.live u → s.pc u ≠ .waiting k none := fun u k hl =>
    h.not_waiting (fun w hw => nomatch hwaiter.symm.trans hw) hl
  have hpc : ∀ u, u ≠ t → (s.register t).pc u = s.pc u := fun u hu => setPc_ne s _ hu
  have hself : (s.register t).pc t = .waiting s.delivered.length none := setPc_self s t _
  have htasks : (s.register t).tasks = s.tasks.setState t .blocked := rfl
  have hgen : (s.register t).tasks.waiter t = s.tasks.waiter t :=
    congrArg (Waiter.mk t) (modify_field generation rfl t)
  have hnowoken : ∀ u, ¬ (s.register t).Woken u := by
    intro u hu
    obtain ⟨k, i, hp⟩ := hu.exists_waiting
    by_cases hut : u = t
    · rw [hut, hself] at hp
      cases hp
    · exact hno u (woken_of_waiting ((hpc u hut).symm.trans hp))
  refine ⟨fun u k hp hl => ?_, fun w hw => ?_, fun u k i hp => ?_, fun u _ hu => ?_,
    fun u k o hp => ?_, absurd hvalue, h.returned⟩
  · by_cases hut : u = t
    · subst hut
      rw [hself] at hp
      cases hp
      refine ⟨congrArg some hgen.symm, ?_, le_rfl⟩
      exact congrArg state (modify_self _)
    · rw [htasks, live_setState_ne hut] at hl
      exact absurd ((hpc u hut).symm.trans hp) (hone u k hl)
  · cases hw
    exact ⟨(modify_field generation rfl t).ge, fun _ => ⟨_, hself⟩⟩
  · exact absurd (woken_of_waiting hp) (hnowoken u)
  · exact absurd hu (hnowoken u)
  · by_cases hut : u = t
    · rw [hut, hself] at hp
      cases hp
    · exact h.rolling u k o ((hpc u hut).symm.trans hp)

theorem wait (hlive : s.tasks.live t)
    (ht : ∀ since wokenBy, s.pc t = .waiting since wokenBy → s.tasks.live t = false)
    (hok : s.takes → ∀ u, ¬ s.Woken u) (err : Bool) : (s.wait t err).Inv := by
  unfold NotifyState.wait
  split_ifs with hwaiter hvalue
  · refine h.collect hvalue hwaiter nofun fun u i hu => absurd ?_ (hok ⟨hwaiter, hvalue⟩ u)
    exact fun hnone => some_ne_none i (hu.symm.trans hnone)
  · exact h.register hwaiter (not_not.mp hvalue) hlive
  all_goals exact h.setPc ht nofun nofun

theorem tryWait (hok : s.takes → ∀ u, ¬ s.Woken u) : (s.tryWait t).Inv := by
  unfold NotifyState.tryWait
  split_ifs with htakes
  · refine h.collect htakes.2 htakes.1 nofun fun u i hu => absurd ?_ (hok htakes u)
    exact fun hnone => some_ne_none i (hu.symm.trans hnone)
  · exact h

section

variable (hp : s.pc t = .waiting since wokenBy) (hlive : s.tasks.live t)
include hp hlive

theorem resume (hstate : (s.tasks t).state ≠ .blocked) : (s.collect t since wokenBy).Inv := by
  cases wokenBy with
  | none => exact absurd (h.waiting t since hp hlive).2.1 hstate
  | some i =>
    have hat := h.woken t since i hp
    refine h.collect hat.value hat.waiter (fun _ _ => hat.since.trans_lt hat.lt) fun u k hu => ?_
    have htu : t = u := h.one t u (woken_of_waiting hp) fun hnone =>
      some_ne_none k (hu.symm.trans hnone)
    subst htu
    rw [hp] at hu
    exact ⟨rfl, hu⟩

theorem rollback (hno : ¬ s.Woken t) : (s.rollback t since wokenBy).Inv := by
  have hnone : wokenBy = none := by
    unfold Woken at hno
    rw [hp] at hno
    exact not_not.mp hno
  subst hnone
  have hreg := (h.waiting t since hp hlive).1
  have hnowoken := h.not_woken (.inl (hreg ▸ some_ne_none _))
  unfold rollback
  rw [if_pos hreg]
  refine h.moveOn nofun (fun k o hq => ?_) nofun (fun u hut hu => ?_)
    (fun u _ hu => absurd hu (hnowoken u)) (fun _ => ⟨rfl, hno⟩) h.returned
  · cases hq
    rfl
  · have hsame := some.inj (hu.symm.trans hreg)
    exact absurd (congrArg Waiter.task hsame) hut

end

theorem deliver (hvalue : value ≠ 0) (hw : ∀ w, s.waiter = some w → s.tasks.awakeable w = false) :
    Inv { s with value := value, waiter := none, delivered := s.delivered ++ [⟨value, none⟩] } := by
  refine { h with waiting := fun u k hp hl => ?_, registered := nofun, woken := fun u k i hp => ?_,
                  last := fun _ => ⟨_, _, rfl, rfl, nofun⟩, returned := fun r hr => ?_ }
  · exact absurd hp (h.not_waiting hw hl)
  · have hat := h.woken u k i hp
    exact { hat with value := hvalue, waiter := rfl, lt := length_append ▸ lt_succ_of_lt hat.lt }
  · obtain ⟨hproper, hlt⟩ := h.returned r hr
    refine ⟨hproper.append hlt _, fun i hi => ?_⟩
    rw [length_append]
    exact (hlt i hi).trans_le (le_add_right _ _)

theorem deliverTo (hvalue : value ≠ 0) (hw : s.waiter = some w)
    (hawake : s.tasks.awakeable w) (remote : Bool) :
    Inv { s.wake w remote with
      value := value
      waiter := none
      delivered := s.delivered ++ [⟨value, some w.task⟩] } := by
  obtain ⟨hentry, hlive⟩ := waiter_of_awakeable hawake
  obtain ⟨since, hp⟩ := (h.registered w hw).2 hawake
  have hsince := (h.waiting w.task since hp hlive).2.2
  have hno := h.not_woken (.inl (hw ▸ some_ne_none w))
  let s₁ : NotifyState n := { s.wake w remote with
    value := value
    waiter := none
    delivered := s.delivered ++ [⟨value, some w.task⟩] }
  have hself : s₁.pc w.task = .waiting since (some s.delivered.length) := by
    change update s.pc w.task ((s.pc w.task).wake s.delivered.length) w.task = _
    rw [update_self, hp]
    rfl
  have hpc : ∀ u, u ≠ w.task → s₁.pc u = s.pc u := fun u hu => setPc_ne _ _ hu
  have hlen : s₁.delivered.length = s.delivered.length + 1 := by
    rw [length_append, length_singleton]
  have hwoken : ∀ u, s₁.Woken u → u = w.task := by
    intro u hu
    by_contra hne
    unfold Woken at hu
    rw [hpc u hne] at hu
    exact hno u hu
  refine ⟨fun u k hq hl => ?_, fun v hv => (by cases hv), fun u k i hq => ?_, fun u v hu hv => ?_,
    fun u k o hq => ?_, fun _ => ?_, fun r hr => ?_⟩
  · by_cases hu : u = w.task
    · rw [hu] at hq
      cases hself.symm.trans hq
    · have hl' : s.tasks.live u = true := (live_setState_ne hu).symm.trans hl
      have hreg := (h.waiting u k ((hpc u hu).symm.trans hq) hl').1
      have hsame : w = s.tasks.waiter u := some.inj (hw.symm.trans hreg)
      exact absurd (congrArg Waiter.task hsame).symm hu
  · obtain rfl := hwoken u (woken_of_waiting hq)
    rw [hself] at hq
    cases hq
    refine ⟨hvalue, rfl, ?_, ?_, hsince, hlen ▸ lt_succ_self _⟩
    · exact live_setState (by decide) (by decide) hlive
    · change (s.tasks.setState w.task .ready w.task).state ≠ _
      rw [TaskTable.setState, modify_self]
      exact (by decide : Sched.TaskState.ready ≠ .blocked)
  · exact (hwoken u hu).trans (hwoken v hv).symm
  · by_cases hu : u = w.task
    · rw [hu, hself] at hq
      cases hq
    · exact h.rolling u k o ((hpc u hu).symm.trans hq)
  · refine ⟨s.delivered, _, rfl, rfl, fun u hu => ?_⟩
    cases hu
    exact congrArg wokenBy hself
  · obtain ⟨hproper, hlt⟩ := h.returned r hr
    refine ⟨hproper.append hlt _, fun i hi => ?_⟩
    rw [hlen]
    exact (hlt i hi).trans (lt_succ_self _)

theorem notify (hvalue : value ≠ 0) (remote : Bool) : (s.notify value remote).Inv := by
  unfold NotifyState.notify
  cases hw : s.waiter with
  | none =>
    have hno : ∀ w, s.waiter = some w → s.tasks.awakeable w = false := fun w hw' =>
      nomatch hw.symm.trans hw'
    exact h.deliver hvalue hno
  | some w =>
    dsimp only
    split_ifs with hawake
    · exact h.deliverTo hvalue hw hawake remote
    · refine h.deliver hvalue fun v hv => ?_
      rw [← some.inj (hw.symm.trans hv)]
      exact not_eq_true _ ▸ hawake

/-- The control block of `t` changes, which is not one of a task that waits. -/
theorem modify {f : TaskInfo → TaskInfo}
    (hgen : (s.tasks t).generation ≤ (f (s.tasks t)).generation)
    (hlive : (f (s.tasks t)).generation = (s.tasks t).generation → s.tasks.live t)
    (hwait : ∀ k, s.pc t = .waiting k none → (s.tasks.modify t f).live t = false)
    (hwoken : s.Woken t → (s.tasks.modify t f).live t = true ∧ (f (s.tasks t)).state ≠ .blocked) :
    (s.setTasks (s.tasks.modify t f)).Inv := by
  have hlive_ne : ∀ u, u ≠ t → (s.tasks.modify t f).live u = s.tasks.live u := fun u hut => by
    unfold live
    rw [modify_ne f hut]
  refine { h with waiting := fun u k hp hl => ?_, registered := fun w hw => ?_,
                  woken := fun u k i hp => ?_ }
  · obtain rfl | hut := eq_or_ne u t
    · exact nomatch (hwait k hp).symm.trans hl
    · obtain ⟨hreg, hblocked, hle⟩ := h.waiting u k hp ((hlive_ne u hut).symm.trans hl)
      simp only [setTasks, TaskTable.waiter, modify_ne f hut]
      exact ⟨hreg, hblocked, hle⟩
  · obtain ⟨hle, hreg⟩ := h.registered w hw
    obtain rfl | hut := eq_or_ne w.task t
    · -- a registration of the slot's last task does not pass for one of the new task
      have hnew : (s.tasks.modify w.task f w.task).generation = _ :=
        congrArg generation (modify_self f)
      refine ⟨hle.trans (hgen.trans hnew.ge), fun hawake => hreg ?_⟩
      have hcur := hnew.symm.trans (of_decide_eq_true (current_of_awakeable hawake))
      have hsame : (s.tasks w.task).generation = w.generation := by omega
      exact and_eq_true_iff.mpr ⟨decide_eq_true hsame, hlive (hcur.trans hsame.symm)⟩
    · simp only [setTasks, awakeable, current, hlive_ne _ hut, modify_ne f hut]
      exact ⟨hle, hreg⟩
  · have hat := h.woken u k i hp
    obtain rfl | hut := eq_or_ne u t
    · obtain ⟨hl, hstate⟩ := hwoken (woken_of_waiting hp)
      exact { hat with live := hl, state := (congrArg state (modify_self f)).trans_ne hstate }
    · exact { hat with
        live := (hlive_ne u hut).trans hat.live
        state := (congrArg state (modify_ne f hut)).trans_ne hat.state }

theorem setState (hlive : s.tasks.live t)
    (ht : st = .terminated ∨ ∀ k, s.pc t ≠ .waiting k none)
    (hst : s.Woken t → st ≠ .blocked ∧ st ≠ .terminated ∧ st ≠ .reaped) :
    (s.setTasks (s.tasks.setState t st)).Inv := by
  refine h.modify le_rfl (fun _ => hlive) (fun k hp => ?_) (fun hw => ?_)
  · obtain rfl | ht := ht
    · unfold live
      rw [modify_self]
      rfl
    · exact absurd hp (ht k)
  · obtain ⟨hblocked, hterm, hreaped⟩ := hst hw
    exact ⟨live_setState hterm hreaped hlive, hblocked⟩

theorem leave (hr : r.wokenBy = none) (hs : r.source = none)
    (ht : ∀ since wokenBy, s.pc r.task ≠ .waiting since wokenBy) : (s.leave r).Inv := by
  have hpc := h.setPc (fun k o hq => absurd hq (ht k o)) (p := .idle) nofun nofun
  refine { hpc with woken := fun u k i hq => ?_, returned := fun q hq => ?_ }
  · have hat := hpc.woken u k i hq
    exact { hat with }
  · rcases mem_cons.mp hq with rfl | hq
    · exact ⟨.of_none hr hs, fun i hi => nomatch hs.symm.trans hi⟩
    · exact h.returned q hq

theorem restore (hp : s.pc t = .rollingBack since wokenBy)
    (hlive : s.tasks.live t) : (s.restore t since wokenBy).Inv := by
  have hnot : ∀ k o, s.pc t ≠ .waiting k o := fun k o hq => nomatch hp.symm.trans hq
  have hst : (s.setTasks (s.tasks.setState t .running)).Inv := by
    refine h.setState hlive (.inr fun k => hnot k none) fun hw => ?_
    obtain ⟨k, i, hq⟩ := hw.exists_waiting
    exact absurd hq (hnot k (some i))
  exact hst.leave (h.rolling t since wokenBy hp) rfl hnot

theorem drain (hw : s.waiter ≠ some w) : (s.drain w i).Inv := by
  have hmail : Inv { s with mail := s.mail.erase (w, i) } :=
    { h with woken := fun u k j hq => { h.woken u k j hq with } }
  unfold NotifyState.drain
  dsimp only
  split_ifs with hawake
  · obtain ⟨hentry, hlive⟩ := waiter_of_awakeable hawake
    have hnot : ∀ k, s.pc w.task ≠ .waiting k none := fun k hp =>
      hw ((h.waiting w.task k hp hlive).1.trans (congrArg some hentry))
    have hwake : (s.pc w.task).wake i = s.pc w.task := by
      cases hp : s.pc w.task with
      | idle | retrying | rollingBack _ _ => rfl
      | waiting k o =>
        cases o with
        | none => exact absurd hp (hnot k)
        | some _ => rfl
    have hready : (setTasks _ (s.tasks.setState w.task .ready)).Inv :=
      hmail.setState hlive (.inr hnot) fun _ => ⟨nofun, nofun, nofun⟩
    unfold ready NotifyState.setPc
    rw [hwake]
    change Inv { s with
      tasks := s.tasks.setState w.task .ready
      pc := update s.pc w.task (s.pc w.task)
      mail := s.mail.erase (w, i) }
    rw [update_eq_self]
    exact hready
  · exact hmail

theorem terminate (hlive : s.tasks.live t) (hno : ¬ s.Woken t) :
    (s.setTasks (s.tasks.setState t .terminated)).Inv :=
  h.setState hlive (.inl rfl) fun ht => absurd ht hno

theorem recycle (hdead : s.tasks.live t = false) (priority : ℕ) :
    ((s.setTasks (s.tasks.recycle t priority)).setPc t .idle).Inv := by
  have hidle : (s.setPc t .idle).Inv := h.setPc (fun _ _ _ => hdead) nofun nofun
  have hself : (s.setPc t .idle).pc t = .idle := setPc_self s t .idle
  refine hidle.modify (f := fun i => ⟨.ready, i.generation + 1, priority⟩) (le_succ _)
    (absurd · (succ_ne_self _)) (fun k hp => nomatch hself.symm.trans hp) fun hw => ?_
  exact absurd (congrArg wokenBy hself) hw

theorem step {a : NotifyAction n} (hok : s.Orderly a) (hs : s.step a = some s') : s'.Inv := by
  cases a with try obtain ⟨hlive, rfl⟩ := ite_some_none_eq_some.mp hs
  | notify value remote =>
    cases hs
    exact h.notify hok remote
  | wait t err =>
    obtain ⟨hruns, hp⟩ := hlive
    exact h.wait (live_of_runs hruns) (fun _ _ hq => nomatch hp.symm.trans hq) hok err
  | retry t =>
    obtain ⟨hruns, hp⟩ := hlive
    exact h.wait (live_of_runs hruns) (fun _ _ hq => nomatch hp.symm.trans hq) hok false
  | resume t =>
    simp only [NotifyState.step] at hs
    split at hs
    · next since wokenBy hp =>
      obtain ⟨⟨hlive, hstate⟩, rfl⟩ := ite_some_none_eq_some.mp hs
      exact h.resume hp hlive hstate
    · cases hs
  | rollback t =>
    simp only [NotifyState.step] at hs
    split at hs
    · next since wokenBy hp =>
      obtain ⟨hlive, rfl⟩ := ite_some_none_eq_some.mp hs
      exact h.rollback hp hlive hok
    · cases hs
  | restore t =>
    simp only [NotifyState.step] at hs
    split at hs
    · next since wokenBy hp =>
      obtain ⟨hlive, rfl⟩ := ite_some_none_eq_some.mp hs
      exact h.restore hp hlive
    · cases hs
  | tryWait t => exact h.tryWait hok
  | drain w i => exact h.drain hok
  | terminate t => exact h.terminate hlive hok
  | recycle t priority =>
    obtain ⟨hdead, hs⟩ := ite_none_left_eq_some.mp hs
    cases hs
    exact h.recycle (eq_false_iff.mpr hdead) priority

end Inv

theorem Start.inv (h : s.Start) : s.Inv where
  waiting t _ hp := nomatch (h.pc t).symm.trans hp
  registered _ hw := nomatch h.waiter.symm.trans hw
  woken t _ _ hp := nomatch (h.pc t).symm.trans hp
  one t _ ht := absurd (congrArg wokenBy (h.pc t)) ht
  rolling t _ _ hp := nomatch (h.pc t).symm.trans hp
  last hne := absurd h.value hne
  returned _ hr := absurd (h.returned ▸ hr) not_mem_nil

/-- In a run whose steps are orderly a woken waiter returns a value delivered after it has
registered, nobody else returns the value that has woken it, and it does not block again. -/
theorem notify_delivers (h : s.Start) (hr : Run step Orderly s as s') : s'.Delivers :=
  (hr.invariant (I := Inv) (fun _ _ _ hi hok hs => hi.step hok hs) h.inv).delivers

/-- Two tasks and a notification after `init`. -/
def unnotified : NotifyState 2 where
  tasks := fun _ => ⟨.running, 0, 1⟩
  value := 0
  waiter := none
  pc := fun _ => .idle
  mail := []
  delivered := []
  returned := []

/-- The waiter is woken on another CPU and has its value before its mailbox is drained, and the
next value is for whoever asks first. -/
theorem notify_delivers_remote : ∃ s', Run step Orderly unnotified
    [.wait 0 false, .notify 7 true, .resume 0, .drain ⟨0, 0⟩ 0, .notify 9 false, .tryWait 1] s' ∧
    s'.returned = [⟨1, 9, some 1, 2, none⟩, ⟨0, 7, some 0, 0, some 0⟩] ∧ s'.Delivers := by
  exact Run.exists_and_of_exec (by decide +kernel) fun _ hr _ =>
    notify_delivers ⟨rfl, rfl, fun _ => rfl, rfl, rfl, rfl⟩ hr

/-- A woken waiter returns without a value: a `try_wait` has taken it; it has found interrupts
disabled; or it has waited again and the mailbox has woken it for the earlier value. -/
theorem woken_waiter_empty :
    (∃ s', Run step anyStep unnotified
        [.wait 0 false, .notify 7 false, .tryWait 1, .resume 0] s' ∧
      s'.returned = [⟨0, 0, none, 0, some 0⟩, ⟨1, 7, some 0, 1, none⟩] ∧ ¬ s'.Delivers) ∧
    (∃ s', Run step anyStep unnotified
        [.wait 0 false, .notify 7 false, .rollback 0, .restore 0] s' ∧
      s'.returned = [⟨0, 0, none, 0, some 0⟩] ∧ ¬ s'.Delivers) ∧
    ∃ s', Run step anyStep unnotified
        [.wait 0 false, .notify 7 true, .resume 0, .wait 0 false, .drain ⟨0, 0⟩ 0, .resume 0] s' ∧
      s'.returned = [⟨0, 0, none, 1, some 0⟩, ⟨0, 7, some 0, 0, some 0⟩] ∧ ¬ s'.Delivers := by
  have hfirst : ∀ {s' : NotifyState 2} {r rs}, s'.returned = r :: rs → r.wokenBy = some 0 →
      r.value = 0 → ¬ s'.Delivers := fun h hw hv hd =>
    ((hd.returned _ (h ▸ mem_cons_self)).value 0 hw).1 hv
  refine ⟨?_, ?_, ?_⟩
  all_goals exact Run.exists_and_of_exec (by decide +kernel) fun _ _ hret => hfirst hret rfl rfl

end NotifyState

end Nexios.Sync
