import Mathlib.Order.Bounds.Basic
import Nexios.Lib.Update

/-!
# Priority inheritance

Tasks wait for one another, each for at most one: `next t` is the task that `t` waits for. The law
of priority inheritance is that the priority of a task is the greatest base priority among itself
and the tasks that wait for it, directly or through others. When a task begins to wait, its priority
is carried along the chain it waits for, as far as the priorities there are lower. When a task ends
the wait of all who wait for it, its own priority alone changes, to its base priority. Cycles of
waiting tasks are no exception.
-/

open Function Option

namespace Nexios.Inheritance

open Relation

variable {T P : Type*} {next next' : T → Option T} {base prio : T → P} {s t u v w c o : T} {p : P}

/-- The task `u` is `t`, or waits for it, directly or through others. -/
def Reaches (next : T → Option T) (u t : T) : Prop :=
  ReflTransGen (fun a b => next a = some b) u t

/-- The priority `p` is the base priority of `t` or of a task that waits for it. -/
def Sourced (next : T → Option T) (base : T → P) (t : T) (p : P) : Prop :=
  ∃ u, Reaches next u t ∧ p = base u

theorem Sourced.step (h : Sourced next base t p) (ht : next t = some u) :
    Sourced next base u p := by
  obtain ⟨s, hs, hp⟩ := h
  exact ⟨s, hs.tail ht, hp⟩

/-- A chain that ends elsewhere does not come through a task that does not wait. -/
theorem Reaches.avoid (huv : Reaches next u v) (ht : next t = none)
    (hkept : ∀ w u, u ≠ t → next w = some u → next' w = some u) (hv : v ≠ t) :
    Reaches next' u v := by
  induction huv with
  | refl => exact .refl
  | tail _ hstep ih =>
    rename_i b c _
    have hb : b ≠ t := by
      rintro rfl
      rw [ht] at hstep
      cases hstep
    exact (ih hb).tail (hkept b c hv hstep)

variable [LinearOrder P]

structure Law (next : T → Option T) (base prio : T → P) : Prop where
  base_le : ∀ t, base t ≤ prio t
  le_next : ∀ w t, next w = some t → prio w ≤ prio t
  sourced : ∀ t, Sourced next base t (prio t)

namespace Law

variable (h : Law next base prio)
include h

theorem prio_le_of_reaches (hut : Reaches next u t) : prio u ≤ prio t := by
  induction hut with
  | refl => exact le_rfl
  | tail _ hstep ih => exact ih.trans (h.le_next _ _ hstep)

/-- The priority is the greatest of the base priorities of the task and those that wait for it. -/
theorem isGreatest (t : T) : IsGreatest {p | Sourced next base t p} (prio t) := by
  refine ⟨h.sourced t, ?_⟩
  rintro p ⟨u, hut, rfl⟩
  exact (h.base_le u).trans (h.prio_le_of_reaches hut)

/-- The law for one task: its priority is its base priority, or that of a task that waits for it. -/
theorem eq_base_or (t : T) : prio t = base t ∨ ∃ w, next w = some t ∧ prio t = prio w := by
  obtain ⟨u, hut, hp⟩ := h.sourced t
  obtain rfl | ⟨w, huw, hw⟩ := (ReflTransGen.cases_tail_iff _ _ _).mp hut
  · exact .inl hp
  · refine .inr ⟨w, hw, le_antisymm ?_ (h.le_next w t hw)⟩
    rw [hp]
    exact (h.base_le u).trans (h.prio_le_of_reaches huw)

end Law

/-! ## A task begins to wait -/

/-- The law, but for the priority `p` of tasks that wait for `c`. -/
structure Rising (next : T → Option T) (base prio : T → P) (c : T) (p : P) : Prop where
  base_le : ∀ t, base t ≤ prio t
  le_next : ∀ w t, next w = some t → prio w ≤ prio t ∨ t = c ∧ prio w ≤ p
  sourced : ∀ t, Sourced next base t (prio t)
  lifted : Sourced next base c p

theorem Rising.law (h : Rising next base prio c p) (hp : p ≤ prio c) : Law next base prio := by
  refine ⟨h.base_le, fun w t hw => ?_, h.sourced⟩
  obtain hle | ⟨rfl, hle⟩ := h.le_next w t hw
  · exact hle
  · exact hle.trans hp

variable [DecidableEq T]

theorem Reaches.update (hut : Reaches next u t) (hs : next s = none) :
    Reaches (update next s (some o)) u t := by
  refine .mono (fun a b hab => ?_) _ _ hut
  have ha : a ≠ s := by
    rintro rfl
    rw [hs] at hab
    cases hab
  rw [update_of_ne ha]
  exact hab

theorem Law.rising (h : Law next base prio) (hs : next s = none) :
    Rising (update next s (some o)) base prio o (prio s) := by
  have hsourced : ∀ t p, Sourced next base t p → Sourced (update next s (some o)) base t p :=
    fun t p ⟨u, hut, hp⟩ => ⟨u, hut.update hs, hp⟩
  refine ⟨h.base_le, fun w t hw => ?_, fun t => hsourced t _ (h.sourced t), ?_⟩
  · obtain ⟨rfl, hot⟩ | ⟨-, hw⟩ := eq_or_of_update hw
    · exact .inr ⟨(some.inj hot).symm, le_rfl⟩
    · exact .inl (h.le_next w t hw)
  · exact (hsourced s _ (h.sourced s)).step (update_self ..)

namespace Rising

variable (h : Rising next base prio c p)
include h

/-- The edges into `c` hold when `c` has the priority `p`, and so do the others that do not begin
at `c`. -/
theorem le_update (hlt : prio c < p) (hw : next w = some t)
    (hwc : w ≠ c) : update prio c p w ≤ update prio c p t := by
  rw [update_of_ne hwc]
  by_cases htc : t = c
  · subst htc
    rw [update_self]
    exact (h.le_next w t hw).elim (fun hle => hle.trans hlt.le) And.right
  · rw [update_of_ne htc]
    exact (h.le_next w t hw).resolve_right (fun hc => htc hc.1)

theorem base_le_update (hlt : prio c < p) : ∀ t, base t ≤ update prio c p t :=
  le_update_iff.mpr ⟨(h.base_le c).trans hlt.le, fun t _ => h.base_le t⟩

theorem sourced_update : ∀ t, Sourced next base t (update prio c p t) :=
  (forall_update_iff prio (Sourced next base)).mpr ⟨h.lifted, fun t _ => h.sourced t⟩

/-- The task is raised, and the one that it waits for is looked at next. -/
theorem lift (hlt : prio c < p) (hc : next c = some o) :
    Rising next base (update prio c p) o p := by
  refine ⟨h.base_le_update hlt, fun w t hw => ?_, h.sourced_update, h.lifted.step hc⟩
  by_cases hwc : w = c
  · subst hwc
    rw [hc] at hw
    exact .inr ⟨(some.inj hw).symm, (update_self ..).le⟩
  · exact .inl (h.le_update hlt hw hwc)

theorem law_of_lift (hlt : prio c < p) (hc : next c = none) : Law next base (update prio c p) := by
  refine ⟨h.base_le_update hlt, fun w t hw => ?_, h.sourced_update⟩
  have hwc : w ≠ c := by
    rintro rfl
    rw [hc] at hw
    cases hw
  exact h.le_update hlt hw hwc

end Rising

/-! ## A wait ends -/

/-- The task `t`, which does not wait, ends the waits of all who wait for it; those that are to wait
for another task have a lower priority than that. The priority of `t` is its base priority again. -/
theorem Law.release (h : Law next base prio) (ht : next t = none)
    (hnone : ∀ w, next' w ≠ some t) (hkept : ∀ w u, u ≠ t → next w = some u → next' w = some u)
    (hnew : ∀ w u, next' w = some u → next w = some u ∨ w ≠ t ∧ prio w ≤ prio u) :
    Law next' base (update prio t (base t)) := by
  have hto : ∀ w u, next' w = some u → w ≠ t ∧ u ≠ t := by
    intro w u hw
    refine ⟨?_, fun hu => hnone w (hu ▸ hw)⟩
    rintro rfl
    obtain hold | ⟨hne, -⟩ := hnew w u hw
    · rw [ht] at hold
      cases hold
    · exact hne rfl
  refine ⟨le_update_iff.mpr ⟨le_rfl, fun v _ => h.base_le v⟩, fun w u hw => ?_,
    (forall_update_iff prio (Sourced next' base)).mpr ⟨⟨t, .refl, rfl⟩, fun v hv => ?_⟩⟩
  · obtain ⟨hwt, hut⟩ := hto w u hw
    rw [update_of_ne hwt, update_of_ne hut]
    exact (hnew w u hw).elim (h.le_next w u) And.right
  · obtain ⟨u, huv, hp⟩ := h.sourced v
    exact ⟨u, huv.avoid ht hkept hv, hp⟩

/-! ## The law for direct waits -/

/-- The priority of a task is the greatest of its base priority and the priorities of those that
wait for it directly. -/
structure DirectLaw (next : T → Option T) (base prio : T → P) : Prop where
  base_le : ∀ t, base t ≤ prio t
  le_next : ∀ w t, next w = some t → prio w ≤ prio t
  attained : ∀ t, prio t = base t ∨ ∃ w, next w = some t ∧ prio w = prio t

variable (h : DirectLaw next base prio) {prio' : T → P}
include h

/-- Only the waits for the task `o` and the priority of `o` change, and `o` does not wait itself
unless its priority stays. -/
theorem DirectLaw.retarget (hnext : ∀ w t, t ≠ o → (next' w = some t ↔ next w = some t))
    (hprio : ∀ t, t ≠ o → prio' t = prio t) (hout : prio' o = prio o ∨ next o = none)
    (hbase : base o ≤ prio' o) (hle : ∀ w, next' w = some o → prio' w ≤ prio' o)
    (hattained : prio' o = base o ∨ ∃ w, next' w = some o ∧ prio' w = prio' o) :
    DirectLaw next' base prio' := by
  -- a task that waits for another one than `o` has the priority it had
  have hkept : ∀ w t, next w = some t → prio' w = prio w := by
    intro w t hw
    by_cases hwo : w = o
    · subst hwo
      refine hout.elim id fun hnone => ?_
      rw [hnone] at hw
      cases hw
    · exact hprio w hwo
  refine ⟨fun t => ?_, fun w t hw => ?_, fun t => ?_⟩
  · by_cases ht : t = o
    · exact ht ▸ hbase
    · rw [hprio t ht]
      exact h.base_le t
  · by_cases ht : t = o
    · subst ht
      exact hle w hw
    · have hw' := (hnext w t ht).mp hw
      rw [hprio t ht, hkept w t hw']
      exact h.le_next w t hw'
  · by_cases ht : t = o
    · exact ht ▸ hattained
    · rw [hprio t ht]
      refine (h.attained t).imp id fun ⟨w, hw, he⟩ => ⟨w, (hnext w t ht).mpr hw, ?_⟩
      rw [hkept w t hw, he]

/-- Nobody waits for `o` any more, which has its base priority again. -/
theorem DirectLaw.disband (ho : prio o = base o ∨ next o = none) :
    DirectLaw (fun w => if next w = some o then none else next w) base
      (update prio o (base o)) := by
  have hself : update prio o (base o) o = base o := update_self ..
  refine h.retarget (fun w u hu => ?_) (fun u hu => update_of_ne hu ..) ?_ hself.ge
    (fun w hw => ?_) (.inl hself)
  · split_ifs with hw
    · rw [hw]
      exact iff_of_false nofun fun he => hu (some.inj he).symm
    · rfl
  · rw [hself]
    exact ho.imp Eq.symm id
  · obtain ⟨hne, hw⟩ := ite_none_left_eq_some.mp hw
    exact absurd hw hne

theorem DirectLaw.leave (ht : next t = some o) (hprio : ∀ u, u ≠ o → prio' u = prio u)
    (hout : prio' o = prio o ∨ next o = none) (hbase : base o ≤ prio' o)
    (hle : ∀ w, w ≠ t → next w = some o → prio' w ≤ prio' o)
    (hattained : prio' o = base o ∨ ∃ w, w ≠ t ∧ next w = some o ∧ prio' w = prio' o) :
    DirectLaw (update next t none) base prio' := by
  have hedge : ∀ w u, update next t none w = some u ↔ w ≠ t ∧ next w = some u := by
    intro w u
    by_cases hw : w = t
    · subst hw
      simp
    · simp [hw]
  refine h.retarget (fun w u hu => ?_) hprio hout hbase (fun w hw => ?_)
    (hattained.imp id fun ⟨w, hwt, hw, he⟩ => ⟨w, (hedge w o).mpr ⟨hwt, hw⟩, he⟩)
  · rw [hedge]
    refine and_iff_right_of_imp fun hw hwt => hu ?_
    rw [hwt, ht] at hw
    exact (some.inj hw).symm
  · obtain ⟨hwt, hw⟩ := (hedge w o).mp hw
    exact hle w hwt hw

/-- The task `t` begins to wait for `o`, which is raised if need be and does not wait itself. -/
theorem DirectLaw.join (ht : next t = none) (hne : t ≠ o)
    (hfree : prio o < prio t → next o = none) :
    DirectLaw (update next t (some o)) base (update prio o (max (prio o) (prio t))) := by
  have hedge : ∀ w u, update next t (some o) w = some u ↔ (w = t ∧ u = o) ∨ next w = some u := by
    intro w u
    by_cases hw : w = t
    · subst hw
      simp [ht, eq_comm]
    · simp [hw]
  have hself : update prio o (max (prio o) (prio t)) o = max (prio o) (prio t) := update_self ..
  have hother : ∀ u, u ≠ o → update prio o (max (prio o) (prio t)) u = prio u :=
    fun u hu => update_of_ne hu ..
  refine h.retarget (fun w u hu => ?_) hother ?_ ?_ (fun w hw => ?_) ?_
  · rw [hedge]
    exact or_iff_right fun hw => hu hw.2
  · rw [hself]
    rcases lt_or_ge (prio o) (prio t) with hlt | hge
    · exact .inr (hfree hlt)
    · exact .inl (max_eq_left hge)
  · rw [hself]
    exact (h.base_le o).trans (le_max_left ..)
  · rw [hself]
    by_cases hwo : w = o
    · rw [hwo, hself]
    · rw [hother w hwo]
      rcases (hedge w o).mp hw with ⟨rfl, -⟩ | hw
      · exact le_max_right ..
      · exact (h.le_next w o hw).trans (le_max_left ..)
  · rw [hself]
    rcases lt_or_ge (prio o) (prio t) with hlt | hge
    · refine .inr ⟨t, (hedge t o).mpr (.inl ⟨rfl, rfl⟩), ?_⟩
      exact (hother t hne).trans (max_eq_right hlt.le).symm
    · rw [max_eq_left hge, update_eq_self]
      exact (h.attained o).imp id fun ⟨w, hw, he⟩ => ⟨w, (hedge w o).mpr (.inr hw), he⟩

end Nexios.Inheritance
