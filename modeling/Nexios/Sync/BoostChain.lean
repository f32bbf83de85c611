import Mathlib.Data.Fintype.Prod
import Nexios.Sync.MutexInheritance

/-!
# The chain of a priority boost

`inherit_priority` raises the owner of a mutex and goes on to the mutex for which that owner waits,
where `reevaluate` does the same, whatever the owners wait for. Every further call has a strict
increase before it, and an increase is always to a priority that some task had at the start: the
number of pairs of a task and a greater priority decreases, also on a chain that runs in a circle.
-/

open Function Option List

namespace Nexios.Sync.State

/-- A call on `x` that starts from the priority `p` calls `reevaluate` on the mutexes `zs` in turn,
raises a priority `k` times and ends in `s'`: `inherit_priority` starts from the priority of the
waiter, `reevaluate` from 0. -/
inductive Boosts {n m : ℕ} : ℕ → State n m → Fin m → List (Fin m) → ℕ → State n m → Prop
  | none {p s x} (h : ∀ o, s.owner x = some o → s.maxPrio x p ≤ s.prio o) : Boosts p s x [] 0 s
  | last {p s x o} (ho : s.owner x = some o) (hlt : s.prio o < s.maxPrio x p)
      (hw : s.waitsOn o = none) : Boosts p s x [] 1 (s.lend x o (s.maxPrio x p))
  | next {p s x o y zs k s'} (ho : s.owner x = some o) (hlt : s.prio o < s.maxPrio x p)
      (hw : s.waitsOn o = some y) (h : Boosts 0 (s.lend x o (s.maxPrio x p)) y zs k s') :
      Boosts p s x (y :: zs) (k + 1) s'

variable {n m : ℕ} {s s' : State n m} {o : Fin n} {x y z : Fin m} {p k fuel : ℕ}
  {zs : List (Fin m)} {b : Fin n → ℕ} {Z : Fin m → Prop}

theorem Boosts.length_le (h : Boosts p s x zs k s') : zs.length ≤ k := by
  induction h with
  | none _ | last _ _ _ => exact Nat.zero_le _
  | next _ _ _ _ ih => exact Nat.succ_le_succ ih

theorem Boosts.reevaluate (h : Boosts 0 s x zs k s') (hfuel : zs.length ≤ fuel) :
    s.reevaluate (fuel + 1) x = some s' := by
  generalize hp : 0 = p at h
  induction h generalizing fuel with (subst hp; unfold State.reevaluate)
  | none h =>
    split
    · rfl
    · next o ho => exact if_neg (not_lt.mpr (h o ho))
  | last ho hlt hw =>
    unfold waitsOn at hw
    simp only [ho, if_pos hlt, hw]
  | next ho hlt hw _ ih =>
    unfold waitsOn at hw
    simp only [ho, if_pos hlt, hw]
    cases fuel with
    | zero => cases hfuel
    | succ fuel => exact ih (Nat.le_of_succ_le_succ hfuel) rfl

theorem Boosts.inheritPriority {t : Fin n} (h : Boosts (s.prio t) s x zs k s')
    (hfuel : zs.length ≤ n * n) : s.inheritPriority x t = some s' := by
  unfold State.inheritPriority
  cases h with
  | none h =>
    split
    · rfl
    · next o ho => exact if_neg (not_lt.mpr (h o ho))
  | last ho hlt hw =>
    unfold waitsOn at hw
    simp only [ho, if_pos hlt, hw]
  | next ho hlt hw h =>
    unfold waitsOn at hw
    simp only [ho, if_pos hlt, hw]
    exact h.reevaluate (Nat.le_of_succ_le hfuel)

/-! ## A chain ends -/

/-- The pairs of a task and a greater one of the priorities `b`. -/
def deficit (b : Fin n → ℕ) (s : State n m) : Finset (Fin n × Fin n) :=
  Finset.univ.filter (fun a => s.prio a.1 < b a.2)

theorem prio_le_lend (hlt : s.prio o < p) (u : Fin n) : s.prio u ≤ (s.lend x o p).prio u := by
  rw [lend_prio]
  exact le_update_self_iff.mpr hlt.le u

theorem deficit_lend (hlt : s.prio o < p) (hp : p ∈ Set.range b) :
    (deficit b (s.lend x o p)).card < (deficit b s).card := by
  obtain ⟨v, rfl⟩ := hp
  refine Finset.card_lt_card (Finset.ssubset_iff_of_subset ?_ |>.mpr ⟨(o, v), ?_, ?_⟩)
  · refine Finset.monotone_filter_right _ fun a _ ha => ?_
    exact (prio_le_lend hlt a.1).trans_lt ha
  · simpa [deficit] using hlt
  · simp [deficit, lend_prio]

section

variable (hb : ∀ u, s.prio u ∈ Set.range b) (hp : p = 0 ∨ p ∈ Set.range b)
include hb hp

theorem maxPrio_mem_range (hlt : s.prio o < s.maxPrio x p) : s.maxPrio x p ∈ Set.range b := by
  obtain ⟨hle, hmem⟩ := maxPrio_le_iff.mp (le_refl (s.maxPrio x p))
  by_contra hnot
  -- then every priority that is compared is less than their maximum
  have hless : s.maxPrio x p ≤ s.maxPrio x p - 1 := by
    refine maxPrio_le_iff.mpr ⟨?_, fun w hw => ?_⟩
    · have hne : p ≠ s.maxPrio x p := by
        intro he
        rcases hp with h0 | hp
        · omega
        · exact hnot (he ▸ hp)
      omega
    · have hne : s.prio w.task ≠ s.maxPrio x p := fun he => hnot (he ▸ hb w.task)
      have := hmem w hw
      omega
  omega

theorem exists_boosts : ∃ zs k s', Boosts p s x zs k s' ∧ k ≤ (deficit b s).card := by
  induction hd : (deficit b s).card using Nat.strong_induction_on generalizing s p x with
  | _ d ih =>
    subst hd
    by_cases hraise : ∃ o, s.owner x = some o ∧ s.prio o < s.maxPrio x p
    · obtain ⟨o, ho, hlt⟩ := hraise
      have hmem := maxPrio_mem_range hb hp hlt
      have hless := deficit_lend (x := x) hlt hmem
      cases hw : s.waitsOn o with
      | none => exact ⟨_, _, _, .last ho hlt hw, Nat.one_le_of_lt hless⟩
      | some y =>
        have hb' : ∀ u, (s.lend x o (s.maxPrio x p)).prio u ∈ Set.range b := by
          intro u
          rw [lend_prio, update_apply]
          split_ifs
          · exact hmem
          · exact hb u
        obtain ⟨zs, k, s', h, hk⟩ := ih _ hless hb' (.inl rfl) rfl
        exact ⟨_, _, _, .next ho hlt hw h, hk.trans_lt hless⟩
    · refine ⟨_, _, _, .none fun o ho => ?_, Nat.zero_le _⟩
      exact not_lt.mp fun hlt => hraise ⟨o, ho, hlt⟩

end

/-! ## What a chain leaves behind -/

/-- The owner of `z` has at least the priorities that the waiters had at the start, and at least the
priority of each task that waits for `z`. -/
def Served (b : Fin n → ℕ) (s : State n m) (z : Fin m) : Prop :=
  ∀ o, s.owner z = some o → ∀ w ∈ s.waiters z, b w.task ≤ s.prio o ∧
    (s.waitsOn w.task = some z → s.prio w.task ≤ s.prio o)

/-- Only the mutex for which the raised owner waits may be left unserved. -/
theorem served_lend (hb : ∀ u, b u ≤ s.prio u) (ho : s.owner x = some o)
    (hlt : s.prio o < s.maxPrio x p) (hZ : ∀ z, Z z → z ≠ x → Served b s z) (hz : Z z ∨ z = x)
    (hw : s.waitsOn o ≠ some z) : Served b (s.lend x o (s.maxPrio x p)) z := by
  have hmono := prio_le_lend (x := x) hlt
  have hlent := Lent.lend s x o (s.maxPrio x p)
  intro o' ho' w hmem
  rw [hlent.owner_eq] at ho'
  rw [hlent.waiters_eq] at hmem
  rw [hlent.waitsOn_eq]
  by_cases hzx : z = x
  · subst hzx
    obtain rfl := some.inj (ho.symm.trans ho')
    have hle := (maxPrio_le_iff.mp (le_refl (s.maxPrio z p))).2 w hmem
    simp only [lend_prio, update_self]
    refine ⟨(hb w.task).trans hle, fun _ => ?_⟩
    rw [update_apply]
    split_ifs
    · exact le_rfl
    · exact hle
  · obtain ⟨hold, hwait⟩ := hZ z (hz.resolve_right hzx) hzx o' ho' w hmem
    refine ⟨hold.trans (hmono o'), fun hwz => ?_⟩
    have hne : w.task ≠ o := fun he => hw (he ▸ hwz)
    have hsame : (s.lend x o (s.maxPrio x p)).prio w.task = s.prio w.task := by
      rw [lend_prio, update_of_ne hne]
    exact hsame ▸ (hwait hwz).trans (hmono o')

theorem Boosts.served (h : Boosts p s x zs k s') (hb : ∀ u, b u ≤ s.prio u)
    (hZ : ∀ z, Z z → z ≠ x → Served b s z) (hz : Z z ∨ z ∈ x :: zs) : Served b s' z := by
  induction h generalizing Z with
  | @none p s x h =>
    by_cases hzx : z = x
    · subst hzx
      intro o ho w hmem
      have hle := (maxPrio_le_iff.mp (h o ho)).2 w hmem
      exact ⟨(hb w.task).trans hle, fun _ => hle⟩
    · exact hZ z (hz.resolve_right (by simpa using hzx)) hzx
  | last ho hlt hw =>
    exact served_lend hb ho hlt hZ (by simpa using hz) (by rw [hw]; nofun)
  | @next p s x o y zs k s' ho hlt hw h ih =>
    refine ih (Z := fun z => Z z ∨ z = x) (fun u => (hb u).trans (prio_le_lend hlt u)) ?_ ?_
    · intro z hz hzy
      refine served_lend hb ho hlt hZ hz ?_
      rw [hw]
      exact fun he => hzy (some.inj he).symm
    · rcases hz with hz | hz
      · exact .inl (.inl hz)
      · exact (mem_cons.mp hz).imp_left .inr

theorem Boosts.prio_mono (h : Boosts p s x zs k s') (u : Fin n) : s.prio u ≤ s'.prio u := by
  induction h with
  | none _ => exact le_rfl
  | last _ hlt _ => exact prio_le_lend hlt u
  | next _ hlt _ _ ih => exact (prio_le_lend hlt u).trans ih

theorem Boosts.start_le (h : Boosts p s x zs k s') (ho : s.owner x = some o) : p ≤ s'.prio o := by
  refine ((maxPrio_le_iff (x := x)).mp le_rfl).1.trans (?_ : s.maxPrio x p ≤ s'.prio o)
  have hself : (s.lend x o (s.maxPrio x p)).prio o = s.maxPrio x p := by
    rw [lend_prio, update_self]
  cases h with
  | none h => exact h o ho
  | last ho' _ _ =>
    obtain rfl := some.inj (ho.symm.trans ho')
    exact hself.ge
  | next ho' _ _ h =>
    obtain rfl := some.inj (ho.symm.trans ho')
    exact hself.ge.trans (h.prio_mono o)

/-- `inherit_priority` returns in every state, with at most as many calls of `reevaluate` as there
are increases. Afterwards the owner of each mutex on the chain has at least the priority of its
waiters; the task that calls is not among them yet, and counts with the priority it called with. -/
theorem inheritPriority_returns (s : State n m) (x : Fin m) (t : Fin n) :
    ∃ s' zs k, s.inheritPriority x t = some s' ∧ Boosts (s.prio t) s x zs k s' ∧ zs.length ≤ k ∧
      (∀ o, s'.owner x = some o → s.prio t ≤ s'.prio o) ∧
      ∀ z ∈ x :: zs, Served s.prio s' z := by
  obtain ⟨zs, k, s', h, hk⟩ := exists_boosts (x := x) (fun u => Set.mem_range_self (f := s.prio) u)
    (.inr (Set.mem_range_self t))
  have hcard : (deficit s.prio s).card ≤ n * n := by
    refine (Finset.card_filter_le _ _).trans_eq ?_
    rw [Finset.card_univ, Fintype.card_prod, Fintype.card_fin]
  have hret := h.inheritPriority (h.length_le.trans (hk.trans hcard))
  refine ⟨s', zs, k, hret, h, h.length_le, fun o ho => ?_, fun z hz => ?_⟩
  · rw [(Lent.inheritPriority hret).owner_eq] at ho
    exact h.start_le ho
  · exact h.served (Z := fun _ => False) (fun _ => le_rfl) nofun (.inr hz)

end Nexios.Sync.State
