import Nexios.Sched.ServerBudget

/-!
# The periodic top-up

A deferrable or background server gets its whole budget back in the first call of
`process_replenishments` that comes a period or more after the reference tick. The reference tick
starts at 0, and a call moves it on by two periods at most. After a longer gap it stays behind, and
the calls that follow restore the budget again and again.

`TopUps` keeps the times at which the budget was restored and at which it was charged. Period `k`
begins at `k * T`.
-/

namespace Nexios.Sched

open SporadicServer List

structure TopUps where
  ss : SporadicServer
  now : ℕ
  restores : List ℕ := []
  charges : List ℕ := []

namespace TopUps

variable {C T k t : ℕ} {s s' : TopUps} {e : ServerEvent}

def call (s : TopUps) (now : ℕ) : ServerCall → TopUps
  | .onActivation => ⟨s.ss.onActivation now, now, s.restores, s.charges⟩
  | .consume =>
    let ss := s.ss.consume.1
    ⟨ss, now, s.restores,
      if ss.budgetRemaining < s.ss.budgetRemaining then now :: s.charges else s.charges⟩
  | .onCompletion => ⟨s.ss.onCompletion, now, s.restores, s.charges⟩
  | .processReplenishments =>
    let ss := s.ss.processReplenishments now
    ⟨ss, now, if ss.lastPeriodicTick ≠ s.ss.lastPeriodicTick then now :: s.restores else s.restores,
      s.charges⟩

def step (s : TopUps) (e : ServerEvent) : Option TopUps :=
  if s.now ≤ e.time then some (s.call e.time e.call) else none

/-- The condition on a call: `process_replenishments` comes before three periods have passed since
the reference tick, and `consume` before one has. -/
def Punctual (s : TopUps) (e : ServerEvent) : Prop :=
  match e.call with
  | .processReplenishments => e.time < s.ss.lastPeriodicTick + 3 * s.ss.periodT
  | .consume => e.time < s.ss.lastPeriodicTick + s.ss.periodT
  | _ => True

instance (s : TopUps) (e : ServerEvent) : Decidable (s.Punctual e) := by
  unfold Punctual
  exact match e.call with
  | .onActivation | .consume | .onCompletion | .processReplenishments => inferInstance

/-- The reference tick begins period `k`, and of its budget the rest is left at most. -/
structure Inv (C T k : ℕ) (s : TopUps) : Prop where
  mode : s.ss.mode ≠ .sporadic
  budget : s.ss.budgetC = C
  period : s.ss.periodT = T
  ring : s.ss.replenishmentCount = 0
  tick : s.ss.lastPeriodicTick = k * T
  past : k * T ≤ s.now
  length : s.restores.length ≤ k
  once : (s.restores.map (· / T)).Nodup
  upTo : ∀ t ∈ s.restores ++ s.charges, t / T ≤ k
  within : ∀ j, s.charges.countP (· / T = j) ≤ C
  left : s.charges.countP (· / T = k) + s.ss.budgetRemaining ≤ C

namespace Inv

variable (h : Inv C T k s)
include h

theorem quiet (ht : s.now ≤ t) (state : ServerState) (activation counter consumed : ℕ) :
    Inv C T k ⟨{ s.ss with
      state := state, activationTime := activation, consumeCounter := counter
      consumedSinceActive := consumed }, t, s.restores, s.charges⟩ :=
  { h with past := h.past.trans ht }

theorem charge (ht : s.now ≤ t) (hlt : t < k * T + T) (hpos : 0 < s.ss.budgetRemaining)
    (counter : ℕ) : Inv C T k ⟨s.ss.spend counter, t, s.restores, t :: s.charges⟩ := by
  have hleft := h.left
  have hk : t / T = k := Nat.div_eq_of_lt_le (h.past.trans ht) (by rwa [Nat.succ_mul])
  refine { h with past := h.past.trans ht, upTo := ?upTo, within := fun j => ?within, left := ?left }
  case upTo =>
    intro r hr
    rcases perm_middle.mem_iff.mp hr with _ | ⟨_, hr⟩
    · exact hk.le
    · exact h.upTo r hr
  case within =>
    rw [countP_cons]
    split_ifs with hj
    · obtain rfl : k = j := hk.symm.trans (of_decide_eq_true hj)
      omega
    · exact h.within j
  case left =>
    simp only [countP_cons, hk, decide_true, if_true, spend]
    omega

theorem consume (ht : s.now ≤ t) (hlt : t < k * T + T) : Inv C T k (s.call t .consume) := by
  unfold call
  rcases s.ss.consume_cases with ⟨state, counter, he, -⟩ | ⟨-, hpos, counter, he⟩
  · simp only [he, lt_self_iff_false]
    exact h.quiet ht state _ counter _
  have hspend : (s.ss.spend counter).scheduleConsumed = s.ss.spend counter :=
    if_neg fun hc => h.mode hc.1
  have hless : (s.ss.spend counter).budgetRemaining < s.ss.budgetRemaining :=
    Nat.sub_lt hpos Nat.one_pos
  have hcharge := h.charge ht hlt hpos counter
  rw [hspend] at he
  split_ifs at he <;> simp only [he, if_pos hless]
  · exact hcharge.quiet le_rfl .exhausted _ _ _
  · exact hcharge

theorem restore {steps : ℕ} (hsteps : 0 < steps) (hk : t / T = k + steps)
    (hpast : (k + steps) * T ≤ t) (state : ServerState) :
    Inv C T (k + steps) ⟨{ s.ss with
      lastPeriodicTick := s.ss.lastPeriodicTick + steps * s.ss.periodT
      budgetRemaining := s.ss.budgetC, state := state }, t, t :: s.restores, s.charges⟩ := by
  have hlen := h.length
  have hnone : s.charges.countP (· / T = k + steps) = 0 := by
    refine countP_eq_zero.mpr fun r hr hj => ?_
    have hle := h.upTo r (mem_append_right _ hr)
    rw [of_decide_eq_true hj] at hle
    omega
  refine { h with
    tick := by rw [h.tick, h.period, Nat.add_mul], past := hpast, length := by rw [length_cons]; omega
    once := nodup_cons.mpr ⟨fun hmem => ?once, h.once⟩, upTo := fun r hr => ?upTo
    left := by rw [hnone, Nat.zero_add]; exact h.budget.le }
  case once =>
    obtain ⟨r, hr, heq⟩ := mem_map.mp hmem
    have hle := h.upTo r (mem_append_left _ hr)
    rw [show r / T = t / T from heq] at hle
    omega
  case upTo =>
    rcases mem_cons.mp hr with rfl | hr
    · exact hk.le
    · exact (h.upTo r hr).trans (Nat.le_add_right _ _)

theorem topUp (ht : s.now ≤ t) (hlt : t < k * T + 3 * T) (hT : 0 < T) :
    ∃ j, Inv C T j (s.call t .processReplenishments) := by
  have hring : s.ss.processReplenishments t = s.ss.topUp t := by
    rw [processReplenishments, h.ring, replenishDue]
  by_cases hdue : k * T + T ≤ t
  · -- the reference tick catches up, since at most two boundaries have been passed
    obtain ⟨steps, hsteps, hpos, hle, hnext⟩ : ∃ steps,
        (if s.ss.lastPeriodicTick + 2 * s.ss.periodT ≤ t then 2 else 1) = steps ∧ 0 < steps ∧
          k * T + steps * T ≤ t ∧ t < k * T + steps * T + T := by
      rw [h.tick, h.period]
      by_cases htwo : k * T + 2 * T ≤ t
      · exact ⟨2, if_pos htwo, by omega, htwo, by omega⟩
      · exact ⟨1, if_neg htwo, by omega, by omega, by omega⟩
    have htop : s.ss.topUp t = { s.ss with
        lastPeriodicTick := s.ss.lastPeriodicTick + steps * s.ss.periodT
        budgetRemaining := s.ss.budgetC
        state := if s.ss.state = .exhausted then .active else s.ss.state } := by
      rw [SporadicServer.topUp, if_pos ⟨h.mode, h.period ▸ hT, by rwa [h.tick, h.period]⟩]
      simp only [hsteps]
    have hmoved : s.ss.lastPeriodicTick + steps * s.ss.periodT ≠ s.ss.lastPeriodicTick := by
      rw [h.period]
      omega
    refine ⟨k + steps, ?_⟩
    simp only [call, hring, htop, if_pos hmoved]
    refine h.restore hpos (Nat.div_eq_of_lt_le ?_ ?_) ?_ _
    · rwa [Nat.add_mul]
    · rwa [Nat.succ_mul, Nat.add_mul]
    · rwa [Nat.add_mul]
  · have hsame : s.ss.topUp t = s.ss := if_neg fun hc => by
      rw [h.tick, h.period] at hc
      exact hdue hc.2.2
    refine ⟨k, ?_⟩
    simp only [call, hring, hsame, ne_eq]
    exact h.quiet ht _ _ _ _

theorem step (hT : 0 < T) (hok : s.Punctual e) (hs : s.step e = some s') : ∃ j, Inv C T j s' := by
  obtain ⟨htime, rfl⟩ := Option.ite_some_none_eq_some.mp hs
  unfold Punctual at hok
  rw [h.tick, h.period] at hok
  cases hcall : e.call <;> simp only [hcall] at hok
  case onActivation =>
    refine ⟨k, ?_⟩
    simp only [call, onActivation]
    split <;> exact h.quiet htime _ _ _ _
  case consume => exact ⟨k, h.consume htime hok⟩
  case onCompletion =>
    have hnone : s.ss.scheduleConsumed = s.ss := if_neg fun hc => h.mode hc.1
    refine ⟨k, ?_⟩
    simp only [call, onCompletion, hnone]
    split_ifs <;> exact h.quiet htime _ _ _ _
  case processReplenishments => exact h.topUp htime hok hT

end Inv

/-- In a run whose calls are all punctual, no two restores fall into one period, there are no more
of them than boundaries have been passed, and in no period more than the budget is charged. -/
theorem topUp_disciplined (C T bg g t₀ : ℕ) {mode : ServerMode} (hmode : mode ≠ .sporadic)
    {es : List ServerEvent} (hrun : Run step Punctual ⟨init C T bg g mode, t₀, [], []⟩ es s) :
    let server := init C T bg g mode
    (s.restores.map (· / server.periodT)).Nodup ∧ s.restores.length ≤ s.now / server.periodT ∧
      ∀ k, s.charges.countP (· / server.periodT = k) ≤ server.budgetC := by
  intro server
  have hT : 0 < server.periodT := Ledger.init_period_pos C T bg g mode
  obtain ⟨k, h⟩ : ∃ k, Inv server.budgetC server.periodT k s := by
    refine hrun.invariant (I := fun s => ∃ k, Inv server.budgetC server.periodT k s)
      (fun s e s' ⟨k, h⟩ hok hs => h.step hT hok hs) ⟨0, ?_⟩
    exact ⟨hmode, rfl, rfl, rfl, (Nat.zero_mul _).symm, by simp, le_rfl, nodup_nil, by simp,
      by simp, by simp [server, init]⟩
  exact ⟨h.once, h.length.trans ((Nat.le_div_iff_mul_le hT).mpr h.past), h.within⟩

/-- A call that is two periods late, and then charges in the period it has caught up with. -/
theorem topUp_disciplined_late :
    ∃ s, Run step Punctual ⟨init 2 10 5 1 .deferrable, 0, [], []⟩
      [⟨23, .processReplenishments⟩, ⟨23, .onActivation⟩, ⟨24, .consume⟩, ⟨25, .consume⟩,
        ⟨30, .processReplenishments⟩] s ∧
      s.restores = [30, 23] ∧ (s.restores.map (· / 10)).Nodup := by
  exact Run.exists_and_of_exec (by decide +kernel) fun _ hrun _ =>
    (topUp_disciplined 2 10 5 1 0 (by decide) hrun).1

/-- A server of budget 2 and period 10 that is first seen at tick 100 is restored three times and
charged six times in the period from 100 to 110. -/
theorem restored_after_gap :
    ∃ s, Run step anyStep ⟨init 2 10 5 1 .deferrable, 0, [], []⟩
      [⟨100, .onActivation⟩, ⟨100, .consume⟩, ⟨101, .consume⟩, ⟨101, .processReplenishments⟩,
        ⟨102, .consume⟩, ⟨103, .consume⟩, ⟨103, .processReplenishments⟩, ⟨104, .consume⟩,
        ⟨105, .consume⟩, ⟨105, .processReplenishments⟩] s ∧
      s.restores = [105, 103, 101] ∧ s.charges.countP (· / 10 = 10) = 6 ∧ s.ss.budgetC = 2 :=
  Run.exists_of_exec (by decide +kernel)

end TopUps

end Nexios.Sched
