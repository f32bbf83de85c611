import Nexios.Lib.Ring
import Nexios.Lib.Run
import Nexios.Sched.SporadicServer
import Mathlib.Algebra.Order.BigOperators.Group.List
import Mathlib.Algebra.Order.Group.Nat

/-!
# The budget of a sporadic server

A server of budget `C` and period `T` is meant to give back what a burst has used `T` ticks after
the burst began. The counter of what a burst has used is not reset when its replenishment is
scheduled at the end of the budget, and a server that a replenishment has made ACTIVE again is still
in the same burst: what it has used is then scheduled a second time, for a time that has passed.

The ledger keeps the history that the bounds are about: the bursts with what each has used, and what
has been used since a replenishment was last scheduled. In a run in which no burst uses more than
the budget it began with, and none is completed after it has been exhausted, nothing is given back
twice.
-/

open Nat

namespace Nexios.Sched

open SporadicServer List

namespace SporadicServer

variable {ss : SporadicServer}

/-- `SporadicServer::init`, with the ring cleared -/
def init (budgetC periodT bgPriority granularity : ℕ) (mode : ServerMode) : SporadicServer :=
  let periodT := if 0 < periodT then periodT else 1
  let budgetC := if budgetC ≤ periodT then budgetC else periodT
  { budgetC
    periodT
    basePriority := 2 ^ 64 - 1
    bgPriority
    budgetGranularity := if 0 < granularity then granularity else 1
    mode
    budgetRemaining := budgetC
    consumedSinceActive := 0
    activationTime := 0
    consumeCounter := 0
    lastPeriodicTick := 0
    state := .idle
    replenishments := fun _ => ⟨0, 0⟩
    replenishmentHead := 0
    replenishmentTail := 0
    replenishmentCount := 0
    coalesceCount := 0 }

def pending (ss : SporadicServer) : List Replenishment :=
  Ring.entries maxReplenishments ss.replenishments ss.replenishmentHead ss.replenishmentCount

def pendingAmount (ss : SporadicServer) : ℕ := (ss.pending.map Replenishment.amount).sum

/-- What is scheduled for times after `x`. -/
def pendingAfter (ss : SporadicServer) (x : ℕ) : ℕ :=
  ((ss.pending.filter (x < ·.time)).map Replenishment.amount).sum

structure RingOk (ss : SporadicServer) : Prop where
  head : ss.replenishmentHead < maxReplenishments
  count : ss.replenishmentCount ≤ maxReplenishments
  tail : ss.replenishmentTail =
    (ss.replenishmentHead + ss.replenishmentCount) % maxReplenishments

theorem scheduleReplenishment_eq (ss : SporadicServer) (time amount : ℕ) :
    ∃ ring tail count merged, ss.scheduleReplenishment time amount =
      { ss with
        replenishments := ring, replenishmentTail := tail
        replenishmentCount := count, coalesceCount := merged } := by
  unfold scheduleReplenishment
  split_ifs <;> exact ⟨_, _, _, _, rfl⟩

section

variable (h : RingOk ss)
include h

theorem RingOk.scheduleReplenishment (time amount : ℕ) :
    RingOk (ss.scheduleReplenishment time amount) := by
  obtain ⟨hhead, hcount, htail⟩ := h
  unfold SporadicServer.scheduleReplenishment
  split_ifs with hfull
  · exact ⟨hhead, hcount, htail⟩
  · refine ⟨hhead, lt_of_le_of_ne hcount hfull, ?_⟩
    simp only [htail, mod_add_mod, add_assoc]

theorem RingOk.pending_scheduleReplenishment (time amount : ℕ) :
    (ss.scheduleReplenishment time amount).pending = ss.pending ++ [⟨time, amount⟩] ∨
      ∃ older newest, ss.pending = older ++ [newest] ∧
        (ss.scheduleReplenishment time amount).pending =
          older ++ [⟨max time newest.time, min (newest.amount + amount) ss.budgetC⟩] := by
  obtain ⟨hhead, hcount, htail⟩ := h
  unfold SporadicServer.scheduleReplenishment
  split_ifs with hfull
  · -- the newest entry of a full ring is the eighth
    right
    have hlast : (ss.replenishmentTail + maxReplenishments - 1) % maxReplenishments =
        (ss.replenishmentHead + 7) % maxReplenishments := by
      unfold maxReplenishments at *
      omega
    refine ⟨Ring.entries maxReplenishments ss.replenishments ss.replenishmentHead 7,
      ss.replenishments ((ss.replenishmentHead + 7) % maxReplenishments), ?_, ?_⟩
    · rw [pending, hfull]
      exact Ring.entries_succ
    · simp only [hfull, hlast]
      exact Ring.entries_update (by decide) _
  · left
    simp only [htail]
    exact Ring.entries_update (lt_of_le_of_ne hcount hfull) _

theorem RingOk.pending_pop (hcount : ss.replenishmentCount ≠ 0) :
    ss.pending = ss.replenishments ss.replenishmentHead :: ss.popReplenishment.pending := by
  obtain ⟨c, hc⟩ := exists_eq_succ_of_ne_zero hcount
  simp only [pending, popReplenishment, hc, Nat.succ_eq_add_one, Nat.add_sub_cancel]
  rw [Ring.entries_cons, mod_eq_of_lt h.head]

theorem RingOk.popReplenishment (hcount : ss.replenishmentCount ≠ 0) :
    RingOk ss.popReplenishment := by
  obtain ⟨hhead, hle, htail⟩ := h
  refine ⟨mod_lt _ (by decide), (sub_le _ _).trans hle, ?_⟩
  simp only [SporadicServer.popReplenishment, htail, mod_add_mod]
  congr 1
  omega

theorem RingOk.pendingAmount_scheduleReplenishment (time amount : ℕ) :
    (ss.scheduleReplenishment time amount).pendingAmount ≤ ss.pendingAmount + amount := by
  unfold pendingAmount
  rcases h.pending_scheduleReplenishment time amount with he | ⟨older, newest, hold, he⟩
  · simp [he]
  · rw [he, hold]
    simp
    omega

theorem RingOk.pendingAfter_scheduleReplenishment (time amount : ℕ)
    (hle : ss.pendingAmount + amount ≤ ss.budgetC) (x : ℕ) :
    ss.pendingAfter x + (if x < time then amount else 0) ≤
      (ss.scheduleReplenishment time amount).pendingAfter x := by
  unfold pendingAmount at hle
  unfold pendingAfter
  rcases h.pending_scheduleReplenishment time amount with he | ⟨older, newest, hold, he⟩
  · rw [he]
    by_cases hx : x < time <;> simp [hx]
  · rw [he, hold]
    rw [hold] at hle
    simp only [map_append, List.sum_append, map_cons, sum_cons] at hle
    by_cases hx : x < time <;> by_cases hn : x < newest.time <;> simp [hx, hn] <;> omega

end

def spend (ss : SporadicServer) (counter : ℕ) : SporadicServer :=
  { ss with
    consumeCounter := counter
    budgetRemaining := ss.budgetRemaining - 1
    consumedSinceActive := ss.consumedSinceActive + 1 }

theorem consume_cases (ss : SporadicServer) :
    (∃ state counter, ss.consume.1 = { ss with state := state, consumeCounter := counter } ∧
      (state = ss.state ∨ ss.state ≠ .idle ∧ state = .exhausted)) ∨
    ss.state ≠ .idle ∧ 0 < ss.budgetRemaining ∧ ∃ counter, ss.consume.1 =
      if ss.budgetRemaining = 1 then { (ss.spend counter).scheduleConsumed with state := .exhausted }
      else ss.spend counter := by
  by_cases hidle : ss.state = .idle
  · exact .inl ⟨ss.state, ss.consumeCounter, by rw [consume, if_pos hidle], .inl rfl⟩
  by_cases hzero : ss.budgetRemaining = 0
  · exact .inl ⟨.exhausted, ss.consumeCounter, by simp [consume, hidle, hzero], .inr ⟨hidle, rfl⟩⟩
  have hone : ss.budgetRemaining - 1 = 0 ↔ ss.budgetRemaining = 1 := by omega
  by_cases hgran : 1 < ss.budgetGranularity
  · by_cases hskip : (ss.consumeCounter + 1) % ss.budgetGranularity ≠ 0
    · exact .inl ⟨ss.state, ss.consumeCounter + 1, by simp [consume, hidle, hzero, hgran, hskip],
        .inl rfl⟩
    · refine .inr ⟨hidle, by omega, ss.consumeCounter + 1, ?_⟩
      simp only [consume, hgran, hskip, and_false, if_false, if_true, hone]
      split_ifs <;> rfl
  · refine .inr ⟨hidle, by omega, ss.consumeCounter, ?_⟩
    simp only [consume, hgran, false_and, if_false, hone]
    split_ifs <;> rfl

end SporadicServer

/-! ## The ledger -/

structure Burst where
  start : ℕ
  used : ℕ
  deriving DecidableEq

open Burst

inductive ServerCall
  | onActivation
  | consume
  | onCompletion
  | processReplenishments
  deriving DecidableEq

structure ServerEvent where
  time : ℕ
  call : ServerCall
  deriving DecidableEq

structure Ledger where
  ss : SporadicServer
  /-- the time of the last call -/
  now : ℕ
  /-- the budget with which the last burst began -/
  granted : ℕ
  /-- the last burst has used up its budget, and its replenishment is scheduled -/
  settled : Bool
  /-- used since a replenishment was last scheduled -/
  unscheduled : ℕ
  /-- newest first -/
  bursts : List Burst

namespace Ledger

variable {l l' : Ledger} {t period x t₀ : ℕ} {e : ServerEvent} {base bs : List Burst}
  {es : List ServerEvent} {bound : ℕ}

def start (ss : SporadicServer) (now : ℕ) : Ledger := ⟨ss, now, 0, false, 0, []⟩

def total (l : Ledger) : ℕ := (l.bursts.map Burst.used).sum

/-- Whether a call of `consume` takes from the budget. -/
def charges (l : Ledger) : Bool := l.ss.consume.1.budgetRemaining < l.ss.budgetRemaining

def activate (l : Ledger) : Ledger :=
  if l.ss.state = .idle then
    { l with
      ss := l.ss.onActivation l.now
      granted := l.ss.budgetRemaining
      settled := false
      bursts := ⟨l.now, 0⟩ :: l.bursts }
  else { l with ss := l.ss.onActivation l.now }

def charge : List Burst → List Burst
  | [] => []
  | b :: bs => ⟨b.start, b.used + 1⟩ :: bs

def consume (l : Ledger) : Ledger :=
  if l.charges then
    -- the last of the budget is scheduled at once
    let last := l.ss.consume.1.budgetRemaining = 0
    { l with
      ss := l.ss.consume.1
      settled := l.settled || last
      unscheduled := if last then 0 else l.unscheduled + 1
      bursts := charge l.bursts }
  else { l with ss := l.ss.consume.1 }

def complete (l : Ledger) : Ledger :=
  { l with
    ss := l.ss.onCompletion
    unscheduled :=
      if l.ss.state = .active ∧ 0 < l.ss.consumedSinceActive then 0 else l.unscheduled }

def call (l : Ledger) : ServerCall → Ledger
  | .onActivation => l.activate
  | .consume => l.consume
  | .onCompletion => l.complete
  | .processReplenishments => { l with ss := l.ss.processReplenishments l.now }

/-- Calls come in the order of their times. -/
def step (l : Ledger) (e : ServerEvent) : Option Ledger :=
  if e.time < l.now then none else some ({ l with now := e.time }.call e.call)

/-- The condition on a call: the time of the replenishment has 64 bits, and a burst uses no more
than the budget it began with and is not completed once its replenishment is scheduled. -/
def WithinGrant (l : Ledger) (e : ServerEvent) : Prop :=
  l.ss.activationTime + l.ss.periodT < 2 ^ 64 ∧ match e.call with
    | .consume => l.charges → l.ss.consumedSinceActive < l.granted
    | .onCompletion => l.ss.state = .active → l.settled = false
    | _ => True

instance (l : Ledger) (e : ServerEvent) : Decidable (WithinGrant l e) := by
  unfold WithinGrant
  cases e.call <;> infer_instance

/-! ## What the bursts have used -/

/-- Used by the bursts whose replenishment comes after `x`. -/
def usedAfter (period x : ℕ) (bs : List Burst) : ℕ :=
  ((bs.filter (x < ·.start + period)).map Burst.used).sum

/-- Used by the bursts that began in the window of one period from `x`. -/
def usedIn (period x : ℕ) (bs : List Burst) : ℕ :=
  ((bs.filter fun b => x ≤ b.start ∧ b.start < x + period).map Burst.used).sum

theorem usedIn_le_usedAfter {y : ℕ} (bs : List Burst) (hxy : y < x + period) :
    usedIn period x bs ≤ usedAfter period y bs := by
  refine Sublist.sum_le_sum ((monotone_filter_right bs fun b hb => ?_).map _)
    (fun _ _ => zero_le _)
  simp only [decide_eq_true_eq] at hb ⊢
  omega

theorem pendingAfter_le (ss : SporadicServer) (x : ℕ) : ss.pendingAfter x ≤ ss.pendingAmount :=
  Sublist.sum_le_sum (filter_sublist.map _) (fun _ _ => zero_le _)

/-- The accounts of a server whose bursts are `bs`, of which `u` is not scheduled yet. -/
structure Books (ss : SporadicServer) (now u : ℕ) (bs : List Burst) : Prop where
  ring : ss.RingOk
  mode : ss.mode = .sporadic
  balance : ss.budgetRemaining + ss.pendingAmount + u ≤ ss.budgetC
  past : ∀ b ∈ bs, b.start ≤ now
  /-- what is used and not yet due is still scheduled, or not scheduled yet -/
  late : ∀ x, now ≤ x → usedAfter ss.periodT x bs ≤
    ss.pendingAfter x + if x < ss.activationTime + ss.periodT then u else 0
  windows : ∀ x, usedIn ss.periodT x bs ≤ ss.budgetC

namespace Books

variable {ss : SporadicServer} {now u : ℕ} {bs : List Burst}

variable (h : Books ss now u bs)
include h

theorem restate (state : ServerState) (counter consumed : ℕ) :
    Books { ss with state := state, consumeCounter := counter, consumedSinceActive := consumed }
      now u bs :=
  { h with ring := { h.ring with } }

theorem schedule :
    Books (ss.scheduleReplenishment (ss.activationTime + ss.periodT) u) now 0 bs := by
  have hbalance := h.balance
  have hamount := h.ring.pendingAmount_scheduleReplenishment (ss.activationTime + ss.periodT) u
  have hafter := h.ring.pendingAfter_scheduleReplenishment (ss.activationTime + ss.periodT) u
    (by omega)
  have hring := h.ring.scheduleReplenishment (ss.activationTime + ss.periodT) u
  obtain ⟨ring, tail, count, merged, he⟩ := ss.scheduleReplenishment_eq
    (ss.activationTime + ss.periodT) u
  simp only [he] at hamount hafter hring ⊢
  refine ⟨hring, h.mode, ?_, h.past, fun x hx => ?_, h.windows⟩
  · change ss.budgetRemaining + _ + 0 ≤ ss.budgetC
    omega
  · rw [ite_self]
    exact (h.late x hx).trans (hafter x)

theorem replenish (hcount : ss.replenishmentCount ≠ 0)
    (hdue : (ss.replenishments ss.replenishmentHead).time ≤ now) :
    Books { ss.popReplenishment with
      budgetRemaining := min (ss.budgetRemaining +
        (ss.replenishments ss.replenishmentHead).amount) ss.budgetC } now u bs := by
  have hpop := h.ring.pending_pop hcount
  have hring := h.ring.popReplenishment hcount
  have hbalance := h.balance
  have hamount : ss.pendingAmount =
      (ss.replenishments ss.replenishmentHead).amount + ss.popReplenishment.pendingAmount := by
    simp [pendingAmount, hpop]
  refine ⟨{ hring with }, h.mode, ?_, h.past, fun x hx => ?_, h.windows⟩
  · change min _ _ + ss.popReplenishment.pendingAmount + u ≤ ss.budgetC
    omega
  have hafter : ss.pendingAfter x = ss.popReplenishment.pendingAfter x := by
    have hnot : ¬ x < (ss.replenishments ss.replenishmentHead).time := by omega
    simp [pendingAfter, hpop, hnot]
  have hold := h.late x hx
  rw [hafter] at hold
  exact hold

end Books

structure Balanced (l : Ledger) : Prop where
  books : Books l.ss l.now l.unscheduled l.bursts
  spent : l.unscheduled = if l.settled then 0 else l.ss.consumedSinceActive
  within : l.ss.consumedSinceActive ≤ l.granted
  filled : l.ss.state ≠ .idle → l.settled = false →
    l.granted ≤ l.ss.budgetRemaining + l.ss.consumedSinceActive
  settled : l.settled → l.ss.state ≠ .idle ∧ l.ss.consumedSinceActive = l.granted
  idle : l.ss.state = .idle → l.ss.consumedSinceActive = 0
  newest : l.ss.state ≠ .idle → ∃ older,
    l.bursts = ⟨l.ss.activationTime, l.ss.consumedSinceActive⟩ :: older ∧
      usedAfter l.ss.periodT l.ss.activationTime older + l.granted ≤ l.ss.budgetC

theorem balanced_start (C T bg g now : ℕ) : Balanced (start (init C T bg g .sporadic) now) where
  books := ⟨⟨zero_lt_succ 7, zero_le _, rfl⟩, rfl, le_refl _, fun b hb => (by cases hb),
    fun _ _ => zero_le _, fun _ => zero_le _⟩
  spent := rfl
  within := le_refl _
  filled := absurd rfl
  settled := fun hs => by cases hs
  idle := fun _ => rfl
  newest := absurd rfl

section

variable (h : Balanced l)
include h

theorem Balanced.tick (ht : l.now ≤ t) : Balanced { l with now := t } where
  __ := h
  books :=
    { h.books with
      past := fun b hb => (h.books.past b hb).trans ht
      late := fun x hx => h.books.late x (ht.trans hx) }

theorem Balanced.unscheduled_idle (hidle : l.ss.state = .idle) : l.unscheduled = 0 := by
  have hopen : l.settled = false := by
    by_contra hs
    exact (h.settled (by simpa using hs)).1 hidle
  rw [h.spent, hopen, h.idle hidle]
  rfl

theorem Balanced.activate : Balanced l.activate := by
  unfold Ledger.activate
  split_ifs with hidle
  · have hzero := h.unscheduled_idle hidle
    have hbalance := h.books.balance
    -- what the older bursts have used and do not have back is scheduled
    have hlate : ∀ x, l.now ≤ x → usedAfter l.ss.periodT x l.bursts ≤ l.ss.pendingAfter x := by
      intro x hx
      have hold := h.books.late x hx
      rwa [hzero, ite_self] at hold
    simp only [onActivation, hidle]
    refine ⟨⟨{ h.books.ring with }, h.books.mode, hbalance,
      fun b hb => ?_, fun x hx => ?_, fun x => ?_⟩, hzero, zero_le _,
      fun _ _ => le_add_right _ _, fun hs => (by cases hs), fun _ => rfl,
      fun _ => ⟨l.bursts, rfl, ?_⟩⟩
    · rcases mem_cons.mp hb with rfl | hb
      · exact le_rfl
      · exact h.books.past b hb
    · refine le_trans (le_of_eq ?_) ((hlate x hx).trans (le_add_right _ _))
      by_cases hb : x < l.now + l.ss.periodT <;> simp [usedAfter, hb]
    · refine le_trans (le_of_eq ?_) (h.books.windows x)
      by_cases hb : x ≤ l.now ∧ l.now < x + l.ss.periodT <;> simp [usedIn, hb]
    · have hnow := hlate l.now le_rfl
      have hpending := pendingAfter_le l.ss l.now
      change usedAfter l.ss.periodT l.now l.bursts + l.ss.budgetRemaining ≤ l.ss.budgetC
      omega
  · have hsame : l.ss.onActivation l.now = l.ss := by
      cases hstate : l.ss.state with
      | idle => exact absurd hstate hidle
      | active | exhausted => simp [onActivation, hstate]
    rw [hsame]
    exact h

theorem Balanced.restate {state : ServerState} {counter : ℕ}
    (hstate : state = .idle ↔ l.ss.state = .idle) :
    Balanced { l with ss := { l.ss with state := state, consumeCounter := counter } } where
  books := h.books.restate state counter _
  spent := h.spent
  within := h.within
  filled := fun hs => h.filled (mt hstate.mpr hs)
  settled := fun hs => ⟨mt hstate.mp (h.settled hs).1, (h.settled hs).2⟩
  idle := fun hs => h.idle (hstate.mp hs)
  newest := fun hs => h.newest (mt hstate.mpr hs)

end

/-! ## A charge -/

section Charge

variable {period x : ℕ} {b : Burst} {bs : List Burst}

theorem start_of_mem_charge (hb : b ∈ charge bs) : ∃ c ∈ bs, c.start = b.start := by
  cases bs with
  | nil => cases hb
  | cons c bs =>
    rcases mem_cons.mp hb with rfl | hb
    · exact ⟨c, mem_cons_self, rfl⟩
    · exact ⟨b, mem_cons_of_mem _ hb, rfl⟩

theorem usedAfter_charge : usedAfter period x (charge (b :: bs)) =
      usedAfter period x (b :: bs) + if x < b.start + period then 1 else 0 := by
  by_cases hb : x < b.start + period
  · simp only [usedAfter, charge, filter_cons, hb, decide_true, if_true, map_cons, sum_cons]
    omega
  · simp [usedAfter, charge, hb]

theorem usedIn_charge_of_mem (hb : x ≤ b.start ∧ b.start < x + period) :
    usedIn period x (charge (b :: bs)) = b.used + 1 + usedIn period x bs := by
  simp [usedIn, charge, hb]

theorem usedIn_charge_of_not_mem (hb : ¬ (x ≤ b.start ∧ b.start < x + period)) :
    usedIn period x (charge (b :: bs)) = usedIn period x (b :: bs) := by
  simp [usedIn, charge, hb]

end Charge

section

variable (h : Balanced l)
include h

theorem Balanced.books_spend (hbusy : l.ss.state ≠ .idle)
    (hpos : 0 < l.ss.budgetRemaining) (hgrant : l.ss.consumedSinceActive < l.granted)
    (counter : ℕ) : Books (l.ss.spend counter) l.now (l.unscheduled + 1) (charge l.bursts) := by
  have hbalance := h.books.balance
  obtain ⟨older, hbursts, hroom⟩ := h.newest hbusy
  refine ⟨{ h.books.ring with }, h.books.mode, ?_,
    fun b hb => ?_, fun x hx => ?_, fun x => ?_⟩
  · change l.ss.budgetRemaining - 1 + l.ss.pendingAmount + (l.unscheduled + 1) ≤ l.ss.budgetC
    omega
  · obtain ⟨c, hc, hstart⟩ := start_of_mem_charge hb
    exact hstart ▸ h.books.past c hc
  · have hold := h.books.late x hx
    change usedAfter l.ss.periodT x (charge l.bursts) ≤ l.ss.pendingAfter x +
      if x < l.ss.activationTime + l.ss.periodT then l.unscheduled + 1 else 0
    rw [hbursts] at hold ⊢
    rw [usedAfter_charge]
    split_ifs at hold ⊢ <;> omega
  · by_cases hx : x ≤ l.ss.activationTime ∧ l.ss.activationTime < x + l.ss.periodT
    · rw [hbursts, usedIn_charge_of_mem hx]
      have hold := usedIn_le_usedAfter older hx.2
      change l.ss.consumedSinceActive + 1 + usedIn l.ss.periodT x older ≤ l.ss.budgetC
      omega
    · rw [hbursts, usedIn_charge_of_not_mem hx, ← hbursts]
      exact h.books.windows x

theorem Balanced.consume (hwrap : l.ss.activationTime + l.ss.periodT < 2 ^ 64)
    (hok : l.charges → l.ss.consumedSinceActive < l.granted) : Balanced l.consume := by
  unfold Ledger.consume
  rcases l.ss.consume_cases with ⟨state, counter, he, hstate⟩ | ⟨hbusy, hpos, counter, he⟩
  · have hfree : l.charges = false := by simp [charges, he]
    rw [hfree, he]
    refine h.restate ⟨fun hs => ?_, fun hs => ?_⟩
    · rcases hstate with rfl | ⟨-, rfl⟩
      · exact hs
      · cases hs
    · rcases hstate with rfl | ⟨hbusy, -⟩
      · exact hs
      · exact absurd hs hbusy
  · obtain ⟨ring, tail, count, merged, hr⟩ := (l.ss.spend counter).scheduleReplenishment_eq
      (l.ss.activationTime + l.ss.periodT) (l.ss.consumedSinceActive + 1)
    have hsched : (l.ss.spend counter).scheduleConsumed =
        (l.ss.spend counter).scheduleReplenishment (l.ss.activationTime + l.ss.periodT)
          (l.ss.consumedSinceActive + 1) :=
      scheduleConsumed_eq h.books.mode (succ_pos _) hwrap
    have hcharges : l.charges = true := by
      simp only [charges, he]
      split_ifs with hone
      · rw [hsched, hr]
        simp [spend, hone]
      · exact decide_eq_true (sub_lt hpos one_pos)
    have hgrant := hok hcharges
    have hopen : l.settled = false := by
      by_contra hs
      have := (h.settled (by simpa using hs)).2
      omega
    have hspent : l.unscheduled = l.ss.consumedSinceActive := by
      rw [h.spent, hopen]
      rfl
    have hfilled := h.filled hbusy hopen
    have hbooks := h.books_spend hbusy hpos hgrant counter
    obtain ⟨older, hbursts, hroom⟩ := h.newest hbusy
    rw [hcharges, if_pos rfl]
    by_cases hone : l.ss.budgetRemaining = 1
    · -- the budget is used up, and all that the burst has used is scheduled
      have hbooks' : Books ((l.ss.spend counter).scheduleReplenishment
          (l.ss.activationTime + l.ss.periodT) (l.ss.consumedSinceActive + 1)) l.now 0
          (charge l.bursts) := hspent ▸ hbooks.schedule
      have hlast : (l.ss.spend counter).budgetRemaining = 0 := by
        simp [spend, hone]
      rw [he, if_pos hone, hsched, hr]
      rw [hr] at hbooks'
      simp only [if_pos hlast, decide_eq_true hlast, Bool.or_true]
      refine ⟨hbooks'.restate _ _ _, rfl, hgrant, fun _ hs => (by cases hs),
        fun _ => ⟨by simp, ?_⟩, fun hs => (by cases hs),
        fun _ => ⟨older, by rw [hbursts]; rfl, hroom⟩⟩
      change l.ss.consumedSinceActive + 1 = l.granted
      omega
    · have hlast : ¬ (l.ss.spend counter).budgetRemaining = 0 := by
        simp only [spend]
        omega
      rw [he, if_neg hone]
      simp only [hlast]
      refine ⟨hbooks, ?_, hgrant, fun _ _ => ?_, fun hs => ?_, fun hs => absurd hs hbusy,
        fun _ => ⟨older, by rw [hbursts]; rfl, hroom⟩⟩
      · simp only [hopen, hspent]
        rfl
      · simp only [spend]
        omega
      · rw [hopen] at hs
        cases hs

theorem Balanced.complete (hwrap : l.ss.activationTime + l.ss.periodT < 2 ^ 64)
    (hok : l.ss.state = .active → l.settled = false) :
    Balanced l.complete := by
  unfold Ledger.complete onCompletion
  by_cases hactive : l.ss.state = .active
  · have hspent : l.unscheduled = l.ss.consumedSinceActive := by
      rw [h.spent, hok hactive]
      rfl
    have hnone : ∀ {P : Prop}, l.settled → P := by
      intro P hs
      rw [hok hactive] at hs
      cases hs
    by_cases hused : 0 < l.ss.consumedSinceActive
    · have hsched : l.ss.scheduleConsumed = l.ss.scheduleReplenishment
          (l.ss.activationTime + l.ss.periodT) l.unscheduled :=
        hspent ▸ scheduleConsumed_eq h.books.mode hused hwrap
      simp only [hactive, hused, hsched]
      exact ⟨h.books.schedule.restate _ _ _, (ite_self _).symm, zero_le _,
        absurd rfl, hnone, fun _ => rfl, absurd rfl⟩
    · have hsched : l.ss.scheduleConsumed = l.ss := by
        simp [scheduleConsumed, hused]
      simp only [hactive, hused, hsched]
      have hzero : l.unscheduled = 0 := by omega
      exact ⟨h.books.restate _ _ _, hzero.trans (ite_self _).symm, zero_le _,
        absurd rfl, hnone, fun _ => rfl, absurd rfl⟩
  · simp only [hactive]
    exact h

theorem Balanced.replenish (hcount : l.ss.replenishmentCount ≠ 0)
    (hdue : (l.ss.replenishments l.ss.replenishmentHead).time ≤ l.now) :
    Balanced { l with ss := { l.ss.popReplenishment with
      budgetRemaining := min (l.ss.budgetRemaining +
        (l.ss.replenishments l.ss.replenishmentHead).amount) l.ss.budgetC } } where
  __ := h
  books := h.books.replenish hcount hdue
  filled := fun hs ho => by
    have hbalance := h.books.balance
    have hfilled := h.filled hs ho
    change l.granted ≤ min _ _ + l.ss.consumedSinceActive
    omega

end

theorem Balanced.replenishDue (fuel : ℕ) (h : Balanced l) :
    Balanced { l with ss := replenishDue l.now fuel l.ss } := by
  induction fuel generalizing l with
  | zero => exact h
  | succ fuel ih =>
    simp only [SporadicServer.replenishDue]
    split
    · exact h
    rename_i hcount
    split
    · exact h
    refine ih ((h.replenish hcount (by omega)).restate ⟨fun hs => ?_, fun hs => ?_⟩)
    · split_ifs at hs with hwake
      exact hs
    · rw [if_neg]
      · exact hs
      · rintro ⟨-, hex⟩
        exact absurd (hs.symm.trans hex) (by decide)

theorem Balanced.step (h : Balanced l) (hok : WithinGrant l e)
    (hs : l.step e = some l') : Balanced l' := by
  unfold Ledger.step at hs
  split_ifs at hs with htime
  cases hs
  have htick := h.tick (t := e.time) (by omega)
  obtain ⟨hwrap, hok⟩ := hok
  cases hcall : e.call <;> simp only [hcall] at hok
  case onActivation => exact htick.activate
  case consume => exact htick.consume hwrap hok
  case onCompletion => exact htick.complete hwrap hok
  case processReplenishments =>
    have htop : l.ss.topUp e.time = l.ss := by
      simp [topUp, h.books.mode]
    have hdue := htick.replenishDue l.ss.replenishmentCount
    simpa only [call, processReplenishments, htop] using hdue

/-! ## Budget and period stay as configured -/

def SameConfig (ss ss' : SporadicServer) : Prop :=
  ss'.budgetC = ss.budgetC ∧ ss'.periodT = ss.periodT

theorem sameConfig_scheduleConsumed (ss : SporadicServer) : SameConfig ss ss.scheduleConsumed := by
  unfold scheduleConsumed
  split_ifs
  · obtain ⟨ring, tail, count, merged, he⟩ := ss.scheduleReplenishment_eq
      ((ss.activationTime + ss.periodT) % 2 ^ 64) ss.consumedSinceActive
    rw [he]
    exact ⟨rfl, rfl⟩
  · exact ⟨rfl, rfl⟩

theorem sameConfig_consume (ss : SporadicServer) : SameConfig ss ss.consume.1 := by
  rcases ss.consume_cases with ⟨state, counter, he, -⟩ | ⟨-, -, counter, he⟩ <;> rw [he]
  · exact ⟨rfl, rfl⟩
  · split_ifs
    · exact sameConfig_scheduleConsumed (ss.spend counter)
    · exact ⟨rfl, rfl⟩

theorem sameConfig_replenishDue (now fuel : ℕ) (ss : SporadicServer) :
    SameConfig ss (replenishDue now fuel ss) := by
  induction fuel generalizing ss with
  | zero => exact ⟨rfl, rfl⟩
  | succ fuel ih =>
    simp only [replenishDue]
    split
    · exact ⟨rfl, rfl⟩
    split
    · exact ⟨rfl, rfl⟩
    · exact ih _

theorem sameConfig_topUp (now : ℕ) (ss : SporadicServer) : SameConfig ss (ss.topUp now) := by
  unfold topUp
  split_ifs <;> exact ⟨rfl, rfl⟩

theorem sameConfig_step (hs : l.step e = some l') : SameConfig l.ss l'.ss := by
  unfold step at hs
  split_ifs at hs
  cases hs
  cases e.call with
  | onActivation =>
    simp only [call, activate, onActivation]
    cases l.ss.state <;> exact ⟨rfl, rfl⟩
  | consume =>
    simp only [call, consume]
    split_ifs <;> exact sameConfig_consume l.ss
  | onCompletion =>
    simp only [call, complete, onCompletion]
    split_ifs
    all_goals first | exact sameConfig_scheduleConsumed l.ss | exact ⟨rfl, rfl⟩
  | processReplenishments =>
    have htop := sameConfig_topUp e.time l.ss
    have hdue := sameConfig_replenishDue e.time l.ss.replenishmentCount (l.ss.topUp e.time)
    exact ⟨hdue.1.trans htop.1, hdue.2.trans htop.2⟩

/-! ## From windows of activations to windows of time -/

theorem bursts_step (hs : l.step e = some l') :
    l.now ≤ e.time ∧ l'.now = e.time ∧ (l'.bursts = l.bursts ∨
      l'.bursts = ⟨e.time, 0⟩ :: l.bursts ∨ l'.bursts = charge l.bursts) := by
  unfold step at hs
  split_ifs at hs with htime
  cases hs
  refine ⟨by omega, ?_⟩
  cases e.call with
  | onActivation =>
    simp only [call, activate]
    split_ifs
    · exact ⟨rfl, .inr (.inl rfl)⟩
    · exact ⟨rfl, .inl rfl⟩
  | consume =>
    simp only [call, consume]
    split
    · exact ⟨rfl, .inr (.inr rfl)⟩
    · exact ⟨rfl, .inl rfl⟩
  | onCompletion | processReplenishments => exact ⟨rfl, .inl rfl⟩

theorem since_step (hs : l.step e = some l') (h : t₀ ≤ l.now ∧ ∀ b ∈ l.bursts, t₀ ≤ b.start) :
    t₀ ≤ l'.now ∧ ∀ b ∈ l'.bursts, t₀ ≤ b.start := by
  obtain ⟨htime, hnow, hbursts⟩ := bursts_step hs
  refine ⟨by omega, fun b hb => ?_⟩
  rcases hbursts with he | he | he
  · exact h.2 b (he ▸ hb)
  · rw [he] at hb
    rcases mem_cons.mp hb with rfl | hb
    · exact h.1.trans htime
    · exact h.2 b hb
  · obtain ⟨c, hc, hstart⟩ := start_of_mem_charge (he ▸ hb)
    exact hstart ▸ h.2 c hc

/-- The bursts of a run whose calls are in the window of one period from `x`: those that began in
the window, and before them those of its start, of which only the newest has been charged. -/
def Grown (period x : ℕ) (base bs : List Burst) : Prop :=
  ∃ new tail, bs = new ++ tail ∧ (∀ b ∈ new, x ≤ b.start ∧ b.start < x + period) ∧
    (tail = base ∨ ∃ b older u, base = b :: older ∧ tail = ⟨b.start, u⟩ :: older)

theorem Grown.charge (h : Grown period x base bs) : Grown period x base (charge bs) := by
  obtain ⟨new, tail, rfl, hnew, htail⟩ := h
  cases new with
  | cons b new =>
    refine ⟨Ledger.charge (b :: new), tail, rfl, fun c hc => ?_, htail⟩
    obtain ⟨d, hd, hstart⟩ := start_of_mem_charge hc
    exact hstart ▸ hnew d hd
  | nil =>
    refine ⟨[], Ledger.charge tail, rfl, hnew, ?_⟩
    rcases htail with rfl | ⟨b, older, u, hbase, rfl⟩
    · cases tail with
      | nil => exact .inl rfl
      | cons b older => exact .inr ⟨b, older, b.used + 1, rfl, rfl⟩
    · exact .inr ⟨b, older, u + 1, hbase, rfl⟩

theorem grown_of_run {ok : Ledger → ServerEvent → Prop} (hrun : Run step ok l es l')
    (hwindow : ∀ e ∈ es, x ≤ e.time ∧ e.time < x + period) (h : Grown period x base l.bursts) :
    Grown period x base l'.bursts := by
  induction hrun with
  | nil l => exact h
  | @cons l m _ e _ _ hs _ ih =>
    refine ih (fun e he => hwindow e (mem_cons_of_mem _ he)) ?_
    obtain ⟨-, -, he | he | he⟩ := bursts_step hs
    · exact he ▸ h
    · obtain ⟨new, tail, hbs, hnew, htail⟩ := h
      refine ⟨⟨e.time, 0⟩ :: new, tail, by rw [he, hbs]; rfl, fun c hc => ?_, htail⟩
      rcases mem_cons.mp hc with rfl | hc
      · exact hwindow e mem_cons_self
      · exact hnew c hc
    · exact he ▸ h.charge

theorem used_le_usedIn (hperiod : 0 < period) {b : Burst}
    (hb : b ∈ bs) : b.used ≤ usedIn period b.start bs := by
  refine single_le_sum (fun _ _ => zero_le _) _ (mem_map_of_mem ?_)
  exact mem_filter.mpr ⟨hb, by simp [hperiod]⟩

theorem Grown.total_le (hperiod : 0 < period) (h : Grown period x base bs)
    (hwindows : ∀ y, usedIn period y bs ≤ bound) :
    (bs.map used).sum ≤ (base.map used).sum + 2 * bound := by
  obtain ⟨new, tail, rfl, hnew, htail⟩ := h
  have hall : usedIn period x new = (new.map used).sum := by
    rw [usedIn, filter_eq_self.mpr (by simpa using hnew)]
  have hpart : usedIn period x new ≤ usedIn period x (new ++ tail) := by
    simp [usedIn]
  have hx := hwindows x
  rw [map_append, List.sum_append]
  rcases htail with rfl | ⟨b, older, u, rfl, rfl⟩
  · omega
  · have hb := (used_le_usedIn (b := ⟨b.start, u⟩) hperiod
      (mem_append_right new mem_cons_self)).trans (hwindows b.start)
    simp only [map_cons, sum_cons]
    change u ≤ bound at hb
    omega

theorem sum_used_le (t₀ k : ℕ) (hbs : ∀ b ∈ bs, t₀ ≤ b.start ∧ b.start < t₀ + k * period)
    (hwindows : ∀ x, usedIn period x bs ≤ bound) : (bs.map used).sum ≤ k * bound := by
  induction k generalizing bs with
  | zero =>
    cases bs with
    | nil => simp
    | cons b bs =>
      have := hbs b mem_cons_self
      omega
  | succ k ih =>
    -- the bursts of the last period, and those before it
    have hsplit : (bs.map used).sum =
        ((bs.filter (·.start < t₀ + k * period)).map used).sum +
          usedIn period (t₀ + k * period) bs := by
      have hperm := ((filter_append_perm (·.start < t₀ + k * period) bs).map used).sum_eq
      rw [map_append, List.sum_append] at hperm
      rw [← hperm, usedIn]
      congr 3
      refine filter_congr fun b hb => ?_
      have hb := hbs b hb
      rw [succ_mul] at hb
      simp only [← decide_not, decide_eq_decide]
      omega
    have hearly := @ih (bs.filter (·.start < t₀ + k * period))
      (fun b hb => ⟨(hbs b (mem_of_mem_filter hb)).1, by simpa using (mem_filter.mp hb).2⟩)
      (fun x => le_trans (Sublist.sum_le_sum ((filter_sublist.filter _).map _)
        (fun _ _ => zero_le _)) (hwindows x))
    have hlast := hwindows (t₀ + k * period)
    rw [succ_mul]
    omega

structure Started (C T t₀ : ℕ) (l : Ledger) : Prop where
  balanced : Balanced l
  budget : l.ss.budgetC = C
  period : l.ss.periodT = T
  since : t₀ ≤ l.now ∧ ∀ b ∈ l.bursts, t₀ ≤ b.start

theorem Started.run {C T : ℕ} (h : Started C T t₀ l) (hrun : Run step WithinGrant l es l') :
    Started C T t₀ l' := by
  refine hrun.invariant (I := Started C T t₀) (fun l e l' hl hok hs => ?_) h
  have hconfig := sameConfig_step hs
  exact ⟨hl.balanced.step hok hs, hconfig.1.trans hl.budget, hconfig.2.trans hl.period,
    since_step hs hl.since⟩

theorem Started.windows {C T : ℕ} (h : Started C T t₀ l) (x : ℕ) : usedIn T x l.bursts ≤ C := by
  simpa only [h.budget, h.period] using h.balanced.books.windows x

theorem init_period_pos (C T bg g : ℕ) (mode : ServerMode) : 0 < (init C T bg g mode).periodT := by
  unfold init
  simp only
  split_ifs
  · assumption
  · exact one_pos

/-- In a run whose calls all meet the condition, what remains, what is scheduled and what is used
but not scheduled yet stay within the budget; any further run within a window of one period uses at
most twice the budget; and the whole run uses at most one budget per begun period. -/
theorem budget_bound (C T bg g t₀ : ℕ) {es : List ServerEvent}
    (hrun : Run step WithinGrant (start (init C T bg g .sporadic) t₀) es l) :
    let server := init C T bg g .sporadic
    l.ss.budgetRemaining + l.ss.pendingAmount + l.unscheduled ≤ server.budgetC ∧
      (∀ x es' l', Run step WithinGrant l es' l' →
        (∀ e ∈ es', x ≤ e.time ∧ e.time < x + server.periodT) →
          l'.total ≤ l.total + 2 * server.budgetC) ∧
      l.total ≤ ((l.now - t₀) / server.periodT + 1) * server.budgetC := by
  intro server
  have hperiod : 0 < server.periodT := init_period_pos C T bg g .sporadic
  have hl : Started server.budgetC server.periodT t₀ l :=
    Started.run ⟨balanced_start C T bg g t₀, rfl, rfl, le_refl _, fun b hb => (by cases hb)⟩ hrun
  refine ⟨?_, fun x es' l' hrun' hwindow => ?_, ?_⟩
  · simpa only [hl.budget] using hl.balanced.books.balance
  · have hgrown : Grown server.periodT x l.bursts l'.bursts :=
      grown_of_run hrun' hwindow ⟨[], l.bursts, rfl, fun b hb => (by cases hb), .inl rfl⟩
    exact hgrown.total_le hperiod (hl.run hrun').windows
  refine sum_used_le t₀ _ (fun b hb => ⟨hl.since.2 b hb, ?_⟩) hl.windows
  have hpast := hl.balanced.books.past b hb
  have hbegun := Nat.lt_mul_div_succ (l.now - t₀) hperiod
  rw [Nat.mul_comm] at hbegun
  omega

/-- A server of budget 2 and period 10 that runs a burst of one tick and then, after its
replenishment, a burst of two. -/
theorem budget_bound_two_bursts : ∃ l, Run step WithinGrant (start (init 2 10 5 1 .sporadic) 0)
    [⟨0, .onActivation⟩, ⟨1, .consume⟩, ⟨2, .onCompletion⟩, ⟨10, .processReplenishments⟩,
      ⟨12, .onActivation⟩, ⟨13, .consume⟩, ⟨14, .consume⟩] l ∧
    l.total = 3 ∧ l.ss.budgetRemaining + l.ss.pendingAmount + l.unscheduled ≤ 2 := by
  exact Run.exists_and_of_exec (by decide +kernel) fun _ hrun _ => (budget_bound 2 10 5 1 0 hrun).1

/-- A burst that exhausts its budget of 2, is made ACTIVE again by its replenishment and then
completes is scheduled twice: 2 remain and 2 are pending. If it goes on instead, 6 ticks are
charged between the times 10 and 20. -/
theorem replenished_twice :
    (∃ l, Run step anyStep (start (init 2 10 5 1 .sporadic) 0)
      [⟨0, .onActivation⟩, ⟨1, .consume⟩, ⟨2, .consume⟩, ⟨10, .processReplenishments⟩,
        ⟨11, .onCompletion⟩] l ∧
      l.ss.budgetRemaining = 2 ∧ l.ss.pendingAmount = 2 ∧ l.ss.budgetC = 2) ∧
    (∃ l l', Run step anyStep (start (init 2 10 5 1 .sporadic) 0)
      [⟨0, .onActivation⟩, ⟨1, .consume⟩, ⟨2, .consume⟩] l ∧
      Run step anyStep l
        [⟨10, .processReplenishments⟩, ⟨11, .consume⟩, ⟨12, .consume⟩, ⟨13, .processReplenishments⟩,
          ⟨14, .consume⟩, ⟨15, .consume⟩, ⟨16, .processReplenishments⟩, ⟨17, .consume⟩,
          ⟨18, .consume⟩] l' ∧
      l.total = 2 ∧ l'.total = 8) := by
  refine ⟨Run.exists_of_exec (by decide +kernel), ?_⟩
  simp only [exists_and_left]
  exact Run.exists_imp_of_exec (fun l => (exec step anyStep l _).any
    (fun l' => decide (l.total = 2 ∧ l'.total = 8)) = true) (by decide +kernel)
    fun l _ he => Run.exists_of_exec he

end Ledger

end Nexios.Sched
