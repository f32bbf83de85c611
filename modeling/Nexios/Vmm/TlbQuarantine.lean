import Nexios.Lib.Run
import Nexios.Lib.Sum

/-!
# The quarantine behind the TLB shootdown

Invalidations are recorded in a queue and applied in batches: `coalesce_and_apply` takes the queue
under the lock and works through it without the lock. A page that is to be freed waits in the
quarantine until `release_all` or a tick returns it to the PMM, after applying what is queued. Any
number of contexts, tasks and ticks on all CPUs, run these functions at the same time.

Requests and holds are numbered as they are accepted, and a hold carries the number of requests
before it.
-/

open Function List

namespace Nexios.Vmm

structure Request where
  va : ℕ
  pcid : ℕ
  deriving DecidableEq

structure Pending extends Request where
  num : ℕ

structure Held where
  phys : ℕ
  deadline : ℕ
  id : ℕ
  /-- the number of requests accepted before the hold -/
  stamp : ℕ

inductive ShootdownError
  | ok | queueFull | quarantineFull | invalid

def maxPending : ℕ := 64
def maxQuarantine : ℕ := 64
def maxPerTick : ℕ := 8
def timeoutTicks : ℕ := 100
def purgeGroupThreshold : ℕ := 8

/-- Where a context stands; `next` is what follows `coalesce_and_apply` in the caller. -/
inductive Phase
  | idle
  | collect (next : Phase)
  | apply (rest : List Pending) (next : Phase)
  | take
  | free (due : List Held)

namespace Phase

def rest : Phase → List Pending
  | apply rest _ => rest
  | _ => []

def due : Phase → List Held
  | collect next => next.due
  | apply _ next => next.due
  | free due => due
  | _ => []

end Phase

structure TlbState (k : ℕ) where
  pending : List Pending
  quarantine : List Held
  phase : Fin k → Phase
  requests : ℕ
  applied : ℕ → Bool
  holds : ℕ
  /-- what has been passed to `PMM::free_page` -/
  returned : List Held

inductive TlbAction (k : ℕ)
  | request (va pcid : ℕ)
  | hold (phys ticks : ℕ) (allocated : Bool)
  | coalesceAndApply (c : Fin k)
  | releaseAll (c : Fin k)
  | onTick (c : Fin k) (now : ℕ) (locked : Bool)
  | resume (c : Fin k)

/-- One round of the loop over a batch: what is applied, by a purge of the context or by a flush of
one address, and what remains. -/
def applyNext : List Pending → List Pending × List Pending
  | [] => ([], [])
  | e :: rest =>
    if purgeGroupThreshold ≤ ((e :: rest).filter fun r => r.pcid == e.pcid).length then
      (e :: rest).partition fun r => r.pcid == e.pcid
    else ([e], rest)

/-- The pages that a tick takes from the quarantine, and those it keeps. -/
def takeDue (now : ℕ) : ℕ → List Held → List Held × List Held
  | _, [] => ([], [])
  | room, h :: l =>
    if h.deadline ≤ now ∧ 0 < room then
      (h :: (takeDue now (room - 1) l).1, (takeDue now (room - 1) l).2)
    else ((takeDue now room l).1, h :: (takeDue now room l).2)

namespace TlbState

variable {k : ℕ} {s s' : TlbState k} {c : Fin k} {p : Phase}

def init : TlbState k := ⟨[], [], fun _ => .idle, 0, fun _ => false, 0, []⟩

variable (s : TlbState k)

def setPhase (c : Fin k) (p : Phase) : TlbState k :=
  { s with phase := Function.update s.phase c p }

def request (va pcid : ℕ) : ShootdownError × TlbState k :=
  if va % 4096 ≠ 0 then (.invalid, s)
  else if s.pending.any fun e => e.toRequest == ⟨va, pcid⟩ then (.ok, s)
  else if maxPending ≤ s.pending.length then (.queueFull, s)
  else (.ok, { s with
    pending := s.pending ++ [⟨⟨va, pcid⟩, s.requests⟩]
    requests := s.requests + 1 })

def hold (phys ticks : ℕ) (allocated : Bool) : ShootdownError × TlbState k :=
  if phys % 4096 ≠ 0 ∨ phys = 0 then (.invalid, s)
  else if !allocated then (.invalid, s)
  else if maxQuarantine ≤ s.quarantine.length then (.quarantineFull, s)
  else (.ok, { s with
    quarantine := s.quarantine ++ [⟨phys, (ticks + timeoutTicks) % 2 ^ 64, s.holds, s.requests⟩]
    holds := s.holds + 1 })

def onTick (c : Fin k) (now : ℕ) (locked : Bool) : TlbState k :=
  if locked then s
  else
    let taken := takeDue now maxPerTick s.quarantine
    { s with quarantine := taken.2 }.setPhase c
      (if taken.1.isEmpty then .idle else .collect (.free taken.1))

def resume (c : Fin k) : Option (TlbState k) :=
  match s.phase c with
  | .idle => none
  | .collect next => some ({ s with pending := [] }.setPhase c (.apply s.pending next))
  | .apply [] next => some (s.setPhase c next)
  | .apply (e :: rest) next =>
    let r := applyNext (e :: rest)
    some ({ s with applied := fun i => s.applied i || r.1.any fun r => r.num == i }.setPhase c
      (.apply r.2 next))
  | .take => some ({ s with quarantine := [] }.setPhase c (.free s.quarantine))
  | .free [] => some (s.setPhase c .idle)
  | .free (h :: due) => some ({ s with returned := h :: s.returned }.setPhase c (.free due))

def isIdle (c : Fin k) : Bool :=
  match s.phase c with
  | .idle => true
  | _ => false

def step : TlbAction k → Option (TlbState k)
  | .request va pcid => some (s.request va pcid).2
  | .hold phys ticks allocated => some (s.hold phys ticks allocated).2
  | .coalesceAndApply c => if s.isIdle c then some (s.setPhase c (.collect .idle)) else none
  | .releaseAll c => if s.isIdle c then some (s.setPhase c (.collect .take)) else none
  | .onTick c now locked => if s.isIdle c then some (s.onTick c now locked) else none
  | .resume c => s.resume c

/-! ## The property -/

def occurs (i : ℕ) (l : List Held) : ℕ := (l.map Held.id).count i

/-- Every accepted hold is in quarantine, or on its way in one context, or returned, once. -/
def ExactlyOnce : Prop :=
  ∀ i, occurs i s.quarantine + ∑ c, occurs i (s.phase c).due + occurs i s.returned =
    if i < s.holds then 1 else 0

/-- What has been returned was held after requests that have all been applied. -/
def Flushed : Prop := ∀ h ∈ s.returned, ∀ i < h.stamp, s.applied i = true

/-- Nothing that has been taken from the queue is still to be applied. -/
def NoneInFlight : Prop := ∀ c, (s.phase c).rest.isEmpty = true
  deriving Decidable

/-- No batch is in flight when a tick that will return pages takes the queue; when `release_all`
takes pages from the quarantine, nothing is queued either. -/
def Ready : Phase → Prop
  | .collect next => next.due.isEmpty = false → s.NoneInFlight
  | .take => s.quarantine.isEmpty = false → s.pending.isEmpty = true ∧ s.NoneInFlight
  | _ => True

def Settled : TlbAction k → Prop
  | .resume c => s.Ready (s.phase c)
  | _ => True

variable {s}

instance (s : TlbState k) (p : Phase) : Decidable (s.Ready p) := by
  unfold Ready
  split <;> infer_instance

instance (s : TlbState k) (a : TlbAction k) : Decidable (s.Settled a) := by
  unfold Settled
  split <;> infer_instance

instance (s : TlbState k) : Decidable s.Flushed := inferInstanceAs (Decidable (∀ h ∈ _, ∀ i < _, _))

/-! ## Counting the holds -/

theorem occurs_cons (i : ℕ) (h : Held) (l : List Held) :
    occurs i (h :: l) = occurs i l + if h.id = i then 1 else 0 := by
  simp [occurs, count_cons]

theorem occurs_append (i : ℕ) (l l' : List Held) : occurs i
    (l ++ l') = occurs i l + occurs i l' := by
  simp [occurs]

theorem occurs_takeDue (i now room : ℕ) (l : List Held) :
    occurs i (takeDue now room l).1 + occurs i (takeDue now room l).2 = occurs i l := by
  induction l generalizing room with
  | nil => rfl
  | cons h l ih =>
    rw [takeDue]
    split_ifs
    · have hrest := ih (room - 1)
      simp only [occurs_cons]
      omega
    · have hrest := ih room
      simp only [occurs_cons]
      omega

theorem ExactlyOnce.move (h : s.ExactlyOnce) (hphase : s'.phase = update s.phase c p)
    (hholds : s'.holds = s.holds)
    (hmove : ∀ i, occurs i s'.quarantine + occurs i p.due + occurs i s'.returned =
      occurs i s.quarantine + occurs i (s.phase c).due + occurs i s.returned) : s'.ExactlyOnce := by
  intro i
  have htotal := total_update (fun p : Phase => occurs i p.due) s.phase c p
  rw [hphase, hholds, ← h i]
  have := hmove i
  omega

/-! ## The invariant -/

/-- Of the requests before the pages a context will return, those not applied are in its batch. -/
def Covered (applied : ℕ → Bool) : Phase → Prop
  | .apply rest next => ∀ h ∈ next.due, ∀ i < h.stamp, applied i = true ∨ ∃ e ∈ rest, e.num = i
  | .free due => ∀ h ∈ due, ∀ i < h.stamp, applied i = true
  | _ => True

structure Inv (s : TlbState k) : Prop where
  once : s.ExactlyOnce
  flushed : s.Flushed
  covered : ∀ c, Covered s.applied (s.phase c)
  tracked : ∀ i < s.requests, s.applied i = true ∨ (∃ e ∈ s.pending, e.num = i) ∨
    ∃ c, ∃ e ∈ (s.phase c).rest, e.num = i
  held : ∀ h ∈ s.quarantine, h.stamp ≤ s.requests
  due : ∀ c, ∀ h ∈ (s.phase c).due, h.stamp ≤ s.requests

theorem inv_init : (init : TlbState k).Inv where
  once i := by simp [init, occurs, Phase.due]
  flushed _ h := by cases h
  covered _ := trivial
  tracked _ h := absurd h (Nat.not_lt_zero _)
  held _ h := by cases h
  due _ _ h := by cases h

theorem mem_takeDue {now room : ℕ} {l : List Held} {h : Held}
    (hh : h ∈ (takeDue now room l).1 ∨ h ∈ (takeDue now room l).2) : h ∈ l := by
  induction l generalizing room with
  | nil => rcases hh with hh | hh <;> cases hh
  | cons x l ih =>
    rw [takeDue] at hh
    split_ifs at hh <;> simp only [mem_cons] at hh ⊢
    · rcases hh with (hh | hh) | hh
      exacts [.inl hh, .inr (ih (.inl hh)), .inr (ih (.inr hh))]
    · rcases hh with hh | hh | hh
      exacts [.inr (ih (.inl hh)), .inl hh, .inr (ih (.inr hh))]

theorem phase_of_isIdle (h : s.isIdle c) : s.phase c = .idle := by
  unfold isIdle at h
  split at h
  · assumption
  · cases h

theorem mem_applyNext {l : List Pending} {e : Pending} (he : e ∈ l) :
    e ∈ (applyNext l).1 ∨ e ∈ (applyNext l).2 := by
  cases l with
  | nil => cases he
  | cons x l =>
    rw [applyNext]
    split_ifs
    · rw [partition_eq_filter_filter]
      simp only [mem_filter, he, true_and, Function.comp_apply, Bool.not_eq_true']
      exact (Bool.eq_false_or_eq_true _)
    · rcases mem_cons.mp he with rfl | he
      exacts [.inl (mem_singleton_self e), .inr he]

theorem NoneInFlight.rest_eq (h : s.NoneInFlight) (c : Fin k) : (s.phase c).rest = [] :=
  isEmpty_iff.mp (h c)

theorem isEmpty_of_mem {α : Type*} {l : List α} {x : α} (h : x ∈ l) : l.isEmpty = false := by
  cases l with
  | nil => cases h
  | cons => rfl

section

variable (h : s.Inv)
include h

theorem Inv.move (hphase : s'.phase = update s.phase c p)
    (hsame : s'.applied = s.applied ∧ s'.requests = s.requests ∧ s'.holds = s.holds)
    (hmove : ∀ i, occurs i s'.quarantine + occurs i p.due + occurs i s'.returned =
      occurs i s.quarantine + occurs i (s.phase c).due + occurs i s.returned)
    (hflushed : s'.Flushed) (hcovered : Covered s.applied p)
    (hempty : (s.phase c).rest = []) (hrest : ∀ e ∈ s.pending, e ∈ s'.pending ∨ e ∈ p.rest)
    (hheld : ∀ h ∈ s'.quarantine, h.stamp ≤ s.requests) (hdue : ∀ h ∈ p.due, h.stamp ≤ s.requests) :
    s'.Inv := by
  obtain ⟨happ, hreq, hholds⟩ := hsame
  refine ⟨h.once.move hphase hholds hmove, hflushed, ?_, ?_, hreq ▸ hheld, ?_⟩
  · intro c'
    rw [hphase, happ, update_apply]
    split_ifs
    exacts [hcovered, h.covered c']
  · intro i hi
    rw [happ]
    have hplace : ∀ e, e ∈ s'.pending ∨ e ∈ p.rest → e.num = i →
        (∃ e ∈ s'.pending, e.num = i) ∨ ∃ c, ∃ e ∈ (s'.phase c).rest, e.num = i := by
      rintro e (he | he) hnum
      · exact .inl ⟨e, he, hnum⟩
      · exact .inr ⟨c, e, by rwa [hphase, update_self], hnum⟩
    rcases h.tracked i (hreq ▸ hi) with ha | ⟨e, he, hnum⟩ | ⟨c', e, he, hnum⟩
    · exact .inl ha
    · exact .inr (hplace e (hrest e he) hnum)
    · by_cases hc : c' = c
      · rw [hc, hempty] at he
        cases he
      · exact .inr (.inr ⟨c', e, by rwa [hphase, update_of_ne hc], hnum⟩)
  · intro c'
    rw [hphase, hreq, update_apply]
    split_ifs
    exacts [hdue, h.due c']

theorem Inv.request (va pcid : ℕ) : (s.request va pcid).2.Inv := by
  unfold TlbState.request
  split_ifs
  any_goals exact h
  refine ⟨h.once, h.flushed, h.covered, ?_, fun x hx => (h.held x hx).trans (Nat.le_succ _),
    fun c x hx => (h.due c x hx).trans (Nat.le_succ _)⟩
  intro i hi
  rcases Nat.lt_succ_iff_lt_or_eq.mp hi with hi | rfl
  · refine (h.tracked i hi).imp_right (.imp_left ?_)
    rintro ⟨e, he, hnum⟩
    exact ⟨e, mem_append_left _ he, hnum⟩
  · exact .inr (.inl ⟨_, mem_append_right _ (mem_singleton_self _), rfl⟩)

theorem Inv.hold (phys ticks : ℕ) (allocated : Bool) : (s.hold phys ticks allocated).2.Inv := by
  unfold TlbState.hold
  split_ifs
  any_goals exact h
  refine { h with once := ?_, held := ?_ }
  · intro i
    have hi := h.once i
    simp only [occurs_append, occurs_cons, show occurs i [] = 0 from rfl]
    split_ifs at hi ⊢ <;> omega
  · intro x hx
    rcases mem_append.mp hx with hx | hx
    · exact h.held x hx
    · rw [mem_singleton.mp hx]

theorem Inv.call (hidle : s.isIdle c) {kept : List Held} (hcovered : Covered s.applied p)
    (hmove : ∀ i, occurs i kept + occurs i p.due = occurs i s.quarantine)
    (hsub : ∀ x, x ∈ p.due ∨ x ∈ kept → x ∈ s.quarantine) :
    ({ s with quarantine := kept }.setPhase c p).Inv := by
  have hphase := phase_of_isIdle hidle
  refine h.move rfl ⟨rfl, rfl, rfl⟩ ?_ h.flushed hcovered (congrArg Phase.rest hphase)
    (fun _ => .inl) (fun x hx => h.held x (hsub x (.inr hx))) (fun x hx => h.held x (hsub x (.inl hx)))
  intro i
  have := hmove i
  rw [hphase]
  simp only [setPhase, Phase.due, occurs, map_nil, count_nil] at *
  omega

theorem Inv.onTick (hidle : s.isIdle c) (now : ℕ) (locked : Bool) :
    (s.onTick c now locked).Inv := by
  unfold TlbState.onTick
  split_ifs with hlock
  · exact h
  have hcount := fun i => occurs_takeDue i now maxPerTick s.quarantine
  have hmem := fun x => @mem_takeDue now maxPerTick s.quarantine x
  dsimp only
  cases hdue : (takeDue now maxPerTick s.quarantine).1 with rw [hdue] at hcount hmem
  | nil | cons x l =>
    refine h.call hidle trivial (fun i => ?_) hmem
    rw [← hcount i]
    exact Nat.add_comm ..

theorem Inv.applyRound {rest : List Pending} {next : Phase} (hphase : s.phase c = .apply rest next) :
    ({ s with applied := fun i => s.applied i || (applyNext rest).1.any fun r => r.num == i }.setPhase c
      (.apply (applyNext rest).2 next)).Inv := by
  have hgrow : ∀ {i}, s.applied i →
      (s.applied i || (applyNext rest).1.any fun r => r.num == i) = true := by
    intro i hi
    rw [hi, Bool.true_or]
  -- a request of the batch is applied now or stays in it
  have hmoves : ∀ {i}, (∃ e ∈ rest, e.num = i) →
      (s.applied i || (applyNext rest).1.any fun r => r.num == i) = true ∨
        ∃ e ∈ (applyNext rest).2, e.num = i := by
    rintro i ⟨e, he, rfl⟩
    rcases mem_applyNext he with he | he
    · exact .inl (by rw [Bool.or_eq_true, any_eq_true]; exact .inr ⟨e, he, beq_self_eq_true _⟩)
    · exact .inr ⟨e, he, rfl⟩
  have hcov := h.covered c
  have hdue := h.due c
  rw [hphase] at hcov hdue
  refine ⟨h.once.move rfl rfl fun i => by rw [hphase]; rfl,
    fun x hx i hi => hgrow (h.flushed x hx i hi), ?_, ?_, h.held, ?_⟩
  · intro c'
    simp only [setPhase, update_apply]
    split_ifs
    · intro x hx i hi
      exact (hcov x hx i hi).elim (fun ha => .inl (hgrow ha)) hmoves
    have := h.covered c'
    generalize s.phase c' = p at this
    cases p with
    | apply r n => exact fun x hx i hi => (this x hx i hi).imp_left hgrow
    | free d => exact fun x hx i hi => hgrow (this x hx i hi)
    | _ => trivial
  · intro i hi
    rcases h.tracked i hi with ha | hp | ⟨c', e, he, hnum⟩
    · exact .inl (hgrow ha)
    · exact .inr (.inl hp)
    · by_cases hc : c' = c
      · rw [hc, hphase] at he
        refine (hmoves ⟨e, he, hnum⟩).imp_right fun hstay => .inr ⟨c, ?_⟩
        simpa only [setPhase, update_self, Phase.rest] using hstay
      · exact .inr (.inr ⟨c', e, by simpa only [setPhase, update_of_ne hc] using he, hnum⟩)
  · intro c'
    simp only [setPhase, update_apply]
    split_ifs
    exacts [hdue, h.due c']

theorem Inv.resume (hok : s.Ready (s.phase c)) (hs : s.resume c = some s') : s'.Inv := by
  have hcov := h.covered c
  have hdue := h.due c
  unfold TlbState.resume at hs
  split at hs <;> rename_i hphase <;> rw [hphase] at hok hcov hdue <;> cases hs
  · -- requests before a page that is due are queued, and so are in the new batch
    refine h.move rfl ⟨rfl, rfl, rfl⟩ (fun i => by rw [hphase]; rfl) h.flushed ?_
      (congrArg Phase.rest hphase) (fun _ => .inr) h.held hdue
    intro x hx i hi
    rcases h.tracked i (hi.trans_le (hdue x hx)) with ha | hp | ⟨c', e, he, -⟩
    · exact .inl ha
    · exact .inr hp
    · rw [(hok (isEmpty_of_mem hx)).rest_eq c'] at he
      cases he
  · next next =>
    refine h.move rfl ⟨rfl, rfl, rfl⟩ (fun i => by rw [hphase]; rfl) h.flushed ?_
      (congrArg Phase.rest hphase) (fun _ => .inl) h.held hdue
    have hdone : ∀ x ∈ next.due, ∀ i < x.stamp, s.applied i = true := fun x hx i hi =>
      (hcov x hx i hi).resolve_right (by simp)
    cases next with
    | apply r n => exact fun x hx i hi => .inl (hdone x hx i hi)
    | free d => exact hdone
    | _ => trivial
  · exact h.applyRound hphase
  · refine h.move rfl ⟨rfl, rfl, rfl⟩ (fun i => ?_) h.flushed ?_
      (congrArg Phase.rest hphase) (fun _ => .inl) nofun h.held
    · rw [hphase]
      exact congrArg (· + _) (Nat.add_comm ..)
    intro x hx i hi
    obtain ⟨hp, hnone⟩ := hok (isEmpty_of_mem hx)
    rcases h.tracked i (hi.trans_le (h.held x hx)) with ha | ⟨e, he, -⟩ | ⟨c', e, he, -⟩
    · exact ha
    · rw [isEmpty_iff.mp hp] at he
      cases he
    · rw [hnone.rest_eq c'] at he
      cases he
  · exact h.move rfl ⟨rfl, rfl, rfl⟩ (fun i => by rw [hphase]; rfl) h.flushed trivial
      (congrArg Phase.rest hphase) (fun _ => .inl) h.held nofun
  · next x due =>
    refine h.move rfl ⟨rfl, rfl, rfl⟩ (fun i => ?_) ?_ (fun y hy => hcov y (mem_cons_of_mem x hy))
      (congrArg Phase.rest hphase) (fun _ => .inl) h.held
      fun y hy => hdue y (mem_cons_of_mem x hy)
    · rw [hphase]
      simp only [setPhase, Phase.due, occurs_cons]
      omega
    · intro y hy
      rcases mem_cons.mp hy with rfl | hy
      exacts [hcov y mem_cons_self, h.flushed y hy]

theorem Inv.step {a : TlbAction k} (hok : s.Settled a) (hs : s.step a = some s') : s'.Inv := by
  cases a with try obtain ⟨hidle, rfl⟩ := Option.ite_some_none_eq_some.mp hs
  | request va pcid => cases hs; exact h.request va pcid
  | hold phys ticks allocated => cases hs; exact h.hold phys ticks allocated
  | coalesceAndApply c | releaseAll c =>
    exact h.call hidle trivial (fun i => rfl) fun x hx => hx.resolve_left not_mem_nil
  | onTick c now locked => exact h.onTick hidle now locked
  | resume c => exact h.resume hok hs

end

/-- In every run in which no release overtakes a batch, a page is returned once per hold and after
all invalidations that were requested before the hold. -/
theorem quarantine_flushed {as : List (TlbAction k)} (hr : Run TlbState.step Settled init as s) :
    s.ExactlyOnce ∧ s.Flushed := by
  have h : s.Inv := hr.invariant (I := Inv) (fun _ _ _ h hok hs => h.step hok hs) inv_init
  exact ⟨h.once, h.flushed⟩

def tickRelease : List (TlbAction 2) :=
  [.request 0x1000 1, .hold 0x5000 0 true, .onTick 1 100 false, .resume 1, .resume 1, .resume 1,
    .resume 1]

theorem quarantine_flushed_tick : ∃ s : TlbState 2, Run TlbState.step Settled init tickRelease s ∧
    s.returned.map Held.phys = [0x5000] ∧ s.ExactlyOnce ∧ s.Flushed := by
  exact Run.exists_and_of_exec (by decide +kernel) fun _ hr _ => quarantine_flushed hr

/-- Context 0 has taken the request and not applied it when the tick returns the page. -/
def tickOvertakes : List (TlbAction 2) :=
  [.request 0x1000 1, .hold 0x5000 0 true, .coalesceAndApply 0, .resume 0, .onTick 1 100 false,
    .resume 1, .resume 1, .resume 1]

/-- The request and the hold come after `release_all` has emptied the queue. -/
def releaseOvertakes : List (TlbAction 2) :=
  [.releaseAll 0, .resume 0, .request 0x1000 1, .hold 0x5000 0 true, .resume 0, .resume 0, .resume 0]

theorem page_returned_early :
    (∃ s : TlbState 2, Run TlbState.step anyStep init tickOvertakes s ∧ ¬ s.Flushed) ∧
      ∃ s : TlbState 2, Run TlbState.step anyStep init releaseOvertakes s ∧ ¬ s.Flushed :=
  ⟨Run.exists_of_exec (by decide +kernel), Run.exists_of_exec (by decide +kernel)⟩

end TlbState

end Nexios.Vmm
