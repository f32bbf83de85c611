import Nexios.Ipc.Senders

/-!
# The lists of blocked senders

While a task is linked into the list of a queue it has to stay BLOCKED, since only the list's own
operations take it out. Three others make it runnable all the same: the end of a send to a task that
is itself blocked on a full queue, the wake-up of an earlier call that another CPU finds in its
mailbox, and the end of the task. A sender that runs while it is still linked can block again, and
is then on two lists, or twice on one, which closes the list to a cycle. In the runs without these
the lists are those of the blocked senders.
-/

open Function Option List

namespace Nexios.Ipc

open Sched (TaskState)

variable {n m k : ℕ}

namespace SenderState

variable {s s' : SenderState n m k} {t u r d : Fin n} {q q' : Fin m} {x : Fin k} {remote : Bool}
  {a : SenderAction n m k} {as : List (SenderAction n m k)} {l : List (Fin n)}

/-- The condition on a step: no task is made runnable, or killed, while it is linked. -/
def Unlinked (s : SenderState n m k) : SenderAction n m k → Prop
  | .send d _ | .sendViaCap d _ => s.state d = .blocked → s.onQueue d = none
  | .drain t | .terminate t => s.onQueue t = none
  | _ => True

instance (s : SenderState n m k) (a : SenderAction n m k) : Decidable (s.Unlinked a) := by
  unfold Unlinked
  split <;> infer_instance

/-- The list of each queue ends, has no task twice, and has exactly the tasks that are BLOCKED on
this queue; no task is on two lists. -/
structure ListsOk (s : SenderState n m k) : Prop where
  list : ∀ q, ∃ l, (s.senders q).Holds l ∧
    ∀ t, t ∈ l ↔ s.state t = .blocked ∧ s.onQueue t = some q
  one : ∀ q q' t, (s.senders q).Reaches t → (s.senders q').Reaches t → q = q'

structure Inv (s : SenderState n m k) (lists : Fin m → List (Fin n)) : Prop where
  holds : ∀ q, (s.senders q).Holds (lists q)
  mem : ∀ t q, t ∈ lists q ↔ s.onQueue t = some q
  blocked : ∀ t, s.onQueue t ≠ none → s.state t = .blocked
  mutex : ∀ t, s.onMutex t ≠ none → s.onQueue t = none
  waiter : ∀ x t, t ∈ s.waiters x ↔ s.onMutex t = some x
  nodup : ∀ x, (s.waiters x).Nodup

variable {lists : Fin m → List (Fin n)} {fuel : ℕ}

theorem onQueue_of_runs (h : s.Inv lists) (hr : s.runs t) :
    s.onQueue t = none ∧ s.onMutex t = none := by
  obtain ⟨hstate, hmutex⟩ := Bool.and_eq_true_iff.mp hr
  refine ⟨?_, isNone_iff_eq_none.mp hmutex⟩
  by_contra hne
  rw [h.blocked t hne] at hstate
  cases hstate

namespace Inv

variable (h : s.Inv lists) {f : Fifo (Fin n)} {st : Fin n → TaskState} {mail : List (Fin n)}
include h

theorem listsOk : s.ListsOk where
  list q := by
    refine ⟨lists q, h.holds q, fun t => ⟨fun ht => ?_, fun ht => (h.mem t q).mpr ht.2⟩⟩
    have hq := (h.mem t q).mp ht
    exact ⟨h.blocked t (hq ▸ some_ne_none q), hq⟩
  one q q' t hq hq' := by
    have hmem := (h.mem t q).mp ((h.holds q).mem_of_reaches hq)
    have hmem' := (h.mem t q').mp ((h.holds q').mem_of_reaches hq')
    exact some.inj (hmem.symm.trans hmem')

theorem length_lt (q : Fin m) : (lists q).length < n + 1 := by
  have hle := (h.holds q).nodup.length_le_card
  rw [Fintype.card_fin] at hle
  exact Nat.lt_succ_of_le hle

theorem setState (ht : s.onQueue t = none) (st : TaskState) : (s.setState t st).Inv lists := by
  refine { h with blocked := fun u hu => ?_ }
  have hut : u ≠ t := by
    rintro rfl
    exact hu ht
  exact (update_of_ne hut ..).trans (h.blocked u hu)

theorem ready (ht : s.onQueue t = none) (remote : Bool) : (s.ready t remote).Inv lists :=
  { h.setState ht .ready with }

theorem setPriority (t : Fin n) (p : ℕ) : (s.setPriority t p).Inv lists := { h with }

theorem boostOwner (q : Fin m) (p : ℕ) : (s.boostOwner q p).Inv lists := by
  unfold SenderState.boostOwner
  cases s.owner q with
  | none => exact h
  | some o =>
    dsimp only
    split_ifs
    · exact h.setPriority o p
    · exact h

theorem resetOwner (q : Fin m) : (s.resetOwner q).Inv lists := by
  unfold SenderState.resetOwner
  cases s.owner q with
  | none => exact h
  | some o => exact h.setPriority o _

theorem setSenders {o : Option (Fin m)} (hf : f.Holds l)
    (hnext : ∀ z, z ≠ t → z ∉ lists q → f.next z = s.next z) (ht : ∀ q', q' ≠ q → t ∉ lists q')
    (hstate : ∀ u, u ≠ t → st u = s.state u)
    (hmem : ∀ u q', u ∈ update lists q l q' ↔ update s.onQueue t o u = some q')
    (ho : o ≠ none → st t = .blocked) (hmutex : s.onMutex t ≠ none → o = none) :
    Inv { (s.setSenders q f).setOnQueue t o with state := st, mail := mail }
      (update lists q l) := by
  have hself : update s.onQueue t o t = o := update_self ..
  have hother : ∀ u, u ≠ t → update s.onQueue t o u = s.onQueue u := fun u hu => update_of_ne hu ..
  refine { h with
    holds := fun q' => ?_, mem := hmem, blocked := fun u hu => ?_, mutex := fun u hu => ?_ }
  · change Fifo.Holds ⟨f.next, update s.head q f.head q', update s.tail q f.tail q'⟩ _
    by_cases hq' : q' = q
    · subst hq'
      rw [update_self, update_self, update_self]
      exact hf
    rw [update_of_ne hq', update_of_ne hq', update_of_ne hq']
    have hold := h.holds q'
    refine ⟨hold.path.congr fun z hz => hnext z ?_ fun hzq => hq' ?_, hold.tail, hold.nodup⟩
    · rintro rfl
      exact ht q' hq' hz
    · exact some.inj (((h.mem z q').mp hz).symm.trans ((h.mem z q).mp hzq))
  · by_cases hut : u = t
    · subst hut
      exact ho (hself ▸ hu)
    · exact (hstate u hut).trans (h.blocked u (hother u hut ▸ hu))
  · by_cases hut : u = t
    · subst hut
      exact hself.trans (hmutex hu)
    · exact (hother u hut).trans (h.mutex u hu)

theorem not_mem (ht : s.onQueue t = none) (q : Fin m) : t ∉ lists q := fun hm =>
  some_ne_none q (((h.mem t q).mp hm).symm.trans ht)

theorem block (hr : s.runs t) (q : Fin m) : ∃ f l, s.blockSender q t =
        some ((((s.setState t .blocked).setOnQueue t (some q)).setSenders q f).boostOwner q
          (s.priority t)) ∧
      (((s.setState t .blocked).setOnQueue t (some q)).setSenders q f).Inv (update lists q l) := by
  obtain ⟨hqueue, hmutex⟩ := onQueue_of_runs h hr
  have ht := h.not_mem hqueue
  obtain ⟨f, hf, hholds, hframe⟩ := (h.holds q).exists_insert
    (fun u => s.priority u < s.priority t) (x := t) (ht q) (h.length_lt q)
  refine ⟨f, (lists q).takeWhile (fun y => !decide (s.priority y < s.priority t)) ++
    t :: (lists q).dropWhile (fun y => !decide (s.priority y < s.priority t)),
    congrArg (Option.map _) hf, ?_⟩
  refine h.setSenders (o := some q) hholds hframe (fun q' _ => ht q')
    (fun u hu => update_of_ne hu ..) (mem_update_add h.mem hqueue fun u => ?_)
    (fun _ => update_self ..) (absurd hmutex)
  rw [perm_middle.mem_iff, mem_cons, takeWhile_append_dropWhile]

theorem unlink (hqueue : s.onQueue t = some q) (hf : f.Holds l) (hperm : (lists q).Perm (t :: l))
    (hnext : ∀ z, z ≠ t → z ∉ lists q → f.next z = s.next z)
    (hstate : ∀ u, u ≠ t → st u = s.state u) :
    Inv { (s.setSenders q f).setOnQueue t none with state := st, mail := mail }
      (update lists q l) := by
  have htl : t ∉ l := (nodup_cons.mp (hperm.nodup_iff.mp (h.holds q).nodup)).1
  refine h.setSenders (o := none) hf hnext (fun q' hq' hm => ?_) hstate
    (mem_update_drop h.mem hqueue fun u => ?_) (absurd rfl) (fun _ => rfl)
  · exact hq' (some.inj (((h.mem t q').mp hm).symm.trans hqueue))
  · rw [hperm.mem_iff, mem_cons]
    exact ⟨fun hu => ⟨ne_of_mem_of_not_mem hu htl, .inr hu⟩, fun hu => hu.2.resolve_left hu.1⟩

theorem wake (hhead : s.head q = some t) (r : Fin n) (remote : Bool) :
    ∃ l, lists q = t :: l ∧ s.wakeSender q r remote =
        some ((((s.setSenders q ((s.senders q).pop t)).setOnQueue t none).ready t remote).setPriority
          r (s.maxPriority (s.base r) l)) ∧
      (((s.setSenders q ((s.senders q).pop t)).setOnQueue t none).ready t remote).Inv
        (update lists q l) := by
  obtain ⟨l, hl⟩ := (h.holds q).eq_cons hhead
  have hqueue : s.onQueue t = some q := (h.mem t q).mp (hl ▸ mem_cons_self)
  have hpop := Fifo.Holds.pop (hl ▸ h.holds q)
  refine ⟨l, hl, ?_, h.unlink hqueue hpop (hl ▸ .refl _) (fun z hz _ => update_of_ne hz ..)
    (fun u hu => update_of_ne hu ..)⟩
  have hlive : ((s.setSenders q ((s.senders q).pop t)).setOnQueue t none).state t ≠ .terminated := by
    change s.state t ≠ .terminated
    rw [h.blocked t (hqueue ▸ some_ne_none q)]
    nofun
  have hlen : l.length < n + 1 := by
    have hlt := h.length_lt q
    rw [hl, length_cons] at hlt
    omega
  have helem : Fifo.elements ((s.senders q).pop t).next (n + 1)
      (update s.head q ((s.senders q).pop t).head q) = some l := by
    rw [update_self]
    exact Fifo.elements_eq hpop.path hlen
  unfold wakeSender
  rw [hhead]
  dsimp only
  rw [if_pos hlive]
  exact congrArg (Option.map _) helem

theorem rollback (hqueue : s.onQueue t = some q) :
    ∃ f l, (lists q).Perm (t :: l) ∧ s.unblockSenderRollback q t =
        some (((s.setSenders q f).setOnQueue t none).setState t .running) ∧
      (((s.setSenders q f).setOnQueue t none).setState t .running).Inv (update lists q l) := by
  obtain ⟨l₁, l₂, hl⟩ := append_of_mem ((h.mem t q).mpr hqueue)
  have hlen : (l₁ ++ t :: l₂).length < n + 1 := hl ▸ h.length_lt q
  obtain ⟨f, hf, hholds, -, hframe⟩ := Fifo.Holds.exists_remove (hl ▸ h.holds q) hlen
  have hperm : (lists q).Perm (t :: (l₁ ++ l₂)) := hl ▸ perm_middle
  exact ⟨f, l₁ ++ l₂, hperm, congrArg (Option.map _) hf,
    h.unlink hqueue hholds hperm (fun z _ hzl => hframe z (hl ▸ hzl))
      (fun u hu => update_of_ne hu ..)⟩

end Inv

def released (s : SenderState n m k) (l : List (Fin n)) (mail : List (Fin n)) : SenderState n m k :=
  { s with
    state := fun t => if t ∈ l then .ready else s.state t
    next := fun t => if t ∈ l then none else s.next t
    onQueue := fun t => if t ∈ l then none else s.onQueue t
    mail := mail }

theorem releaseFrom_eq {o : Option (Fin n)} (hp : Fifo.Path s.next o l) (hnodup : l.Nodup)
    (hf : l.length < fuel) (hblocked : ∀ t ∈ l, s.state t = .blocked) (remote : Bool) :
    ∃ mail, releaseFrom remote fuel o s = s.released l mail := by
  induction l generalizing s o fuel with
      obtain ⟨fuel, rfl⟩ : ∃ f, fuel = f + 1 := ⟨fuel - 1, by simp at hf; omega⟩
  | nil =>
    rw [hp.head_eq]
    refine ⟨s.mail, ?_⟩
    rfl
  | cons t l ih =>
    obtain ⟨htl, hnodup'⟩ := nodup_cons.mp hnodup
    have hne : ∀ u ∈ l, u ≠ t := fun u hu => ne_of_mem_of_not_mem hu htl
    have hst : s.state t = .blocked := hblocked t mem_cons_self
    rw [hp.1, releaseFrom, if_pos (by rw [hst]; exact ⟨nofun, nofun⟩)]
    obtain ⟨mail, hmail⟩ := ih
      (s := .ready { s.setOnQueue t none with next := update s.next t none } t
        remote)
      (hp.2.congr fun u hu => update_of_ne (hne u hu) ..) hnodup' (by simpa using hf)
      (fun u hu => (update_of_ne (hne u hu) ..).trans
        (hblocked u (mem_cons_of_mem _ hu)))
    refine ⟨mail, hmail.trans ?_⟩
    have hcons : ∀ {β : Type} (f : Fin n → β) (b : β),
        (fun u => if u ∈ l then b else update f t b u) =
          fun u => if u ∈ t :: l then b else f u := by
      intro β f b
      funext u
      by_cases hut : u = t
      · subst hut
        simp
      · simp [hut]
    unfold released
    rw [← hcons s.state, ← hcons s.next, ← hcons s.onQueue]
    rfl

def emptied (s : SenderState n m k) (q : Fin m) (l mail : List (Fin n)) : SenderState n m k :=
  { s.released l mail with head := update s.head q none, tail := update s.tail q none }

namespace Inv

theorem destroy (h : s.Inv lists) (q : Fin m) (remote : Bool) :
    ∃ mail, s.destroyQueue q remote = (s.emptied q (lists q) mail).resetOwner q ∧
      Inv (s.emptied q (lists q) mail) (update lists q []) := by
  have hqueue : ∀ t ∈ lists q, s.onQueue t = some q := fun t ht => (h.mem t q).mp ht
  obtain ⟨mail, hmail⟩ := releaseFrom_eq (h.holds q).path (h.holds q).nodup (h.length_lt q)
    (fun t ht => h.blocked t (hqueue t ht ▸ some_ne_none q)) remote
  refine ⟨mail, ?_, ?_⟩
  · have hhead : releaseFrom remote (n + 1) (s.head q) s = s.released (lists q) mail := hmail
    unfold destroyQueue
    rw [hhead]
    rfl
  · have hout : ∀ t, t ∉ lists q → (s.released (lists q) mail).onQueue t = s.onQueue t :=
      fun t ht => if_neg ht
    have hin : ∀ t, t ∈ lists q → (s.released (lists q) mail).onQueue t = none :=
      fun t ht => if_pos ht
    refine { h with
      holds := fun q' => ?_, mem := mem_update_clear h.mem, blocked := fun t ht => ?_
      mutex := fun t ht => ?_ }
    · by_cases hq' : q' = q
      · subst hq'
        rw [update_self]
        exact Fifo.holds_nil (update_self ..) (update_self ..)
      rw [update_of_ne hq']
      have hold := h.holds q'
      refine ⟨?_, (update_of_ne hq' ..).trans hold.tail, hold.nodup⟩
      have hhead : update s.head q none q' = s.head q' := update_of_ne hq' ..
      change Fifo.Path _ (update s.head q none q') (lists q')
      rw [hhead]
      refine hold.path.congr fun z hz => if_neg fun hzq => hq' ?_
      exact some.inj (((h.mem z q').mp hz).symm.trans (hqueue z hzq))
    · by_cases htq : t ∈ lists q
      · exact absurd (hin t htq) ht
      · exact (if_neg htq).trans (h.blocked t (hout t htq ▸ ht))
    · by_cases htq : t ∈ lists q
      · exact hin t htq
      · exact (hout t htq).trans (h.mutex t ht)

theorem wakeReceiver (h : s.Inv lists) (hd : s.state d = .blocked → s.onQueue d = none)
    (remote : Bool) : (s.wakeReceiver d remote).Inv lists := by
  unfold SenderState.wakeReceiver
  split_ifs with hawait
  · exact h.ready (hd (of_decide_eq_true (Bool.and_eq_true_iff.mp hawait).1)) remote
  · exact h

theorem sendEnd (h : s.Inv lists) (hd : s.state d = .blocked → s.onQueue d = none) (remote : Bool) :
    (s.sendEnd d remote).Inv lists := by
  unfold SenderState.sendEnd
  have hreply : Inv { s with replyWait := update s.replyWait d false } lists := { h with }
  split_ifs with hwait hblocked
  · have hready := hreply.ready (hd hblocked) remote
    exact hready.wakeReceiver (fun _ => hd hblocked) remote
  · exact hreply.wakeReceiver hd remote
  · exact h.wakeReceiver hd remote

end Inv

/-! ## Mutexes -/

def Lent (s s' : SenderState n m k) : Prop :=
  ∃ p c, s' = { s with priority := p, holderPriority := c }

theorem Lent.trans {s₁ : SenderState n m k} (h : Lent s s₁) (h' : Lent s₁ s') : Lent s s' := by
  obtain ⟨_, _, rfl⟩ := h
  obtain ⟨p, c, rfl⟩ := h'
  exact ⟨p, c, rfl⟩

theorem lent_lend (s : SenderState n m k) (x : Fin k) (o : Fin n) (p : ℕ) : Lent s (s.lend x o p) :=
  ⟨_, _, rfl⟩

theorem lent_reevaluate (h : reevaluate fuel s x = some s') : Lent s s' := by
  induction fuel generalizing s x with
  | zero => cases h
  | succ fuel ih =>
    rw [reevaluate] at h
    split at h
    · cases h
      exact ⟨_, _, rfl⟩
    dsimp only at h
    split_ifs at h
    · split at h
      · cases h
        exact lent_lend ..
      · exact (lent_lend ..).trans (ih h)
    · cases h
      exact ⟨_, _, rfl⟩

theorem lent_inheritPriority (h : s.inheritPriority x t = some s') : Lent s s' := by
  rw [inheritPriority] at h
  split at h
  · cases h
    exact ⟨_, _, rfl⟩
  dsimp only at h
  split_ifs at h
  · split at h
    · cases h
      exact lent_lend ..
    · exact (lent_lend ..).trans (lent_reevaluate h)
  · cases h
    exact ⟨_, _, rfl⟩

theorem lent_restorePriority (s : SenderState n m k) (x : Fin k) : Lent s (s.restorePriority x) := by
  unfold restorePriority
  cases s.mutexOwner x with
  | none => exact ⟨_, _, rfl⟩
  | some o =>
    dsimp only
    split_ifs
    all_goals exact ⟨_, _, rfl⟩

namespace Inv

variable (h : s.Inv lists)
include h

theorem lent (hl : Lent s s') : s'.Inv lists := by
  obtain ⟨p, c, rfl⟩ := hl
  exact { h with }

theorem mutexWait (hr : s.runs t) (hs : s.mutexWait x t = some s') : s'.Inv lists := by
  obtain ⟨s₁, hinherit, rfl⟩ := map_eq_some_iff.mp hs
  obtain ⟨p, c, rfl⟩ := lent_inheritPriority hinherit
  obtain ⟨hqueue, hmutex⟩ := onQueue_of_runs h hr
  have hset := (h.lent ⟨p, c, rfl⟩).setState hqueue .blocked
  have hout : ∀ y, t ∉ s.waiters y := fun y hm =>
    some_ne_none y (((h.waiter y t).mp hm).symm.trans hmutex)
  refine { hset with mutex := fun u hu => ?_, waiter := fun y u => ?_, nodup := ?_ }
  · by_cases hut : u = t
    · exact hut ▸ hqueue
    · exact h.mutex u fun hnone => hu ((update_of_ne hut ..).trans hnone)
  · exact mem_update_add (fun u y => h.waiter y u) hmutex (by simp [or_comm]) u y
  · refine (forall_update_iff s.waiters fun _ l => l.Nodup).mpr ⟨?_, fun y _ => h.nodup y⟩
    exact (perm_append_singleton t _).nodup_iff.mpr (nodup_cons.mpr ⟨hout x, h.nodup x⟩)

theorem unwait {w : Fin n} {ws : List (Fin n)} (hperm : (s.waiters x).Perm (w :: ws)) :
    Inv { s with
      onMutex := update s.onMutex w none
      waiters := update s.waiters x ws } lists := by
  have hw : s.onMutex w = some x := (h.waiter x w).mp (hperm.mem_iff.mpr mem_cons_self)
  obtain ⟨hws, hnodup⟩ := nodup_cons.mp (hperm.nodup_iff.mp (h.nodup x))
  refine { h with
    mutex := fun u hu => ?_
    waiter := fun y u => ?_
    nodup := (forall_update_iff s.waiters fun _ l => l.Nodup).mpr ⟨hnodup, fun y _ => h.nodup y⟩ }
  · by_cases huw : u = w
    · subst huw
      exact h.mutex u (hw ▸ some_ne_none x)
    · exact h.mutex u fun hnone => hu ((update_of_ne huw ..).trans hnone)
  · refine mem_update_drop (fun u y => h.waiter y u) hw (fun u => ?_) u y
    rw [hperm.mem_iff, mem_cons]
    exact ⟨fun hu => ⟨ne_of_mem_of_not_mem hu hws, .inr hu⟩, fun hu => hu.2.resolve_left hu.1⟩

theorem mutexUnlock (x : Fin k) : (s.mutexUnlock x).Inv lists := by
  unfold SenderState.mutexUnlock
  cases hb : WaitArray.best (fun _ => true) s.priority (s.waiters x) with
  | none =>
    exact { h.lent (lent_restorePriority s x) with }
  | some b =>
    obtain ⟨i, w⟩ := b
    obtain ⟨hperm, -, -⟩ := WaitArray.perm_of_best hb
    have hw : s.onMutex w = some x := (h.waiter x w).mp (hperm.mem_iff.mpr mem_cons_self)
    have hqueue : s.onQueue w = none := h.mutex w (hw ▸ some_ne_none x)
    set s₁ : SenderState n m k := { s with
      onMutex := update s.onMutex w none
      waiters := update s.waiters x (WaitArray.swapRemove (s.waiters x) i) }
    have hlent := lent_restorePriority s₁ x
    have hrestored := (h.unwait hperm).lent hlent
    have hqueue₁ : (s₁.restorePriority x).onQueue w = none := by
      obtain ⟨p, c, hp⟩ := hlent
      rw [hp]
      exact hqueue
    have howned : Inv { s₁.restorePriority x with
        mutexOwner := update (s₁.restorePriority x).mutexOwner x (some w) } lists :=
      { hrestored with }
    exact howned.ready hqueue₁ false

theorem step (hok : s.Unlinked a) (hs : s.step a = some s') : ∃ lists', s'.Inv lists' := by
  cases a with try obtain ⟨hr, rfl⟩ := ite_some_none_eq_some.mp hs
  | block q t =>
    obtain ⟨⟨hr, -⟩, hs⟩ := ite_none_right_eq_some.mp hs
    obtain ⟨f, l, hblock, hinv⟩ := h.block hr q
    cases hblock.symm.trans hs
    exact ⟨_, hinv.boostOwner q _⟩
  | wake q r remote =>
    obtain ⟨-, hs⟩ := ite_none_right_eq_some.mp hs
    cases hhead : s.head q with
    | none =>
      rw [wakeSender, hhead] at hs
      cases hs
      exact ⟨lists, h⟩
    | some t =>
      obtain ⟨l, -, hwake, hinv⟩ := h.wake hhead r remote
      cases hwake.symm.trans hs
      exact ⟨_, hinv.setPriority r _⟩
  | rollback q t =>
    obtain ⟨hqueue, hs⟩ := ite_none_right_eq_some.mp hs
    obtain ⟨f, l, -, hroll, hinv⟩ := h.rollback hqueue
    cases hroll.symm.trans hs
    exact ⟨_, hinv⟩
  | destroy q remote =>
    cases hs
    obtain ⟨mail, hdestroy, hinv⟩ := h.destroy q remote
    rw [hdestroy]
    exact ⟨_, hinv.resetOwner q⟩
  | send d remote => exact ⟨lists, h.sendEnd hok remote⟩
  | sendViaCap d remote =>
    cases hs
    exact ⟨lists, h.wakeReceiver hok remote⟩
  | flags t replyWait inRecv | mutexLock x t => exact ⟨lists, { h with }⟩
  | sleep t => exact ⟨lists, h.setState (onQueue_of_runs h hr).1 _⟩
  | rouse t =>
    obtain ⟨-, hqueue, -⟩ := hr
    exact ⟨lists, h.setState hqueue _⟩
  | drain t =>
    have hmail : Inv { s with mail := s.mail.erase t } lists := { h with }
    refine ⟨lists, ?_⟩
    split_ifs
    · exact hmail.setState hok _
    · exact hmail
  | terminate t => exact ⟨lists, h.setState hok _⟩
  | mutexWait x t =>
    obtain ⟨⟨hr, -⟩, hs⟩ := ite_none_right_eq_some.mp hs
    exact ⟨lists, h.mutexWait hr hs⟩
  | mutexUnlock x t => exact ⟨lists, h.mutexUnlock x⟩

end Inv

theorem Start.inv (h : s.Start) : s.Inv fun _ => [] where
  holds q := Fifo.holds_nil (h.head q) (h.tail q)
  mem t q := iff_of_false not_mem_nil fun he => nomatch (h.onQueue t).symm.trans he
  blocked t ht := absurd (h.onQueue t) ht
  mutex t ht := absurd (h.onMutex t) ht
  waiter x t := by
    rw [h.waiters x, h.onMutex t]
    exact iff_of_false not_mem_nil nofun
  nodup x := by
    rw [h.waiters x]
    exact nodup_nil

theorem Start.exists_inv (h : s.Start) (hr : Run step Unlinked s as s') : ∃ lists, s'.Inv lists := by
  refine hr.invariant (I := fun s => ∃ lists, s.Inv lists) ?_ ⟨fun _ => [], h.inv⟩
  rintro s₁ a s₂ ⟨lists, hinv⟩ hok hs
  exact hinv.step hok hs

/-- In every run in which no linked task is made runnable or killed, the list of each queue has
exactly the tasks that are BLOCKED on it, each once, and no task is on two lists. -/
theorem sender_lists (h : s.Start) (hr : Run step Unlinked s as s') : s'.ListsOk := by
  obtain ⟨lists, hinv⟩ := h.exists_inv hr
  exact hinv.listsOk

/-- Four tasks; the queues 0 and 1 are those of the tasks 0 and 1, and 2 is that of an endpoint. -/
def fourTasks : SenderState 4 3 1 where
  state := fun _ => .running
  priority := fun t => [5, 6, 7, 9][t]
  base := fun t => [5, 6, 7, 9][t]
  next := fun _ => none
  onQueue := fun _ => none
  replyWait := fun _ => false
  inRecv := fun _ => false
  onMutex := fun _ => none
  head := fun _ => none
  tail := fun _ => none
  owner := fun q => [some 0, some 1, none][q]
  mutexOwner := fun _ => none
  waiters := fun _ => []
  holderPriority := fun _ => 0
  mail := []

theorem fourTasks_start : fourTasks.Start :=
  ⟨fun _ => rfl, fun _ => rfl, fun _ => rfl, fun _ => rfl, fun _ => rfl, fun _ => rfl, fun _ => rfl,
    fun _ => rfl, fun _ => rfl⟩

/-- Three senders on one queue, of which one is woken and one gives up. -/
theorem sender_lists_three : ∃ s', Run step Unlinked fourTasks
    [.block 0 2, .block 0 1, .block 0 3, .send 0 false, .wake 0 0 true, .rollback 0 1, .drain 3] s' ∧
    s'.head 0 = some 2 ∧ s'.ListsOk := by
  exact Run.exists_and_of_exec (by decide +kernel) fun _ hr _ => sender_lists fourTasks_start hr

/-- Task 1 is blocked on the queue of task 0 when task 2 sends it a message: it runs, and is still
in the list. When it blocks on the queue again, the list is a cycle; when it blocks on another one,
it is on two lists. -/
theorem sender_linked_twice :
    (∃ s', Run step anyStep fourTasks [.block 0 1, .send 1 false] s' ∧
      s'.head 0 = some 1 ∧ s'.state 1 = .ready ∧ ¬ s'.ListsOk) ∧
    (∃ s', Run step anyStep fourTasks [.block 0 1, .send 1 false, .block 0 1] s' ∧
      s'.head 0 = some 1 ∧ s'.next 1 = some 1) ∧
    ∃ s', Run step anyStep fourTasks [.block 0 1, .send 1 false, .block 2 1] s' ∧
      s'.head 0 = some 1 ∧ s'.head 2 = some 1 := by
  refine ⟨?_, ?_, ?_⟩
  · refine Run.exists_imp_of_exec (fun s' => s'.head 0 = some 1 ∧ s'.state 1 = .ready)
      (by decide +kernel) ?_
    rintro s' - ⟨hhead, hstate⟩
    refine ⟨hhead, hstate, fun hok => ?_⟩
    obtain ⟨l, hl, hmem⟩ := hok.list 0
    obtain ⟨rest, rfl⟩ := hl.eq_cons hhead
    have hblocked := ((hmem 1).mp mem_cons_self).1
    rw [hstate] at hblocked
    cases hblocked
  all_goals exact Run.exists_of_exec (by decide +kernel)

end SenderState

end Nexios.Ipc
