import Nexios.Sched.Action

/-!
# The queues are well formed

`WellFormed` speaks of the links alone: there are duplicate-free lists that the queues and the
deadline lists spell out forwards and backwards, no task stands in two of them, and the membership
flags and the counts are exact.

Not every run keeps the queues so. Two wake-ups of a task for another CPU leave two entries in its
mailbox, and `mailbox_drain` clears the flag of the task before each of the two insertions; the task
becomes its own successor. The runs whose steps are guarded do.
-/

namespace Nexios.Sched

variable {n k : ℕ}

namespace Scheduler

variable {s s' : Scheduler n k} {le : Fin n → Fin n → Prop} {bucket : Fin n → ℕ → Prop}

/-- The ready queues hold the lists `Q` and the deadline lists hold the lists `E`. -/
structure Spells (s : Scheduler n k) (Q : Cpu k × ℕ → List (Fin n))
    (E : Cpu k → List (Fin n)) : Prop where
  queue : ∀ i, s.rq.links.Seg none (s.rq.queue i).head (Q i) none
  tail : ∀ i, (s.rq.queue i).tail = (Q i).getLast?
  count : ∀ i, (s.rq.queue i).count = (Q i).length
  edf : ∀ c, s.edf.links.Seg none (s.edf.head c) (E c) none

/-- No task stands twice in the lists, and the flags say where it stands. -/
structure WellFormed (s : Scheduler n k) : Prop where
  lists : ∃ Q E, s.Spells Q E ∧
    (∀ i, (Q i).Nodup) ∧ (∀ c, (E c).Nodup) ∧
    (∀ t i j, t ∈ Q i → t ∈ Q j → i = j) ∧ (∀ t c d, t ∈ E c → t ∈ E d → c = d) ∧
    (∀ t i c, t ∈ Q i → t ∉ E c) ∧
    (∀ t, s.rq.inReadyQueue t = true ↔ ∃! i, t ∈ Q i) ∧
    ∀ t, s.edf.inEdfQueue t = true ↔ ∃! c, t ∈ E c

/-- Nothing is queued, and the tasks of user mode are at home on CPU 0. -/
structure Start (s : Scheduler n k) : Prop where
  rqFlag : ∀ t, s.rq.inReadyQueue t = false
  queue : ∀ i, s.rq.queue i = .empty
  bitmap : ∀ c, s.rq.bitmap c = .empty
  edfFlag : ∀ t, s.edf.inEdfQueue t = false
  head : ∀ c, s.edf.head c = none
  userHome : ∀ t, (s.tcb t).isUser → s.home t = 0

theorem start_unqueued {tcb : Fin n → Tcb} {tasks : List (Fin n)} {cpus : ℕ}
    (h : ∀ t, (tcb t).isUser → (tcb t).queueTarget k = 0) :
    (unqueued tcb tasks cpus : Scheduler n k).Start :=
  ⟨fun _ => rfl, fun _ => rfl, fun _ => rfl, fun _ => rfl, fun _ => rfl, h⟩

theorem Inv.wellFormed (h : Inv le bucket s) : s.WellFormed := by
  obtain ⟨Q, hQ⟩ := h.rq
  obtain ⟨E, hE⟩ := h.edf
  have hplace : ∀ t i j, t ∈ Q i → t ∈ Q j → i = j :=
    fun t i j hi hj => (hQ.place i t hi).trans (hQ.place j t hj).symm
  have hhome : ∀ t c d, t ∈ E c → t ∈ E d → c = d :=
    fun t c d hc hd => (hE.place c t hc).trans (hE.place d t hd).symm
  refine ⟨Q, E, ⟨hQ.lists.seg, hQ.tail, hQ.count, hE.lists.seg⟩, hQ.lists.nodup, hE.lists.nodup,
    hplace, hhome, ?_, ?_, ?_⟩
  · intro t i c hi hc
    have hflag := h.single t ((hQ.flag t).mpr ⟨i, hi⟩)
    rw [(hE.flag t).mpr ⟨c, hc⟩] at hflag
    cases hflag
  · intro t
    rw [hQ.flag]
    exact ⟨fun hin => existsUnique_of_exists_of_unique hin (hplace t), ExistsUnique.exists⟩
  · intro t
    rw [hE.flag]
    exact ⟨fun hin => existsUnique_of_exists_of_unique hin (hhome t), ExistsUnique.exists⟩

theorem Start.inv (h : Start s) (hfits : Fits le bucket s) : Inv le bucket s := by
  have hnone : ∀ t, ¬ s.rq.inReadyQueue t = true := by
    intro t ht
    rw [h.rqFlag t] at ht
    cases ht
  have hedf : ∀ t, ¬ s.edf.inEdfQueue t = true := by
    intro t ht
    rw [h.edfFlag t] at ht
    cases ht
  refine ⟨hfits, ⟨fun _ => [], ?_⟩, ⟨fun _ => [], ?_⟩, fun t ht => absurd ht (hnone t),
    fun t ht => absurd ht (hnone t), h.userHome⟩
  · refine ⟨⟨?_, fun _ => List.nodup_nil, nofun⟩, ?_, ?_, ?_, nofun, nofun, ?_⟩
    · intro i
      rw [h.queue i]
      rfl
    · intro i
      rw [h.queue i]
      rfl
    · intro i
      rw [h.queue i]
      rfl
    · exact fun t => ⟨fun ht => absurd ht (hnone t), nofun⟩
    · intro c p
      rw [h.bitmap c, PriorityMap.isSet_empty]
      exact ⟨nofun, absurd rfl⟩
  · refine ⟨⟨?_, fun _ => List.nodup_nil, nofun⟩, ?_, nofun, fun _ => .nil⟩
    · exact h.head
    · exact fun t => ⟨fun ht => absurd ht (hedf t), nofun⟩

end Scheduler

/-! ## Runs -/

/-- Besides the actions, other parts of the kernel write the fields of control blocks that the
scheduler only reads, register and remove tasks, and bring CPUs up. -/
inductive Event (n k : ℕ)
  | act (a : Action n k)
  | write (tcb : Fin n → Tcb)
  | register (idTable : ℕ → Option (Fin n)) (allTasks : List (Fin n)) (upCpus : ℕ)

namespace Scheduler

variable {s s' : Scheduler n k} {e : Event n k}

/-- The affinity changes by an action only, and a task does not change its mode. -/
def handle (s : Scheduler n k) : Event n k → Option (Scheduler n k)
  | .act a => s.step a
  | .write tcb =>
    if ∀ t, (tcb t).cpuAffinity = (s.tcb t).cpuAffinity ∧ (tcb t).isUser = (s.tcb t).isUser then
      some { s with tcb }
    else none
  | .register idTable allTasks upCpus => some { s with idTable, allTasks, upCpus }

def EventGuarded (s : Scheduler n k) : Event n k → Prop
  | .act a => s.Guarded a
  | _ => True

instance (s : Scheduler n k) (e : Event n k) : Decidable (s.EventGuarded e) := by
  unfold EventGuarded
  split <;> infer_instance

/-- The invariant that says nothing about keys. -/
def Linked (s : Scheduler n k) : Prop := Inv (fun _ _ => True) (fun _ _ => True) s

theorem fits_true (s : Scheduler n k) : Fits (fun _ _ => True) (fun _ _ => True) s :=
  ⟨⟨fun _ _ _ => trivial, fun _ _ _ => trivial, fun _ _ _ _ _ => trivial⟩, fun _ => trivial⟩

theorem Linked.handle (h : s.Linked) (hok : s.EventGuarded e) (he : s.handle e = some s') :
    s'.Linked := by
  cases e with
  | act a => exact (Inv.step h hok (fun _ _ _ _ _ _ => trivial) he).1
  | write tcb =>
    simp only [Scheduler.handle] at he
    split_ifs at he with hsame
    cases he
    have hhome : { s with tcb }.home = s.home := by
      funext t
      unfold home Tcb.queueTarget
      rw [(hsame t).1]
    refine ⟨fits_true _, hhome ▸ h.rq, hhome ▸ h.edf, h.single, h.bucket, ?_⟩
    intro t ht
    rw [hhome]
    exact h.userHome t ((hsame t).2.symm.trans ht)
  | register idTable allTasks upCpus =>
    have hs' := Option.some.inj he
    exact (Inv.congr h (hs' ▸ rfl) (hs' ▸ rfl) (hs' ▸ rfl)).1

/-- In every run from empty queues whose steps are guarded the queues are well formed. -/
theorem queues_well_formed {es : List (Event n k)} (hstart : s.Start)
    (hrun : Run handle EventGuarded s es s') : s'.WellFormed :=
  Inv.wellFormed (hrun.invariant (I := Linked) (fun _ _ _ hs hok he => hs.handle hok he)
    (hstart.inv (fits_true s)))

def pair : Scheduler 2 1 :=
  unqueued (fun t => { Tcb.plain (t + 1) with cpuAffinity := 1#64 <<< (t : ℕ) }) [0, 1] 2

theorem pair_start : pair.Start := start_unqueued nofun

theorem queues_well_formed_pair :
    ∃ s', Run handle EventGuarded pair
        [.act (.setTaskReady 0 0), .act (.setTaskReady 0 1), .act (.mailboxDrain 1),
          .act (.movePriority 1 10 20)] s' ∧
      (s'.rq.queue (0, 10)).count = 1 ∧ (s'.rq.queue (1, 20)).count = 1 ∧ s'.WellFormed := by
  refine Run.exists_imp_of_exec
    (fun s' => (s'.rq.queue (0, 10)).count = 1 ∧ (s'.rq.queue (1, 20)).count = 1)
    (by decide +kernel) ?_
  rintro s' hrun ⟨hleft, hright⟩
  exact ⟨hleft, hright, queues_well_formed pair_start hrun⟩

theorem not_wellFormed_of_loop {i : Cpu k × ℕ} {t : Fin n}
    (hhead : (s.rq.queue i).head = some t) (hloop : s.rq.links.next t = some t) :
    ¬ s.WellFormed := by
  rintro ⟨Q, E, hspells, hnodup, -⟩
  obtain ⟨l, hQ⟩ := (hhead ▸ hspells.queue i).eq_cons_cons hloop
  have hdup := hnodup i
  rw [hQ] at hdup
  exact (List.nodup_cons.mp hdup).1 List.mem_cons_self

/-- Two wake-ups of the same task from another CPU before the mailbox is drained. -/
theorem woken_twice_loops :
    pair.Start ∧ ∃ s', Run handle anyStep pair
      [.act (.setTaskReady 0 1), .act (.setTaskReady 0 1), .act (.mailboxDrain 1)] s' ∧
      ¬ s'.WellFormed := by
  refine ⟨pair_start, Run.exists_imp_of_exec (fun s' => (s'.rq.queue (1, 10)).head = some 1 ∧
    s'.rq.links.next 1 = some 1) (by decide +kernel) ?_⟩
  rintro s' - ⟨hhead, hloop⟩
  exact not_wellFormed_of_loop hhead hloop

end Scheduler

end Nexios.Sched
