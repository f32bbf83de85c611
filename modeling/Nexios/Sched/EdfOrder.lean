import Nexios.Sched.Tracking

/-!
# The order of the deadline lists

`EdfSorted`: along the links of each list the keys (deadline, effective priority, id) do not go
down. Inserting keeps this, and so does every change of a key that is followed by `edf_resort`. Not
all are: `scan_deadlines` moves a missed deadline by a period and leaves the task where it stands,
the accounting of a tick re-sorts the list just before it moves the deadline, and `set_priority` and
the lending of a priority tell only the ready queues.
-/

namespace Nexios.Sched.Scheduler

variable {n k : ℕ} {s s' s₀ : Scheduler n k} {cfg : Config} {here : Cpu k} {e v : Fin n}

def EdfSorted (s : Scheduler n k) : Prop :=
  ∃ E : Cpu k → List (Fin n), (∀ c, s.edf.links.Seg none (s.edf.head c) (E c) none) ∧
    ∀ c, (E c).Pairwise (fun t u => (s.tcb t).edfKey ≤ (s.tcb u).edfKey)

theorem Tracked.edfSorted {b : Bool} (h : Tracked true b s) : s.EdfSorted := by
  obtain ⟨E, hE⟩ := Inv.edf h
  exact ⟨E, hE.lists.seg, fun c =>
    (hE.sorted c).imp (fun hle => earlier_eq_false_iff.mp (hle rfl))⟩

theorem deadline_le_of_key_le {a c : Tcb} (h : a.edfKey ≤ c.edfKey) :
    a.deadlineTicks ≤ c.deadlineTicks := by
  unfold Tcb.edfKey at h
  rw [Prod.Lex.toLex_le_toLex] at h
  rcases h with hlt | ⟨heq, -⟩
  · exact hlt.le
  · exact heq.le

/-- The task that goes first has the least key of all that stay in the list, and every task that can
be dispatched stays. -/
theorem Tracked.candidate_least {b : Bool} (h : Tracked true b s)
    (hcand : s.edfPreemptCandidate here = some (s', some e)) (hv : s.edf.inEdfQueue v)
    (hhome : s.home v = here) (hstay : s.edfValid here v = true ∨ s'.edf.inEdfQueue v = true) :
    (s.tcb e).edfKey ≤ (s.tcb v).edfKey := by
  obtain ⟨edf, found, heq, hpeek, -⟩ := Inv.edfPreemptCandidate h here
  obtain ⟨hs', hfilter⟩ := Prod.mk.inj (Option.some.inj (heq.symm.trans hcand))
  have hfound : found = some e := (Option.filter_eq_some_iff.mp hfilter).1
  have hin : edf.inEdfQueue v = true := by
    rcases hstay with hvalid | hin
    · exact hpeek.keeps v hv (.inl hvalid)
    · rw [← hs'] at hin
      exact hin
  rcases hpeek.least e v hfound hin hhome with rfl | hle
  · exact le_rfl
  · exact earlier_eq_false_iff.mp (hle rfl)

def KeysFollowed (cfg : Config) (s : Scheduler n k) (c : Change n k) : Prop :=
  s.Proper cfg c ∧ s.OrderOk cfg c
  deriving Decidable

/-- In every run whose steps re-sort the lists after a change of a key, the lists are sorted, and
the task that is dispatched from a list has an earliest deadline in it. -/
theorem edf_order {cs : List (Change n k)} (hstart : s₀.Start)
    (hrun : Run (change cfg) (KeysFollowed cfg) s₀ cs s) :
    s.EdfSorted ∧ ∀ here s' e, s.edfPreemptCandidate here = some (s', some e) →
      ∀ v, s.edf.inEdfQueue v → s.home v = here →
        s.edfValid here v = true ∨ s'.edf.inEdfQueue v →
        (s.tcb e).deadlineTicks ≤ (s.tcb v).deadlineTicks := by
  have htracked : Tracked true false s :=
    hrun.invariant (fun _ _ _ h hok he => h.change hok.1 (fun _ => hok.2) nofun he)
      (hstart.inv (fits_tracked true false s₀))
  exact ⟨htracked.edfSorted, fun here s' e hcand v hv hhome hstay =>
    deadline_le_of_key_le (htracked.candidate_least hcand hv hhome hstay)⟩

def twoDeadlines : Scheduler 2 0 :=
  unqueued (fun t => { Tcb.plain (t + 1) with deadlineTicks := 10 * (t + 1), periodTicks := 100 })
    [0, 1] 1

theorem twoDeadlines_start : twoDeadlines.Start := start_unqueued nofun

theorem edf_order_twoDeadlines :
    ∃ s s', Run (change ⟨true, false⟩) (KeysFollowed ⟨true, false⟩) twoDeadlines
        [.act (.setTaskReady 0 1), .act (.setTaskReady 0 0), .account 0 0, .scanDeadline 5 0] s ∧
      s.edfPreemptCandidate 0 = some (s', some 0) ∧ s.EdfSorted ∧
      (s.tcb 0).deadlineTicks ≤ (s.tcb 1).deadlineTicks := by
  simp only [exists_and_left]
  refine Run.exists_imp_of_exec (fun s => (s.edfPreemptCandidate 0).map Prod.snd = some (some 0) ∧
    s.edf.inEdfQueue 1 = true ∧ s.home 1 = 0 ∧ s.edfValid 0 1 = true) (by decide +kernel) ?_
  rintro s hrun ⟨hcand, hin, hhome, hvalid⟩
  obtain ⟨⟨s', _⟩, hcand, rfl⟩ := Option.map_eq_some_iff.mp hcand
  obtain ⟨hsorted, hleast⟩ := edf_order twoDeadlines_start hrun
  exact ⟨s', hcand, hsorted, hleast 0 s' 0 hcand 1 hin hhome (.inl hvalid)⟩

theorem not_edfSorted_of_links {c : Cpu k} {t u : Fin n} (hhead : s.edf.head c = some t)
    (hnext : s.edf.links.next t = some u) (hlt : (s.tcb u).deadlineTicks < (s.tcb t).deadlineTicks) :
    ¬ s.EdfSorted := by
  rintro ⟨E, hseg, hsorted⟩
  obtain ⟨l, hE⟩ := (hhead ▸ hseg c).eq_cons_cons hnext
  have hpair := hsorted c
  rw [hE] at hpair
  have hle := deadline_le_of_key_le (List.rel_of_pairwise_cons hpair List.mem_cons_self)
  omega

/-- Both tasks are queued when the deadline 10 is missed. The scan gives the task the deadline 110
and leaves it in front, and it is dispatched before the task with the deadline 20. -/
theorem missed_deadline_unsorts :
    twoDeadlines.Start ∧ ∃ s s', Run (change ⟨true, false⟩) anyStep twoDeadlines
        [.act (.setTaskReady 0 0), .act (.setTaskReady 0 1), .scanDeadline 15 0,
          .scanDeadline 15 1] s ∧
      ¬ s.EdfSorted ∧ s.edfPreemptCandidate 0 = some (s', some 0) ∧ s.edfValid 0 1 = true ∧
      s.edf.inEdfQueue 1 = true ∧ (s.tcb 1).deadlineTicks < (s.tcb 0).deadlineTicks := by
  refine ⟨twoDeadlines_start, ?_⟩
  simp only [exists_and_left]
  refine Run.exists_imp_of_exec (fun s => (s.edfPreemptCandidate 0).map Prod.snd = some (some 0) ∧
    s.edf.inEdfQueue 1 = true ∧ s.edfValid 0 1 = true ∧ s.edf.head 0 = some 0 ∧
    s.edf.links.next 0 = some 1 ∧ (s.tcb 1).deadlineTicks < (s.tcb 0).deadlineTicks)
    (by decide +kernel) ?_
  rintro s - ⟨hcand, hin, hvalid, hhead, hnext, hlt⟩
  obtain ⟨⟨s', _⟩, hcand, rfl⟩ := Option.map_eq_some_iff.mp hcand
  exact ⟨not_edfSorted_of_links hhead hnext hlt, s', hcand, hvalid, hin, hlt⟩

end Nexios.Sched.Scheduler
