import Nexios.Ipc.MessageQueue

/-!
# Message queues as lists

A `MessageQueue` is a list of at most `IPC_MAX_QUEUE_MSG` messages: `push` appends, and each pop
chooses the first message of the least priority number among those that it looks at. The size is
only checked on the message that has been chosen, so that one that is too large hides the others.

A message whose priority number is above `IPC_PRIORITY_LEVELS` is accepted but never chosen.
-/

open List Nat

namespace Nexios.Ipc

open FirstMin (IsFirstMin)

/-- What a pop does to the list `l`: `counts` tells the messages that it looks at, `fits` whether it
takes the one that it has chosen. -/
def Removes (counts fits : Message → Bool) (l l' : List Message) (r : Option Message) : Prop :=
  (∃ i msg, IsFirstMin counts Message.priority l i msg ∧ fits msg = true ∧ l' = l.eraseIdx i ∧
    r = some msg) ∨
  ((∀ i msg, IsFirstMin counts Message.priority l i msg → fits msg = false) ∧ l' = l ∧ r = none)

inductive ListStep : List Message → QueueOp → QueueAnswer → List Message → Prop
  | push {l : List Message} {msg : Message} (h : l.length < maxQueueMsg) :
    ListStep l (.push msg) (.pushed true) (l ++ [msg])
  | full {l : List Message} {msg : Message} (h : l.length = maxQueueMsg) :
    ListStep l (.push msg) (.pushed false) l
  | pop {l l' : List Message} {r : Option Message}
    (h : Removes (fun _ => true) (fun _ => true) l l' r) : ListStep l .pop (.popped r) l'
  | popClamped {l l' : List Message} {r : Option Message} {maxSize : ℕ}
    (h : Removes (fun _ => true) (fun msg => msg.dataSize ≤ maxSize) l l' r) :
    ListStep l (.popClamped maxSize) (.popped r) l'
  | popFromSender {l l' : List Message} {r : Option Message} {senderId : ℕ}
    (h : Removes (fun msg => msg.senderId = senderId) (fun _ => true) l l' r) :
    ListStep l (.popFromSender senderId) (.popped r) l'
  | popFromSenderClamped {l l' : List Message} {r : Option Message} {maxSize senderId : ℕ}
    (h : Removes (fun msg => msg.senderId = senderId) (fun msg => msg.dataSize ≤ maxSize) l l' r) :
    ListStep l (.popFromSenderClamped maxSize senderId) (.popped r) l'

inductive ListRun : List Message → List QueueOp → List QueueAnswer → List Message → Prop
  | nil (l : List Message) : ListRun l [] [] l
  | cons {l l' l'' : List Message} {op : QueueOp} {r : QueueAnswer} {ops : List QueueOp}
    {rs : List QueueAnswer} (h : ListStep l op r l') (hr : ListRun l' ops rs l'') :
    ListRun l (op :: ops) (r :: rs) l''

/-- A message that is pushed has a priority number below `IPC_PRIORITY_LEVELS`. -/
def QueueOp.Below : QueueOp → Prop
  | .push msg => msg.priority < priorityLevels
  | _ => True

instance (op : QueueOp) : Decidable op.Below := by
  unfold QueueOp.Below
  split <;> infer_instance

/-! ## The bitmap -/

theorem getLsbD_priorityBit {priority p : ℕ} (h : priority < 64) :
    (priorityBit priority).getLsbD p = decide (priority = p) := by
  have hbit : priorityBit priority = BitVec.twoPow 64 priority := by
    unfold priorityBit
    rw [mod_eq_of_lt h]
    rfl
  rw [hbit, BitVec.getLsbD_twoPow, decide_eq_true h, Bool.true_and]

theorem getLsbD_bitmapOf {l : List Message} (h : ∀ msg ∈ l, msg.priority < 64) (p : ℕ) :
    (bitmapOf l).getLsbD p = true ↔ ∃ msg ∈ l, msg.priority = p := by
  suffices hfold : ∀ b : BitVec 64,
      (l.foldl (fun b msg => b ||| priorityBit msg.priority) b).getLsbD p = true ↔
        b.getLsbD p = true ∨ ∃ msg ∈ l, msg.priority = p by
    rw [bitmapOf, hfold 0]
    simp
  induction l with
  | nil => simp
  | cons msg l ih =>
    intro b
    rw [foldl_cons, ih fun m hm => h m (mem_cons_of_mem _ hm), BitVec.getLsbD_or,
      getLsbD_priorityBit (h msg mem_cons_self)]
    simp [or_assoc]

namespace MessageQueue

variable {q q' : MessageQueue} {counts fits : Message → Bool} {l l' : List Message} {i : ℕ}
  {msg : Message} {r : Option Message} {ops : List QueueOp} {rs : List QueueAnswer}

def Takes (counts fits : Message → Bool) (l l' : List Message) (r : Option Message) : Prop :=
  (∃ i msg, IsFirstMin counts Message.priority l i msg ∧ msg.priority ≤ priorityLevels ∧
    fits msg = true ∧ l' = l.eraseIdx i ∧ r = some msg) ∨
  (((∀ msg ∈ l, counts msg → priorityLevels < msg.priority) ∨
    ∃ i msg, IsFirstMin counts Message.priority l i msg ∧ fits msg = false) ∧ l' = l ∧ r = none)

theorem Takes.missing (h : Takes counts (fun _ => true) l l' none) :
    ∀ msg ∈ l, counts msg → priorityLevels < msg.priority := by
  rcases h with ⟨i, msg, -, -, -, -, hr⟩ | ⟨hnone | ⟨i, msg, -, hfits⟩, -, -⟩
  · cases hr
  · exact hnone
  · cases hfits

/-- With priorities below `IPC_PRIORITY_LEVELS` the bound of the search excludes nothing. -/
theorem Takes.removes (h : Takes counts fits l l' r)
    (hlevel : ∀ msg ∈ l, msg.priority < priorityLevels) : Removes counts fits l l' r := by
  rcases h with ⟨i, msg, hmin, -, hfits, hl, hr⟩ | ⟨hnone | ⟨i, msg, hmin, hfits⟩, hl, hr⟩
  · exact .inl ⟨i, msg, hmin, hfits, hl, hr⟩
  · refine .inr ⟨fun i msg hmin => ?_, hl, hr⟩
    have hmem := mem_of_getElem? hmin.entry
    exact absurd (hnone msg hmem hmin.counted) (hlevel msg hmem).not_gt
  · refine .inr ⟨fun j m hj => ?_, hl, hr⟩
    rw [← hmin.unique hj]
    exact hfits

section

variable (hw : q.WellFormed)
include hw

theorem take_spec (counts fits : Message → Bool) :
    ∃ q' r, q.take (q.findBest counts) fits = some (q', r) ∧ q'.WellFormed ∧
      Takes counts fits q.contents q'.contents r := by
  have hanswer := FirstMin.answer_scan counts Message.priority (priorityLevels + 1) q.contents
  rw [findBest_eq hw]
  unfold take
  cases hchoice : choice counts q.contents with
  | none =>
    exact ⟨q, none, if_pos le_rfl, hw, .inr ⟨.inl (hanswer.missing hchoice), rfl, rfl⟩⟩
  | some i =>
    obtain ⟨msg, hmin, hlevel⟩ := hanswer.found i hchoice
    have hi : i < q.count := by
      have hlen := (List.getElem?_eq_some_iff.mp hmin.entry).1
      rwa [contents_length] at hlen
    have hcell : q.msgs ((q.head + i) % maxQueueMsg) = msg :=
      Option.some.inj ((Ring.entries_getElem? hi).symm.trans hmin.entry)
    have hlt : (q.head + i) % maxQueueMsg < maxQueueMsg := mod_lt _ (zero_lt_of_lt hw.head)
    rw [Option.elim_some, if_neg (not_le.mpr hlt), hcell]
    split_ifs with hfits
    · obtain ⟨q', hq', hw', hcontents⟩ := exists_removeAt hw hi
      refine ⟨q', some msg, ?_, hw', .inl ⟨i, msg, hmin, Nat.lt_succ_iff.mp hlevel, hfits,
        hcontents, rfl⟩⟩
      rw [hq', Option.map_some]
    · exact ⟨q, none, rfl, hw, .inr ⟨.inr ⟨i, msg, hmin, Bool.eq_false_iff.mpr hfits⟩, rfl, rfl⟩⟩

theorem hasFrom_eq_false {senderId : ℕ} (h : q.hasFrom senderId = false) :
    ∀ msg ∈ q.contents, msg.senderId = senderId → priorityLevels < msg.priority := by
  have hanswer := FirstMin.answer_scan (fun msg : Message => decide (msg.senderId = senderId))
    Message.priority (priorityLevels + 1) q.contents
  cases hchoice : choice (fun msg => decide (msg.senderId = senderId)) q.contents with
  | none =>
    intro msg hmsg hsender
    exact hanswer.missing hchoice msg hmsg (decide_eq_true hsender)
  | some i =>
    refine absurd ?_ (of_decide_eq_false h)
    unfold findBestFromSender
    rw [findBest_eq hw, hchoice]
    exact mod_lt _ (zero_lt_of_lt hw.head)

theorem take_of_nonempty (counts fits : Message → Bool) :
    ∃ q' r, (if q.isEmpty then some (q, none) else q.take (q.findBest counts) fits) = some (q', r) ∧
      q'.WellFormed ∧ Takes counts fits q.contents q'.contents r := by
  split_ifs with hempty
  · have hnil : q.contents = [] := by
      rw [← length_eq_zero_iff, contents_length]
      exact of_decide_eq_true hempty
    refine ⟨q, none, rfl, hw, .inr ⟨.inl fun msg hmsg => ?_, rfl, rfl⟩⟩
    rw [hnil] at hmsg
    cases hmsg
  · exact take_spec hw counts fits

theorem apply_spec (op : QueueOp) : ∃ q' r, q.apply op = some (q', r) ∧ q'.WellFormed ∧
      ((∀ msg ∈ q.contents, msg.priority < priorityLevels) →
        ListStep q.contents op r q'.contents) := by
  cases op with
  | push msg =>
    refine ⟨_, _, rfl, ?_⟩
    cases hfull : q.isFull with
    | true =>
      rw [push, if_pos hfull]
      refine ⟨hw, fun _ => .full ?_⟩
      rw [contents_length]
      exact le_antisymm hw.count (of_decide_eq_true hfull)
    | false =>
      obtain ⟨hok, hw', hcontents⟩ := push_spec hw hfull msg
      refine ⟨hw', fun _ => ?_⟩
      rw [hok, hcontents]
      refine .push ?_
      rw [contents_length]
      exact not_le.mp (of_decide_eq_false hfull)
  | pop =>
    obtain ⟨q', r, hpop, hw', htakes⟩ := take_of_nonempty hw (fun _ => true) (fun _ => true)
    exact ⟨q', .popped r, congrArg (Option.map _) hpop, hw', fun hl => .pop (htakes.removes hl)⟩
  | popClamped maxSize =>
    obtain ⟨q', r, hpop, hw', htakes⟩ :=
      take_of_nonempty hw (fun _ => true) (fun msg => msg.dataSize ≤ maxSize)
    exact ⟨q', .popped r, congrArg (Option.map _) hpop, hw',
      fun hl => .popClamped (htakes.removes hl)⟩
  | popFromSender senderId =>
    obtain ⟨q', r, hpop, hw', htakes⟩ :=
      take_spec hw (fun msg => msg.senderId = senderId) (fun _ => true)
    exact ⟨q', .popped r, congrArg (Option.map _) hpop, hw',
      fun hl => .popFromSender (htakes.removes hl)⟩
  | popFromSenderClamped maxSize senderId =>
    obtain ⟨q', r, hpop, hw', htakes⟩ :=
      take_spec hw (fun msg => msg.senderId = senderId) (fun msg => msg.dataSize ≤ maxSize)
    exact ⟨q', .popped r, congrArg (Option.map _) hpop, hw',
      fun hl => .popFromSenderClamped (htakes.removes hl)⟩

theorem wellFormed_applyAll (h : q.applyAll ops = some (q', rs)) : q'.WellFormed := by
  induction ops generalizing q rs with
  | nil =>
    cases h
    exact hw
  | cons op ops ih =>
    obtain ⟨⟨q₁, r⟩, happly, hrest⟩ := Option.bind_eq_some_iff.mp h
    obtain ⟨⟨q₂, rs₂⟩, hall, heq⟩ := Option.map_eq_some_iff.mp hrest
    cases heq
    obtain ⟨q₃, r₃, happly', hw₃, -⟩ := apply_spec hw op
    cases happly.symm.trans happly'
    exact ih hw₃ hall

end

theorem Takes.subset (h : Takes counts fits l l' r) : l' ⊆ l := by
  rcases h with ⟨i, msg, -, -, -, rfl, -⟩ | ⟨-, rfl, -⟩
  · exact eraseIdx_subset
  · exact .refl _

structure Represents (q : MessageQueue) (l : List Message) : Prop where
  contents : q.contents = l
  count : q.count = l.length
  room : l.length ≤ maxQueueMsg
  bitmap : ∀ p, q.prioBitmap.getLsbD p = true ↔ ∃ msg ∈ l, msg.priority = p

theorem WellFormed.represents (hw : q.WellFormed)
    (hlevel : ∀ msg ∈ q.contents, msg.priority < priorityLevels) : q.Represents q.contents where
  contents := rfl
  count := q.contents_length.symm
  room := q.contents_length.trans_le hw.count
  bitmap p := by
    rw [hw.bitmap]
    exact getLsbD_bitmapOf (fun msg hmsg => (hlevel msg hmsg).trans (by decide)) p

def HighestExact (q : MessageQueue) : Prop :=
  q.contents = [] ∧ q.highestPriority = priorityLevels ∨
    IsLeast {p | ∃ msg ∈ q.contents, msg.priority = p} q.highestPriority

theorem Represents.highestExact (h : q.Represents l) : q.HighestExact := by
  obtain rfl := h.contents
  unfold HighestExact highestPriority
  by_cases hzero : q.prioBitmap = 0
  · refine .inl ⟨eq_nil_iff_forall_not_mem.mpr fun msg hmsg => ?_, if_pos hzero⟩
    have hbit := (h.bitmap msg.priority).mpr ⟨msg, hmsg, rfl⟩
    simp [hzero] at hbit
  rw [if_neg hzero]
  cases hfind : (List.range 64).find? fun p => q.prioBitmap.getLsbD p with
  | none =>
    refine absurd (BitVec.eq_of_getLsbD_eq fun p hp => ?_) hzero
    simpa using List.find?_eq_none.mp hfind p (mem_range.mpr hp)
  | some p =>
    refine .inr ⟨(h.bitmap p).mp (List.find?_some hfind), fun p' hp' => not_lt.mp fun hlt => ?_⟩
    have hclear := (List.find?_range_eq_some.mp hfind).2.2 p' hlt
    simp [(h.bitmap p').mpr hp'] at hclear

end MessageQueue

theorem ListStep.below {l l' : List Message} {op : QueueOp} {r : QueueAnswer}
    (h : ListStep l op r l') (hop : op.Below) (hl : ∀ msg ∈ l, msg.priority < priorityLevels) :
    ∀ msg ∈ l', msg.priority < priorityLevels := by
  have hremoves : ∀ {counts fits r}, Removes counts fits l l' r →
      ∀ msg ∈ l', msg.priority < priorityLevels := by
    rintro counts fits r (⟨i, msg, -, -, rfl, -⟩ | ⟨-, rfl, -⟩)
    · exact fun m hm => hl m (mem_of_mem_eraseIdx hm)
    · exact hl
  cases h with
  | push _ =>
    intro m hm
    rcases mem_append.mp hm with hm | hm
    · exact hl m hm
    · exact mem_singleton.mp hm ▸ hop
  | full _ => exact hl
  | pop h | popClamped h | popFromSender h | popFromSenderClamped h => exact hremoves h

namespace MessageQueue

variable {q q' : MessageQueue} {ops : List QueueOp} {rs : List QueueAnswer}

theorem exists_listRun (hw : q.WellFormed)
    (hl : ∀ msg ∈ q.contents, msg.priority < priorityLevels) (h : ∀ op ∈ ops, op.Below) :
    ∃ q' rs l, q.applyAll ops = some (q', rs) ∧ ListRun q.contents ops rs l ∧ q'.Represents l := by
  induction ops generalizing q with
  | nil => exact ⟨q, [], q.contents, rfl, .nil _, hw.represents hl⟩
  | cons op ops ih =>
    obtain ⟨q₁, r, happly, hw₁, hstep⟩ := apply_spec hw op
    have hl₁ := (hstep hl).below (h op mem_cons_self) hl
    obtain ⟨q', rs, l, hall, hrun, hrep⟩ := ih hw₁ hl₁ fun o ho => h o (mem_cons_of_mem _ ho)
    refine ⟨q', r :: rs, l, ?_, .cons (hstep hl) hrun, hrep⟩
    rw [applyAll, happly, Option.bind_some, hall, Option.map_some]

/-- Any operations on a queue after `init`, with messages of priority numbers below
`IPC_PRIORITY_LEVELS`, succeed, and their answers are those of the operations on a list: a pop
removes the first message of the least number among those of its sender, if that message fits. The
number of messages and the bitmap are exact. -/
theorem messageQueue_refines (q : MessageQueue) (ops : List QueueOp) (h : ∀ op ∈ ops, op.Below) :
    ∃ q' rs l, q.init.applyAll ops = some (q', rs) ∧ ListRun [] ops rs l ∧ q'.Represents l :=
  exists_listRun (wellFormed_init q) nofun h

/-- After any such operations `highest_priority`, which reads the bitmap only, is the least priority
number in the queue. -/
theorem highestPriority_exact (q : MessageQueue) (h : ∀ op ∈ ops, op.Below) :
    ∃ q' rs, q.init.applyAll ops = some (q', rs) ∧ q'.HighestExact := by
  obtain ⟨q', rs, l, hall, -, hrep⟩ := exists_listRun (wellFormed_init q) nofun h
  exact ⟨q', rs, hall, hrep.highestExact⟩

/-- A message of a sender with a priority and a size, and a queue after `init`. -/
def letter (senderId priority size : ℕ) : Message :=
  ⟨senderId, 0, priority, List.replicate size 0, size, 0⟩

def emptyQueue : MessageQueue := ⟨fun _ => letter 0 0 0, 0, 0, 0, 0⟩

/-- The highest priority is taken away, and two others are left. -/
def threeLetters : List QueueOp :=
  [.push (letter 1 7 0), .push (letter 2 0 0), .push (letter 3 3 0), .pop]

theorem highestPriority_exact_three : ∃ q' rs,
    emptyQueue.init.applyAll threeLetters = some (q', rs) ∧
      q'.contents.map Message.priority = [7, 3] ∧ q'.HighestExact := by
  have hbelow : ∀ op ∈ threeLetters, op.Below := by decide
  obtain ⟨q', rs, hrun, hexact⟩ := highestPriority_exact emptyQueue hbelow
  refine ⟨q', rs, hrun, ?_, hexact⟩
  cases hrun
  rfl

/-- A message is taken from the middle of the ring. -/
theorem messageQueue_refines_middle :
    (∃ q, emptyQueue.init.applyAll [.push (letter 1 7 0), .push (letter 2 3 0), .push (letter 1 3 0),
        .popFromSender 1, .pop] = some (q, [.pushed true, .pushed true, .pushed true,
          .popped (some (letter 1 3 0)), .popped (some (letter 2 3 0))])) ∧
    ∃ q' rs l, emptyQueue.init.applyAll [.push (letter 1 7 0), .push (letter 2 3 0),
        .push (letter 1 3 0), .popFromSender 1, .pop] = some (q', rs) ∧
      ListRun [] [.push (letter 1 7 0), .push (letter 2 3 0), .push (letter 1 3 0),
        .popFromSender 1, .pop] rs l ∧ q'.Represents l :=
  ⟨⟨_, rfl⟩, messageQueue_refines emptyQueue _ (by decide)⟩

/-- A message that is too large hides one that would fit. -/
theorem popClamped_hides :
    ∃ q, emptyQueue.init.applyAll [.push (letter 1 0 10), .push (letter 1 1 1)] =
        some (q, [.pushed true, .pushed true]) ∧
      IsFirstMin (fun msg => msg.dataSize ≤ 5) Message.priority q.contents 1 (letter 1 1 1) ∧
      (q.popClamped 5).map Prod.snd = some none ∧
      (q.popFromSenderClamped 5 1).map Prod.snd = some none := by
  refine ⟨_, rfl, ⟨rfl, rfl, ?_, ?_⟩, rfl, rfl⟩
  · intro msg hmsg hfits
    have hcontents : msg ∈ [letter 1 0 10, letter 1 1 1] := hmsg
    rcases mem_pair.mp hcontents with rfl | rfl
    · cases hfits
    · exact le_rfl
  · intro j msg hj hmsg hfits
    obtain rfl := lt_one_iff.mp hj
    cases hmsg
    cases hfits

/-! ## Messages that are never received -/

/-- `n` pops in a row, with the messages that they have returned. -/
def drain : ℕ → MessageQueue → Option (MessageQueue × List Message)
  | 0, q => some (q, [])
  | n + 1, q => q.pop.bind fun r => (drain n r.1).map fun d => (d.1, r.2.toList ++ d.2)

/-- A pop of a queue that is not empty succeeds, and as many pops as there are messages return each
of them once. -/
structure Receivable (q : MessageQueue) : Prop where
  pop : q.count ≠ 0 → ∃ q' msg, q.pop = some (q', some msg)
  drain : ∃ q' l, drain q.count q = some (q', l) ∧ l.Perm q.contents

theorem pop_spec (hw : q.WellFormed) : ∃ q' r, q.pop = some (q', r) ∧ q'.WellFormed ∧
    Takes (fun _ => true) (fun _ => true) q.contents q'.contents r :=
  take_of_nonempty hw (fun _ => true) (fun _ => true)

theorem exists_drain (hw : q.WellFormed) (n : ℕ) : ∃ q' l, drain n q = some (q', l) ∧
    ∀ msg ∈ l, msg.priority ≤ priorityLevels := by
  induction n generalizing q with
  | zero => exact ⟨q, [], rfl, nofun⟩
  | succ n ih =>
    obtain ⟨q₁, r, hpop, hw₁, htakes⟩ := pop_spec hw
    obtain ⟨q', l, hdrain, hl⟩ := ih hw₁
    refine ⟨q', r.toList ++ l, ?_, fun msg hmsg => ?_⟩
    · rw [MessageQueue.drain, hpop, Option.bind_some, hdrain, Option.map_some]
    · rcases mem_append.mp hmsg with hr | hl'
      · rcases htakes with ⟨i, m, -, hlevel, -, -, rfl⟩ | ⟨-, -, rfl⟩
        · exact mem_singleton.mp hr ▸ hlevel
        · cases hr
      · exact hl msg hl'

theorem exists_pop (hw : q.WellFormed) (hne : q.count ≠ 0)
    (hl : ∀ msg ∈ q.contents, msg.priority ≤ priorityLevels) :
    ∃ q' msg, q.pop = some (q', some msg) ∧ q'.WellFormed ∧
      q.contents.Perm (msg :: q'.contents) := by
  obtain ⟨q', r, hpop, hw', htakes⟩ := pop_spec hw
  rcases htakes with ⟨i, msg, hmin, -, -, hq', rfl⟩ | ⟨hnone | ⟨i, msg, -, hfits⟩, -, -⟩
  · refine ⟨q', msg, hpop, hw', ?_⟩
    obtain ⟨hi, rfl⟩ := List.getElem?_eq_some_iff.mp hmin.entry
    rw [hq']
    exact (getElem_cons_eraseIdx_perm hi).symm
  · obtain ⟨msg, hmsg⟩ : ∃ msg, msg ∈ q.contents := by
      apply exists_mem_of_length_pos
      rw [contents_length]
      exact Nat.pos_of_ne_zero hne
    exact absurd (hnone msg hmsg rfl) (hl msg hmsg).not_gt
  · cases hfits

theorem perm_drain (hw : q.WellFormed) (hl : ∀ msg ∈ q.contents, msg.priority ≤ priorityLevels)
    {n : ℕ} (hn : q.count = n) : ∃ q' l, drain n q = some (q', l) ∧ l.Perm q.contents := by
  induction n generalizing q with
  | zero =>
    refine ⟨q, [], rfl, ?_⟩
    rw [eq_nil_of_length_eq_zero (q.contents_length.trans hn)]
  | succ n ih =>
    obtain ⟨q₁, msg, hpop, hw₁, hperm⟩ := exists_pop hw (by omega) hl
    have hcount : q₁.count = n := by
      have hlen := hperm.length_eq
      rw [length_cons, contents_length, contents_length] at hlen
      omega
    obtain ⟨q', l, hdrain, hl'⟩ :=
      ih hw₁ (fun m hm => hl m (hperm.mem_iff.mpr (mem_cons_of_mem _ hm))) hcount
    refine ⟨q', msg :: l, ?_, (hl'.cons msg).trans hperm.symm⟩
    rw [MessageQueue.drain, hpop, Option.bind_some, hdrain]
    rfl

/-- After any operations, the messages of a queue can all be received if and only if none has a
priority number above `IPC_PRIORITY_LEVELS`. -/
theorem receivable_iff (h : q.init.applyAll ops = some (q', rs)) :
    q'.Receivable ↔ ∀ msg ∈ q'.contents, msg.priority ≤ priorityLevels := by
  have hw := wellFormed_applyAll (wellFormed_init q) h
  constructor
  · intro hrec msg hmsg
    obtain ⟨q₁, l, hdrain, hperm⟩ := hrec.drain
    obtain ⟨q₂, l₂, hdrain₂, hl₂⟩ := exists_drain hw q'.count
    cases hdrain.symm.trans hdrain₂
    exact hl₂ msg (hperm.mem_iff.mpr hmsg)
  · intro hl
    refine ⟨fun hne => ?_, perm_drain hw hl rfl⟩
    obtain ⟨q₁, msg, hpop, -⟩ := exists_pop hw hne hl
    exact ⟨q₁, msg, hpop⟩

/-- Two messages, one of the lowest priority that is searched. -/
theorem receivable_iff_two : ∃ q' rs,
    emptyQueue.init.applyAll [.push (letter 1 32 0), .push (letter 1 0 0)] = some (q', rs) ∧
      q'.Receivable := by
  have hrun : emptyQueue.init.applyAll [.push (letter 1 32 0), .push (letter 1 0 0)] =
      some (_, _) := rfl
  refine ⟨_, _, hrun, (receivable_iff hrun).mpr fun msg hmsg => ?_⟩
  have hcontents : msg ∈ [letter 1 32 0, letter 1 0 0] := hmsg
  rcases mem_pair.mp hcontents with rfl | rfl
  · decide
  · decide

/-- A message of the task priority 33 is accepted, and no pop returns it. -/
theorem message_unreceivable : ∃ q',
    emptyQueue.init.applyAll [.push (letter 1 33 0)] = some (q', [.pushed true]) ∧ q'.count = 1 ∧
      q'.pop.map Prod.snd = some none ∧ ¬ q'.Receivable := by
  refine ⟨_, rfl, rfl, rfl, fun h => ?_⟩
  obtain ⟨q', msg, hpop⟩ := h.pop nofun
  cases hpop

end MessageQueue

end Nexios.Ipc
