import Nexios.Lib.Atomic
import Nexios.Lib.Ring

/-!
# The ring of one producer and one consumer

`SPSCRing::try_push` and `try_pop`, one load or store at a time. The producer alone writes `head_`
and the consumer alone writes `tail_`, and each reads the index of the other once. What the producer
has seen of `tail_` may be out of date when it writes its cell, but then the ring has only become
emptier. A call takes effect at the store of an index if it succeeds, and at the load of the other's
index if it fails. One cell stays free, so that a full ring is told from an empty one.

The capacity is a power of two, as the source asserts, and an index is reduced by its mask.
-/

open Function List Nat

namespace Nexios.Sync

open Atomic.State

variable {α : Type*} {k : ℕ}

inductive SpscSide
  | producer
  | consumer
  deriving DecidableEq

inductive SpscOp (α : Type*)
  | push (item : α)
  | pop
  deriving DecidableEq

inductive SpscRes (α : Type*)
  | pushed (ok : Bool)
  | popped (item : Option α)
  deriving DecidableEq

def boundedFifo (α : Type*) (capacity : ℕ) : Atomic.Object (List α) (SpscOp α) (SpscRes α) where
  init := []
  apply q
    | .push item =>
      if q.length < capacity then (q ++ [item], .pushed true) else (q, .pushed false)
    | .pop =>
      match q with
      | [] => ([], .popped none)
      | item :: q => (q, .popped (some item))

/-- The next operation of `try_push`. `present` is the number of elements at the operation that has
decided the answer. -/
inductive ProducerPc (α : Type*)
  | idle
  | loadHead (item : α)
  | loadTail (item : α) (h : ℕ)
  | write (item : α) (h next : ℕ)
  | store (item : α) (next : ℕ)
  | returning (ok : Bool) (present : ℕ)

/-- The next operation of `try_pop`. -/
inductive ConsumerPc (α : Type*)
  | idle
  | loadTail
  | loadHead (t : ℕ)
  | read (t : ℕ)
  | store (item : α) (t : ℕ)
  | returning (item : Option α) (present : ℕ)

/-- `pushed`, `popped` and `history` record what has happened; no operation reads them. -/
structure SpscState (α : Type*) where
  head : ℕ
  tail : ℕ
  data : ℕ → α
  producer : ProducerPc α
  consumer : ConsumerPc α
  pushed : List α
  popped : List α
  history : List (Atomic.Event SpscSide (SpscOp α) (SpscRes α))

inductive SpscAction (α : Type*)
  | push (item : α)
  | pop
  /-- the next operation of the producer -/
  | produce
  /-- the next operation of the consumer -/
  | consume

namespace SpscState

/-- `MASK`, for the capacity 2ᵏ. -/
def mask (k : ℕ) : ℕ := 2 ^ k - 1

/-- The elements in the ring, as `peek_slice` counts them. -/
def used (k : ℕ) (s : SpscState α) : ℕ := (s.head + 2 ^ k - s.tail) &&& mask k

def setProducer (s : SpscState α) (p : ProducerPc α) : SpscState α := { s with producer := p }

def setConsumer (s : SpscState α) (p : ConsumerPc α) : SpscState α := { s with consumer := p }

def record (s : SpscState α) (e : Atomic.Event SpscSide (SpscOp α) (SpscRes α)) : SpscState α :=
  { s with history := s.history ++ [e] }

/-- One operation of `try_push`. -/
def produce (k : ℕ) (s : SpscState α) : Option (SpscState α) :=
  match s.producer with
  | .idle => none
  | .loadHead item => some (s.setProducer (.loadTail item s.head))
  | .loadTail item h =>
    let next := (h + 1) &&& mask k
    if next = s.tail then some (s.setProducer (.returning false (s.used k)))
    else some (s.setProducer (.write item h next))
  | .write item h next =>
    some { s.setProducer (.store item next) with data := update s.data h item }
  | .store item next =>
    some { s.setProducer (.returning true (s.used k)) with
      head := next
      pushed := s.pushed ++ [item] }
  | .returning ok _ => some ((s.setProducer .idle).record (.respond .producer (.pushed ok)))

/-- One operation of `try_pop`. -/
def consume (k : ℕ) (s : SpscState α) : Option (SpscState α) :=
  match s.consumer with
  | .idle => none
  | .loadTail => some (s.setConsumer (.loadHead s.tail))
  | .loadHead t =>
    if t = s.head then some (s.setConsumer (.returning none (s.used k)))
    else some (s.setConsumer (.read t))
  | .read t => some (s.setConsumer (.store (s.data t) t))
  | .store item t =>
    some { s.setConsumer (.returning (some item) (s.used k)) with
      tail := (t + 1) &&& mask k
      popped := s.popped ++ [item] }
  | .returning item _ => some ((s.setConsumer .idle).record (.respond .consumer (.popped item)))

def step (k : ℕ) (s : SpscState α) : SpscAction α → Option (SpscState α)
  | .push item =>
    match s.producer with
    | .idle => some ((s.setProducer (.loadHead item)).record (.invoke .producer (.push item)))
    | _ => none
  | .pop =>
    match s.consumer with
    | .idle => some ((s.setConsumer .loadTail).record (.invoke .consumer .pop))
    | _ => none
  | .produce => s.produce k
  | .consume => s.consume k

structure Start (s : SpscState α) : Prop where
  head : s.head = 0
  tail : s.tail = 0
  producer : s.producer = .idle
  consumer : s.consumer = .idle
  pushed : s.pushed = []
  popped : s.popped = []
  history : s.history = []

/-- The ring is a queue with room for one element less than it has cells. -/
structure Refines (k : ℕ) (s : SpscState α) : Prop where
  linearizable : Atomic.Linearizable (boundedFifo α (2 ^ k - 1)) s.history
  fifo : s.popped <+: s.pushed
  full : ∀ present, s.producer = .returning false present → present = 2 ^ k - 1
  empty : ∀ present, s.consumer = .returning none present → present = 0

end SpscState

/-- What the producer knows, and how far its call is, if the ring stands for `q`. -/
def ProducerPc.At (k head : ℕ) (data : ℕ → α) (q : List α)
    (progress : Atomic.Progress (SpscOp α) (SpscRes α)) : ProducerPc α → Prop
  | .idle => progress = .idle
  | .loadHead item => progress = .called (.push item)
  | .loadTail item h => progress = .called (.push item) ∧ h = head
  | .write item h next =>
    progress = .called (.push item) ∧ h = head ∧ next = (head + 1) % 2 ^ k ∧ q.length + 1 < 2 ^ k
  | .store item next =>
    progress = .called (.push item) ∧ data head = item ∧ next = (head + 1) % 2 ^ k ∧
      q.length + 1 < 2 ^ k
  | .returning ok present =>
    progress = .done (.pushed ok) ∧ (ok = false → present = 2 ^ k - 1)

/-- What the consumer knows, and how far the machine is with its call. -/
def ConsumerPc.At (tail : ℕ) (q : List α) (progress : Atomic.Progress (SpscOp α) (SpscRes α)) :
    ConsumerPc α → Prop
  | .idle => progress = .idle
  | .loadTail => progress = .called .pop
  | .loadHead t => progress = .called .pop ∧ t = tail
  | .read t => progress = .called .pop ∧ t = tail ∧ q ≠ []
  | .store item t => progress = .called .pop ∧ t = tail ∧ q.head? = some item
  | .returning item present => progress = .done (.popped item) ∧ (item = none → present = 0)

theorem ConsumerPc.At.append {tail : ℕ} {q : List α} {p : ConsumerPc α}
    {progress : Atomic.Progress (SpscOp α) (SpscRes α)} (h : p.At tail q progress) (item : α) :
    p.At tail (q ++ [item]) progress := by
  cases p with
  | idle | loadTail | loadHead _ | returning _ _ => exact h
  | read t => exact ⟨h.1, h.2.1, append_ne_nil_of_left_ne_nil h.2.2 _⟩
  | store x t =>
    refine ⟨h.1, h.2.1, ?_⟩
    rw [List.head?_append, h.2.2]
    rfl

theorem ProducerPc.At.tail {head : ℕ} {data : ℕ → α} {q q' : List α} {p : ProducerPc α}
    {progress : Atomic.Progress (SpscOp α) (SpscRes α)} (h : p.At k head data q progress)
    (hlen : q.length = q'.length + 1) : p.At k head data q' progress := by
  cases p with
  | idle | loadHead _ | loadTail _ _ | returning _ _ => exact h
  | write _ _ _ | store _ _ =>
    obtain ⟨hcall, hdata, hnext, hroom⟩ := h
    exact ⟨hcall, hdata, hnext, by omega⟩

namespace SpscState

variable {s s' : SpscState α} {c : Atomic.State SpscSide (List α) (SpscOp α) (SpscRes α)}
  {item : α} {i t next present : ℕ} {ok : Bool} {a : SpscAction α} {as : List (SpscAction α)}

/-- The ring stands for the queue of the machine. -/
structure Sim (k : ℕ) (s : SpscState α)
    (c : Atomic.State SpscSide (List α) (SpscOp α) (SpscRes α)) : Prop where
  reached : c.Reached (boundedFifo α (2 ^ k - 1))
  history : c.history = s.history
  length : c.obj.length < 2 ^ k
  tail : s.tail < 2 ^ k
  head : s.head = (s.tail + c.obj.length) % 2 ^ k
  entries : c.obj = Ring.entries (2 ^ k) s.data s.tail c.obj.length
  producer : s.producer.At k s.head s.data c.obj (c.progress .producer)
  consumer : s.consumer.At s.tail c.obj (c.progress .consumer)
  pushed : s.pushed = s.popped ++ c.obj

theorem and_mask (i : ℕ) : i &&& mask k = i % 2 ^ k := and_two_pow_sub_one_eq_mod i k

namespace Sim

variable (h : Sim k s c)
include h

theorem used_eq : s.used k = c.obj.length := by
  have hlen := h.length
  have htail := h.tail
  unfold used
  rw [and_mask, h.head]
  by_cases hwrap : s.tail + c.obj.length < 2 ^ k
  · rw [mod_eq_of_lt hwrap]
    have hsub : s.tail + c.obj.length + 2 ^ k - s.tail = c.obj.length + 2 ^ k := by omega
    rw [hsub, add_mod_right, mod_eq_of_lt hlen]
  · have hmod : (s.tail + c.obj.length) % 2 ^ k = s.tail + c.obj.length - 2 ^ k := by
      rw [mod_eq_sub_mod (not_lt.mp hwrap), mod_eq_of_lt (by omega)]
    have hsub : s.tail + c.obj.length - 2 ^ k + 2 ^ k - s.tail = c.obj.length := by omega
    rw [hmod, hsub, mod_eq_of_lt hlen]

theorem head_succ : (s.head + 1) % 2 ^ k = (s.tail + (c.obj.length + 1)) % 2 ^ k := by
  rw [h.head, mod_add_mod, add_assoc]

theorem next_eq_tail_iff : (s.head + 1) % 2 ^ k = s.tail ↔ c.obj.length + 1 = 2 ^ k := by
  have hlen := h.length
  have htail := h.tail
  rw [h.head_succ]
  constructor
  · intro he
    by_contra hne
    have hcell := Ring.cell_ne s.tail (succ_pos c.obj.length) (m := 2 ^ k) (by omega)
    rw [add_zero, mod_eq_of_lt htail] at hcell
    exact hcell he.symm
  · intro he
    rw [he, add_mod_right, mod_eq_of_lt htail]

theorem tail_eq_head_iff : s.tail = s.head ↔ c.obj = [] := by
  constructor
  · intro he
    by_contra hne
    have hcell := Ring.cell_ne s.tail (length_pos_iff.mpr hne) h.length
    rw [add_zero, mod_eq_of_lt h.tail, ← h.head] at hcell
    exact hcell he
  · intro hnil
    rw [h.head, hnil]
    exact (mod_eq_of_lt h.tail).symm

theorem setProducer {p : ProducerPc α}
    (hp : p.At k s.head s.data c.obj (c.progress .producer)) : Sim k (s.setProducer p) c :=
  { h with producer := hp }

theorem setConsumer {p : ConsumerPc α}
    (hp : p.At s.tail c.obj (c.progress .consumer)) : Sim k (s.setConsumer p) c :=
  { h with consumer := hp }

theorem push (hp : s.producer = .idle) (item : α) :
    Sim k ((s.setProducer (.loadHead item)).record (.invoke .producer (.push item)))
      (c.invoke .producer (.push item)) := by
  have hidle : c.progress .producer = .idle := by
    have hat := h.producer
    rwa [hp] at hat
  exact { h with
    reached := h.reached.invoke hidle _
    history := congrArg (· ++ [_]) h.history
    producer := invoke_progress_self }

theorem pop (hp : s.consumer = .idle) :
    Sim k ((s.setConsumer .loadTail).record (.invoke .consumer .pop))
      (c.invoke .consumer .pop) := by
  have hidle : c.progress .consumer = .idle := by
    have hat := h.consumer
    rwa [hp] at hat
  exact { h with
    reached := h.reached.invoke hidle _
    history := congrArg (· ++ [_]) h.history
    consumer := invoke_progress_self }

theorem refuse (hp : c.progress .producer = .called (.push item))
    (hfull : c.obj.length + 1 = 2 ^ k) : Sim k (s.setProducer (.returning false (s.used k)))
      (c.perform (boundedFifo α (2 ^ k - 1)) .producer (.push item)) := by
  have happly : (boundedFifo α (2 ^ k - 1)).apply c.obj (.push item) = (c.obj, .pushed false) :=
    if_neg (by omega)
  have hreached := h.reached.perform hp
  rw [perform, happly] at hreached ⊢
  refine { h with reached := hreached, producer := ⟨rfl, fun _ => ?_⟩ }
  rw [h.used_eq]
  omega

/-- The cell that the producer writes is outside of the queue, also if the consumer has moved since
the producer has looked. -/
theorem write (hp : s.producer = .write item i next) :
    Sim k { s.setProducer (.store item next) with data := update s.data i item } c := by
  obtain ⟨hcall, rfl, hnext, hroom⟩ : _ ∧ _ ∧ _ ∧ _ := hp ▸ h.producer
  refine { h with entries := ?_, producer := ?_ }
  · change c.obj = Ring.entries _ (update s.data s.head item) s.tail _
    rw [h.head, Ring.entries_update_behind h.length]
    exact h.entries
  · exact ⟨hcall, update_self .., hnext, hroom⟩

/-- The store of `head_` is the moment of a `try_push` that succeeds. -/
theorem storeHead (hp : s.producer = .store item next) :
    Sim k { s.setProducer (.returning true (s.used k)) with
        head := next
        pushed := s.pushed ++ [item] }
      (c.perform (boundedFifo α (2 ^ k - 1)) .producer (.push item)) := by
  obtain ⟨hcall, hdata, rfl, hroom⟩ : _ ∧ _ ∧ _ ∧ _ := hp ▸ h.producer
  have happly : (boundedFifo α (2 ^ k - 1)).apply c.obj (.push item) =
      (c.obj ++ [item], .pushed true) := if_pos (by omega)
  have hreached := h.reached.perform hcall
  have hlen : (c.obj ++ [item]).length = c.obj.length + 1 := length_append
  rw [perform, happly] at hreached ⊢
  refine { h with
    reached := hreached, length := hlen ▸ hroom, head := ?_, entries := ?_
    producer := ⟨rfl, nofun⟩, consumer := h.consumer.append item, pushed := ?_ }
  · change _ = (s.tail + (c.obj ++ [item]).length) % 2 ^ k
    rw [hlen]
    exact h.head_succ
  · change c.obj ++ [item] = Ring.entries (2 ^ k) s.data s.tail (c.obj ++ [item]).length
    rw [hlen, Ring.entries_succ, ← h.head, hdata, ← h.entries]
  · change s.pushed ++ [item] = s.popped ++ (c.obj ++ [item])
    rw [h.pushed, append_assoc]

theorem returnPush (hp : s.producer = .returning ok present) :
    Sim k ((s.setProducer .idle).record (.respond .producer (.pushed ok)))
      (c.respond .producer (.pushed ok)) := by
  obtain ⟨hdone, -⟩ : _ ∧ _ := hp ▸ h.producer
  exact { h with
    reached := h.reached.respond hdone
    history := congrArg (· ++ [_]) h.history
    producer := respond_progress_self }

theorem produce (hs : s.produce k = some s') : ∃ c', Sim k s' c' := by
  have hat := h.producer
  unfold SpscState.produce at hs
  split at hs
  · cases hs
  · next item hp =>
    rw [hp] at hat
    cases hs
    exact ⟨c, h.setProducer ⟨hat, rfl⟩⟩
  · next item i hp =>
    rw [hp] at hat
    obtain ⟨hcall, rfl⟩ := hat
    simp only [and_mask, h.next_eq_tail_iff] at hs
    split_ifs at hs with hfull <;> cases hs
    · exact ⟨_, h.refuse hcall hfull⟩
    · have hlen := h.length
      exact ⟨c, h.setProducer ⟨hcall, rfl, rfl, by omega⟩⟩
  · next hp =>
    cases hs
    exact ⟨c, h.write hp⟩
  · next hp =>
    cases hs
    exact ⟨_, h.storeHead hp⟩
  · next hp =>
    cases hs
    exact ⟨_, h.returnPush hp⟩

theorem nothing (hp : c.progress .consumer = .called .pop) (hnil : c.obj = []) :
    Sim k (s.setConsumer (.returning none (s.used k)))
      (c.perform (boundedFifo α (2 ^ k - 1)) .consumer .pop) := by
  have happly : (boundedFifo α (2 ^ k - 1)).apply c.obj .pop = (c.obj, .popped none) := by
    rw [hnil]
    rfl
  have hreached := h.reached.perform hp
  rw [perform, happly] at hreached ⊢
  refine { h with reached := hreached, consumer := ⟨rfl, fun _ => ?_⟩ }
  rw [h.used_eq, hnil]
  rfl

/-- The store of `tail_` is the moment of a `try_pop` that succeeds. -/
theorem storeTail (hp : s.consumer = .store item t) :
    Sim k { s.setConsumer (.returning (some item) (s.used k)) with
        tail := (t + 1) &&& mask k
        popped := s.popped ++ [item] }
      (c.perform (boundedFifo α (2 ^ k - 1)) .consumer .pop) := by
  obtain ⟨hcall, rfl, hhead⟩ : _ ∧ _ ∧ _ := hp ▸ h.consumer
  obtain ⟨q, hq⟩ := List.head?_eq_some_iff.mp hhead
  have happly : (boundedFifo α (2 ^ k - 1)).apply c.obj .pop = (q, .popped (some item)) := by
    rw [hq]
    rfl
  have hreached := h.reached.perform hcall
  have hlen : c.obj.length = q.length + 1 := congrArg List.length hq
  have hcells : c.obj =
      s.data s.tail :: Ring.entries (2 ^ k) s.data ((s.tail + 1) % 2 ^ k) q.length := by
    have he := h.entries
    rwa [hlen, Ring.entries_cons, mod_eq_of_lt h.tail] at he
  rw [perform, happly] at hreached ⊢
  rw [and_mask]
  refine { h with
    reached := hreached, length := ?_, tail := Nat.mod_lt _ (Nat.two_pow_pos k), head := ?_
    entries := (List.cons.inj (hq.symm.trans hcells)).2, producer := h.producer.tail hlen
    consumer := ⟨rfl, nofun⟩, pushed := ?_ }
  · exact lt_of_succ_lt (hlen.symm.trans_lt h.length)
  · change s.head = ((s.tail + 1) % 2 ^ k + q.length) % 2 ^ k
    rw [h.head, hlen, mod_add_mod, add_assoc, add_comm 1]
  · change s.pushed = s.popped ++ [item] ++ q
    rw [h.pushed, hq, append_assoc]
    rfl

theorem returnPop {r : Option α} (hp : s.consumer = .returning r present) :
    Sim k ((s.setConsumer .idle).record (.respond .consumer (.popped r)))
      (c.respond .consumer (.popped r)) := by
  obtain ⟨hdone, -⟩ : _ ∧ _ := hp ▸ h.consumer
  exact { h with
    reached := h.reached.respond hdone
    history := congrArg (· ++ [_]) h.history
    consumer := respond_progress_self }

theorem consume (hs : s.consume k = some s') : ∃ c', Sim k s' c' := by
  have hat := h.consumer
  unfold SpscState.consume at hs
  split at hs
  · cases hs
  · next hp =>
    rw [hp] at hat
    cases hs
    exact ⟨c, h.setConsumer ⟨hat, rfl⟩⟩
  · next t hp =>
    rw [hp] at hat
    obtain ⟨hcall, rfl⟩ := hat
    simp only [h.tail_eq_head_iff] at hs
    split_ifs at hs with hnil <;> cases hs
    · exact ⟨_, h.nothing hcall hnil⟩
    · exact ⟨c, h.setConsumer ⟨hcall, rfl, hnil⟩⟩
  · next t hp =>
    rw [hp] at hat
    cases hs
    obtain ⟨hcall, rfl, hne⟩ := hat
    refine ⟨c, h.setConsumer ⟨hcall, rfl, ?_⟩⟩
    obtain ⟨x, q, hq⟩ := exists_cons_of_ne_nil hne
    have he := h.entries
    rw [hq, length_cons, Ring.entries_cons, mod_eq_of_lt h.tail] at he
    rw [hq, List.head?_cons, (List.cons.inj he).1]
  · next hp =>
    cases hs
    exact ⟨_, h.storeTail hp⟩
  · next hp =>
    cases hs
    exact ⟨_, h.returnPop hp⟩

theorem step (hs : s.step k a = some s') : ∃ c', Sim k s' c' := by
  cases a with try simp only [SpscState.step] at hs
  | push item =>
    split at hs
    · next hp =>
      cases hs
      exact ⟨_, h.push hp item⟩
    · cases hs
  | pop =>
    split at hs
    · next hp =>
      cases hs
      exact ⟨_, h.pop hp⟩
    · cases hs
  | produce => exact h.produce hs
  | consume => exact h.consume hs

theorem refines : s.Refines k where
  linearizable := ⟨c, h.reached, h.history⟩
  fifo := ⟨c.obj, h.pushed.symm⟩
  full present hp := by
    have hat := h.producer
    rw [hp] at hat
    exact hat.2 rfl
  empty present hp := by
    have hat := h.consumer
    rw [hp] at hat
    exact hat.2 rfl

end Sim

theorem Start.sim (h : s.Start) (k : ℕ) : Sim k s (start (boundedFifo α (2 ^ k - 1))) where
  reached := .start _
  history := h.history.symm
  length := Nat.two_pow_pos k
  tail := h.tail ▸ Nat.two_pow_pos k
  head := by
    rw [h.head, h.tail]
    rfl
  entries := rfl
  producer := by
    rw [h.producer]
    rfl
  consumer := by
    rw [h.consumer]
    rfl
  pushed := by
    rw [h.pushed, h.popped]
    rfl

/-- Every interleaving of a producer and a consumer on a ring of 2ᵏ cells is linearizable to a queue
for one element less; what has been popped is the beginning of what has been pushed, and a call
fails only if the ring was full, or empty, at one of its operations. -/
theorem spscRing_refines (h : s.Start) (hr : Run (SpscState.step k) anyStep s as s') :
    s'.Refines k := by
  obtain ⟨c, hc⟩ := hr.invariant (I := fun s => ∃ c, Sim k s c)
    (fun _ _ _ hi _ hs => hi.elim fun _ hc => hc.step hs) ⟨_, h.sim k⟩
  exact hc.refines

/-- A ring of two cells: a `try_pop` comes too early, the second `try_push` finds the ring full, and
the second `try_pop` has the element. -/
theorem spscRing_refines_two : ∃ s' : SpscState ℕ,
    Run (SpscState.step 1) anyStep ⟨0, 0, fun _ => 0, .idle, .idle, [], [], []⟩
      [.push 5, .produce, .pop, .consume, .produce, .produce, .consume, .produce, .consume, .produce,
        .push 6, .produce, .produce, .pop, .consume, .consume, .consume, .consume, .produce] s' ∧
    (s'.pushed = [5] ∧ s'.popped = [5] ∧ s'.history = [.invoke .producer (.push 5),
      .invoke .consumer .pop, .respond .consumer (.popped none), .respond .producer (.pushed true),
      .invoke .producer (.push 6), .invoke .consumer .pop, .respond .producer (.pushed false)]) ∧
    s'.Refines 1 := by
  exact Run.exists_and_of_exec (by decide +kernel) fun _ hr _ =>
    spscRing_refines ⟨rfl, rfl, rfl, rfl, rfl, rfl, rfl⟩ hr

end SpscState

end Nexios.Sync
