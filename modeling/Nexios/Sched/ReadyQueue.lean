import Mathlib.Data.Fintype.Card
import Nexios.Lib.DList
import Nexios.Lib.Run
import Nexios.Sched.PriorityMap

/-!
# The ready queues

One FIFO queue per CPU and priority level, linked through the task control blocks, and one bitmap
per CPU. There are `n` control blocks and `k + 1` CPUs. Of a control block only the links and the
two fields that these queues own (`in_ready_queue_` and `rq_priority_`) stand here.

A walk along a queue is bounded by the number of control blocks. It has no result on a cyclic list,
where the source does not return.
-/

open Function Option List

namespace Nexios.Sched

open Links PriorityMap

variable {n k : ℕ}

abbrev Cpu (k : ℕ) := Fin (k + 1)

structure TaskQueue (n : ℕ) where
  head : Option (Fin n)
  tail : Option (Fin n)
  count : ℕ
  deriving DecidableEq

def TaskQueue.empty : TaskQueue n := ⟨none, none, 0⟩

structure RunQueues (n k : ℕ) where
  links : Links (Fin n)
  inReadyQueue : Fin n → Bool
  rqPriority : Fin n → ℕ
  queue : Cpu k × ℕ → TaskQueue n
  bitmap : Cpu k → PriorityMap

namespace RunQueues

variable {r r' : RunQueues n k} {c : Cpu k} {t u : Fin n} {p : ℕ}

/-! ## `TaskQueue` -/

variable (r : RunQueues n k)

def pushBack (i : Cpu k × ℕ) (t : Fin n) : RunQueues n k :=
  if r.inReadyQueue t then r
  else
    let q := r.queue i
    { r with
      inReadyQueue := update r.inReadyQueue t true
      links := ((r.links.setNext t none).setPrev t q.tail).setNextAt q.tail (some t)
      queue := update r.queue i
        ⟨if q.tail.isSome then q.head else some t, some t, q.count + 1⟩ }

/-- The head is dropped and returned; a list whose count is 0 counts as empty. -/
def popFront (i : Cpu k × ℕ) : RunQueues n k × Option (Fin n) :=
  let q := r.queue i
  match q.head with
  | none => (r, none)
  | some t =>
    if q.count = 0 then (r, none)
    else
      let head := r.links.next t
      ({ r with
          inReadyQueue := update r.inReadyQueue t false
          links := ((r.links.setPrevAt head none).setNext t none).setPrev t none
          queue := update r.queue i
            ⟨head, if head.isSome then q.tail else none, q.count - 1⟩ }, some t)

def contains (i : Cpu k × ℕ) (t : Fin n) : Option Bool :=
  (r.links.seek (fun x => x == t) n none (r.queue i).head).map (fun found => found.2.isSome)

/-- `TaskQueue::remove`: the neighbours are relinked only where they point back. -/
def unlink (i : Cpu k × ℕ) (t : Fin n) : RunQueues n k :=
  let q := r.queue i
  let spliced : Option (Links (Fin n) × Option (Fin n)) :=
    match r.links.prev t with
    | some y =>
      some (if r.links.next y = some t then r.links.setNext y (r.links.next t) else r.links, q.head)
    | none => if q.head = some t then some (r.links, r.links.next t) else none
  match spliced with
  | none => r
  | some (links, head) =>
    let (links, tail) : Links (Fin n) × Option (Fin n) :=
      match r.links.next t with
      | some z =>
        (if links.prev z = some t then links.setPrev z (r.links.prev t) else links, q.tail)
      | none => (links, if q.tail = some t then r.links.prev t else q.tail)
    { r with
      inReadyQueue := update r.inReadyQueue t false
      links := (links.setNext t none).setPrev t none
      queue := update r.queue i ⟨head, tail, q.count - 1⟩ }

/-! ## `ReadyQueueManager` -/

/-- A queued task is refused. There is no result for a level beyond the array of queues. -/
def enqueue (c : Cpu k) (t : Fin n) (p : ℕ) : Option (RunQueues n k) :=
  if r.inReadyQueue t then some r
  else if priorityCeiling < p then none
  else
    let r := r.pushBack (c, p) t
    some { r with
      bitmap := update r.bitmap c ((r.bitmap c).set p)
      rqPriority := update r.rqPriority t p
      inReadyQueue := update r.inReadyQueue t true }

def clearIfEmpty (c : Cpu k) (p : ℕ) : RunQueues n k :=
  if (r.queue (c, p)).count = 0 then
    { r with bitmap := update r.bitmap c ((r.bitmap c).clear p) }
  else r

def popAndDetach (c : Cpu k) (p : ℕ) : RunQueues n k × Option (Fin n) :=
  let (r, popped) := r.popFront (c, p)
  let r := r.clearIfEmpty c p
  match popped with
  | none => (r, none)
  | some t =>
    ({ r with
        rqPriority := update r.rqPriority t 0
        inReadyQueue := update r.inReadyQueue t false }, some t)

def dequeueHighest (c : Cpu k) : RunQueues n k × Option (Fin n) :=
  let p := (r.bitmap c).getHighestPriority
  if p = 0 ∧ (r.queue (c, 0)).count = 0 then (r, none) else r.popAndDetach c p

def dequeueLevel (c : Cpu k) (p : ℕ) : RunQueues n k × Option (Fin n) :=
  if p = 0 ∨ priorityCeiling < p then (r, none)
  else if (r.queue (c, p)).count = 0 then
    ({ r with bitmap := update r.bitmap c ((r.bitmap c).clear p) }, none)
  else r.popAndDetach c p

def peekHighest (c : Cpu k) : Option (Fin n) :=
  let p := (r.bitmap c).getHighestPriority
  if p = 0 ∧ (r.queue (c, 0)).count = 0 then none else (r.queue (c, p)).head

/-- `rq_priority_` says which queue is searched; the membership fields are cleared in any case. -/
def remove (r : RunQueues n k) (c : Cpu k) (t : Fin n) : Option (RunQueues n k) := do
  let p := r.rqPriority t
  let r ←
    if p ≤ priorityCeiling then do
      if ← r.contains (c, p) t then some ((r.unlink (c, p) t).clearIfEmpty c p) else some r
    else some r
  some { r with
    rqPriority := update r.rqPriority t 0
    inReadyQueue := update r.inReadyQueue t false }

/-- `remove` behind a check of the flag. -/
def removeQueued (c : Cpu k) (t : Fin n) : Option (RunQueues n k) :=
  if r.inReadyQueue t then r.remove c t else some r

def movePriority (c : Cpu k) (t : Fin n) (old new : ℕ) :
    Option (RunQueues n k) :=
  if old = new then some r else do (← r.remove c t).enqueue c t new

/-! ## Contents -/

/-- The queues hold the lists `L`. A queued task stands in the queue of its CPU and of the level it
was queued at. -/
structure Shape (home : Fin n → Cpu k) (r : RunQueues n k)
    (L : Cpu k × ℕ → List (Fin n)) : Prop where
  lists : Links.Lists r.links (fun i => (r.queue i).head) L
  tail : ∀ i, (r.queue i).tail = (L i).getLast?
  count : ∀ i, (r.queue i).count = (L i).length
  flag : ∀ t, r.inReadyQueue t = true ↔ ∃ i, t ∈ L i
  place : ∀ i t, t ∈ L i → i = (home t, r.rqPriority t)
  ceiling : ∀ i t, t ∈ L i → i.2 ≤ priorityCeiling
  bitmap : ∀ c p, (r.bitmap c).isSet p = true ↔ L (c, p) ≠ []

variable {r} {home : Fin n → Cpu k} {L : Cpu k × ℕ → List (Fin n)} {l₁ l₂ : List (Fin n)}

section

variable (hs : Shape home r L)
include hs

theorem Shape.mem_iff :
    t ∈ L (c, p) ↔ r.inReadyQueue t = true ∧ home t = c ∧ r.rqPriority t = p := by
  constructor
  · intro ht
    have hplace := hs.place _ _ ht
    rw [Prod.mk.injEq] at hplace
    exact ⟨(hs.flag t).mpr ⟨_, ht⟩, hplace.1.symm, hplace.2.symm⟩
  · rintro ⟨hflag, rfl, rfl⟩
    obtain ⟨i, hi⟩ := (hs.flag t).mp hflag
    exact hs.place i t hi ▸ hi

section

variable (i : Cpu k × ℕ)

theorem Shape.length_le : (L i).length ≤ n := by
  have hle := (hs.lists.nodup i).length_le_card
  rwa [Fintype.card_fin] at hle

theorem Shape.head_eq : (r.queue i).head = (L i).head? :=
  hs.lists.head_eq i

theorem Shape.empty_iff : (r.queue i).count = 0 ↔ L i = [] := by
  rw [hs.count, length_eq_zero_iff]

end

theorem Shape.not_mem (hflag : r.inReadyQueue t = false) (i : Cpu k × ℕ) : t ∉ L i := by
  intro hi
  have htrue := (hs.flag t).mpr ⟨i, hi⟩
  rw [hflag] at htrue
  cases htrue

theorem Shape.contains_eq (i : Cpu k × ℕ) (t : Fin n) :
    r.contains i t = some (decide (t ∈ L i)) := by
  obtain ⟨l₁, l₂, hl, hseek, hbefore, hat⟩ :=
    (hs.lists.seg i).seek_eq (fun x => x == t) (hs.length_le i)
  unfold contains
  rw [hseek, hl]
  cases l₂ with
  | nil =>
    have ht : t ∉ l₁ ++ [] := by
      intro ht
      rw [append_nil] at ht
      have hne := hbefore t ht
      simp at hne
    rw [decide_eq_false ht]
    rfl
  | cons x l₂ =>
    have hx : x = t := by simpa using hat x rfl
    have ht : t ∈ l₁ ++ x :: l₂ := by simp [hx]
    rw [decide_eq_true ht]
    rfl

end

/-- The queues after the task `t` has joined the queue at `i`, whose list was `l`. -/
def joined (c : Cpu k) (p : ℕ) (t : Fin n) (l : List (Fin n)) :
    RunQueues n k where
  links := r.links.insert l.getLast? t none
  inReadyQueue := update r.inReadyQueue t true
  rqPriority := update r.rqPriority t p
  queue := update r.queue (c, p) ⟨(l ++ [t]).head?, some t, l.length + 1⟩
  bitmap := update r.bitmap c ((r.bitmap c).set p)

section

variable (hs : Shape home r L)
include hs

theorem Shape.enqueue_eq (hflag : r.inReadyQueue t = false)
    (hp : p ≤ priorityCeiling) : r.enqueue c t p = some (r.joined c p t (L (c, p))) := by
  unfold enqueue pushBack
  rw [hflag, if_neg (by simp), if_neg (by omega)]
  simp only [Bool.false_eq_true, if_false, update_idem, Option.some.injEq]
  congr 1
  · rw [hs.tail]
    rfl
  · rw [hs.tail, hs.head_eq, hs.count]
    cases L (c, p) with
    | nil => rfl
    | cons x l => simp [List.getLast?_cons]

theorem Shape.joined (hflag : r.inReadyQueue t = false)
    (hp : p ≤ priorityCeiling) (hc : home t = c) :
    Shape home (r.joined c p t (L (c, p))) (update L (c, p) (L (c, p) ++ [t])) := by
  have hout := hs.not_mem hflag
  have hnil : L (c, p) = L (c, p) ++ [] := (append_nil _).symm
  have hmem : ∀ i u, u ∈ update L (c, p) (L (c, p) ++ [t]) i ↔
      u ∈ L i ∨ (i = (c, p) ∧ u = t) := Links.Lists.mem_update_insert hnil
  refine ⟨?_, ?_, ?_, ?_, ?_, ?_, ?_⟩
  · have hhead : (fun i => ((r.joined c p t (L (c, p))).queue i).head) =
        update (fun i => (r.queue i).head) (c, p)
          (if L (c, p) = [] then some t else (r.queue (c, p)).head) := by
      refine (comp_update TaskQueue.head r.queue (c, p) _).trans (congrArg _ ?_)
      rw [hs.head_eq]
      cases L (c, p) <;> rfl
    rw [hhead]
    exact hs.lists.insert hnil hout
  · intro i
    by_cases hi : i = (c, p)
    · subst hi
      simp [RunQueues.joined]
    · simp [RunQueues.joined, update_of_ne hi, hs.tail]
  · intro i
    by_cases hi : i = (c, p)
    · subst hi
      simp [RunQueues.joined]
    · simp [RunQueues.joined, update_of_ne hi, hs.count]
  · intro u
    simp only [RunQueues.joined, hmem]
    by_cases hu : u = t
    · subst hu
      simp
    · rw [update_of_ne hu, hs.flag]
      simp [hu]
  · intro i u hu
    simp only [RunQueues.joined]
    rcases (hmem i u).mp hu with hu | ⟨rfl, rfl⟩
    · have hne : u ≠ t := fun heq => hout i (heq ▸ hu)
      rw [update_of_ne hne]
      exact hs.place i u hu
    · rw [update_self, hc]
  · intro i u hu
    rcases (hmem i u).mp hu with hu | ⟨rfl, rfl⟩
    · exact hs.ceiling i u hu
    · exact hp
  · intro c' p'
    simp only [RunQueues.joined]
    by_cases hc' : c' = c
    · subst hc'
      rw [update_self, isSet_set hp]
      by_cases hp' : p' = p
      · subst hp'
        simp
      · rw [update_of_ne (by simp [hp']), decide_eq_false hp', Bool.or_false]
        exact hs.bitmap c' p'
    · rw [update_of_ne hc', update_of_ne (by simp [hc'])]
      exact hs.bitmap c' p'

omit hs in
/-- The queues after the task `t` has left the queue at `(c, p)`, where the tasks `rest` remain. -/
def left (r : RunQueues n k) (c : Cpu k) (p : ℕ) (t : Fin n) (rest : List (Fin n)) :
    RunQueues n k where
  links := r.links.unlink t
  inReadyQueue := update r.inReadyQueue t false
  rqPriority := update r.rqPriority t 0
  queue := update r.queue (c, p) ⟨rest.head?, rest.getLast?, rest.length⟩
  bitmap := if rest = [] then update r.bitmap c ((r.bitmap c).clear p) else r.bitmap

theorem Shape.left (hi : L (c, p) = l₁ ++ t :: l₂) :
    Shape home (r.left c p t (l₁ ++ l₂)) (update L (c, p) (l₁ ++ l₂)) := by
  have ht : t ∈ L (c, p) := hi ▸ mem_append_right _ mem_cons_self
  have hmem : ∀ i u, u ∈ update L (c, p) (l₁ ++ l₂) i ↔ u ∈ L i ∧ u ≠ t :=
    hs.lists.mem_update_unlink hi
  refine ⟨?_, ?_, ?_, ?_, ?_, ?_, ?_⟩
  · have hhead : (fun i => ((r.left c p t (l₁ ++ l₂)).queue i).head) =
        update (fun i => (r.queue i).head) (c, p)
          (if l₁ = [] then l₂.head? else (r.queue (c, p)).head) := by
      refine (comp_update TaskQueue.head r.queue (c, p) _).trans (congrArg _ ?_)
      rw [hs.head_eq, hi]
      cases l₁ <;> rfl
    rw [hhead]
    exact hs.lists.unlink hi
  · intro i
    by_cases hi' : i = (c, p)
    · subst hi'
      simp [RunQueues.left]
    · simp [RunQueues.left, update_of_ne hi', hs.tail]
  · intro i
    by_cases hi' : i = (c, p)
    · subst hi'
      simp [RunQueues.left]
    · simp [RunQueues.left, update_of_ne hi', hs.count]
  · intro u
    simp only [RunQueues.left, hmem]
    by_cases hu : u = t
    · subst hu
      simp
    · rw [update_of_ne hu, hs.flag]
      simp [hu]
  · intro i u hu
    obtain ⟨hu, hne⟩ := (hmem i u).mp hu
    simp only [RunQueues.left]
    rw [update_of_ne hne]
    exact hs.place i u hu
  · intro i u hu
    exact hs.ceiling i u ((hmem i u).mp hu).1
  · intro c' p'
    have hp : p ≤ priorityCeiling := hs.ceiling _ _ ht
    simp only [RunQueues.left]
    by_cases hcp : (c', p') = (c, p)
    · obtain ⟨rfl, rfl⟩ := Prod.mk.inj hcp
      rw [update_self]
      split_ifs with hrest
      · rw [update_self, isSet_clear hp]
        simp [hrest]
      · simp only [hrest, not_false_iff, iff_true, ne_eq]
        exact (hs.bitmap c' p').mpr (ne_nil_of_mem ht)
    · rw [update_of_ne hcp, ← hs.bitmap c' p']
      split_ifs with hrest
      · by_cases hc' : c' = c
        · subst hc'
          have hp' : p' ≠ p := fun heq => hcp (heq ▸ rfl)
          rw [update_self, isSet_clear hp, decide_eq_false hp']
          simp
        · rw [update_of_ne hc']
      · rfl

theorem Shape.popAndDetach_eq {rest : List (Fin n)}
    (hi : L (c, p) = t :: rest) : r.popAndDetach c p = (r.left c p t rest, some t) := by
  obtain ⟨hprev, hnext⟩ := hs.lists.links_eq (show L (c, p) = [] ++ t :: rest from hi)
  have hhead : (r.queue (c, p)).head = some t := by rw [hs.head_eq, hi]; rfl
  have hcount : (r.queue (c, p)).count = rest.length + 1 := by rw [hs.count, hi]; rfl
  have htail : (r.queue (c, p)).tail = rest.getLast?.or (some t) := by
    rw [hs.tail, hi, ← getLast?_cons_or t rest none, or_none]
  have hpop : r.popFront (c, p) = ({ r with
          inReadyQueue := update r.inReadyQueue t false
          links := r.links.unlink t
          queue := update r.queue (c, p) ⟨rest.head?, rest.getLast?, rest.length⟩ },
        some t) := by
    unfold popFront
    simp only [hhead, hcount, htail]
    unfold Links.unlink
    rw [hprev, hnext]
    cases rest with
    | nil => rfl
    | cons x rest => simp [List.getLast?_cons, setNextAt]
  unfold popAndDetach
  rw [hpop]
  simp only [clearIfEmpty, update_self, length_eq_zero_iff]
  unfold RunQueues.left
  split_ifs with hrest <;> simp [hrest]

theorem Shape.unlink_eq {i : Cpu k × ℕ} (hi : L i = l₁ ++ t :: l₂) :
    r.unlink i t = { r with
      inReadyQueue := update r.inReadyQueue t false
      links := r.links.unlink t
      queue := update r.queue i
        ⟨(l₁ ++ l₂).head?, (l₁ ++ l₂).getLast?, (l₁ ++ l₂).length⟩ } := by
  obtain ⟨hprev, hnext⟩ := hs.lists.links_eq hi
  have hhead : (r.queue i).head = (l₁ ++ t :: l₂).head? := by rw [hs.head_eq, hi]
  have htail : (r.queue i).tail = (l₁ ++ t :: l₂).getLast? := by rw [hs.tail, hi]
  have hcount : (r.queue i).count - 1 = (l₁ ++ l₂).length := by
    rw [hs.count, hi, length_append, length_append, length_cons]
    omega
  have hback : ∀ y, l₁.getLast? = some y → r.links.next y = some t := by
    intro y hy
    obtain ⟨m, rfl⟩ := List.getLast?_eq_some_iff.mp hy
    rw [append_assoc] at hi
    exact (hs.lists.links_eq hi).2
  have hfwd : ∀ z, l₂.head? = some z → r.links.prev z = some t := by
    intro z hz
    obtain ⟨m, rfl⟩ := List.head?_eq_some_iff.mp hz
    rw [append_cons] at hi
    exact (hs.lists.links_eq hi).1.trans List.getLast?_concat
  unfold RunQueues.unlink Links.unlink
  simp only [hprev, hnext, hhead, htail, hcount]
  cases hl₁ : l₁.getLast? with
  | none =>
    rw [List.getLast?_eq_none_iff] at hl₁
    subst hl₁
    cases l₂ with
    | nil => simp [setNextAt, setPrevAt]
    | cons z l => simp [setNextAt, setPrevAt, hfwd z rfl]
  | some y =>
    obtain ⟨x, hx⟩ : ∃ x, l₁.head? = some x := by
      cases l₁ with
      | nil => cases hl₁
      | cons x l => exact ⟨x, rfl⟩
    cases l₂ with
    | nil => simp [setNextAt, setPrevAt, hback y hl₁, hl₁, hx]
    | cons z l => simp [setNextAt, setPrevAt, hback y hl₁, hfwd z rfl, hx]

theorem Shape.remove_eq (hi : L (c, r.rqPriority t) = l₁ ++ t :: l₂) :
    r.remove c t = some (r.left c (r.rqPriority t) t (l₁ ++ l₂)) := by
  have ht : t ∈ L (c, r.rqPriority t) := hi ▸ mem_append_right _ mem_cons_self
  unfold remove
  rw [if_pos (hs.ceiling _ _ ht), hs.contains_eq, decide_eq_true ht, hs.unlink_eq hi]
  simp only [clearIfEmpty, update_self, length_eq_zero_iff]
  unfold RunQueues.left
  split_ifs with hrest <;> simp [hrest]

theorem Shape.remove_absent (hflag : r.inReadyQueue t = false) :
    let r' := { r with
      rqPriority := update r.rqPriority t 0, inReadyQueue := update r.inReadyQueue t false }
    r.remove c t = some r' ∧ Shape home r' L := by
  have hout := hs.not_mem hflag
  constructor
  · unfold remove
    simp only [hs.contains_eq, decide_eq_false (hout _)]
    split_ifs <;> rfl
  refine { hs with flag := ?_, place := ?_ }
  · intro u
    rw [← hs.flag u, ← hflag, update_eq_self]
  · intro i u hu
    have hne : u ≠ t := fun heq => hout i (heq ▸ hu)
    simp only [update_of_ne hne]
    exact hs.place i u hu

end

/-! ## What the operations do to proper queues

`Good home r` hides the lists. The fields `in_ready_queue_` and `rq_priority_` then tell which tasks
are queued, and where. -/

def Good (home : Fin n → Cpu k) (r : RunQueues n k) : Prop := ∃ L, Shape home r L

theorem enqueue_flag (he : r.enqueue c t p = some r') :
    r'.inReadyQueue = update r.inReadyQueue t true := by
  unfold enqueue at he
  split_ifs at he with hflag hp
  · rw [← some.inj he, ← hflag, update_eq_self]
  · cases he
    simp [pushBack, hflag]

theorem enqueue_prio (he : r.enqueue c t p = some r') :
    r'.rqPriority = if r.inReadyQueue t then r.rqPriority else update r.rqPriority t p := by
  unfold enqueue at he
  split_ifs at he with hflag hp
  · rw [← some.inj he, if_pos hflag]
  · cases he
    simp [pushBack, hflag]

theorem Good.enqueue (hg : Good home r) (hc : home t = c) (he : r.enqueue c t p = some r') :
    Good home r' := by
  obtain ⟨L, hs⟩ := hg
  cases hflag : r.inReadyQueue t with
  | true =>
    rw [RunQueues.enqueue, if_pos hflag] at he
    exact ⟨L, some.inj he ▸ hs⟩
  | false =>
    have hp : p ≤ priorityCeiling := by
      by_contra hp
      rw [RunQueues.enqueue, if_neg (by simp [hflag]), if_pos (by omega)] at he
      cases he
    rw [hs.enqueue_eq hflag hp] at he
    exact ⟨_, some.inj he ▸ hs.joined hflag hp hc⟩

/-- The task `t` is out of the queues `r'`, which are those of `r` otherwise. -/
structure Detached (home : Fin n → Cpu k) (r r' : RunQueues n k) (t : Fin n) : Prop where
  good : Good home r'
  flag : r'.inReadyQueue = update r.inReadyQueue t false
  prio : ∀ u, u ≠ t → r'.rqPriority u = r.rqPriority u

theorem Shape.detached_left (hs : Shape home r L)
    (hi : L (c, p) = l₁ ++ t :: l₂) : Detached home r (r.left c p t (l₁ ++ l₂)) t :=
  ⟨⟨_, hs.left hi⟩, rfl, fun _ hu => update_of_ne hu _ _⟩

section

variable (hg : Good home r)
include hg

theorem Good.detached_self (hflag : r.inReadyQueue t = false) : Detached home r r t := by
  refine ⟨hg, ?_, fun _ _ => rfl⟩
  rw [← hflag, update_eq_self]

section

variable (hc : home t = c) {old new : ℕ}
include hc

theorem Good.remove : ∃ r', r.remove c t = some r' ∧ Detached home r r' t := by
  obtain ⟨L, hs⟩ := hg
  cases hflag : r.inReadyQueue t with
  | true =>
    obtain ⟨l₁, l₂, hi⟩ := append_of_mem (hs.mem_iff.mpr ⟨hflag, hc, rfl⟩)
    exact ⟨_, hs.remove_eq hi, hs.detached_left hi⟩
  | false =>
    obtain ⟨he, hs'⟩ := hs.remove_absent (c := c) hflag
    exact ⟨_, he, ⟨L, hs'⟩, rfl, fun _ hu => update_of_ne hu _ _⟩

theorem Good.removeQueued : ∃ r', r.removeQueued c t = some r' ∧ Detached home r r' t := by
  unfold RunQueues.removeQueued
  split_ifs with hflag
  · exact hg.remove hc
  · exact ⟨r, rfl, hg.detached_self ((Bool.not_eq_true _).mp hflag)⟩

theorem Good.movePriority (he : r.movePriority c t old new = some r') : Good home r' := by
  unfold RunQueues.movePriority at he
  split_ifs at he
  · exact some.inj he ▸ hg
  · obtain ⟨r₁, hr₁, hd⟩ := hg.remove hc
    rw [hr₁] at he
    exact hd.good.enqueue hc he

theorem Good.movePriority_fields (hne : old ≠ new) (he : r.movePriority c t old new = some r') :
    r'.inReadyQueue = update r.inReadyQueue t true ∧ r'.rqPriority = update r.rqPriority t new := by
  unfold RunQueues.movePriority at he
  rw [if_neg hne] at he
  obtain ⟨r₁, hr₁, hd⟩ := hg.remove hc
  rw [hr₁] at he
  have hflag := enqueue_flag he
  have hprio := enqueue_prio he
  rw [hd.flag, update_idem] at hflag
  rw [hd.flag, if_neg (by simp)] at hprio
  refine ⟨hflag, hprio.trans (eq_update_iff.mpr ⟨update_self .., fun u hu => ?_⟩)⟩
  rw [update_of_ne hu]
  exact hd.prio u hu

end

theorem Good.isSet_iff : (r.bitmap c).isSet p = true ↔
    ∃ t, r.inReadyQueue t = true ∧ home t = c ∧ r.rqPriority t = p := by
  obtain ⟨L, hs⟩ := hg
  rw [hs.bitmap, ne_eq, eq_nil_iff_forall_not_mem, not_forall_not]
  exact exists_congr (fun t => hs.mem_iff)

theorem Good.peek_none (h : r.peekHighest c = none) (hc : home t = c) :
    r.inReadyQueue t = false := by
  obtain ⟨L, hs⟩ := hg
  by_contra hflag
  have hset := (Good.isSet_iff ⟨L, hs⟩).mpr ⟨t, (Bool.not_eq_false _).mp hflag, hc, rfl⟩
  have htop := isSet_getHighestPriority hset
  rw [hs.bitmap] at htop
  simp only [peekHighest] at h
  split_ifs at h with hempty
  · rw [hs.empty_iff] at hempty
    rw [hempty.1] at htop
    exact htop hempty.2
  · rw [hs.head_eq, List.head?_eq_none_iff] at h
    exact htop h

/-- The head of the highest level, which no queued task of the CPU exceeds; `dequeue_highest` takes
it out. -/
theorem Good.peek_some (h : r.peekHighest c = some t) : r.inReadyQueue t = true ∧ home t = c ∧
      (∀ u, r.inReadyQueue u → home u = c → r.rqPriority u ≤ r.rqPriority t) ∧
      ∃ r', r.dequeueHighest c = (r', some t) ∧ Detached home r r' t := by
  obtain ⟨L, hs⟩ := hg
  simp only [peekHighest] at h
  split_ifs at h with hempty
  rw [hs.head_eq] at h
  obtain ⟨rest, hi⟩ := List.head?_eq_some_iff.mp h
  obtain ⟨hflag, hc, hprio⟩ := hs.mem_iff.mp (hi ▸ mem_cons_self)
  refine ⟨hflag, hc, ?_, r.left c _ t rest, ?_, hs.detached_left (show _ = [] ++ t :: rest from hi)⟩
  · intro u hu hcu
    rw [hprio]
    exact le_getHighestPriority ((Good.isSet_iff ⟨L, hs⟩).mpr ⟨u, hu, hcu, rfl⟩)
  · unfold dequeueHighest
    rw [if_neg hempty]
    exact hs.popAndDetach_eq hi

theorem Good.dequeueLevel (hset : (r.bitmap c).isSet p) (hp : 1 ≤ p) :
    ∃ t r', r.dequeueLevel c p = (r', some t) ∧ Detached home r r' t ∧
      r.inReadyQueue t = true ∧ home t = c ∧ r.rqPriority t = p := by
  obtain ⟨L, hs⟩ := hg
  have hne := (hs.bitmap c p).mp hset
  obtain ⟨t, rest, hi⟩ := exists_cons_of_ne_nil hne
  refine ⟨t, r.left c p t rest, ?_, hs.detached_left (show _ = [] ++ t :: rest from hi),
    hs.mem_iff.mp (hi ▸ mem_cons_self)⟩
  have hle := isSet_le hset
  unfold RunQueues.dequeueLevel
  rw [if_neg (by omega), if_neg (by rw [hs.empty_iff]; exact hne)]
  exact hs.popAndDetach_eq hi

end

/-- The number of queued tasks, which bounds the loops that take tasks out. -/
def load (r : RunQueues n k) : ℕ := (Finset.univ.filter (fun t => r.inReadyQueue t = true)).card

theorem load_le (r : RunQueues n k) : r.load ≤ n := by
  have hle := Finset.card_filter_le (Finset.univ : Finset (Fin n)) (fun t => r.inReadyQueue t = true)
  rwa [Finset.card_univ, Fintype.card_fin] at hle

theorem Detached.load_lt (hd : Detached home r r' t) (ht : r.inReadyQueue t) :
    r'.load < r.load := by
  refine Finset.card_lt_card (Finset.ssubset_iff_subset_ne.mpr ⟨?_, ?_⟩)
  · intro u hu
    rw [Finset.mem_filter, hd.flag, update_apply] at hu
    rw [Finset.mem_filter]
    split_ifs at hu with hut
    · exact absurd hu.2 (by simp)
    · exact hu
  · intro heq
    have hin : t ∈ Finset.univ.filter (fun u => r.inReadyQueue u = true) :=
      Finset.mem_filter.mpr ⟨Finset.mem_univ t, ht⟩
    rw [← heq, Finset.mem_filter, hd.flag] at hin
    exact absurd hin.2 (by simp)

theorem load_pos (ht : r.inReadyQueue t) : 0 < r.load :=
  Finset.card_pos.mpr ⟨t, Finset.mem_filter.mpr ⟨Finset.mem_univ t, ht⟩⟩

theorem Good.rehome {home' : Fin n → Cpu k} (hg : Good home r)
    (hsame : ∀ t, r.inReadyQueue t → home' t = home t) : Good home' r := by
  obtain ⟨L, hs⟩ := hg
  refine ⟨L, hs.lists, hs.tail, hs.count, hs.flag, ?_, hs.ceiling, hs.bitmap⟩
  intro i t ht
  rw [hsame t ((hs.flag t).mpr ⟨i, ht⟩)]
  exact hs.place i t ht

/-- `t` is linked in the queue of CPU `c` and level `p`. -/
def Linked (r : RunQueues n k) (i : Cpu k × ℕ) (t : Fin n) : Prop :=
  r.links.Reaches (r.queue i).head t

theorem Good.linked_iff (hg : Good home r) :
    r.Linked (c, p) t ↔ r.inReadyQueue t = true ∧ home t = c ∧ r.rqPriority t = p := by
  obtain ⟨L, hs⟩ := hg
  rw [← hs.mem_iff]
  exact (hs.lists.seg (c, p)).reaches_iff

end RunQueues

end Nexios.Sched
