import Nexios.Ipc.QueueRefinement
import Nexios.Sched.Task

/-!
# Synchronous calls

`send_sync` and `send_sync_bounded`: a client sends a request and waits until its own queue has a
message of the server. The poll of the queue, the mark that it waits for a reply and the store of
BLOCKED are three steps. `send` puts a message into the queue of the client and then, without the
lock of the queue, reads the mark and the state of the client to decide whether to wake it. All of
this is interleaved with the sends of other tasks, with the timer and with the scheduler.

A client that has stored BLOCKED stays on its CPU until the next tick takes it off; a wake-up for
another CPU goes through a mailbox.
-/

open Function Option

namespace Nexios.Ipc

open Sched (TaskState)

variable {n : ℕ}

/-- `send_sync` with `reply_max_size`, 0 for no limit, or `send_sync_bounded`, with or without a
timeout. -/
inductive SyncKind
  | sync (maxSize : ℕ)
  | bounded (armed : Bool)
  deriving DecidableEq

structure SyncCall (n : ℕ) where
  dest : Fin n
  kind : SyncKind
  deriving DecidableEq

inductive ClientPc (n : ℕ)
  | idle
  | polling (c : SyncCall n)
  /-- `has_from` after a poll with a limit -/
  | sizing (c : SyncCall n)
  /-- the test of `recv_timed_out` -/
  | timing (c : SyncCall n)
  /-- `find_task` -/
  | checking (c : SyncCall n)
  /-- the server is gone, `has_from` -/
  | leaving (c : SyncCall n)
  /-- the store to `reply_wait` -/
  | marking (c : SyncCall n)
  /-- the store of BLOCKED -/
  | blocking (c : SyncCall n)
  /-- `dequeue_ready` -/
  | dequeuing (c : SyncCall n)
  | halted (c : SyncCall n)
  deriving DecidableEq

namespace ClientPc

/-- The client has seen that there is no reply and has not yet stored BLOCKED. -/
def committed : ClientPc n → Option (SyncCall n)
  | .timing c | .checking c | .marking c | .blocking c => some c
  | _ => none

/-- The client has stored BLOCKED and not yet looked into its queue again. -/
def waiting : ClientPc n → Option (SyncCall n)
  | .dequeuing c | .halted c => some c
  | _ => none

def isBlocking : ClientPc n → Bool
  | .blocking _ => true
  | _ => false

end ClientPc

/-- The next step of `send` after the push. -/
inductive SendStage
  /-- the test of `reply_wait` -/
  | testReply
  | clearReply
  /-- the test for BLOCKED after that -/
  | testState
  | wakeReply
  /-- the second test for BLOCKED -/
  | testBlocked
  /-- the test of `reply_wait`, `blocked_on_queue` and `blocked_in_recv` -/
  | testFlags
  | wakeIpc
  deriving DecidableEq

namespace SendStage

/-- `reply_wait` has been cleared, and the client will be woken if it is BLOCKED. -/
def raises : SendStage → Bool
  | .testState | .wakeReply => true
  | _ => false

def early : SendStage → Bool
  | .testReply | .clearReply | .testState | .wakeReply => true
  | _ => false

end SendStage

structure SyncState (n : ℕ) where
  /-- the queue of the client -/
  queue : MessageQueue
  requests : Fin n → MessageQueue
  state : TaskState
  replyWait : Bool
  /-- `blocked_on_queue` -/
  onQueue : Bool
  /-- `blocked_in_recv` -/
  inRecv : Bool
  timedOut : Bool
  /-- `recv_timeout_armed` -/
  armed : Bool
  /-- in the ready queue, or to be put there when it leaves its CPU -/
  queued : Bool
  onCpu : Bool
  /-- wake-ups on their way to the CPU of the client -/
  mail : ℕ
  pc : ClientPc n
  /-- the message that a task is sending to the client, once it is in the queue -/
  sending : Fin n → Option (Message × SendStage)
  alive : Fin n → Bool

inductive SyncAction (n : ℕ)
  | call (c : SyncCall n) (msg : Message)
  | client
  /-- the client receives outside a call -/
  | recv
  /-- what else the client does outside a call -/
  | elsewhere (state : TaskState) (onQueue inRecv : Bool)
  | receive (x : Fin n)
  | push (x : Fin n) (msg : Message)
  | advance (x : Fin n) (remote : Bool)
  | drain
  | switchOut
  | dispatch
  /-- `recv_timeout_fire` -/
  | fire
  /-- the tick wakes the client for its timeout -/
  | expire
  | die (x : Fin n)
  deriving DecidableEq

namespace SyncState

/-- `set_task_ready` -/
def ready (s : SyncState n) (remote : Bool) : SyncState n :=
  if remote then { s with state := .ready, mail := s.mail + 1 }
  else { s with state := .ready, queued := true }

variable (s : SyncState n)

/-- The poll of a call; `none` stands for the failed `ENSURE` of the queue. -/
def poll (c : SyncCall n) : Option (MessageQueue × Option Message) :=
  match c.kind with
  | .sync maxSize =>
    if maxSize ≠ 0 then s.queue.popFromSenderClamped maxSize c.dest
    else s.queue.popFromSender c.dest
  | .bounded _ => s.queue.popFromSender c.dest

def afterPoll (c : SyncCall n) : ClientPc n :=
  match c.kind with
  | .sync maxSize => if maxSize ≠ 0 then .sizing c else .checking c
  | .bounded _ => .timing c

/-- The call returns; `recv_wait_cancel` if it has set the timeout. -/
def leave (c : SyncCall n) : SyncState n :=
  match c.kind with
  | .bounded true => { s with armed := false, pc := .idle }
  | _ => { s with pc := .idle }

def clientStep : Option (SyncState n) :=
  match s.pc with
  | .idle => none
  | .polling c =>
    (s.poll c).map fun r =>
      if r.2.isSome then { s with queue := r.1, replyWait := false }.leave c
      else { s with queue := r.1, pc := afterPoll c }
  | .sizing c =>
    if s.queue.hasFrom c.dest then some ({ s with replyWait := false }.leave c)
    else some { s with pc := .checking c }
  | .timing c =>
    if s.timedOut then
      some { s with replyWait := false, timedOut := false, armed := false, pc := .idle }
    else some { s with pc := .checking c }
  | .checking c =>
    if s.alive c.dest then some { s with pc := .marking c }
    else
      match c.kind with
      | .sync maxSize => if maxSize = 0 then some { s with pc := .leaving c } else some (s.leave c)
      | .bounded _ => some { s with pc := .leaving c }
  | .leaving c =>
    if s.queue.hasFrom c.dest then some { s with pc := .polling c } else some (s.leave c)
  | .marking c => some { s with replyWait := true, pc := .blocking c }
  | .blocking c => some { s with state := .blocked, pc := .dequeuing c }
  | .dequeuing c => some { s with queued := false, pc := .halted c }
  | .halted c => some { s with pc := .polling c }

def setStage (x : Fin n) (p : Option (Message × SendStage)) : SyncState n :=
  { s with sending := update s.sending x p }

/-- The next step of the send of `x`. -/
def advance (x : Fin n) (remote : Bool) : Option (SyncState n) :=
  match s.sending x with
  | none => none
  | some (msg, .testReply) =>
    some (s.setStage x (some (msg, if s.replyWait then .clearReply else .testBlocked)))
  | some (msg, .clearReply) =>
    some ({ s with replyWait := false }.setStage x (some (msg, .testState)))
  | some (msg, .testState) =>
    some (s.setStage x (some (msg, if s.state = .blocked then .wakeReply else .testBlocked)))
  | some (msg, .wakeReply) => some ((s.ready remote).setStage x (some (msg, .testBlocked)))
  | some (msg, .testBlocked) =>
    some (s.setStage x (if s.state = .blocked then some (msg, .testFlags) else none))
  | some (msg, .testFlags) =>
    some (s.setStage x
      (if s.replyWait || s.onQueue || s.inRecv then some (msg, .wakeIpc) else none))
  | some (_, .wakeIpc) => some ((s.ready remote).setStage x none)

def step : SyncAction n → Option (SyncState n)
  | .call c msg =>
    if s.onCpu ∧ s.pc = .idle ∧ s.onQueue = false ∧ s.inRecv = false ∧ s.alive c.dest ∧
        (s.requests c.dest).isFull = false then
      let s₁ := { s with
        requests := update s.requests c.dest ((s.requests c.dest).push msg).1
        pc := .polling c }
      match c.kind with
      | .bounded true => some { s₁ with timedOut := false, armed := true }
      | _ => some s₁
    else none
  | .client => if s.onCpu then s.clientStep else none
  | .recv =>
    if s.onCpu ∧ s.pc = .idle then s.queue.pop.map fun r => { s with queue := r.1 } else none
  | .elsewhere state onQueue inRecv =>
    if s.onCpu ∧ s.pc = .idle then
      some { s with state := state, onQueue := onQueue, inRecv := inRecv }
    else none
  | .receive x =>
    if s.alive x ∧ s.sending x = none then
      (s.requests x).pop.map fun r => { s with requests := update s.requests x r.1 }
    else none
  | .push x msg =>
    if s.alive x ∧ s.sending x = none ∧ s.queue.isFull = false then
      some ({ s with queue := (s.queue.push msg).1 }.setStage x (some (msg, .testReply)))
    else none
  | .advance x remote => if s.alive x then s.advance x remote else none
  | .drain =>
    if s.mail ≠ 0 then some { s with mail := s.mail - 1, state := .ready, queued := true } else none
  | .switchOut =>
    if s.onCpu then
      if s.state = .running then some { s with onCpu := false, state := .ready, queued := true }
      else some { s with onCpu := false }
    else none
  | .dispatch =>
    if s.state = .ready ∧ s.queued ∧ s.onCpu = false then
      some { s with state := .running, queued := false, onCpu := true }
    else none
  | .fire => if s.armed then some { s with timedOut := true } else none
  | .expire =>
    if s.armed ∧ s.timedOut ∧ (s.state = .blocked ∨ s.state = .ready) then
      some { s with state := .ready, queued := true }
    else none
  | .die x => if s.alive x then some { s with alive := update s.alive x false } else none

/-! ## Lost replies -/

/-- A message of the server is in the queue of the client, which is BLOCKED and waits for it, and
everyone who has sent one is through with waking the client. -/
def Lost : Prop :=
  ∃ c, s.pc.waiting = some c ∧ s.state = .blocked ∧
    (∃ msg ∈ s.queue.contents, msg.senderId = c.dest) ∧
    ∀ x msg st, s.sending x = some (msg, st) → msg.senderId ≠ c.dest

def raisesAt : Option (Message × SendStage) → Bool
  | none => false
  | some (_, st) => st.raises

/-- The task has cleared `reply_wait` and is about to wake the client if it is BLOCKED. -/
def raising (x : Fin n) : Bool := raisesAt (s.sending x)

def MayAdvance : Option (Message × SendStage) → Prop
  | some (_, .clearReply) => s.pc.isBlocking = false
  | some (msg, .testReply) =>
    ∀ c ∈ s.pc.waiting, s.state = .blocked → msg.senderId = c.dest → ∀ y, s.raising y = false
  | _ => True

instance (s : SyncState n) (p : Option (Message × SendStage)) : Decidable (s.MayAdvance p) := by
  unfold MayAdvance
  split <;> infer_instance

/-- The condition on a step: messages have priorities that are found; no reply arrives between the
last look of the client into its queue and the store of BLOCKED; `reply_wait` is not cleared between
the mark and that store; and a sender of a reply does not read `reply_wait` while another that has
cleared it is about to wake the client. -/
def Handshake : SyncAction n → Prop
  | .push _ msg =>
    msg.priority ≤ priorityLevels ∧ ∀ c ∈ s.pc.committed, msg.senderId ≠ c.dest
  | .advance x _ => s.MayAdvance (s.sending x)
  | _ => True

variable {s}

structure Start (s : SyncState n) : Prop where
  queue : s.queue = s.queue.init
  pc : s.pc = .idle
  sending : ∀ x, s.sending x = none

variable {s s' : SyncState n} {c : SyncCall n} {x : Fin n} {msg : Message} {remote : Bool}
  {a : SyncAction n} {as : List (SyncAction n)} {p : Option (Message × SendStage)}

instance (s : SyncState n) (a : SyncAction n) : Decidable (s.Handshake a) := by
  unfold Handshake
  split <;> infer_instance

/-- The queue has only messages that are found. A client about to block has no reply in its queue,
and its mark stands once it has made it. While it is BLOCKED, its mark stands or somebody is about
to wake it; if there is a reply, the sender of a reply is. -/
structure Inv (s : SyncState n) : Prop where
  queue : s.queue.WellFormed
  level : ∀ msg ∈ s.queue.contents, msg.priority ≤ priorityLevels
  committed : ∀ c, s.pc.committed = some c → ∀ msg ∈ s.queue.contents, msg.senderId ≠ c.dest
  marked : s.pc.isBlocking → s.replyWait
  raised : ∀ c, s.pc.waiting = some c → s.state = .blocked →
    s.replyWait = true ∨ ∃ x, s.raising x = true
  reply : ∀ c, s.pc.waiting = some c → s.state = .blocked →
    (∃ msg ∈ s.queue.contents, msg.senderId = c.dest) →
      ∃ x msg st, s.sending x = some (msg, st) ∧ msg.senderId = c.dest ∧ st.early = true

namespace Inv

theorem not_lost (h : s.Inv) : ¬ s.Lost := by
  rintro ⟨c, hc, hstate, hreply, hdone⟩
  obtain ⟨x, msg, st, hx, hmsg, -⟩ := h.reply c hc hstate hreply
  exact hdone x msg st hx hmsg

theorem of_pc (h : s.Inv) (hqueue : s'.queue.WellFormed)
    (hsub : s'.queue.contents ⊆ s.queue.contents) (hwaiting : s'.pc.waiting = none)
    (hcommitted : ∀ c, s'.pc.committed = some c → ∀ msg ∈ s'.queue.contents, msg.senderId ≠ c.dest)
    (hmarked : s'.pc.isBlocking → s'.replyWait) : s'.Inv where
  queue := hqueue
  level msg hmsg := h.level msg (hsub hmsg)
  committed := hcommitted
  marked := hmarked
  raised _ hc := nomatch hwaiting.symm.trans hc
  reply _ hc := nomatch hwaiting.symm.trans hc

theorem of_state (h : s.Inv) {st : TaskState} (hstate : st ≠ .blocked)
    (f : Fin n → Option (Message × SendStage)) : Inv { s with state := st, sending := f } :=
  { h with
    raised := fun _ _ hb => absurd hb hstate
    reply := fun _ _ hb => absurd hb hstate }

theorem woken (h : s.Inv) : Inv { s with state := .ready } :=
  { h.of_state (nofun : TaskState.ready ≠ .blocked) s.sending with }

/-! ## Steps of the client -/

theorem leave_eq (s : SyncState n) (c : SyncCall n) :
    (s.leave c).pc = .idle ∧ (s.leave c).queue = s.queue := by
  unfold SyncState.leave
  split
  · exact ⟨rfl, rfl⟩
  · exact ⟨rfl, rfl⟩

section

variable (h : s.Inv) (hqueue : s'.queue.WellFormed) (hsub : s'.queue.contents ⊆ s.queue.contents)
include h hqueue hsub

theorem of_idle (hpc : s'.pc = .idle) : s'.Inv := by
  refine h.of_pc hqueue hsub ?_ ?_ ?_
  · rw [hpc]
    rfl
  all_goals
    rw [hpc]
    nofun

theorem leave (c : SyncCall n) : (s'.leave c).Inv := by
  obtain ⟨hpc, he⟩ := leave_eq s' c
  exact h.of_idle (he ▸ hqueue) (he ▸ hsub) hpc

end

theorem afterPoll_waiting (c : SyncCall n) :
    (afterPoll c).waiting = none ∧ (afterPoll c).isBlocking = false := by
  unfold afterPoll
  cases c.kind with
  | sync maxSize =>
    dsimp only
    split_ifs
    all_goals exact ⟨rfl, rfl⟩
  | bounded armed => exact ⟨rfl, rfl⟩

theorem popFromSender (h : s.Inv) {q : MessageQueue} {r : Option Message}
    (hp : s.queue.popFromSender c.dest = some (q, r)) :
    q.WellFormed ∧ q.contents ⊆ s.queue.contents ∧
      (r = none → ∀ d, some c = some d → ∀ msg ∈ q.contents, msg.senderId ≠ d.dest) := by
  obtain ⟨q', r', htake, hw, htakes⟩ := MessageQueue.take_spec h.queue
    (fun msg => decide (msg.senderId = c.dest)) (fun _ => true)
  cases htake.symm.trans hp
  refine ⟨hw, htakes.subset, ?_⟩
  rintro rfl d ⟨⟩ msg hmsg hsender
  have hold := htakes.subset hmsg
  exact (htakes.missing msg hold (decide_eq_true hsender)).not_ge (h.level msg hold)

/-- After a poll that finds nothing and is not followed by `has_from` there is no reply. -/
theorem poll (h : s.Inv) {q : MessageQueue} {r : Option Message} (hp : s.poll c = some (q, r)) :
    q.WellFormed ∧ q.contents ⊆ s.queue.contents ∧
      (r = none → ∀ d, (afterPoll c).committed = some d →
        ∀ msg ∈ q.contents, msg.senderId ≠ d.dest) := by
  unfold SyncState.poll at hp
  unfold afterPoll
  cases hkind : c.kind with
  | sync maxSize =>
    rw [hkind] at hp
    dsimp only at hp ⊢
    by_cases hmax : maxSize ≠ 0
    · rw [if_pos hmax] at hp
      rw [if_pos hmax]
      obtain ⟨q', r', htake, hw, htakes⟩ := MessageQueue.take_spec h.queue
        (fun msg => decide (msg.senderId = c.dest)) (fun msg => decide (msg.dataSize ≤ maxSize))
      cases htake.symm.trans hp
      exact ⟨hw, htakes.subset, nofun⟩
    · rw [if_neg hmax] at hp
      rw [if_neg hmax]
      exact h.popFromSender hp
  | bounded armed =>
    rw [hkind] at hp
    exact h.popFromSender hp

theorem goOn (h : s.Inv) {p : ClientPc n} (hwaiting : p.waiting = none)
    (hcommitted : p.committed = s.pc.committed ∨ p.committed = none)
    (hblocking : p.isBlocking = false) : Inv { s with pc := p } := by
  refine h.of_pc h.queue (.refl _) hwaiting (fun c hc => ?_) fun hb => ?_
  · rcases hcommitted with he | he
    · exact h.committed c (he.symm.trans hc)
    · exact nomatch he.symm.trans hc
  · exact nomatch hblocking.symm.trans hb

theorem clientStep (h : s.Inv) (hs : s.clientStep = some s') : s'.Inv := by
  have hrefl : s.queue.contents ⊆ s.queue.contents := .refl _
  unfold SyncState.clientStep at hs
  cases hpc : s.pc with rw [hpc] at hs
  | idle => cases hs
  | polling c =>
    obtain ⟨⟨q, r⟩, hp, hs⟩ := map_eq_some_iff.mp hs
    obtain ⟨hw, hsub, hnone⟩ := h.poll hp
    cases r with cases hs
    | some msg => exact h.leave hw hsub c
    | none =>
      obtain ⟨hwaiting, hblocking⟩ := afterPoll_waiting c
      refine h.of_pc hw hsub hwaiting (hnone rfl) fun hb => ?_
      exact nomatch hblocking.symm.trans hb
  | sizing c =>
    dsimp only at hs
    split_ifs at hs with hfrom <;> cases hs
    · refine h.leave ?_ ?_ c
      · exact h.queue
      · exact hrefl
    · refine h.of_pc h.queue hrefl rfl (fun d hd msg hmsg hsender => ?_) nofun
      cases hd
      have hlevel := MessageQueue.hasFrom_eq_false h.queue (Bool.eq_false_iff.mpr hfrom) msg hmsg
        hsender
      exact hlevel.not_ge (h.level msg hmsg)
  | timing c =>
    split_ifs at hs <;> cases hs
    · exact h.of_idle h.queue hrefl rfl
    · exact h.goOn rfl (.inl (hpc ▸ rfl)) rfl
  | checking c =>
    dsimp only at hs
    split_ifs at hs
    · cases hs
      exact h.goOn rfl (.inl (hpc ▸ rfl)) rfl
    split at hs
    · split_ifs at hs <;> cases hs
      · exact h.goOn rfl (.inr rfl) rfl
      · exact h.leave h.queue hrefl c
    · cases hs
      exact h.goOn rfl (.inr rfl) rfl
  | leaving c =>
    dsimp only at hs
    split_ifs at hs <;> cases hs
    · exact h.goOn rfl (.inr rfl) rfl
    · exact h.leave h.queue hrefl c
  | marking c =>
    cases hs
    refine h.of_pc h.queue hrefl rfl (fun d hd => ?_) fun _ => rfl
    exact h.committed d (hpc ▸ hd)
  | blocking c =>
    -- there is no reply, and the mark stands
    cases hs
    have hnone := h.committed c (hpc ▸ rfl)
    refine ⟨h.queue, h.level, nofun, nofun, fun d _ _ => .inl (h.marked (hpc ▸ rfl)), ?_⟩
    rintro d hd - ⟨msg, hmsg, hsender⟩
    cases hd
    exact absurd hsender (hnone msg hmsg)
  | dequeuing c =>
    cases hs
    refine ⟨h.queue, h.level, nofun, nofun, fun d hd => ?_, fun d hd => ?_⟩
    · exact h.raised d (hpc ▸ hd)
    · exact h.reply d (hpc ▸ hd)
  | halted c =>
    cases hs
    exact h.goOn rfl (.inr rfl) rfl

/-! ## Steps of a send -/

theorem raising_setStage_ne {y : Fin n} (s : SyncState n) (hy : y ≠ x) :
    (s.setStage x p).raising y = s.raising y :=
  congrArg raisesAt (update_of_ne hy ..)

theorem raising_setStage (s : SyncState n) (x : Fin n) : (s.setStage x p).raising x = raisesAt p :=
  congrArg raisesAt (update_self ..)

theorem not_raising {st : SendStage} (hx : s.sending x = some (msg, st)) (hst : st.raises = false) :
    s.raising x ≠ true := by
  rw [raising, hx, raisesAt, hst]
  nofun

section

variable (h : s.Inv)
include h

/-- A send goes on: if it is about to wake the client, it stays so while the client is BLOCKED, and
the send of a reply that the client waits for does not pass the first test. -/
theorem setStage (hraise : s.raising x → s.state = .blocked → raisesAt p)
    (hkeep : ∀ c (msg : Message) st, s.pc.waiting = some c → s.state = .blocked →
      msg.senderId = c.dest → s.sending x = some (msg, st) → st.early →
        ∃ st', p = some (msg, st') ∧ st'.early = true) : (s.setStage x p).Inv := by
  refine { h with raised := fun c hc hb => ?_, reply := fun c hc hb hreply => ?_ }
  · refine (h.raised c hc hb).imp id fun ⟨y, hy⟩ => ⟨y, ?_⟩
    by_cases hyx : y = x
    · subst hyx
      rw [raising_setStage]
      exact hraise hy hb
    · rw [raising_setStage_ne s hyx]
      exact hy
  · obtain ⟨y, msg, st, hy, hsender, hearly⟩ := h.reply c hc hb hreply
    by_cases hyx : y = x
    · subst hyx
      obtain ⟨st', rfl, hearly'⟩ := hkeep c msg st hc hb hsender hy hearly
      exact ⟨y, msg, st', update_self .., hsender, hearly'⟩
    · exact ⟨y, msg, st, (update_of_ne hyx ..).trans hy, hsender, hearly⟩

theorem push (hidle : s.sending x = none) (hroom : s.queue.isFull = false)
    (hlevel : msg.priority ≤ priorityLevels) (hwindow : ∀ c ∈ s.pc.committed, msg.senderId ≠ c.dest) :
    ({ s with queue := (s.queue.push msg).1 }.setStage x (some (msg, .testReply))).Inv := by
  obtain ⟨-, hw, hcontents⟩ := MessageQueue.push_spec h.queue hroom msg
  have hmem : ∀ m ∈ (s.queue.push msg).1.contents, m ∈ s.queue.contents ∨ m = msg := by
    intro m hm
    rw [hcontents, List.mem_append, List.mem_singleton] at hm
    exact hm
  have hstage : (s.setStage x (some (msg, .testReply))).Inv := by
    refine h.setStage (fun hr => ?_) fun c m st _ _ _ hm => nomatch hidle.symm.trans hm
    rw [raising, hidle] at hr
    cases hr
  refine ⟨hw, fun m hm => ?_, fun c hc m hm => ?_, h.marked, hstage.raised, ?_⟩
  · rcases hmem m hm with hm | rfl
    · exact h.level m hm
    · exact hlevel
  · rcases hmem m hm with hm | rfl
    · exact h.committed c hc m hm
    · exact hwindow c hc
  · rintro c hc hb ⟨m, hm, hsender⟩
    rcases hmem m hm with hm | rfl
    · exact hstage.reply c hc hb ⟨m, hm, hsender⟩
    · exact ⟨x, m, .testReply, update_self .., hsender, rfl⟩

/-- The store to `reply_wait` of a send, which is about to wake the client then. -/
theorem clearReply (hx : s.sending x = some (msg, .clearReply)) (hwindow : s.pc.isBlocking = false) :
    ({ s with replyWait := false }.setStage x (some (msg, .testState))).Inv := by
  have hstage : (s.setStage x (some (msg, .testState))).Inv := by
    refine h.setStage (fun _ _ => rfl) fun c m st _ _ _ hm _ => ?_
    cases hx.symm.trans hm
    exact ⟨.testState, rfl, rfl⟩
  refine { hstage with marked := fun hb => ?_, raised := fun c _ _ => .inr ⟨x, ?_⟩ }
  · exact nomatch hwindow.symm.trans hb
  · exact raising_setStage ..

theorem ready (remote : Bool) : ((s.ready remote).setStage x p).Inv := by
  unfold SyncState.ready
  have hready := h.of_state (nofun : TaskState.ready ≠ .blocked) (update s.sending x p)
  split_ifs
  all_goals exact { hready with }

theorem setStage_late {st : SendStage} (hx : s.sending x = some (msg, st)) (hst : st.raises = false)
    (hearly : st.early = false) : (s.setStage x p).Inv := by
  refine h.setStage (fun hr => absurd hr (not_raising hx hst)) fun c m st' _ _ _ hm he => ?_
  cases hx.symm.trans hm
  exact nomatch hearly.symm.trans he

theorem advance (hok : s.MayAdvance (s.sending x)) (hs : s.advance x remote = some s') :
    s'.Inv := by
  unfold SyncState.advance at hs
  cases hx : s.sending x with
  | none =>
    rw [hx] at hs
    cases hs
  | some p =>
    obtain ⟨msg, st⟩ := p
    rw [hx] at hs hok
    cases st with cases hs
    | testReply =>
      refine h.setStage (fun hr => absurd hr (not_raising hx rfl)) fun c m st hc hb hsender hm _ => ?_
      cases hx.symm.trans hm
      -- the mark stands, for nobody is about to wake the client
      have hmark : s.replyWait = true := by
        refine (h.raised c hc hb).resolve_right fun ⟨y, hy⟩ => ?_
        exact nomatch (hok c hc hb hsender y).symm.trans hy
      rw [hmark]
      exact ⟨.clearReply, rfl, rfl⟩
    | clearReply => exact h.clearReply hx hok
    | testState =>
      refine h.setStage (fun _ hb => ?_) fun c m st _ hb _ hm _ => ?_
      · rw [if_pos hb]
        rfl
      · cases hx.symm.trans hm
        rw [if_pos hb]
        exact ⟨.wakeReply, rfl, rfl⟩
    | wakeReply => exact h.ready remote
    | testBlocked | testFlags => exact h.setStage_late hx rfl rfl
    | wakeIpc => exact h.ready remote

end

/-! ## Runs -/

theorem step (h : s.Inv) (hok : s.Handshake a) (hs : s.step a = some s') : s'.Inv := by
  cases a with
  | call c msg =>
    obtain ⟨-, hs⟩ := ite_none_right_eq_some.mp hs
    split at hs
    all_goals
      cases hs
      exact h.of_pc h.queue (.refl _) rfl nofun nofun
  | client =>
    obtain ⟨-, hs⟩ := ite_none_right_eq_some.mp hs
    exact h.clientStep hs
  | recv =>
    obtain ⟨⟨-, hpc⟩, hs⟩ := ite_none_right_eq_some.mp hs
    obtain ⟨q, r, hpop, hw, htakes⟩ := MessageQueue.pop_spec h.queue
    rw [hpop] at hs
    cases hs
    exact h.of_idle hw htakes.subset hpc
  | elsewhere state onQueue inRecv =>
    obtain ⟨⟨-, hpc⟩, rfl⟩ := ite_some_none_eq_some.mp hs
    exact h.of_idle h.queue (.refl _) hpc
  | receive x =>
    obtain ⟨-, hs⟩ := ite_none_right_eq_some.mp hs
    obtain ⟨r, -, rfl⟩ := map_eq_some_iff.mp hs
    exact { h with }
  | push x msg =>
    obtain ⟨⟨-, hidle, hroom⟩, rfl⟩ := ite_some_none_eq_some.mp hs
    exact h.push hidle hroom hok.1 hok.2
  | advance x remote =>
    obtain ⟨-, hs⟩ := ite_none_right_eq_some.mp hs
    exact h.advance hok hs
  | drain | expire =>
    obtain ⟨-, rfl⟩ := ite_some_none_eq_some.mp hs
    exact { h.woken with }
  | switchOut =>
    obtain ⟨-, hs⟩ := ite_none_right_eq_some.mp hs
    split_ifs at hs <;> cases hs
    · exact { h.woken with }
    · exact { h with }
  | dispatch =>
    obtain ⟨-, rfl⟩ := ite_some_none_eq_some.mp hs
    exact { h.of_state (nofun : TaskState.running ≠ .blocked) s.sending with }
  | fire | die =>
    obtain ⟨-, rfl⟩ := ite_some_none_eq_some.mp hs
    exact { h with }

end Inv

theorem Start.inv (h : s.Start) : s.Inv := by
  refine ⟨h.queue ▸ MessageQueue.wellFormed_init _, ?_, ?_, ?_, ?_, ?_⟩
  · rw [h.queue]
    nofun
  all_goals
    rw [h.pc]
    nofun

/-- In every run in which the sends to the client keep out of the time between its last look into
the queue and the store of BLOCKED, no reply is lost. -/
theorem send_sync_reply (h : s.Start) (hr : Run step Handshake s as s') : ¬ s'.Lost :=
  (hr.invariant (I := Inv) (fun _ _ _ hinv hok hs => hinv.step hok hs) h.inv).not_lost

def twoServers : SyncState 2 where
  queue := .emptyQueue
  requests := fun _ => .emptyQueue
  state := .running
  replyWait := false
  onQueue := false
  inRecv := false
  timedOut := false
  armed := false
  queued := false
  onCpu := true
  mail := 0
  pc := .idle
  sending := fun _ => none
  alive := fun _ => true

open MessageQueue (letter)

/-- The reply comes when the client is BLOCKED; the client is woken and gets it. -/
theorem send_sync_reply_blocked :
    ∃ s', Run step Handshake twoServers
      [.call ⟨0, .sync 0⟩ (letter 7 0 0), .client, .client, .client, .client, .receive 0,
        .push 0 (letter 0 3 0), .client, .switchOut, .advance 0 false, .advance 0 false,
        .advance 0 false, .advance 0 false, .advance 0 false, .dispatch, .client, .client] s' ∧
      s'.pc = .idle ∧ s'.queue.count = 0 ∧ ¬ s'.Lost := by
  refine Run.exists_imp_of_exec (fun s' => s'.pc = .idle ∧ s'.queue.count = 0)
    (by decide +kernel) ?_
  rintro s' hr ⟨hpc, hcount⟩
  exact ⟨hpc, hcount, send_sync_reply ⟨rfl, rfl, fun _ => rfl⟩ hr⟩

/-- The client has been taken off its CPU and nobody is about to wake it. -/
def stuck (s : SyncState n) (c : SyncCall n) (msg : Message) : Prop :=
  s.pc = .halted c ∧ s.state = .blocked ∧ s.queue.contents = [msg] ∧ (∀ x, s.sending x = none) ∧
    s.mail = 0 ∧ s.queued = false ∧ s.onCpu = false
  deriving Decidable

theorem lost_of_stuck (h : s.stuck c msg) (hsender : msg.senderId = c.dest) : s.Lost := by
  obtain ⟨hpc, hstate, hcontents, hidle, -⟩ := h
  refine ⟨c, hpc ▸ rfl, hstate, ⟨msg, hcontents ▸ List.mem_cons_self, hsender⟩, fun x m st hx => ?_⟩
  exact nomatch (hidle x).symm.trans hx

theorem lost_of_exec (hsender : msg.senderId = c.dest)
    (h : (exec step anyStep s as).any (fun t => decide (t.stuck c msg))) :
    ∃ s', Run step anyStep s as s' ∧ s'.stuck c msg ∧ s'.Lost :=
  Run.exists_imp_of_exec _ h fun _ _ hs => ⟨hs, lost_of_stuck hs hsender⟩

/-- The reply comes after the client has looked for it, before the mark or between the mark and the
store of BLOCKED, and its sender does not find the client BLOCKED. A reply of a priority above
`IPC_PRIORITY_LEVELS` wakes the client, which does not find it and blocks again. -/
theorem reply_lost :
    (∃ s', Run step anyStep twoServers
      [.call ⟨0, .sync 0⟩ (letter 7 0 0), .client, .client, .receive 0, .push 0 (letter 0 3 0),
        .advance 0 false, .advance 0 false, .client, .client, .client, .switchOut] s' ∧
      s'.stuck ⟨0, .sync 0⟩ (letter 0 3 0) ∧ s'.Lost) ∧
    (∃ s', Run step anyStep twoServers
      [.call ⟨0, .sync 0⟩ (letter 7 0 0), .client, .client, .client, .receive 0,
        .push 0 (letter 0 3 0), .advance 0 false, .advance 0 false, .advance 0 false,
        .advance 0 false, .client, .client, .switchOut] s' ∧
      s'.stuck ⟨0, .sync 0⟩ (letter 0 3 0) ∧ s'.Lost) ∧
    ∃ s', Run step anyStep twoServers
      [.call ⟨0, .sync 0⟩ (letter 7 0 0), .client, .client, .client, .client, .client, .switchOut,
        .receive 0, .push 0 (letter 0 33 0), .advance 0 false, .advance 0 false, .advance 0 false,
        .advance 0 false, .advance 0 false, .dispatch, .client, .client, .client, .client, .client,
        .client, .switchOut] s' ∧
      s'.stuck ⟨0, .sync 0⟩ (letter 0 33 0) ∧ s'.Lost := by
  exact ⟨lost_of_exec rfl (by decide +kernel), lost_of_exec rfl (by decide +kernel),
    lost_of_exec rfl (by decide +kernel)⟩

end SyncState

end Nexios.Ipc
