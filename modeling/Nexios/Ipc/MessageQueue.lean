import Mathlib.Data.BitVec
import Nexios.Lib.FirstMin
import Nexios.Lib.Ring

/-!
# Message queues

The ring of messages of a `MessageQueue`. A receiver takes the message of the least priority number,
and the oldest of those, from the middle of the ring if need be; the messages behind it move up. The
search keeps only numbers up to `IPC_PRIORITY_LEVELS`, and the bitmap of priorities is computed anew
after each removal.
-/

open Nat

namespace Nexios.Ipc

def maxQueueMsg : ℕ := 16

def priorityLevels : ℕ := 32

structure Message where
  senderId : ℕ
  type : ℕ
  priority : ℕ
  data : List (BitVec 8)
  dataSize : ℕ
  bufHandle : ℕ
  deriving DecidableEq

structure MessageQueue where
  msgs : ℕ → Message
  prioBitmap : BitVec 64
  head : ℕ
  tail : ℕ
  count : ℕ

/-- The bit of a priority. A shift by 64 or more is undefined in the source; the processor takes the
number modulo 64. -/
def priorityBit (priority : ℕ) : BitVec 64 := 1 <<< (priority % 64)

inductive QueueOp
  | push (msg : Message)
  | pop
  | popClamped (maxSize : ℕ)
  | popFromSender (senderId : ℕ)
  | popFromSenderClamped (maxSize senderId : ℕ)
  deriving DecidableEq

inductive QueueAnswer
  | pushed (ok : Bool)
  | popped (msg : Option Message)
  deriving DecidableEq

namespace MessageQueue

variable (q : MessageQueue)

def isEmpty : Bool := q.count = 0

def isFull : Bool := maxQueueMsg ≤ q.count

def init : MessageQueue :=
  { q with prioBitmap := 0, head := 0, tail := 0, count := 0 }

def push (msg : Message) : MessageQueue × Bool :=
  if q.isFull then (q, false)
  else
    ({ msgs := Function.update q.msgs q.tail msg
       prioBitmap := q.prioBitmap ||| priorityBit msg.priority
       head := q.head
       tail := (q.tail + 1) % maxQueueMsg
       count := q.count + 1 }, true)

/-- The loop of both searches over the `rest` messages from the `i`-th on. -/
def findFrom (q : MessageQueue) (counts : Message → Bool) : ℕ → ℕ → ℕ → ℕ → ℕ
  | 0, _, _, bestIdx => bestIdx
  | rest + 1, i, bestPrio, bestIdx =>
    let idx := (q.head + i) % maxQueueMsg
    if counts (q.msgs idx) && (q.msgs idx).priority < bestPrio then
      if (q.msgs idx).priority = 0 then idx
      else q.findFrom counts rest (i + 1) (q.msgs idx).priority idx
    else q.findFrom counts rest (i + 1) bestPrio bestIdx

def findBest (counts : Message → Bool) : ℕ :=
  q.findFrom counts q.count 0 (priorityLevels + 1) maxQueueMsg

def findBestIndex : ℕ := q.findBest fun _ => true

def findBestFromSender (senderId : ℕ) : ℕ :=
  q.findBest fun msg => msg.senderId = senderId

def rebuildBitmap : BitVec 64 :=
  (List.range q.count).foldl
    (fun b i => b ||| priorityBit (q.msgs ((q.head + i) % maxQueueMsg)).priority) 0

/-- The message at `bestIdx` leaves the ring; `none` stands for the failed `ENSURE`. -/
def closeGap (bestIdx : ℕ) : Option MessageQueue :=
  if bestIdx = q.head then some { q with head := (q.head + 1) % maxQueueMsg }
  else
    (Ring.compact maxQueueMsg q.tail maxQueueMsg bestIdx q.msgs).map fun msgs =>
      { q with
        msgs := msgs
        tail := if q.tail = 0 then maxQueueMsg - 1 else q.tail - 1 }

def recount : MessageQueue :=
  let q := { q with count := q.count - 1 }
  { q with prioBitmap := q.rebuildBitmap }

def removeAt (bestIdx : ℕ) : Option MessageQueue :=
  (q.closeGap bestIdx).map recount

/-- The end of all pops: the message at `bestIdx`, if there is one and it fits, is removed. -/
def take (bestIdx : ℕ) (fits : Message → Bool) :
    Option (MessageQueue × Option Message) :=
  if maxQueueMsg ≤ bestIdx then some (q, none)
  else if fits (q.msgs bestIdx) then
    (q.removeAt bestIdx).map fun q' => (q', some (q.msgs bestIdx))
  else some (q, none)

def pop : Option (MessageQueue × Option Message) :=
  if q.isEmpty then some (q, none) else q.take q.findBestIndex fun _ => true

def popClamped (maxSize : ℕ) : Option (MessageQueue × Option Message) :=
  if q.isEmpty then some (q, none) else q.take q.findBestIndex fun msg => msg.dataSize ≤ maxSize

def popFromSender (senderId : ℕ) : Option (MessageQueue × Option Message) :=
  q.take (q.findBestFromSender senderId) fun _ => true

def popFromSenderClamped (maxSize senderId : ℕ) :
    Option (MessageQueue × Option Message) :=
  q.take (q.findBestFromSender senderId) fun msg => msg.dataSize ≤ maxSize

def hasFrom (senderId : ℕ) : Bool :=
  q.findBestFromSender senderId < maxQueueMsg

/-- `highest_priority`; the number of trailing zeros of the bitmap. -/
def highestPriority : ℕ :=
  if q.prioBitmap = 0 then priorityLevels
  else ((List.range 64).find? fun p => q.prioBitmap.getLsbD p).getD 64

def apply : QueueOp → Option (MessageQueue × QueueAnswer)
  | .push msg => some ((q.push msg).1, .pushed (q.push msg).2)
  | .pop => q.pop.map fun r => (r.1, .popped r.2)
  | .popClamped maxSize => (q.popClamped maxSize).map fun r => (r.1, .popped r.2)
  | .popFromSender senderId => (q.popFromSender senderId).map fun r => (r.1, .popped r.2)
  | .popFromSenderClamped maxSize senderId =>
    (q.popFromSenderClamped maxSize senderId).map fun r => (r.1, .popped r.2)

/-- A sequence of operations, with the answers; `none` if an `ENSURE` has failed. -/
def applyAll (q : MessageQueue) : List QueueOp → Option (MessageQueue × List QueueAnswer)
  | [] => some (q, [])
  | op :: ops =>
    (q.apply op).bind fun r => (r.1.applyAll ops).map fun r' => (r'.1, r.2 :: r'.2)

def contents : List Message :=
  Ring.entries maxQueueMsg q.msgs q.head q.count

end MessageQueue

/-! ## What the operations do to the list of messages -/

def bitmapOf (l : List Message) : BitVec 64 :=
  l.foldl (fun b msg => b ||| priorityBit msg.priority) 0

namespace MessageQueue

variable {q q' : MessageQueue} {counts : Message → Bool} {i : ℕ} {msg : Message}

structure WellFormed (q : MessageQueue) : Prop where
  head : q.head < maxQueueMsg
  count : q.count ≤ maxQueueMsg
  tail : q.tail = (q.head + q.count) % maxQueueMsg
  bitmap : q.prioBitmap = bitmapOf q.contents

def choice (counts : Message → Bool) (l : List Message) : Option ℕ :=
  FirstMin.scan counts Message.priority l 0 (priorityLevels + 1) none

theorem contents_length (q : MessageQueue) : q.contents.length = q.count := Ring.entries_length

theorem rebuildBitmap_eq (q : MessageQueue) : q.rebuildBitmap = bitmapOf q.contents := by
  unfold bitmapOf contents Ring.entries
  rw [List.foldl_map]
  rfl

theorem findFrom_eq (q : MessageQueue) (counts : Message → Bool) (rest i bestPrio : ℕ)
    (best : Option ℕ) :
    q.findFrom counts rest i bestPrio (best.elim maxQueueMsg fun j => (q.head + j) % maxQueueMsg) =
      (FirstMin.scan counts Message.priority
        (Ring.entries maxQueueMsg q.msgs ((q.head + i) % maxQueueMsg) rest) i bestPrio best).elim
        maxQueueMsg fun j => (q.head + j) % maxQueueMsg := by
  induction rest generalizing i bestPrio best with
  | zero => rfl
  | succ rest ih =>
    have hnext : ((q.head + i) % maxQueueMsg + 1) % maxQueueMsg =
        (q.head + (i + 1)) % maxQueueMsg := by
      rw [mod_add_mod, add_assoc]
    rw [Ring.entries_cons, mod_mod, hnext, FirstMin.scan, findFrom]
    split_ifs with hbetter hzero
    · rfl
    · exact ih (i + 1) _ (some i)
    · exact ih (i + 1) bestPrio best

theorem findBest_eq (hw : q.WellFormed) (counts : Message → Bool) : q.findBest counts =
      (choice counts q.contents).elim maxQueueMsg fun j => (q.head + j) % maxQueueMsg := by
  have hscan := q.findFrom_eq counts q.count 0 (priorityLevels + 1) none
  have hzero : (q.head + 0) % maxQueueMsg = q.head := mod_eq_of_lt hw.head
  rwa [hzero] at hscan

theorem wellFormed_recount (hhead : q.head < maxQueueMsg) (hcount : q.count ≤ maxQueueMsg)
    (htail : q.tail = (q.head + (q.count - 1)) % maxQueueMsg) : q.recount.WellFormed :=
  ⟨hhead, (sub_le _ 1).trans hcount, htail, rebuildBitmap_eq _⟩

theorem tail_pred {x : ℕ} : (if (x + 1) % maxQueueMsg = 0 then maxQueueMsg - 1
    else (x + 1) % maxQueueMsg - 1) = x % maxQueueMsg := by
  unfold maxQueueMsg
  split_ifs
  · omega
  · omega

theorem exists_removeAt (hw : q.WellFormed) (hi : i < q.count) :
    ∃ q', q.removeAt ((q.head + i) % maxQueueMsg) = some q' ∧ q'.WellFormed ∧
      q'.contents = q.contents.eraseIdx i := by
  obtain ⟨c, hc⟩ : ∃ c, q.count = c + 1 := ⟨q.count - 1, by omega⟩
  unfold removeAt closeGap
  by_cases hhead : (q.head + i) % maxQueueMsg = q.head
  · -- the oldest message: the ring starts one cell later
    have hzero : i = 0 := by
      refine Ring.cell_inj (hi.trans_le hw.count) (zero_lt_of_lt hw.head) (hhead.trans ?_)
      exact (mod_eq_of_lt hw.head).symm
    subst hzero
    rw [if_pos hhead]
    refine ⟨_, rfl, wellFormed_recount (mod_lt _ (zero_lt_of_lt hw.head)) hw.count ?_, ?_⟩
    · rw [hw.tail, hc, Nat.mod_add_mod, Nat.add_sub_cancel, Nat.add_assoc, Nat.add_comm 1]
    · unfold contents
      rw [hc, Ring.entries_cons]
      rfl
  · obtain ⟨msgs, hmsgs, hentries⟩ := Ring.exists_compact q.msgs q.head hi hw.count
      (hw.count.trans (le_add_left maxQueueMsg i))
    rw [if_neg hhead, hw.tail, hmsgs]
    refine ⟨_, rfl, wellFormed_recount hw.head hw.count ?_, hentries⟩
    rw [hc, ← Nat.add_assoc, tail_pred, Nat.add_sub_cancel]

theorem wellFormed_init (q : MessageQueue) : q.init.WellFormed :=
  ⟨succ_pos 15, zero_le _, rfl, rfl⟩

theorem push_spec (hw : q.WellFormed) (h : q.isFull = false) (msg : Message) :
    (q.push msg).2 = true ∧ (q.push msg).1.WellFormed ∧
      (q.push msg).1.contents = q.contents ++ [msg] := by
  have hroom : q.count < maxQueueMsg := not_le.mp (of_decide_eq_false h)
  unfold push
  rw [h]
  have hcontents : Ring.entries maxQueueMsg (Function.update q.msgs q.tail msg) q.head
      (q.count + 1) = q.contents ++ [msg] := by
    rw [hw.tail]
    exact Ring.entries_update hroom msg
  refine ⟨rfl, ⟨hw.head, hroom, ?_, ?_⟩, hcontents⟩
  · change (q.tail + 1) % maxQueueMsg = (q.head + (q.count + 1)) % maxQueueMsg
    rw [hw.tail, mod_add_mod, add_assoc]
  · refine .trans ?_ (congrArg bitmapOf hcontents).symm
    rw [hw.bitmap]
    unfold bitmapOf
    rw [List.foldl_append]
    rfl

end MessageQueue

end Nexios.Ipc
