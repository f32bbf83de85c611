import Mathlib.Data.Fin.VecNotation
import Nexios.Sync.Queue
import Nexios.Sync.Semaphore

/-!
# Swallowed wake-ups

A `post` with waiters in the array, and a `send` or `receive` with waiters on the other side, wake
the waiter of the greatest priority, dead or alive. If it is dead, or if all entries belong to
recycled control blocks, the token is gone. The theorem says exactly when it is not.
-/

namespace Nexios.Sync

open QueueState

variable {n : ℕ}

namespace QueueState

variable {s s' : QueueState n} {t : Fin n} {q : Request} {r : Role} {err : Bool}

def opposite (s : QueueState n) (q : Request) : List (Waiter n) := (s.side q.role.other).waiters

/-- A live waiter of the other side with the greatest priority is woken; the priorities are those
after the boost has been taken back. -/
def Wakes (s : QueueState n) (t : Fin n) (q : Request) (s' : QueueState n) : Prop :=
  ∃ w, s'.woken = w :: s.woken ∧ (s.move t q).tasks.IsFirst (s.opposite q) w

section

variable (s : QueueState n)

theorem restore_waiters (r r' : Role) : ((s.restore r).side r').waiters = (s.side r').waiters := by
  unfold restore
  split
  · rfl
  split_ifs
  · rfl
  · exact onSide_field Side.waiters rfl r'
  · have hside := onSide_field (s := s) (r := r) (f := fun d => { d with holderPrio := 0 })
      Side.waiters rfl r'
    exact hside

theorem restore_woken (r : Role) : (s.restore r).woken = s.woken := by
  unfold restore
  split
  · rfl
  · split_ifs
    all_goals rfl

theorem move_opposite (t : Fin n) (q : Request) : (s.move t q).opposite q = s.opposite q := by
  have hlast := onSide_field (s := s) (r := q.role)
    (f := fun d => { d with last := some (s.tasks.waiter t) }) Side.waiters rfl q.role.other
  unfold opposite move
  rw [restorePeer_eq, restore_waiters]
  exact hlast

theorem transfer_woken (t : Fin n) (q : Request) :
    (s.transfer t q).woken = ((s.move t q).tasks.wakeOne (s.opposite q)).2.toList ++ s.woken := by
  have hwoken : (s.move t q).woken = s.woken := by
    rw [move, restorePeer_eq, restore_woken]
    rfl
  rw [transfer, wakePeer_eq, ← move_opposite s t q, ← hwoken]
  rfl

end

theorem wakes_transfer_iff : s.Wakes t q (s.transfer t q) ↔
    (s.move t q).tasks.Served (s.opposite q) := by
  rw [← TaskTable.exists_isFirst_iff, Wakes, transfer_woken]
  cases ((s.move t q).tasks.wakeOne (s.opposite q)).2 with
  | none => simp
  | some v => simp

theorem call_woken (hsize : tooLarge q = false) (hmove : s.canMove q) :
    (s.call t q err).1.woken = (s.transfer t q).woken := by
  rw [call, hsize, round, if_pos hmove]
  rfl

theorem tryCall_woken (hsize : tooLarge q = false) (hmove : s.canMove q) :
    (s.tryCall t q).1.woken = (s.transfer t q).woken := by
  rw [tryCall, if_neg (by simp [hsize, hmove])]

theorem wakes_congr {s₁ s₂ : QueueState n} (h : s₁.woken = s₂.woken) :
    s.Wakes t q s₁ ↔ s.Wakes t q s₂ := by
  rw [Wakes, Wakes, h]

end QueueState

/-- When tokens and wake-ups are not swallowed. A `post` adds one to the tokens, those given to
waiters included, unless no one waits and the count is at its maximum: exactly if the array is
empty, the chosen entry is alive, or the token is not wanted. A call on a queue that makes progress
while a live task waits on the other side wakes one of the greatest priority: exactly if the chosen
entry is alive. -/
theorem wakeUps_delivered (s : SemState n) (c : QueueState n) (t : Fin n) (q : Request) (err : Bool)
    (hsize : tooLarge q = false) (hmove : c.canMove q) :
    (s.post.tokens = s.tokens + (if s.wanted then 1 else 0) ↔
      s.sem.waiters = [] ∨ s.tasks.Served s.sem.waiters ∨ s.wanted = false) ∧
    ((c.tasks.hasLive (c.opposite q) → c.Wakes t q (c.call t q err).1) ↔
      (c.tasks.hasLive (c.opposite q) → (c.move t q).tasks.Served (c.opposite q))) ∧
    ((c.tasks.hasLive (c.opposite q) → c.Wakes t q (c.tryCall t q).1) ↔
      (c.tasks.hasLive (c.opposite q) → (c.move t q).tasks.Served (c.opposite q))) := by
  refine ⟨s.post_tokens_iff, imp_congr_right (fun _ => ?_), imp_congr_right (fun _ => ?_)⟩
  · rw [wakes_congr (call_woken hsize hmove), wakes_transfer_iff]
  · rw [wakes_congr (tryCall_woken hsize hmove), wakes_transfer_iff]

/-- A semaphore without tokens, and three tasks of the priorities 5, 9 and 7. -/
def noTokens : SemState 3 where
  tasks := fun t => ⟨.running, 1, ![5, 9, 7] t⟩
  sem := ⟨0, 1, [], none, 0⟩
  woken := []

def noMessages : QueueState 3 where
  tasks := fun t => ⟨.running, 1, ![5, 9, 7] t⟩
  msgs := []
  side := fun _ => ⟨[], none, 0⟩
  pc := fun _ => none
  woken := []

/-- With two live receivers in the array, and the one of the lower priority in front, a message
wakes the other. -/
theorem wakeUps_delivered_two : ∃ c, Run step anyStep noMessages
    [.call 0 (.receive none) false, .call 1 (.receive none) false] c ∧
    c.Wakes 2 (.send [7]) (c.call 2 (.send [7]) false).1 := by
  refine Run.exists_imp_of_exec
    (fun c => c.canMove (.send [7]) = true ∧ c.tasks.hasLive (c.opposite (.send [7])) = true ∧
      (c.move 2 (.send [7])).tasks.Served (c.opposite (.send [7]))) (by decide +kernel) ?_
  rintro c - ⟨hmove, hlive, hserved⟩
  have h := wakeUps_delivered noTokens c 2 (.send [7]) false rfl hmove
  exact h.2.1.mpr (fun _ => hserved) hlive

/-- A waiter is terminated, and another one waits behind it. A `post` wakes nobody and adds no
token, and so does a message. -/
theorem wakeUp_swallowed :
    (∃ s, Run SemState.step anyStep noTokens
        [.wait 0 false, .wait 1 false, .terminate 1] s ∧
      s.tasks.hasLive s.sem.waiters = true ∧ s.post.tokens = s.tokens ∧
      (s.post.tasks 0).state = .blocked) ∧
    ∃ c, Run step anyStep noMessages
        [.call 0 (.receive none) false, .call 1 (.receive none) false, .terminate 1] c ∧
      c.tasks.hasLive (c.opposite (.send [7])) = true ∧
      (c.call 2 (.send [7]) false).2 = .sent 1 ∧
      (c.call 2 (.send [7]) false).1.woken = c.woken := by
  constructor
  all_goals exact Run.exists_of_exec (by decide +kernel)

end Nexios.Sync
