import Nexios.Reap.Zombies

/-!
# Who has a terminated task in its hands

From the moment a terminate or a collector takes a task, the task is in one place: with the context
that works on it, on the zombie list, or done with. `Job.role` says what a job has to do with a
task, `Role.Fits` what the control block looks like in that role, and `Inv` that every task is in
one place only and looks accordingly.
-/

open List

namespace Nexios.Reap

variable {n k m : ℕ}

inductive Role
  | out
  | unlisting
  | pushing
  /-- chosen by `reap_orphans`, whose second loop has not come to it -/
  | todo
  /-- known to a collector that has not claimed it -/
  | pending (rest : List Stage)
  | hand (rest : List Stage)

def Role.Owns : Role → Prop
  | .out | .pending _ => False
  | .unlisting | .pushing | .todo | .hand _ => True

instance : DecidablePred Role.Owns
  | .out | .pending _ => .isFalse id
  | .unlisting | .pushing | .todo | .hand _ => .isTrue trivial

def Job.role : Job n → Fin n → Role
  | .idle, _ => .out
  | .unlisting t, u => if u = t then .unlisting else .out
  | .pushing t, u => if u = t then .pushing else .out
  | .collecting todo, u => if u ∈ todo then .todo else .out
  | .hand _ t rest todo, u =>
    if u = t then if .joinClaim ∈ rest then .pending rest else .hand rest
    else if u ∈ todo then .todo else .out

namespace Block

variable {x y : Block} {rest : List Stage} {cur : Prop}

def Dead (x : Block) : Prop := x.state = .terminated ∨ x.state = .reaped

def Unlisted (x : Block) : Prop := x.inTable = false ∧ x.inRegistry = false

structure Intact (x : Block) : Prop where
  magic : x.magic = true
  claimed : x.teardownClaimed = false
  completed : x.teardownCompleted = false
  cleanups : x.cleanups = 0
  frees : x.frees = 0

structure Ended (x : Block) : Prop extends x.Intact where
  dead : x.Dead
  queued : x.queued = false

/-- In the hands of a context that has the stages `rest` before it. -/
structure InHand (x : Block) (rest : List Stage) : Prop where
  magic : x.magic = true
  frees : x.frees = 0
  cleanups : x.cleanups ≤ 1
  dead : x.Dead
  queued : x.queued = false
  uncleaned : .clean ∈ rest → x.teardownCompleted = false ∧ x.cleanups = 0
  unclaimed : .claim ∈ rest → x.teardownClaimed = false
  unlisted : .unlist ∉ rest → .remove ∉ rest → x.Unlisted

/-- Out of every hand for good: freed, kept because it is pinned, or never allocated. -/
structure Done (x : Block) (cur : Prop) : Prop where
  cleanups : x.cleanups ≤ 1
  frees : x.frees ≤ 1
  unlisted : x.Unlisted
  queued : x.queued = false
  notCurrent : ¬ cur
  dead : x.magic → x.Dead

def Used (x : Block) : Prop := x.magic = true ∨ 0 < x.frees

/-- What a collector that only knows the block can count on: a block that has been used stays one,
and dead once it is. -/
def Later (x y : Block) : Prop := x.Used → y.Used ∧ (x.Dead → y.Dead)

theorem Dead.not_ready (h : x.Dead) : x.state ≠ .ready := by
  rcases h with h | h <;> rw [h] <;> decide

theorem Dead.not_running (h : x.Dead) : x.state ≠ .running := by
  rcases h with h | h <;> rw [h] <;> decide

theorem Dead.not_blocked (h : x.Dead) : x.state ≠ .blocked := by
  rcases h with h | h <;> rw [h] <;> decide

theorem Later.refl (x : Block) : Later x x := fun hu => ⟨hu, id⟩

theorem Ended.inHand (h : x.Ended) (hl : .unlist ∉ rest → .remove ∉ rest → x.Unlisted) :
    x.InHand rest where
  magic := h.magic
  frees := h.frees
  cleanups := h.cleanups.trans_le (Nat.zero_le _)
  dead := h.dead
  queued := h.queued
  uncleaned _ := ⟨h.completed, h.cleanups⟩
  unclaimed _ := h.claimed
  unlisted := hl

theorem InHand.tail {g : Stage} (h : x.InHand (g :: rest)) (hu : g ≠ .unlist) (hr : g ≠ .remove) :
    x.InHand rest where
  magic := h.magic
  frees := h.frees
  cleanups := h.cleanups
  dead := h.dead
  queued := h.queued
  uncleaned hc := h.uncleaned (mem_cons_of_mem _ hc)
  unclaimed hc := h.unclaimed (mem_cons_of_mem _ hc)
  unlisted hu' hr' := h.unlisted (not_mem_cons_of_ne_of_not_mem hu.symm hu')
    (not_mem_cons_of_ne_of_not_mem hr.symm hr')

/-- The removals of `reap_orphans`, `unregister_task` and `remove_task`. -/
theorem InHand.removed {g : Stage} (h : x.InHand (g :: rest)) :
    InHand { x with queued := false, inTable := false, inRegistry := false } rest where
  magic := h.magic
  frees := h.frees
  cleanups := h.cleanups
  dead := h.dead
  queued := rfl
  uncleaned hc := h.uncleaned (mem_cons_of_mem _ hc)
  unclaimed hc := h.unclaimed (mem_cons_of_mem _ hc)
  unlisted _ _ := ⟨rfl, rfl⟩

theorem InHand.claimed (h : x.InHand (.claim :: rest)) (hnot : .claim ∉ rest) :
    InHand { x with teardownClaimed := true } rest :=
  let h' := h.tail (by decide) (by decide)
  { h with uncleaned := h'.uncleaned, unclaimed := fun hc => absurd hc hnot, unlisted := h'.unlisted }

theorem InHand.cleaned (h : x.InHand (.clean :: rest)) (hnot : .clean ∉ rest) :
    InHand { x with state := .reaped, cleanups := x.cleanups + 1 } rest :=
  let h' := h.tail (by decide) (by decide)
  have hzero : x.cleanups = 0 := (h.uncleaned mem_cons_self).2
  ⟨h.magic, h.frees, (congrArg (· + 1) hzero).le, .inr rfl, h.queued, fun hc => absurd hc hnot,
    h'.unclaimed, h'.unlisted⟩

theorem InHand.reaped (h : x.InHand rest) : InHand { x with state := .reaped } rest :=
  { h with dead := .inr rfl }

theorem InHand.completed (h : x.InHand rest) (hnot : .clean ∉ rest) :
    InHand { x with teardownCompleted := true } rest :=
  { h with uncleaned := fun hc => absurd hc hnot }

theorem InHand.kept (h : x.InHand [.free]) (hcur : ¬ cur) : x.Done cur :=
  ⟨h.cleanups, h.frees.trans_le (Nat.zero_le _), h.unlisted (by decide) (by decide), h.queued, hcur,
    fun _ => h.dead⟩

theorem InHand.freed (h : x.InHand [.free]) (hcur : ¬ cur) :
    Done { x with magic := false, frees := x.frees + 1 } cur :=
  ⟨h.cleanups, (congrArg (· + 1) h.frees).le, h.unlisted (by decide) (by decide), h.queued, hcur,
    nofun⟩

end Block

namespace Role

variable {r r' : Role} {x y : Block} {cur cur' : Prop}

/-- What the block looks like in a role; `cur` is whether it is current on a CPU. -/
def Fits : Role → Block → Prop → Prop
  | .out, _, _ => True
  | .unlisting, x, _ => x.Ended
  | .pushing, x, _ => x.Ended ∧ x.Unlisted
  | .todo, x, cur => x.Ended ∧ ¬ cur
  | .pending rest, x, _ => x.Used ∧ (.look ∉ rest → x.Dead)
  | .hand rest, x, cur => x.InHand rest ∧ ¬ cur

/-- A role stays, or the second loop of `reap_orphans` comes to the task. -/
def Follows (r r' : Role) : Prop := r' = r ∨ r = .todo ∧ r' = .hand Kind.reap.program

theorem Follows.owns_iff (h : r.Follows r') : r'.Owns ↔ r.Owns := by
  obtain rfl | ⟨rfl, rfl⟩ := h
  all_goals exact .rfl

theorem Follows.fits (h : r.Follows r') (hcur : cur' → cur) (hf : r.Fits x cur) :
    r'.Fits x cur' := by
  obtain rfl | ⟨rfl, rfl⟩ := h
  · cases r' with
    | out => trivial
    | unlisting | pushing | pending _ => exact hf
    | todo | hand _ => exact ⟨hf.1, fun hc => hf.2 (hcur hc)⟩
  · exact ⟨hf.1.inHand fun hu => absurd (by decide) hu, fun hc => hf.2 (hcur hc)⟩

theorem Fits.of_owns (hf : r.Fits x cur) (ho : r.Owns) :
    x.magic = true ∧ x.frees = 0 ∧ x.cleanups ≤ 1 ∧ x.Dead ∧ x.queued = false ∧
      (0 < x.cleanups → ¬ cur) := by
  have hended : x.Ended → x.magic = true ∧ x.frees = 0 ∧ x.cleanups ≤ 1 ∧ x.Dead ∧
      x.queued = false ∧ (0 < x.cleanups → ¬ cur) := fun h =>
    ⟨h.magic, h.frees, h.cleanups.trans_le (Nat.zero_le _), h.dead, h.queued,
      fun hpos => absurd h.cleanups hpos.ne'⟩
  cases r with
  | out | pending _ => exact ho.elim
  | unlisting => exact hended hf
  | pushing | todo => exact hended hf.1
  | hand rest =>
    obtain ⟨h, hcur⟩ := hf
    exact ⟨h.magic, h.frees, h.cleanups, h.dead, h.queued, fun _ => hcur⟩

theorem Fits.later (hf : r.Fits x cur) (ho : ¬ r.Owns) (hl : x.Later y) : r.Fits y cur' := by
  cases r with
  | out => trivial
  | pending rest =>
    obtain ⟨hused, hdead⟩ := hl hf.1
    exact ⟨hused, fun h => hdead (hf.2 h)⟩
  | unlisting | pushing | todo | hand _ => exact absurd trivial ho

end Role

namespace Job

variable {kind : Kind} {t u : Fin n} {rest rest' : List Stage} {todo : List (Fin n)}

theorem role_hand_ne (h : u ≠ t) :
    (hand kind t rest todo).role u = if u ∈ todo then .todo else .out := if_neg h

theorem role_hand_self (h : .joinClaim ∉ rest) :
    (hand kind t rest todo).role t = .hand rest := (if_pos rfl).trans (if_neg h)

theorem role_pending_self (h : .joinClaim ∈ rest) :
    (hand kind t rest todo).role t = .pending rest := (if_pos rfl).trans (if_pos h)

theorem role_next (todo : List (Fin n)) (u : Fin n) :
    ((if u ∈ todo then .todo else .out : Role)).Follows ((next todo).role u) := by
  cases todo with
  | nil => exact .inl (if_neg (not_mem_nil)).symm
  | cons t todo =>
    by_cases hu : u = t
    · subst hu
      exact .inr ⟨if_pos mem_cons_self, role_hand_self (by decide)⟩
    · left
      rw [next, role_hand_ne hu]
      simp only [mem_cons, hu, false_or]

def Wf : Job n → Prop
  | .collecting todo => todo.Nodup
  | .hand kind t rest todo => rest <:+ kind.program ∧ (t :: todo).Nodup
  | .idle | .unlisting _ | .pushing _ => True

theorem wf_next (h : todo.Nodup) : (next todo).Wf := by
  cases todo with
  | nil => trivial
  | cons t todo => exact ⟨suffix_rfl, h⟩

end Job

namespace Kind

variable {kind : Kind} {g : Stage} {rest : List Stage}

def after (kind : Kind) (g : Stage) : List Stage := kind.program.drop (kind.program.idxOf g + 1)

theorem nodup_program (kind : Kind) : kind.program.Nodup := by cases kind <;> decide

section

variable (h : g :: rest <:+ kind.program)
include h

theorem eq_after : g ∈ kind.program ∧ rest = kind.after g := by
  refine ⟨h.subset mem_cons_self, ?_⟩
  have hnodup := kind.nodup_program
  obtain ⟨done, hdone⟩ := h
  unfold after
  rw [← hdone] at hnodup ⊢
  have hg : g ∉ done := fun hg =>
    (nodup_append.mp hnodup).2.2 g hg g mem_cons_self rfl
  rw [idxOf_append_of_notMem hg, ← singleton_append, ← append_assoc]
  exact (drop_left' (by simp)).symm

theorem not_mem_rest : g ∉ rest :=
  (nodup_cons.mp (kind.nodup_program.sublist h.sublist)).1

theorem joinClaim_mem : .joinClaim ∈ g :: rest ↔ g = .look ∨ g = .joinClaim := by
  obtain ⟨hg, rfl⟩ := eq_after h
  cases kind <;> cases g <;> revert hg <;> decide

end

theorem after_look (h : .look :: rest <:+ kind.program) : .joinClaim ∈ rest := by
  obtain ⟨hg, rfl⟩ := eq_after h
  cases kind <;> revert hg <;> decide

theorem after_joinClaim (h : .joinClaim :: rest <:+ kind.program) :
    .look ∉ .joinClaim :: rest ∧ .remove ∈ rest := by
  obtain ⟨hg, rfl⟩ := eq_after h
  cases kind <;> revert hg <;> decide

theorem after_copyStatus (h : .copyStatus :: rest <:+ kind.program) :
    .clean ∈ rest ∧ .claim ∈ rest := by
  obtain ⟨hg, rfl⟩ := eq_after h
  cases kind <;> revert hg <;> decide

theorem after_clean (h : .clean :: rest <:+ kind.program) : ∃ rest', rest = .finish :: rest' := by
  obtain ⟨hg, rfl⟩ := eq_after h
  cases kind with
  | flush | drain | reap => exact ⟨[.free], rfl⟩
  | waitpid | join => exact ⟨[.remove, .claim, .free], rfl⟩

theorem after_finish (h : .finish :: rest <:+ kind.program) : .clean ∉ rest := by
  obtain ⟨hg, rfl⟩ := eq_after h
  cases kind <;> decide

theorem after_free (h : .free :: rest <:+ kind.program) : rest = [] := by
  obtain ⟨hg, rfl⟩ := eq_after h
  cases kind <;> rfl

end Kind

namespace State

variable {s s' : State n k m} {l l' : List (Fin n)} {t u : Fin n} {c : Fin (m + 1)}
  {f : Tcb n → Tcb n}

def role (s : State n k m) (c : Fin (m + 1)) (t : Fin n) : Role := (s.job c).role t

/-- Every task is in one place, and looks accordingly; `l` is the zombie list. -/
structure TaskOk (s : State n k m) (l : List (Fin n)) (t : Fin n) : Prop where
  queued : (s.tcb t).queued → (s.tcb t).state = .ready
  unique : ∀ c c', (s.role c t).Owns → (s.role c' t).Owns → c = c'
  zombie : t ∈ l → (s.tcb t).Ended ∧ (s.tcb t).Unlisted ∧ ∀ c, ¬ (s.role c t).Owns
  fits : ∀ c, (s.role c t).Fits (s.tcb t).toBlock (s.Current t)
  rest : (∀ c, ¬ (s.role c t).Owns) → (s.tcb t).Intact ∨ (s.tcb t).Done (s.Current t)

structure Inv (s : State n k m) (l : List (Fin n)) : Prop where
  holds : s.zombies.Holds l
  task : ∀ t, s.TaskOk l t
  wf : ∀ c, (s.job c).Wf

namespace TaskOk

variable (h : s.TaskOk l t)
include h

theorem frame (htcb : (s'.tcb t).toBlock = (s.tcb t).toBlock)
    (hcur : s'.Current t → s.Current t) (hl : t ∈ l' → t ∈ l)
    (hrole : ∀ c, (s.role c t).Follows (s'.role c t)) : s'.TaskOk l' t where
  queued := by
    rw [htcb]
    exact h.queued
  unique c c' hc hc' := h.unique c c' ((hrole c).owns_iff.mp hc) ((hrole c').owns_iff.mp hc')
  zombie ht := by
    obtain ⟨hended, hun, hno⟩ := h.zombie (hl ht)
    rw [htcb]
    exact ⟨hended, hun, fun c hc => hno c ((hrole c).owns_iff.mp hc)⟩
  fits c := by
    rw [htcb]
    exact (hrole c).fits hcur (h.fits c)
  rest hno := by
    rw [htcb]
    refine (h.rest fun c hc => hno c ((hrole c).owns_iff.mpr hc)).imp_right fun hd => ?_
    exact { hd with notCurrent := fun hc => hd.notCurrent (hcur hc) }

theorem act (halone : ∀ c', c' ≠ c → ¬ (s.role c' t).Owns)
    (hrole : ∀ c', c' ≠ c → s'.role c' t = s.role c' t)
    (hlater : (s.tcb t).toBlock.Later (s'.tcb t).toBlock)
    (hq : (s'.tcb t).queued → (s'.tcb t).state = .ready)
    (hl : t ∈ l' → (s'.tcb t).Ended ∧ (s'.tcb t).Unlisted ∧ ¬ (s'.role c t).Owns)
    (hfits : (s'.role c t).Fits (s'.tcb t).toBlock (s'.Current t))
    (hrest : ¬ (s'.role c t).Owns → (s'.tcb t).Intact ∨ (s'.tcb t).Done (s'.Current t)) :
    s'.TaskOk l' t := by
  have hothers : ∀ c', c' ≠ c → ¬ (s'.role c' t).Owns := fun c' hc => by
    rw [hrole c' hc]
    exact halone c' hc
  have heq : ∀ c', (s'.role c' t).Owns → c' = c := fun c' ho =>
    by_contra fun hne => hothers c' hne ho
  refine ⟨hq, ?_, ?_, ?_, ?_⟩
  · exact fun c₁ c₂ h₁ h₂ => (heq c₁ h₁).trans (heq c₂ h₂).symm
  · intro ht
    obtain ⟨hended, hun, hno⟩ := hl ht
    exact ⟨hended, hun, fun c' ho => hno (heq c' ho ▸ ho)⟩
  · intro c'
    by_cases hc : c' = c
    · exact hc ▸ hfits
    · rw [hrole c' hc]
      exact (h.fits c').later (halone c' hc) hlater
  · exact fun hno => hrest (hno c)

theorem alone (ho : (s.role c t).Owns) : t ∉ l ∧ ∀ c', c' ≠ c → ¬ (s.role c' t).Owns :=
  ⟨fun ht => (h.zombie ht).2.2 c ho, fun c' hc ho' => hc (h.unique c' c ho' ho)⟩

theorem not_owned (hd : ¬ (s.tcb t).Dead) : ∀ c, ¬ (s.role c t).Owns :=
  fun c ho => hd ((h.fits c).of_owns ho).2.2.2.1

theorem not_mem (hd : ¬ (s.tcb t).Dead) : t ∉ l :=
  fun ht => hd (h.zombie ht).1.dead

theorem write (hno : ∀ c, ¬ (s.role c t).Owns) (hrole : ∀ c, s'.role c t = s.role c t)
    (hlater : (s.tcb t).toBlock.Later (s'.tcb t).toBlock)
    (hq : (s'.tcb t).queued → (s'.tcb t).state = .ready) (hl : t ∉ l')
    (hrest : (s'.tcb t).Intact ∨ (s'.tcb t).Done (s'.Current t)) : s'.TaskOk l' t := by
  have hno' : ∀ c, ¬ (s'.role c t).Owns := fun c => by
    rw [hrole c]
    exact hno c
  refine ⟨hq, fun c c' hc => absurd hc (hno' c), fun ht => absurd ht hl, fun c => ?_, fun _ => hrest⟩
  rw [hrole c]
  exact (h.fits c).later (hno c) hlater

end TaskOk

end State

end Nexios.Reap
