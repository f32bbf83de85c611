import Nexios.Lib.Run

/-!
# Linearizability

The calls on a shared object are linearizable if each seems to take effect at one moment between its
invocation and its response. This is said by a machine that performs every call in a single step: a
history of invocations and responses is linearizable if the machine has a run with that history. An
implementation is proved linearizable by naming, at each of its steps, the steps that the machine
takes with it.
-/

open Function

namespace Nexios.Atomic

/-- A sequential object: its first state, and what each operation does and answers. -/
structure Object (σ Op Res : Type*) where
  init : σ
  apply : σ → Op → σ × Res

inductive Event (ι Op Res : Type*)
  | invoke (i : ι) (op : Op)
  | respond (i : ι) (r : Res)
  deriving DecidableEq

inductive Progress (Op Res : Type*)
  | idle
  | called (op : Op)
  | done (r : Res)
  deriving DecidableEq

inductive Action (ι Op : Type*)
  | invoke (i : ι) (op : Op)
  | perform (i : ι)
  | respond (i : ι)
  deriving DecidableEq

structure State (ι σ Op Res : Type*) where
  obj : σ
  progress : ι → Progress Op Res
  history : List (Event ι Op Res)

namespace State

variable {ι σ Op Res : Type*} [DecidableEq ι] {O : Object σ Op Res} {c : State ι σ Op Res} {i : ι}
  {op : Op} {r : Res}

def start (O : Object σ Op Res) : State ι σ Op Res := ⟨O.init, fun _ => .idle, []⟩

def invoke (c : State ι σ Op Res) (i : ι) (op : Op) : State ι σ Op Res :=
  ⟨c.obj, update c.progress i (.called op), c.history ++ [.invoke i op]⟩

def perform (O : Object σ Op Res) (c : State ι σ Op Res) (i : ι) (op : Op) : State ι σ Op Res :=
  ⟨(O.apply c.obj op).1, update c.progress i (.done (O.apply c.obj op).2), c.history⟩

def respond (c : State ι σ Op Res) (i : ι) (r : Res) : State ι σ Op Res :=
  ⟨c.obj, update c.progress i .idle, c.history ++ [.respond i r]⟩

def step (O : Object σ Op Res) (c : State ι σ Op Res) : Action ι Op → Option (State ι σ Op Res)
  | .invoke i op =>
    match c.progress i with
    | .idle => some (c.invoke i op)
    | _ => none
  | .perform i =>
    match c.progress i with
    | .called op => some (c.perform O i op)
    | _ => none
  | .respond i =>
    match c.progress i with
    | .done r => some (c.respond i r)
    | _ => none

@[simp] theorem invoke_progress_self : (c.invoke i op).progress i = .called op := update_self ..

@[simp] theorem respond_progress_self : (c.respond i r).progress i = .idle :=
  update_self ..

def Reached (O : Object σ Op Res) (c : State ι σ Op Res) : Prop :=
  ∃ as, Run (step O) anyStep (start O) as c

namespace Reached

theorem start (O : Object σ Op Res) : Reached O (start O : State ι σ Op Res) := ⟨[], .nil _⟩

theorem step (h : Reached O c) {a : Action ι Op} {d : State ι σ Op Res}
    (hs : c.step O a = some d) : Reached O d := by
  obtain ⟨as, hr⟩ := h
  exact ⟨as ++ [a], hr.append (.single trivial hs)⟩

theorem invoke (h : Reached O c) (hp : c.progress i = .idle) (op : Op) :
    Reached O (c.invoke i op) := by
  refine h.step (a := .invoke i op) ?_
  rw [State.step, hp]

theorem perform (h : Reached O c) (hp : c.progress i = .called op) :
    Reached O (c.perform O i op) := by
  refine h.step (a := .perform i) ?_
  rw [State.step, hp]

theorem respond (h : Reached O c) (hp : c.progress i = .done r) : Reached O (c.respond i r) := by
  refine h.step (a := .respond i) ?_
  rw [State.step, hp]

end Reached

end State

/-- The machine has a run with the history `h`. -/
def Linearizable {ι σ Op Res : Type*} [DecidableEq ι] (O : Object σ Op Res)
    (h : List (Event ι Op Res)) : Prop :=
  ∃ c : State ι σ Op Res, c.Reached O ∧ c.history = h

end Nexios.Atomic
