import Mathlib.Algebra.Group.Nat.Even
import Nexios.Lib.Run

/-!
# Double-buffered DMA

`start_next` builds the PRD table for buffer 1, since no transfer is active, and swaps the two
indices afterwards. From the state after `init` the first swap makes buffer 0 the transfer buffer,
the second one buffer 1, and so on: every second transfer is reported under the index of the other
buffer.

The channel and the construction of the table answer as the arguments of `startNext` say. `prd` is
the buffer that the last table describes, `number` counts the transfers started.
-/

namespace Nexios.Driver

/-- `callback` says that `callback_` is set; it is always `pingpong_completion_cb`. -/
structure DmaEngine where
  active : Bool := false
  callback : Bool := false

/-- What the chain callback was given for a transfer. -/
structure Delivery where
  ctx : ℕ
  buf : Fin 2
  success : Bool
  prd : Option (Fin 2)
  number : ℕ

structure PingPongDma where
  prepareIdx : Fin 2 := 0
  xferIdx : Fin 2 := 1
  active : Bool := false
  completed : ℕ := 0
  /-- `chain_cb_` with `chain_ctx_` -/
  chainCb : Option ℕ := none
  engine : DmaEngine := {}
  /-- `handle_irq` has left the engine's lock and has not entered `on_completion`. -/
  pending : Option Bool := none
  prd : Option (Fin 2) := none
  number : ℕ := 0
  delivered : List Delivery := []

def DmaEngine.startTransfer (e : DmaEngine) (started : Bool) : Option DmaEngine :=
  if e.active then none
  else if !started then none
  else some ⟨true, true⟩

namespace PingPongDma

variable (s : PingPongDma)

def prepareBuf : Fin 2 := if s.active then s.prepareIdx else 0

def xferBuf : Fin 2 := if s.active then s.xferIdx else 1

def swap : PingPongDma := { s with prepareIdx := s.xferIdx, xferIdx := s.prepareIdx }

def startNext (cb : Option ℕ) (table started : Bool) : PingPongDma :=
  if s.active then s
  else
    let xfer := if s.active then s.xferIdx else 1
    if !table then s
    else
      let s := { s.swap with chainCb := cb }
      match s.engine.startTransfer started with
      | none => s.swap
      | some engine =>
        { s with engine := engine, active := true, prd := some xfer, number := s.number + 1 }

/-- The locked part of `DmaEngine::handle_irq`. -/
def handleIrq (success : Bool) : PingPongDma :=
  if s.engine.active then
    { s with engine := {}, pending := if s.engine.callback then some success else s.pending }
  else s

def onCompletion (success : Bool) : PingPongDma :=
  { s with
    active := false
    completed := s.completed + 1
    pending := none
    delivered := (s.chainCb.map fun ctx => ⟨ctx, s.xferIdx, success, s.prd, s.number⟩).toList ++
      s.delivered }

end PingPongDma

inductive DmaAction
  | startNext (cb : Option ℕ) (table started : Bool)
  | handleIrq (success : Bool)
  | onCompletion
  /-- `DmaEngine::is_busy` finds the channel idle. -/
  | isBusy
  | abort

namespace PingPongDma

variable (s : PingPongDma)

def step : DmaAction → Option PingPongDma
  | .startNext cb table started => some (s.startNext cb table started)
  | .handleIrq success => some (s.handleIrq success)
  | .onCompletion => s.pending.map s.onCompletion
  | .isBusy => some { s with engine.active := false }
  | .abort => some { s with engine := {} }

/-- The table describes the transfer buffer, and the caller prepares the other one. -/
def Agrees : Prop := s.prd = some s.xferBuf ∧ s.xferBuf ≠ s.prepareBuf

theorem startNext_cases (cb : Option ℕ) (table started : Bool) :
    s.startNext cb table started = s ∨ s.startNext cb table started = { s with chainCb := cb } ∨
      s.active = false ∧ s.startNext cb table started = { s.swap with
        chainCb := cb, engine := ⟨true, true⟩, active := true, prd := some 1
        number := s.number + 1 } := by
  unfold startNext DmaEngine.startTransfer
  cases hidle : s.active
  · cases table
    · simp
    · cases hengine : s.engine.active <;> cases started <;> simp [swap, hidle, hengine]
  · simp

structure Inv (s : PingPongDma) : Prop where
  idx : if Even s.number then s.prepareIdx = 0 ∧ s.xferIdx = 1 else s.prepareIdx = 1 ∧ s.xferIdx = 0
  prd : s.active → s.prd = some 1
  engine : s.engine.active → s.active
  pending : s.pending ≠ none → s.active = true ∧ s.engine.active = false
  delivered : ∀ d ∈ s.delivered, d.prd = some d.buf ↔ Even d.number

namespace Inv

variable {s t : PingPongDma} {a : DmaAction}

theorem startNext (h : Inv s) (cb : Option ℕ) (table started : Bool) :
    Inv (s.startNext cb table started) := by
  obtain heq | heq | ⟨hidle, heq⟩ := startNext_cases s cb table started
  all_goals rw [heq]
  · exact h
  · exact { h with }
  · refine { h with idx := ?_, prd := fun _ => rfl, engine := fun _ => rfl, pending := ?_ }
    · have hidx := h.idx
      simp only [Nat.even_add_one, swap]
      split_ifs at hidx ⊢ <;> simp_all
    · exact fun hp => absurd ((h.pending hp).1.symm.trans hidle) (by decide)

theorem onCompletion (h : Inv s) {success : Bool} (hp : s.pending = some success) :
    Inv (s.onCompletion success) := by
  obtain ⟨hactive, hengine⟩ := h.pending (by simp [hp])
  refine { h with prd := nofun, engine := ?_, pending := absurd rfl, delivered := ?_ }
  · exact fun he => absurd (hengine.symm.trans he) (by decide)
  intro d hd
  rcases List.mem_append.mp hd with hnew | hold
  · obtain ⟨ctx, -, rfl⟩ := by simpa using hnew
    have hidx := h.idx
    simp only [h.prd hactive]
    split_ifs at hidx with heven <;> simp [hidx, heven]
  · exact h.delivered d hold

theorem step (h : Inv s) (hs : s.step a = some t) : Inv t := by
  cases a with try cases hs
  | startNext cb table started => exact h.startNext cb table started
  | handleIrq success =>
    unfold PingPongDma.handleIrq
    split_ifs with hengine hcb
    · exact { h with engine := nofun, pending := fun _ => ⟨h.engine hengine, rfl⟩ }
    · exact { h with engine := nofun, pending := fun hp => ⟨(h.pending hp).1, rfl⟩ }
    · exact h
  | onCompletion =>
    obtain ⟨success, hp, rfl⟩ := Option.map_eq_some_iff.mp hs
    exact h.onCompletion hp
  | isBusy | abort => exact { h with engine := nofun, pending := fun hp => ⟨(h.pending hp).1, rfl⟩ }

end Inv

/-- While the transfer with an even number is active its table describes the transfer buffer, and
the callback is given this buffer; for one with an odd number both fail. -/
theorem pingPong_agrees_iff {as : List DmaAction} {s : PingPongDma} (h : Run step anyStep {} as s) :
    (s.active → (s.Agrees ↔ Even s.number)) ∧
      ∀ d ∈ s.delivered, d.prd = some d.buf ↔ Even d.number := by
  have hinv : Inv s := by
    refine h.invariant (fun _ _ _ hi _ hs => hi.step hs) ?_
    exact ⟨⟨rfl, rfl⟩, nofun, nofun, nofun, nofun⟩
  refine ⟨fun hactive => ?_, hinv.delivered⟩
  have hidx := hinv.idx
  simp only [Agrees, xferBuf, prepareBuf, hactive, hinv.prd hactive]
  split_ifs at hidx with heven <;> simp [hidx, heven]

theorem pingPong_agrees_iff_second : ∃ s, Run step anyStep {}
    [.startNext (some 7) true true, .handleIrq true, .onCompletion, .startNext none true true] s ∧
      s.Agrees := by
  refine Run.exists_imp_of_exec (fun s => s.active = true ∧ Even s.number) (by decide) ?_
  exact fun s hr hs => ((pingPong_agrees_iff hr).1 hs.1).mpr hs.2

/-- The first transfer is that of buffer 1, which the caller is told to prepare; the callback gets
buffer 0. -/
theorem first_transfer_disagrees : ∃ s, Run step anyStep {} [.startNext (some 7) true true] s ∧
    s.active = true ∧ s.prd = some s.prepareBuf ∧ ¬ s.Agrees ∧
    ∃ t, Run step anyStep s [.handleIrq true, .onCompletion] t ∧
      t.delivered.map (·.buf) = [0] :=
  ⟨_, .single trivial rfl, rfl, rfl, fun h => absurd h.1 (by decide),
    _, .cons trivial rfl (.single trivial rfl), rfl⟩

end PingPongDma

end Nexios.Driver
