import Nexios.Join.Rendezvous

/-!
# The status of a join

The latch of a joiner is not tied to a call: a call that collects its target itself leaves
`join_ready_` as the hand-off has set it, and the next call takes the old status for its own. A run
in which each join starts with a clear latch, and in which no joiner looks at a thread between its
two stores of TERMINATED and of the exit code, delivers to each join the exit code of its thread.
-/

open Function Option

namespace Nexios.Join

open State Tcb

variable {n : ℕ} {s s' : State n} {i j t : Fin n} {p : Pc n}

/-- The hand-off of some thread is about to write the latch of `j`. -/
def InFlight (s : State n) (t j : Fin n) : Prop :=
  s.handoff t = .storeStatus j ∨ s.handoff t = .storeReady j
  deriving Decidable

def Over (s : State n) (t : Fin n) : Prop :=
  match s.handoff t with
  | .live | .storeCode _ => False
  | _ => True

instance (s : State n) (t : Fin n) : Decidable (Over s t) := by
  unfold Over
  split <;> infer_instance

/-- The condition on a step: a join starts with a clear latch that no hand-off is about to write,
and looks at the state of its target only before or after the two stores of a termination. -/
def LatchClear (s : State n) : Action n → Prop
  | .start j _ false => (s.tcb j).joinReady = false ∧ ∀ t, ¬ InFlight s t j
  | .advance j _ =>
    match s.pc j with
    | .look _ => (s.tcb (s.target j)).state = .terminated → Over s (s.target j)
    | _ => True
  | _ => True

instance (s : State n) (a : Action n) : Decidable (LatchClear s a) := by
  unfold LatchClear
  split
  case h_2 => split <;> infer_instance
  all_goals infer_instance

def Joining (s : State n) (j : Fin n) : Prop := s.pc j ≠ .out ∧ s.detaching j = false

/-- What holds of `j` when its next step is `p`. -/
def Due (s : State n) (j : Fin n) : Pc n → Prop
  | .out => (s.tcb j).joinTargetId = none ∨ (s.tcb j).joinReady = true
  | .status => (s.tcb j).joinReady = true
  | .collect => Over s (s.target j)
  | .reap code | .forget code => Over s (s.target j) ∧ code = (s.tcb (s.target j)).exitCode
  | .clearReady code | .clearId code =>
    s.detaching j = false → Over s (s.target j) ∧ code = (s.tcb (s.target j)).exitCode
  | _ => True

structure LatchInv (s : State n) : Prop where
  ended : ∀ t, s.handoff t ≠ .live ↔ (s.tcb t).state = .terminated
  due : ∀ j, Due s j (s.pc j)
  named : ∀ j, Joining s j →
    (s.tcb j).joinTargetId = none ∨ (s.tcb j).joinTargetId = some (s.target j)
  latch : ∀ j, Joining s j → (s.tcb j).joinReady →
    Over s (s.target j) ∧ (s.tcb j).joinStatus = (s.tcb (s.target j)).exitCode
  inFlight : ∀ j t, Joining s j → InFlight s t j → t = s.target j
  stored : ∀ j t, Joining s j → s.handoff t = .storeReady j →
    (s.tcb j).joinStatus = (s.tcb t).exitCode
  answers : ∀ j t v, s.answer j = some (.joined t v) → Over s t ∧ v = (s.tcb t).exitCode

theorem Start.latchInv (h : Start s) : LatchInv s := by
  have hout : ∀ j, ¬ Joining s j := fun j hj => hj.1 (h.pc j)
  refine ⟨fun t => ?_, fun j => ?_, fun j hj => absurd hj (hout j), fun j hj => absurd hj (hout j),
    fun j t hj => absurd hj (hout j), fun j t hj => absurd hj (hout j), fun j t v hv => ?_⟩
  · simp [h.handoff, h.alive]
  · rw [h.pc]
    exact .inl (h.target j)
  · rw [h.answer] at hv
    cases hv

theorem Over.live_ne (h : Over s t) : s.handoff t ≠ .live := by
  intro hl
  simp [Over, hl] at h

theorem InFlight.over (h : InFlight s t j) : Over s t := by
  rcases h with h | h <;> simp [Over, h]

/-- An exit code that is stored stays. -/
def Told (s s' : State n) : Prop :=
  ∀ t, Over s t → Over s' t ∧ (s'.tcb t).exitCode = (s.tcb t).exitCode

theorem Told.refl (s : State n) : Told s s := fun _ h => ⟨h, rfl⟩

theorem Told.of_handoff (hhand : s'.handoff = s.handoff)
    (hcode : ∀ t, (s'.tcb t).exitCode = (s.tcb t).exitCode) : Told s s' := by
  refine fun t h => ⟨?_, hcode t⟩
  rwa [Over, hhand]

theorem Told.modify {f : Tcb n → Tcb n} (hcode : (f (s.tcb j)).exitCode = (s.tcb j).exitCode) :
    Told s (s.modify j f) :=
  .of_handoff rfl (modify_field exitCode hcode)

theorem Told.code (h : Told s s') {code : BitVec 64}
    (hc : Over s t ∧ code = (s.tcb t).exitCode) : Over s' t ∧ code = (s'.tcb t).exitCode :=
  ⟨(h t hc.1).1, hc.2.trans (h t hc.1).2.symm⟩

theorem Due.mono (h : Due s j p) (htold : Told s s') (hcall : s'.call j = s.call j)
    (htarget : (s.tcb j).joinTargetId = none → (s'.tcb j).joinTargetId = none)
    (hready : (s.tcb j).joinReady → (s'.tcb j).joinReady) : Due s' j p := by
  have hto : s'.target j = s.target j := congrArg Call.target hcall
  have hcode : ∀ {code}, Over s (s.target j) ∧ code = (s.tcb (s.target j)).exitCode →
      Over s' (s'.target j) ∧ code = (s'.tcb (s'.target j)).exitCode := by
    rw [hto]
    exact htold.code
  cases p with
  | out => exact h.imp htarget hready
  | status => exact hready h
  | collect => exact (hcode ⟨h, rfl⟩).1
  | reap code | forget code => exact hcode h
  | clearReady code | clearId code =>
    intro hj
    rw [detaching, hcall] at hj
    exact hcode (h hj)
  | _ => trivial

namespace LatchInv

variable (h : LatchInv s) {f : Tcb n → Tcb n} {x : Handoff n}
include h

/-- A write to the control block of `j` that touches neither its exit code nor the fact of its
termination, and stores only what a joiner may find there. -/
theorem write (hstate : (f (s.tcb j)).state = .terminated ↔ (s.tcb j).state = .terminated)
    (hcode : (f (s.tcb j)).exitCode = (s.tcb j).exitCode) (hdue : Due (s.modify j f) j (s.pc j))
    (htarget : Joining s j → (f (s.tcb j)).joinTargetId = none ∨
      (f (s.tcb j)).joinTargetId = some (s.target j))
    (hlatch : Joining s j → (f (s.tcb j)).joinReady →
      Over s (s.target j) ∧ (f (s.tcb j)).joinStatus = (s.tcb (s.target j)).exitCode)
    (hstored : ∀ t, Joining s j → s.handoff t = .storeReady j →
      (f (s.tcb j)).joinStatus = (s.tcb t).exitCode) : LatchInv (s.modify j f) := by
  have hself := s.modify_self j f
  have hother : ∀ {i}, i ≠ j → (s.modify j f).tcb i = s.tcb i := s.modify_ne f
  have hcodes := modify_field exitCode hcode
  refine ⟨fun t => ?_, fun i => ?_, fun i hi => ?_, fun i hi hr => ?_, h.inFlight,
    fun i t hi hh => ?_, fun i t v hv => ?_⟩
  · have hsame := modify_field (fun x => x.state = .terminated) (propext hstate) t
    exact (h.ended t).trans (iff_of_eq hsame.symm)
  · by_cases hij : i = j
    · exact hij ▸ hdue
    · refine (h.due i).mono (.modify hcode) rfl ?_ ?_ <;>
        exact fun hi => by rwa [hother hij]
  · by_cases hij : i = j
    · subst hij
      rw [hself]
      exact htarget hi
    · rw [hother hij]
      exact h.named i hi
  · rw [hcodes]
    by_cases hij : i = j
    · subst hij
      rw [hself] at hr ⊢
      exact hlatch hi hr
    · rw [hother hij] at hr ⊢
      exact h.latch i hi hr
  · rw [hcodes]
    by_cases hij : i = j
    · subst hij
      rw [hself]
      exact hstored t hi hh
    · rw [hother hij]
      exact h.stored i t hi hh
  · rw [hcodes]
    exact h.answers i t v hv

theorem due_modify (hcode : (f (s.tcb j)).exitCode = (s.tcb j).exitCode)
    (htarget : (s.tcb j).joinTargetId = none → (f (s.tcb j)).joinTargetId = none)
    (hready : (s.tcb j).joinReady → (f (s.tcb j)).joinReady) :
    Due (s.modify j f) j (s.pc j) := by
  refine (h.due j).mono (.modify hcode) rfl ?_ ?_ <;>
    rwa [modify_self]

theorem modify (t : Fin n)
    (hstate : (f (s.tcb t)).state = .terminated ↔ (s.tcb t).state = .terminated)
    (hcode : (f (s.tcb t)).exitCode = (s.tcb t).exitCode)
    (htarget : (f (s.tcb t)).joinTargetId = (s.tcb t).joinTargetId)
    (hstatus : (f (s.tcb t)).joinStatus = (s.tcb t).joinStatus)
    (hready : (f (s.tcb t)).joinReady = (s.tcb t).joinReady) : LatchInv (s.modify t f) := by
  refine h.write hstate hcode (h.due_modify hcode htarget.trans hready.trans) ?_ ?_ ?_
  · rw [htarget]
    exact h.named t
  · rw [hready, hstatus]
    exact h.latch t
  · rw [hstatus]
    exact h.stored t

theorem setPc (hin : s.pc j ≠ .out) (hp : Due s j p) : LatchInv (s.setPc j p) := by
  have hjoin : ∀ i, Joining (s.setPc j p) i → Joining s i := by
    intro i hi
    refine ⟨fun hout => ?_, hi.2⟩
    have hne : i ≠ j := fun hij => hin (hij ▸ hout)
    exact hi.1 (by simp [State.setPc, update_of_ne hne, hout])
  exact ⟨h.ended, (forall_update_iff s.pc (Due (s.setPc j p))).mpr
      ⟨hp.mono (.refl s) rfl id id, fun i _ => (h.due i).mono (.refl s) rfl id id⟩,
    fun i hi => h.named i (hjoin i hi), fun i hi => h.latch i (hjoin i hi),
    fun i t hi => h.inFlight i t (hjoin i hi), fun i t hi => h.stored i t (hjoin i hi), h.answers⟩

theorem setOut (hp : Due s j .out) : LatchInv (s.setPc j .out) := by
  by_cases hout : s.pc j = .out
  · have hsame : s.setPc j .out = s := by
      rw [State.setPc, ← hout, update_eq_self]
    rwa [hsame]
  · exact h.setPc hout hp

theorem leave (hin : s.pc j ≠ .out) (hp : Due s j .out) {a : Answer n}
    (ha : ∀ t v, a = .joined t v → Over s t ∧ v = (s.tcb t).exitCode) : LatchInv (s.leave j a) := by
  have hout := h.setPc hin hp
  refine { hout with answers := fun i t v hv => ?_ }
  obtain ⟨-, hva⟩ | ⟨-, hv⟩ := eq_or_of_update hv
  · exact ha t v (some.inj hva)
  · exact h.answers i t v hv

theorem clearTarget : LatchInv (s.modify j fun x => { x with joinTargetId := none }) :=
  h.write .rfl rfl (h.due_modify rfl (fun _ => rfl) id) (fun _ => .inl rfl) (h.latch j) (h.stored j)

theorem storeTarget (hpc : s.pc j = .storeId) :
    LatchInv (s.modify j fun x => { x with joinTargetId := some (s.target j) }) := by
  refine h.write .rfl rfl ?_ (fun _ => .inr rfl) (h.latch j) (h.stored j)
  rw [hpc]
  trivial

theorem clearReady {code : BitVec 64} (hpc : s.pc j = .clearReady code) :
    LatchInv (s.modify j fun x => { x with joinReady := false }) := by
  have hdue := h.due j
  rw [hpc] at hdue
  refine h.write .rfl rfl ?_ (h.named j) nofun (h.stored j)
  rw [hpc]
  exact fun hd => (Told.modify rfl).code (hdue hd)

/-- The store of the status, by a hand-off that has checked the joiner's target id. -/
theorem storeStatus (ht : s.handoff t = .storeStatus j) :
    LatchInv (s.modify j fun x => { x with joinStatus := (s.tcb t).exitCode }) := by
  have hflight : InFlight s t j := .inl ht
  refine h.write .rfl rfl (h.due_modify rfl id id) (h.named j) (fun hj hr => ?_) (fun u hj hu => ?_)
  · rw [← h.inFlight j t hj hflight]
    exact ⟨hflight.over, rfl⟩
  · -- the only hand-off that may write the latch of `j` is that of `t`
    rw [(h.inFlight j u hj (.inr hu)).trans (h.inFlight j t hj hflight).symm]

theorem storeReady (ht : s.handoff t = .storeReady j) :
    LatchInv (s.modify j fun x => { x with joinReady := true }) := by
  have hflight : InFlight s t j := .inr ht
  refine h.write .rfl rfl (h.due_modify rfl id fun _ => rfl) (h.named j) (fun hj _ => ?_) (h.stored j)
  rw [← h.inFlight j t hj hflight]
  exact ⟨hflight.over, h.stored j t hj ht⟩

/-! ## The hand-off -/

/-- The hand-off of `t` goes on to `x`, after a write to the control block of `t` that an earlier
exit code survives. -/
theorem progress (hx : x ≠ .live) (hstate : (f (s.tcb t)).state = .terminated)
    (htold : Over s t → Over (s.setHandoff t x) t ∧ (f (s.tcb t)).exitCode = (s.tcb t).exitCode)
    (hflight : ∀ j, Joining s j → x = .storeStatus j ∨ x = .storeReady j → t = s.target j)
    (hstored : ∀ j, Joining s j → x = .storeReady j → (s.tcb j).joinStatus = (f (s.tcb t)).exitCode)
    (htarget : (f (s.tcb t)).joinTargetId = (s.tcb t).joinTargetId)
    (hstatus : (f (s.tcb t)).joinStatus = (s.tcb t).joinStatus)
    (hready : (f (s.tcb t)).joinReady = (s.tcb t).joinReady) :
    LatchInv ((s.modify t f).setHandoff t x) := by
  have hself : ((s.modify t f).setHandoff t x).handoff t = x := update_self ..
  have hhand : ∀ {i}, i ≠ t → ((s.modify t f).setHandoff t x).handoff i = s.handoff i :=
    fun hi => update_of_ne hi ..
  have hcode : (((s.modify t f).setHandoff t x).tcb t).exitCode = (f (s.tcb t)).exitCode :=
    congrArg exitCode (s.modify_self t f)
  have htargets := modify_field joinTargetId htarget
  have hstatuses := modify_field joinStatus hstatus
  have hreadies := modify_field joinReady hready
  have htells : Told s ((s.modify t f).setHandoff t x) := by
    intro i hi
    obtain rfl | hit := eq_or_ne i t
    · exact ⟨(htold hi).1, hcode.trans (htold hi).2⟩
    · exact ⟨by rwa [Over, hhand hit], congrArg exitCode (s.modify_ne f hit)⟩
  refine ⟨fun i => ?_, fun j => ?_, fun j hj => ?_, fun j hj hr => ?_, fun j i hj hf => ?_,
    fun j i hj hh => ?_, fun j i v hv => ?_⟩
  · obtain rfl | hi := eq_or_ne i t
    · rw [hself]
      exact iff_of_true hx ((congrArg state (s.modify_self i f)).trans hstate)
    · rw [hhand hi]
      exact (h.ended i).trans (iff_of_eq (congrArg (fun y => y.state = .terminated)
        (s.modify_ne f hi).symm))
  · exact (h.due j).mono htells rfl (htargets j).trans (hreadies j).trans
  · exact (h.named j hj).imp (htargets j).trans (htargets j).trans
  · obtain ⟨ho, hs⟩ := h.latch j hj ((hreadies j).symm.trans hr)
    exact ⟨(htells _ ho).1, ((hstatuses j).trans hs).trans (htells _ ho).2.symm⟩
  · obtain rfl | hi := eq_or_ne i t
    · rw [InFlight, hself] at hf
      exact hflight j hj hf
    · rw [InFlight, hhand hi] at hf
      exact h.inFlight j i hj hf
  · refine (hstatuses j).trans ?_
    obtain rfl | hi := eq_or_ne i t
    · exact (hstored j hj (hself.symm.trans hh)).trans hcode.symm
    · have hh' := (hhand hi).symm.trans hh
      exact (h.stored j i hj hh').trans (htells i (InFlight.over (.inr hh'))).2.symm
  · exact htells.code (h.answers j i v hv)

theorem setHandoff (ht : Over s t) (hx : Over (s.setHandoff t x) t)
    (hflight : ∀ j, Joining s j → x = .storeStatus j ∨ x = .storeReady j → t = s.target j)
    (hstored : ∀ j, Joining s j → x = .storeReady j →
      (s.tcb j).joinStatus = (s.tcb t).exitCode) : LatchInv (s.setHandoff t x) := by
  have hlive : x ≠ .live := fun hlive => hx.live_ne ((update_self ..).trans hlive)
  have hkeep := h.progress (f := id) hlive ((h.ended t).mp ht.live_ne) (fun _ => ⟨hx, rfl⟩) hflight
    hstored rfl rfl rfl
  have hsame : s.modify t id = s := by
    rw [State.modify, id, update_eq_self]
  rwa [hsame] at hkeep

/-! ## One step -/

section

variable (hin : s.pc j ≠ .out)
include hin

theorem afterUnregister (hj : (s.tcb j).joinTargetId = none) (after : After) :
    LatchInv (s.afterUnregister j after) := by
  cases after with
  | again => exact h.setPc hin trivial
  | fail | ok => exact h.leave hin (.inl hj) nofun

theorem unregisterSlot (after : After) : LatchInv (s.unregisterSlot j after) := by
  unfold State.unregisterSlot
  split
  · next hj => exact h.afterUnregister hin hj after
  · split_ifs
    · exact (h.modify _ .rfl rfl rfl rfl rfl).setPc hin trivial
    · exact h.setPc hin trivial

theorem checks : LatchInv (s.checks j) := by
  unfold State.checks
  simp only
  split_ifs <;> exact h.setPc hin trivial

theorem detach (slot : Option (Fin n)) : LatchInv (s.detach j slot) := by
  unfold State.detach
  simp only
  split_ifs
  · exact h.setPc hin trivial
  · exact (h.modify _ .rfl rfl rfl rfl rfl).setPc hin trivial
  · exact h.setPc hin trivial
  · exact h.setPc hin trivial
  · exact (h.modify _ .rfl rfl rfl rfl rfl).setPc hin trivial

theorem look {slot : Option (Fin n)}
    (hok : (s.tcb (s.target j)).state = .terminated → Over s (s.target j)) :
    LatchInv (s.look j slot) := by
  unfold State.look
  simp only
  split_ifs with hclaim
  · exact (h.modify _ .rfl rfl rfl rfl rfl).setPc hin (hok hclaim.1)
  · exact h.setPc hin trivial

theorem register (slot : Option (Fin n)) : LatchInv (s.register j slot) := by
  unfold State.register
  simp only
  split_ifs
  · exact h.setPc hin trivial
  · exact h.setPc hin trivial
  · exact h.setPc hin trivial
  · exact (h.modify _ .rfl rfl rfl rfl rfl).setPc hin trivial

end

theorem advance {choice : Bool} (hok : LatchClear s (.advance j choice))
    (hs : s.advance j choice = some s') : LatchInv s' := by
  have halive : (s.tcb j).state ≠ .terminated := by
    intro hdead
    simp [State.advance, hdead] at hs
  rw [State.advance, if_neg halive] at hs
  have hdue := h.due j
  have hin : s.pc j ≠ .out := by
    intro hout
    simp [hout] at hs
  unfold LatchClear at hok
  cases hpc : s.pc j <;> rw [hpc] at hdue <;>
    simp only [hpc, Option.some.injEq, reduceCtorEq] at hok hs
  case pass | walk slot =>
    subst hs
    refine h.setPc hin ?_
    split_ifs <;> trivial
  case gone | latch slot =>
    subst hs
    refine h.setPc hin ?_
    split_ifs with hready
    · exact hready
    · trivial
  case checks => exact hs ▸ h.checks hin
  case detach slot => exact hs ▸ h.detach hin slot
  case reapDetached => exact hs ▸ (h.modify _ .rfl rfl rfl rfl rfl).setPc hin trivial
  case look slot => exact hs ▸ h.look hin hok
  case collect =>
    split_ifs at hs <;> cases hs
    · exact h.setPc hin ⟨hdue, rfl⟩
    · exact (h.modify _ .rfl rfl rfl rfl rfl).setPc hin trivial
  case reap code =>
    subst hs
    exact (h.modify _ .rfl rfl rfl rfl rfl).setPc hin ((Told.modify rfl).code hdue)
  case forget code =>
    subst hs
    refine h.clearTarget.leave hin (.inl ?_) (fun t v ha => ?_)
    · rw [State.modify_self]
    · obtain ⟨rfl, rfl⟩ := Answer.joined.inj ha
      exact (Told.modify rfl).code hdue
  case status =>
    split_ifs at hs <;> cases hs
    · refine h.setPc hin (fun hd => ?_)
      exact h.latch j ⟨hin, hd⟩ hdue
    · exact h.leave hin (.inr hdue) nofun
  case clearReady code =>
    subst hs
    exact (h.clearReady hpc).setPc hin (fun hd => (Told.modify rfl).code (hdue hd))
  case clearId code =>
    subst hs
    refine h.clearTarget.leave hin (.inl ?_) (fun t v ha => ?_)
    · rw [State.modify_self]
    · split_ifs at ha with hd
      obtain ⟨rfl, rfl⟩ := Answer.joined.inj ha
      exact (Told.modify rfl).code (hdue (Bool.eq_false_iff.mpr hd))
  case register slot => exact hs ▸ h.register hin slot
  case storeId => exact hs ▸ (h.storeTarget hpc).setPc hin trivial
  case block =>
    subst hs
    refine (h.modify j ?_ rfl rfl rfl rfl).setPc hin trivial
    exact iff_of_false (by simp) halive
  case wait =>
    split_ifs at hs
    cases hs
    exact h.setPc hin trivial
  case unregisterSlot after => exact hs ▸ h.unregisterSlot hin after
  case unregisterId after =>
    subst hs
    refine h.clearTarget.afterUnregister hin ?_ after
    rw [State.modify_self]

theorem handOff (hs : s.handOff t = some s') : LatchInv s' := by
  unfold State.handOff at hs
  cases hh : s.handoff t <;> simp only [hh, Option.some.injEq, reduceCtorEq] at hs
  case storeCode code =>
    subst hs
    have hstate : (s.tcb t).state = .terminated := (h.ended t).mp (by simp [hh])
    refine h.progress ?_ hstate (fun ho => absurd ho (by simp [Over, hh])) ?_ ?_ rfl rfl rfl <;>
      split_ifs <;> simp
  case loadSlot =>
    subst hs
    refine h.setHandoff (by simp [Over, hh]) ?_ ?_ ?_ <;>
      cases (s.tcb t).joinWaiter <;> simp [Over, State.setHandoff]
  case checkTarget j =>
    have hover : Over s t := by simp [Over, hh]
    split_ifs at hs with htarget <;> cases hs
    · refine h.setHandoff hover (by simp [Over, State.setHandoff]) (fun i hi hx => ?_) (by simp)
      obtain rfl : j = i := by simpa using hx
      have hnamed := (h.named j hi).resolve_left (by simp [htarget])
      exact some.inj (htarget.symm.trans hnamed)
    · refine (h.modify t .rfl rfl rfl rfl rfl).setHandoff hover (by simp [Over, State.setHandoff])
        (by simp) (by simp)
  case storeStatus j =>
    subst hs
    have hflight : InFlight s t j := .inl hh
    refine (h.storeStatus hh).setHandoff hflight.over (by simp [Over, State.setHandoff])
      (fun i hi hx => ?_) (fun i hi hx => ?_)
    all_goals obtain rfl : j = i := by simpa using hx
    · exact h.inFlight j t hi hflight
    · rw [State.modify_self]
      exact (State.modify_field exitCode (by rfl) _).symm
  case storeReady j =>
    subst hs
    have hflight : InFlight s t j := .inr hh
    exact (h.storeReady hh).setHandoff hflight.over (by simp [Over, State.setHandoff]) (by simp)
      (by simp)
  case wake j =>
    have hover : Over s t := by simp [Over, hh]
    split_ifs at hs with hblocked <;> cases hs
    · refine (h.modify j ?_ rfl rfl rfl rfl).setHandoff hover (by simp [Over, State.setHandoff])
        (by simp) (by simp)
      simp [hblocked]
    · exact h.setHandoff hover (by simp [Over, State.setHandoff]) (by simp) (by simp)

theorem start {t : Fin n} {detaching : Bool} (hout : s.pc j = .out)
    (hok : LatchClear s (.start j t detaching)) :
    LatchInv { s.setPc j .pass with call := update s.call j ⟨t, detaching⟩ } := by
  have hcall : ∀ {i}, i ≠ j → update s.call j ⟨t, detaching⟩ i = s.call i := fun hi =>
    update_of_ne hi ..
  have hpc : ∀ {i}, i ≠ j → update s.pc j .pass i = s.pc i := fun hi =>
    update_of_ne hi ..
  have hidle : (s.tcb j).joinTargetId = none ∨ (s.tcb j).joinReady = true := by
    have := h.due j
    rwa [hout] at this
  -- the new call is a join only if its latch is clear
  have hjoins : ∀ {i}, Joining { s.setPc j .pass with call := update s.call j ⟨t, detaching⟩ } i →
      (i = j ∧ (s.tcb i).joinReady = false ∧ ∀ u, ¬ InFlight s u i) ∨
      (update s.call j ⟨t, detaching⟩ i = s.call i ∧ Joining s i) := by
    intro i hi
    obtain rfl | hij := eq_or_ne i j
    · obtain rfl : detaching = false := by simpa [State.detaching] using hi.2
      exact .inl ⟨rfl, hok⟩
    · exact .inr ⟨hcall hij, by
        simpa only [Joining, State.detaching, State.setPc, hcall hij, hpc hij] using hi⟩
  refine ⟨h.ended, fun i => ?_, fun i hi => ?_, fun i hi hr => ?_, fun i u hi hf => ?_,
    fun i u hi hh => ?_, h.answers⟩
  · by_cases hij : i = j
    · simp only [hij, State.setPc, update_self]
      trivial
    · simp only [State.setPc, hpc hij]
      exact (h.due i).mono (fun _ ho => ⟨ho, rfl⟩) (hcall hij) id id
  · obtain ⟨rfl, hready, -⟩ | ⟨hc, hj⟩ := hjoins hi
    · exact .inl (hidle.resolve_right (by simp [hready]))
    · simp only [State.target, hc]
      exact h.named i hj
  · obtain ⟨-, hready, -⟩ | ⟨hc, hj⟩ := hjoins hi
    · exact absurd hr (by simp [hready])
    · simp only [State.target, hc]
      exact h.latch i hj hr
  · obtain ⟨-, -, hno⟩ | ⟨hc, hj⟩ := hjoins hi
    · exact absurd hf (hno u)
    · simp only [State.target, hc]
      exact h.inFlight i u hj hf
  · obtain ⟨-, -, hno⟩ | ⟨-, hj⟩ := hjoins hi
    · exact absurd (.inr hh) (hno u)
    · exact h.stored i u hj hh

theorem cleanup : LatchInv (s.cleanup j) := by
  unfold State.cleanup
  split
  · next hj => exact h.setOut (.inl hj)
  · split_ifs
    · exact (h.modify _ .rfl rfl rfl rfl rfl).clearTarget.setOut (.inl (by rw [State.modify_self]))
    · exact h.clearTarget.setOut (.inl (by rw [State.modify_self]))

theorem step {a : Action n} (hok : LatchClear s a) (hs : step s a = some s') : LatchInv s' := by
  cases a with try obtain ⟨hguard, rfl⟩ := ite_some_none_eq_some.mp hs
  | start j t detaching => exact h.start hguard.1 hok
  | advance j choice => exact h.advance hok hs
  | terminate t code =>
    exact h.progress nofun rfl (fun ho => absurd ho (by simp [Over, hguard])) nofun nofun rfl rfl rfl
  | handOff t => exact h.handOff hs
  | wake j => exact h.modify j (by simp [hguard]) rfl rfl rfl rfl
  | claim t | unlist t => exact h.modify t .rfl rfl rfl rfl rfl
  | cleanup j => exact h.cleanup

end LatchInv

/-- In a run whose joins start with a clear latch, every join that has reported success names a
thread that has terminated, with the exit code of that thread. -/
theorem join_status {s₀ : State n} (h₀ : Start s₀) {as : List (Action n)}
    (hrun : Run step LatchClear s₀ as s) {j t : Fin n} {v : BitVec 64}
    (hj : s.answer j = some (.joined t v)) :
    (s.tcb t).state = .terminated ∧ v = (s.tcb t).exitCode := by
  have hinv : LatchInv s := hrun.invariant (fun _ _ _ h hok hs => h.step hok hs) h₀.latchInv
  obtain ⟨hover, hv⟩ := hinv.answers j t v hj
  exact ⟨(hinv.ended t).mp hover.live_ne, hv⟩

def joinOnce : List (Action 3) :=
  .start 0 1 false :: advances 0 8 ++ terminates 1 7 6 ++ advances 0 8

theorem join_status_joinOnce :
    ∃ s : State 3, Run step LatchClear (threads 3) joinOnce s ∧ s.answer 0 = some (.joined 1 7) ∧
      (s.tcb 1).state = .terminated ∧ 7 = (s.tcb 1).exitCode := by
  exact Run.exists_and_of_exec (by decide +kernel) fun _ hrun hs =>
    join_status (threads_start 3) hrun hs

/-- The call has collected the thread itself and has left the latch set. A second join, of a thread
that still runs, returns at once with the status of the first. -/
theorem latched_status_delivered :
    ∃ s : State 3,
      Run step anyStep (threads 3) (joinOnce ++ .start 0 2 false :: advances 0 8) s ∧
        s.answer 0 = some (.joined 2 7) ∧ (s.tcb 2).state = .running ∧ (s.tcb 2).exitCode = 0 :=
  Run.exists_of_exec (by decide +kernel)

end Nexios.Join
