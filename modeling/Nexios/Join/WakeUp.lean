import Nexios.Join.Rendezvous

/-!
# Lost wake-ups of the rendezvous

A joiner looks at the state of its target first and registers afterwards, in two stores: its name in
the target's slot, then the target in `join_target_id_`. A hand-off that reads the slot after the
look finds it empty, and one that reads it between the two stores drops it; the joiner then blocks
and nobody is left to wake it. If every registration is complete when the hand-off reads the slot
and none begins later, a joiner that blocks has its hand-off still to come or its status latched.
-/

open Function Option

namespace Nexios.Join

open State

variable {n : ℕ} {s s' : State n} {j t : Fin n} {p : Pc n} {x : Handoff n}

/-- `t` has finished its hand-off, and `j` waits for it in the loop with an empty latch. -/
def Stranded (s : State n) (j t : Fin n) : Prop :=
  (s.tcb t).state = .terminated ∧ s.handoff t = .finished ∧ s.pc j = .wait ∧
    (s.tcb j).state = .blocked ∧ (s.tcb j).joinTargetId = some t ∧ (s.tcb j).joinReady = false
  deriving Decidable

def SlotUnread (s : State n) (t : Fin n) : Prop :=
  match s.handoff t with
  | .live | .storeCode _ | .loadSlot => True
  | _ => False

instance (s : State n) (t : Fin n) : Decidable (SlotUnread s t) := by
  unfold SlotUnread
  exact match s.handoff t with
  | .live | .storeCode _ | .loadSlot | .checkTarget _ | .storeStatus _ | .storeReady _ | .wake _
  | .finished => inferInstance

/-- The condition on a step: a joiner takes the slot of a thread only before the hand-off reads it,
and the hand-off reads it only when the joiner that has taken it has stored its target id. -/
def InTime (s : State n) : Action n → Prop
  | .advance j _ => s.pc j = .register none →
      (s.tcb (s.target j)).registered → (s.tcb (s.target j)).joinWaiter = none →
      SlotUnread s (s.target j)
  | .handOff t => s.handoff t = .loadSlot →
      ∀ j, (s.tcb t).joinWaiter = some j → ¬ (s.pc j = .storeId ∧ s.target j = t)
  | _ => True

instance (s : State n) (a : Action n) : Decidable (InTime s a) := by
  unfold InTime
  exact match a with
  | .start .. | .advance .. | .terminate .. | .handOff _ | .wake _ | .claim _ | .unlist _
  | .cleanup _ => inferInstance

/-- The next step of the call clears `join_target_id_`. -/
def Clearing : Pc n → Prop
  | .clearId _ | .unregisterId _ => True
  | _ => False

/-- The hand-off of `t` has read `j` in the slot and has not set its latch. -/
def Serves (s : State n) (t j : Fin n) : Prop :=
  s.handoff t = .checkTarget j ∨ s.handoff t = .storeStatus j ∨ s.handoff t = .storeReady j

/-- The hand-off of `t` will find `j` in the slot. -/
def Awaits (s : State n) (t j : Fin n) : Prop :=
  SlotUnread s t ∧ (s.tcb t).isThread = true ∧ (s.tcb t).joinWaiter = some j

/-- `j`, which names `t`, is not forgotten. -/
def Expected (s : State n) (j t : Fin n) : Prop :=
  Awaits s t j ∨ Serves s t j ∨ (s.tcb j).joinReady = true ∨ Clearing (s.pc j)

def Found : Pc n → Prop
  | .checks | .walk _ | .look _ | .latch _ | .register _ => True
  | _ => False

/-- A joiner that names a thread is expected by it, and one that has taken a slot has it still. -/
structure Kept (s : State n) (j : Fin n) : Prop where
  expected : ∀ t, (s.tcb j).joinTargetId = some t → Expected s j t
  slot : s.pc j = .storeId → Awaits s (s.target j) j
  found : Found (s.pc j) → (s.tcb (s.target j)).isThread

theorem Start.kept (h : Start s) (j : Fin n) : Kept s j := by
  refine ⟨fun t hj => ?_, fun hj => ?_, fun hj => ?_⟩
  · rw [h.target] at hj
    cases hj
  · rw [h.pc] at hj
    cases hj
  · rw [h.pc] at hj
    exact hj.elim

theorem Kept.not_stranded (h : Kept s j) (t : Fin n) : ¬ Stranded s j t := by
  rintro ⟨-, hhand, hpc, -, htarget, hready⟩
  rcases h.expected t htarget with hslot | hserves | hset | hclear
  · simp [Awaits, SlotUnread, hhand] at hslot
  · simp [Serves, hhand] at hserves
  · rw [hready] at hset
    cases hset
  · simp [Clearing, hpc] at hclear

theorem Kept.congr (h : Kept s j) (htcb : s'.tcb = s.tcb) (hhand : s'.handoff = s.handoff)
    (hpc : s'.pc j = s.pc j) (hcall : s'.call j = s.call j) : Kept s' j := by
  have hto : s'.target j = s.target j := congrArg Call.target hcall
  obtain ⟨hexpected, hslot, hfound⟩ := h
  constructor <;>
    simpa only [Expected, Awaits, SlotUnread, Serves, htcb, hhand, hpc, hto]

theorem Kept.setPc (h : Kept s t) (htj : t ≠ j) : Kept (s.setPc j p) t :=
  h.congr rfl rfl (update_of_ne htj ..) rfl

theorem Kept.of_clearing (h : Clearing (s.pc j)) : Kept s j := by
  refine ⟨fun t _ => .inr (.inr (.inr h)), fun hp => ?_, fun hp => ?_⟩
  · simp [hp, Clearing] at h
  · cases hpc : s.pc j <;> simp_all [Clearing, Found]

section Write

variable {i : Fin n} {f : Tcb n → Tcb n} (hthread : (f (s.tcb t)).isThread = (s.tcb t).isThread)
  (hslot : (s.tcb t).joinWaiter = some i → (f (s.tcb t)).joinWaiter = some i)
include hthread hslot

theorem Awaits.modify {u : Fin n} (h : Awaits s u i) : Awaits (s.modify t f) u i := by
  obtain ⟨hunread, hu, hw⟩ := h
  refine ⟨hunread, (modify_field Tcb.isThread hthread u).trans hu, ?_⟩
  by_cases hut : u = t
  · subst hut
    rw [modify_self]
    exact hslot hw
  · rwa [modify_ne _ _ hut]

/-- A write to a control block that leaves the slot to `i`, and, if it is the block of `i`, keeps
the target id and does not clear the latch. -/
theorem Kept.modify (h : Kept s i)
    (hself : i = t → (f (s.tcb t)).joinTargetId = (s.tcb t).joinTargetId ∧
      ((s.tcb t).joinReady → (f (s.tcb t)).joinReady)) : Kept (s.modify t f) i := by
  have hown : ((s.modify t f).tcb i).joinTargetId = (s.tcb i).joinTargetId ∧
      ((s.tcb i).joinReady → ((s.modify t f).tcb i).joinReady) := by
    by_cases hit : i = t
    · subst hit
      rw [modify_self]
      exact hself rfl
    · rw [modify_ne _ _ hit]
      exact ⟨rfl, id⟩
  refine ⟨fun u hu => ?_, fun hp => (h.slot hp).modify hthread hslot,
    fun hp => (modify_field Tcb.isThread hthread _).trans (h.found hp)⟩
  exact (h.expected u (hown.1.symm.trans hu)).imp (.modify hthread hslot)
    (.imp id (.imp hown.2 id))

end Write

section Steps

variable (h : ∀ i, Kept s i)
include h

/-- A write to a control block that touches neither the slot nor the target id, and does not clear
the latch. -/
theorem kept_modify (t : Fin n) {f : Tcb n → Tcb n}
    (hslot : (f (s.tcb t)).joinWaiter = (s.tcb t).joinWaiter)
    (hthread : (f (s.tcb t)).isThread = (s.tcb t).isThread)
    (htarget : (f (s.tcb t)).joinTargetId = (s.tcb t).joinTargetId)
    (hready : (s.tcb t).joinReady → (f (s.tcb t)).joinReady) :
    ∀ i, Kept (s.modify t f) i :=
  fun i => (h i).modify hthread hslot.trans (fun _ => ⟨htarget, hready⟩)

theorem kept_setPc (hfrom : Clearing (s.pc j) → (s.tcb j).joinTargetId = none)
    (hto : p ≠ .storeId) (hfound : Found p → (s.tcb (s.target j)).isThread) :
    ∀ i, Kept (s.setPc j p) i := by
  intro i
  by_cases hij : i = j
  · subst hij
    have hpc : (s.setPc i p).pc i = p := update_self ..
    refine ⟨fun t ht => ?_, fun hp => absurd (hpc.symm.trans hp) hto, fun hp => ?_⟩
    · refine ((h i).expected t ht).imp id (.imp id (.imp id fun hclear => ?_))
      rw [setPc_tcb, hfrom hclear] at ht
      cases ht
    · rw [hpc] at hp
      exact hfound hp
  · exact (h i).setPc hij

theorem kept_leave (hfrom : Clearing (s.pc j) → (s.tcb j).joinTargetId = none) (a : Answer n) :
    ∀ i, Kept (s.leave j a) i := by
  intro i
  have := kept_setPc (p := .out) h hfrom (by simp) nofun i
  exact this.congr rfl rfl rfl rfl

theorem kept_clearTarget : ∀ i, Kept (s.modify j fun x => { x with joinTargetId := none }) i := by
  intro i
  by_cases hij : i = j
  · subst hij
    refine ⟨fun t ht => ?_, fun hp => ((h i).slot hp).modify rfl id,
      fun hp => (modify_field Tcb.isThread (by rfl) _).trans ((h i).found hp)⟩
    rw [modify_self] at ht
    cases ht
  · exact (h i).modify rfl id (absurd · hij)

theorem kept_dropSlot (hslot : (s.tcb t).joinWaiter = some j) (after : After) :
    ∀ i, Kept ((s.modify t fun x => { x with joinWaiter := none }).setPc j (.unregisterId after))
      i := by
  intro i
  by_cases hij : i = j
  · subst hij
    exact .of_clearing (by simp [setPc, Clearing])
  · refine ((h i).modify rfl (fun hi => ?_) (fun _ => ⟨rfl, id⟩)).setPc hij
    exact absurd (some.inj (hi.symm.trans hslot)) hij

theorem kept_takeSlot (hslot : (s.tcb (s.target j)).joinWaiter = none)
    (hpc : s.pc j = .register none) (hunread : SlotUnread s (s.target j)) :
    ∀ i, Kept ((s.modify (s.target j) fun x => { x with joinWaiter := some j }).setPc j .storeId)
      i := by
  intro i
  have hw : Kept (s.modify (s.target j) fun x => { x with joinWaiter := some j }) i := by
    refine (h i).modify rfl (fun hi => ?_) (fun _ => ⟨rfl, id⟩)
    rw [hslot] at hi
    cases hi
  by_cases hij : i = j
  · subst hij
    have hthread := hw.found (by simp [State.modify, Found, hpc])
    refine ⟨fun t ht => ?_, fun _ => ⟨hunread, hthread, by simp [State.modify_self]⟩, fun hp => ?_⟩
    · refine (hw.expected t ht).imp id (.imp id (.imp id fun hclear => ?_))
      simp [State.modify, Clearing, hpc] at hclear
    · simp [State.setPc, Found] at hp
  · exact hw.setPc hij

theorem kept_storeTarget (hpc : s.pc j = .storeId) :
    ∀ i, Kept ((s.modify j fun x => { x with joinTargetId := some (s.target j) }).setPc j .block)
      i := by
  intro i
  by_cases hij : i = j
  · subst hij
    refine ⟨fun t ht => .inl ?_, fun hp => ?_, fun hp => ?_⟩
    · rw [setPc_tcb, modify_self] at ht
      obtain rfl : s.target i = t := some.inj ht
      have hw : Awaits (s.modify i fun x => { x with joinTargetId := some (s.target i) })
          (s.target i) i := ((h i).slot hpc).modify rfl id
      exact hw
    · simp [setPc] at hp
    · simp [setPc, Found] at hp
  · exact ((h i).modify rfl id (absurd · hij)).setPc hij

theorem kept_clearReady (code : BitVec 64) :
    ∀ i, Kept ((s.modify j fun x => { x with joinReady := false }).setPc j (.clearId code)) i := by
  intro i
  by_cases hij : i = j
  · subst hij
    exact .of_clearing (by simp [setPc, Clearing])
  · exact ((h i).modify rfl id (absurd · hij)).setPc hij

theorem kept_afterUnregister (hj : (s.tcb j).joinTargetId = none) (after : After) :
    ∀ i, Kept (s.afterUnregister j after) i := by
  cases after with
  | again => exact kept_setPc h (fun _ => hj) (by simp) nofun
  | fail | ok => exact kept_leave h (fun _ => hj) _

theorem kept_unregisterSlot (hpc : ¬ Clearing (s.pc j)) (after : After) :
    ∀ i, Kept (s.unregisterSlot j after) i := by
  unfold unregisterSlot
  split
  · next hj => exact kept_afterUnregister h hj after
  · split_ifs with hslot
    · exact kept_dropSlot h hslot.2 after
    · exact kept_setPc h (fun hc => absurd hc hpc) (by simp) nofun

theorem kept_cleanup : ∀ i, Kept (s.cleanup j) i := by
  unfold State.cleanup
  split
  · next hj => exact kept_setPc h (fun _ => hj) (by simp) nofun
  split_ifs with hslot
  · -- the slot is dropped as in an unregistration
    have hdrop := kept_clearTarget (j := j) (kept_dropSlot h hslot.2 .fail)
    have hout := kept_setPc (j := j) (p := .out) hdrop (fun _ => by rw [State.modify_self])
      (by simp) nofun
    simpa [State.setPc, State.modify] using hout
  · exact kept_setPc (kept_clearTarget h) (fun _ => by rw [State.modify_self]) (by simp)
      nofun

/-- A step of the hand-off of `t` that leaves the control blocks alone: every joiner it was to serve
is still served, and none that registers is overtaken. -/
theorem kept_setHandoff
    (hexpected : ∀ i, (s.tcb i).joinTargetId = some t → Awaits s t i ∨ Serves s t i →
      Expected (s.setHandoff t x) i t)
    (hslot : ∀ i, s.pc i = .storeId → s.target i = t → SlotUnread (s.setHandoff t x) t) :
    ∀ i, Kept (s.setHandoff t x) i := by
  intro i
  have hother : ∀ {u}, u ≠ t → (s.setHandoff t x).handoff u = s.handoff u := fun hu =>
    update_of_ne hu ..
  refine ⟨fun u hu => ?_, fun hp => ?_, (h i).found⟩
  · by_cases hut : u = t
    · subst hut
      rcases (h i).expected u hu with hawaits | hserves | hset | hclear
      · exact hexpected i hu (.inl hawaits)
      · exact hexpected i hu (.inr hserves)
      · exact .inr (.inr (.inl hset))
      · exact .inr (.inr (.inr hclear))
    · have := (h i).expected u hu
      simp only [Expected, Awaits, SlotUnread, Serves, hother hut] at this ⊢
      exact this
  · obtain ⟨hunread, hwaiter⟩ := (h i).slot hp
    refine ⟨?_, hwaiter⟩
    change SlotUnread (s.setHandoff t x) (s.target i)
    by_cases hut : s.target i = t
    · exact hut ▸ hslot i hp hut
    · simpa only [SlotUnread, hother hut] using hunread

end Steps

section

variable (h : ∀ i, Kept s i)
include h

theorem kept_go {q : Pc n} (hpc : s.pc j = q) (hq : ¬ Clearing q)
    (hto : p ≠ .storeId) (hfound : Found p → (s.tcb (s.target j)).isThread) :
    ∀ i, Kept (s.setPc j p) i :=
  kept_setPc h (fun hc => absurd (hpc ▸ hc) hq) hto hfound

theorem kept_writeGo {q : Pc n} (hpc : s.pc j = q) (hq : ¬ Clearing q)
    (hto : p ≠ .storeId) (hp : ¬ Found p) {f : Tcb n → Tcb n}
    (hslot : (f (s.tcb t)).joinWaiter = (s.tcb t).joinWaiter)
    (hthread : (f (s.tcb t)).isThread = (s.tcb t).isThread)
    (htarget : (f (s.tcb t)).joinTargetId = (s.tcb t).joinTargetId)
    (hready : (f (s.tcb t)).joinReady = (s.tcb t).joinReady) :
    ∀ i, Kept ((s.modify t f).setPc j p) i :=
  kept_go (kept_modify h t hslot hthread htarget hready.trans) hpc hq hto (fun hf => absurd hf hp)

theorem kept_advance {choice : Bool} (hok : InTime s (.advance j choice))
    (hs : s.advance j choice = some s') : ∀ i, Kept s' i := by
  have halive : (s.tcb j).state ≠ .terminated := by
    intro hdead
    simp [advance, hdead] at hs
  rw [advance, if_neg halive] at hs
  unfold InTime at hok
  have hfound := (h j).found
  cases hpc : s.pc j <;>
    simp only [hpc, Option.some.injEq, reduceCtorEq] at hok hs hfound
  case pass =>
    subst hs
    refine kept_go h hpc id (by split_ifs <;> simp) ?_
    split_ifs with hc
    · simp_all
    · nofun
  case gone =>
    subst hs
    refine kept_go h hpc id (by split_ifs <;> simp) ?_
    split_ifs <;> nofun
  case checks =>
    subst hs
    unfold checks
    simp only
    split_ifs <;> exact kept_go h hpc id (by simp) (fun _ => hfound trivial)
  case detach slot =>
    subst hs
    unfold detach
    simp only
    split_ifs
    · exact kept_go h hpc id (by simp) nofun
    · exact kept_writeGo h hpc id (by simp) id rfl rfl rfl rfl
    · exact kept_go h hpc id (by simp) nofun
    · exact kept_go h hpc id (by simp) nofun
    · exact kept_writeGo h hpc id (by simp) id rfl rfl rfl rfl
  case reapDetached | reap code | block =>
    exact hs ▸ kept_writeGo h hpc id (by simp) id rfl rfl rfl rfl
  case walk slot | latch slot =>
    subst hs
    exact kept_go h hpc id (by split_ifs <;> simp) (fun _ => hfound trivial)
  case look slot =>
    subst hs
    unfold look
    simp only
    split_ifs
    · exact kept_writeGo h hpc id (by simp) id rfl rfl rfl rfl
    · exact kept_go h hpc id (by simp) (fun _ => hfound trivial)
  case collect =>
    split_ifs at hs <;> cases hs
    · exact kept_go h hpc id (by simp) nofun
    · exact kept_writeGo h hpc id (by simp) id rfl rfl rfl rfl
  case forget code | clearId code =>
    exact hs ▸ kept_leave (kept_clearTarget h) (fun _ => by rw [modify_self]) _
  case status =>
    split_ifs at hs <;> cases hs
    · exact kept_go h hpc id (by simp) nofun
    · exact kept_leave h (fun hc => by simp [Clearing, hpc] at hc) _
  case clearReady code => exact hs ▸ kept_clearReady h code
  case register slot =>
    subst hs
    unfold register
    simp only
    split_ifs with hslot hregistered hfree
    · exact kept_go h hpc id (by simp) nofun
    · exact kept_go h hpc id (by simp) nofun
    · exact kept_go h hpc id (by simp) nofun
    · obtain rfl := not_not.mp hslot
      have hfree' := not_not.mp hfree
      exact kept_takeSlot h hfree' hpc (hok rfl (by simpa using hregistered) hfree')
  case storeId => exact hs ▸ kept_storeTarget h hpc
  case wait =>
    split_ifs at hs
    cases hs
    exact kept_go h hpc id (by simp) nofun
  case unregisterSlot after =>
    exact hs ▸ kept_unregisterSlot h (by simp [Clearing, hpc]) after
  case unregisterId after =>
    exact hs ▸ kept_afterUnregister (kept_clearTarget h) (by rw [modify_self]) after

theorem kept_dropRead (hread : ¬ SlotUnread s t) :
    ∀ i, Kept (s.modify t fun x => { x with joinWaiter := none }) i := by
  intro i
  have hawaits : ∀ u, Awaits s u i →
      Awaits (s.modify t fun x => { x with joinWaiter := none }) u i := by
    rintro u ⟨hunread, hu⟩
    have hut : u ≠ t := fun hut => hread (hut ▸ hunread)
    exact ⟨hunread, by rwa [modify_ne _ _ hut]⟩
  refine ⟨fun u hu => ?_, fun hp => hawaits _ ((h i).slot hp),
    fun hp => (modify_field Tcb.isThread (by rfl) _).trans ((h i).found hp)⟩
  have hi := (h i).expected u ((modify_field Tcb.joinTargetId (by rfl) i).symm.trans hu)
  exact hi.imp (hawaits u) (.imp id (.imp (modify_field Tcb.joinReady (by rfl) i).trans id))

theorem kept_serve (hread : ¬ SlotUnread s t)
    (hserves : ∀ i, (s.tcb i).joinTargetId = some t → Serves s t i →
      Serves (s.setHandoff t x) t i ∨ (s.tcb i).joinReady = true) :
    ∀ i, Kept (s.setHandoff t x) i := by
  refine kept_setHandoff h (fun i hi hold => ?_) (fun i hi ht => ?_)
  · rcases hold with hawaits | hold
    · exact absurd hawaits.1 hread
    · exact (hserves i hi hold).elim (fun hs => .inr (.inl hs)) (fun hr => .inr (.inr (.inl hr)))
  · exact absurd (ht ▸ ((h i).slot hi).1) hread

theorem kept_handOff (hok : InTime s (.handOff t))
    (hs : s.handOff t = some s') : ∀ i, Kept s' i := by
  unfold State.handOff at hs
  unfold InTime at hok
  cases hh : s.handoff t <;> simp only [hh, Option.some.injEq, reduceCtorEq] at hok hs
  case storeCode code =>
    subst hs
    have hw : ∀ i, Kept (s.modify t fun x => { x with exitCode := code }) i :=
      kept_modify h t rfl rfl rfl id
    refine kept_setHandoff hw (fun i hi hold => .inl ?_) (fun i hi ht => ?_)
    · rcases hold with ⟨-, hthread, hwaiter⟩ | hserves
      · refine ⟨?_, hthread, hwaiter⟩
        rw [State.modify_self] at hthread
        simp only at hthread
        simp [SlotUnread, State.setHandoff, hthread]
      · simp [Serves, State.modify, hh] at hserves
    · obtain ⟨-, hthread, -⟩ := (h i).slot hi
      rw [show s.target i = t from ht] at hthread
      simp [SlotUnread, State.setHandoff, hthread]
  case loadSlot =>
    subst hs
    refine kept_setHandoff h (fun i hi hold => .inr (.inl ?_)) (fun i hi ht => ?_)
    · rcases hold with ⟨-, -, hwaiter⟩ | hserves
      · simp [Serves, State.setHandoff, hwaiter]
      · simp [Serves, hh] at hserves
    · obtain ⟨-, -, hwaiter⟩ := (h i).slot hi
      exact absurd ⟨hi, ht⟩ (hok trivial i (ht ▸ hwaiter))
  case checkTarget j =>
    have hread : ¬ SlotUnread s t := by simp [SlotUnread, hh]
    split_ifs at hs with htarget <;> cases hs
    · refine kept_serve h hread (fun i hi hold => .inl ?_)
      obtain rfl : j = i := by simpa [Serves, hh] using hold
      simp [Serves, State.setHandoff]
    · refine kept_serve (kept_dropRead h hread) hread (fun i hi hold => ?_)
      obtain rfl : j = i := by simpa [Serves, State.modify, hh] using hold
      exact absurd ((State.modify_field Tcb.joinTargetId (by rfl) j).symm.trans hi) htarget
  case storeStatus j =>
    subst hs
    have hread : ¬ SlotUnread s t := by simp [SlotUnread, hh]
    refine kept_serve (kept_modify h j rfl rfl rfl id) hread (fun i hi hold => .inl ?_)
    obtain rfl : j = i := by simpa [Serves, State.modify, hh] using hold
    simp [Serves, State.setHandoff]
  case storeReady j =>
    subst hs
    have hread : ¬ SlotUnread s t := by simp [SlotUnread, hh]
    refine kept_serve (kept_modify h j rfl rfl rfl (fun _ => rfl)) hread (fun i hi hold => .inr ?_)
    obtain rfl : j = i := by simpa [Serves, State.modify, hh] using hold
    rw [State.modify_self]
  case wake j =>
    have hread : ¬ SlotUnread s t := by simp [SlotUnread, hh]
    split_ifs at hs <;> cases hs
    · refine kept_serve (kept_modify h j rfl rfl rfl id) hread (fun i hi hold => ?_)
      simp [Serves, State.modify, hh] at hold
    · refine kept_serve h hread (fun i hi hold => ?_)
      simp [Serves, hh] at hold

theorem kept_start (hout : s.pc j = .out) {c : Call n} :
    ∀ i, Kept { s.setPc j .pass with call := update s.call j c } i := by
  intro i
  by_cases hij : i = j
  · subst hij
    refine ⟨fun t ht => ?_, fun hp => ?_, fun hp => ?_⟩
    · refine ((h i).expected t ht).imp id (.imp id (.imp id fun hclear => ?_))
      simp [Clearing, hout] at hclear
    · simp [setPc] at hp
    · simp [setPc, Found] at hp
  · exact (h i).congr rfl rfl (update_of_ne hij ..) (update_of_ne hij ..)

theorem kept_step {a : Action n} (hok : InTime s a) (hs : step s a = some s') : ∀ i, Kept s' i := by
  cases a with try obtain ⟨hguard, rfl⟩ := ite_some_none_eq_some.mp hs
  | start j t detaching => exact kept_start h hguard.1
  | advance j choice => exact kept_advance h hok hs
  | terminate t code =>
    refine kept_setHandoff (kept_modify h t rfl rfl rfl id) (fun i hi hold => .inl ?_)
      (fun i hi ht => ?_)
    · rcases hold with ⟨-, hawaits⟩ | hserves
      · exact ⟨by simp [SlotUnread, State.setHandoff], hawaits⟩
      · simp [Serves, State.modify, hguard] at hserves
    · simp [SlotUnread, State.setHandoff]
  | handOff t => exact kept_handOff h hok hs
  | wake j => exact kept_modify h j rfl rfl rfl id
  | claim t | unlist t => exact kept_modify h t rfl rfl rfl id
  | cleanup j => exact kept_cleanup h

end

/-- In a run whose registrations are in time no joiner is left waiting for a thread that has
finished its hand-off. -/
theorem no_lost_wake_up {s₀ : State n} (h₀ : Start s₀) {as : List (Action n)}
    (hrun : Run step InTime s₀ as s) (j t : Fin n) : ¬ Stranded s j t := by
  have hkept : ∀ i, Kept s i := hrun.invariant (I := fun s => ∀ i, Kept s i)
    (fun _ _ _ h hok hs => kept_step h hok hs) h₀.kept
  exact (hkept j).not_stranded t

/-- Task 0 blocks in a join of thread 1, which exits then and sets the latch. -/
theorem no_lost_wake_up_latched :
    ∃ s : State 2,
      Run step InTime (threads 2) (.start 0 1 false :: advances 0 8 ++ terminates 1 7 6) s ∧
        (s.handoff 1 = .finished ∧ (s.tcb 0).joinReady = true) ∧ ¬ Stranded s 0 1 := by
  exact Run.exists_and_of_exec (by decide +kernel) fun _ hrun _ =>
    no_lost_wake_up (threads_start 2) hrun 0 1

/-- The hand-off falls between the look and the registration, or between its two stores. -/
theorem wake_up_lost :
    (∃ s : State 2, Run step anyStep (threads 2)
      (.start 0 1 false :: advances 0 5 ++ terminates 1 7 2 ++ advances 0 3) s ∧
        Stranded s 0 1) ∧
    ∃ s : State 2, Run step anyStep (threads 2)
      (.start 0 1 false :: advances 0 6 ++ terminates 1 7 3 ++ advances 0 2) s ∧
        Stranded s 0 1 :=
  ⟨Run.exists_of_exec (by decide +kernel),
    Run.exists_of_exec (by decide +kernel)⟩

end Nexios.Join
