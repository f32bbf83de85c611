import Nexios.Cap.SlotHistory

/-!
# Authority confinement

A slot filled by `copy`, `grant` or `mint` receives no right that its source slot did not hold, on
the same object, at some earlier moment of the run. Iterating this, every right in every slot goes
back to a kernel install on the object.

The calls look at the source slot twice, and between the two looks it may be recycled. What ties the
looks together is the generation word, so the result needs fewer than `2 ^ 32` refills in between;
with that many, the word is back at its old value.
-/

namespace Nexios.Cap

open CapRights State List CNode

variable {n k : ℕ} {s u : State n} {a : Action n} {ok : State n → Action n → Prop} {o : ObjId}
  {q : Request} {rights : CapRights} {c : ObjId}

open State

theorem Transition.births_cases (htr : Transition s a u) :
    (u.births = s.births ∧ u.fills = s.fills) ∨ ∃ t r rest i, s.stack t = .fill r :: rest ∧
      u.births = s.birthOf r i (s.slot r.dst i).gen :: s.births ∧
      ∀ c j, s.fills c j ≤ u.fills c j := by
  cases htr with
  | fill t r rest i hst =>
    refine .inr ⟨t, r, rest, i, hst, rfl, ?_⟩
    intro c j
    by_cases hc : c = r.dst
    · subst c
      by_cases hj : j = i <;> simp [hj]
    · simp [hc]
  | _ => exact .inl ⟨rfl, rfl⟩

theorem births_mono {as : List (Action n)} (hr : Run step ok s as u) :
    (∀ b ∈ s.births, b ∈ u.births) ∧ ∀ c j, s.fills c j ≤ u.fills c j := by
  refine hr.relation (R := fun s u => (∀ b ∈ s.births, b ∈ u.births) ∧
    ∀ c j, s.fills c j ≤ u.fills c j) (fun s => ⟨fun _ h => h, fun _ _ => le_refl _⟩) ?_ ?_
  · intro s t u hst htu
    exact ⟨fun b hb => htu.1 b (hst.1 b hb), fun c j => (hst.2 c j).trans (htu.2 c j)⟩
  intro s a u _ hs
  rcases (step_transition hs).births_cases with ⟨hb, hf⟩ | ⟨t, r, rest, i, -, hb, hf⟩
  · rw [hb, hf]
    exact ⟨fun _ h => h, fun _ _ => le_refl _⟩
  · rw [hb]
    exact ⟨fun _ h => mem_cons_of_mem _ h, hf⟩

def State.secondLook (s : State n) : Action n → Option Request
  | .resume t => match (s.stack t).head? with
    | some (.reread q) => some q
    | _ => none
  | _ => none

/-- A second look comes before the source slot has been refilled `2 ^ 32` times. -/
def promptReread (s : State n) (a : Action n) : Prop :=
  ∀ q ∈ s.secondLook a, s.fills q.source.node q.source.idx - (q.source.fill + 1) < 2 ^ 32
  deriving Decidable

/-- In `m` the slot that the handle of `q` names is filled, still by the occupancy that the lookup
of `q` saw, and holds at least `rights` on `o`. -/
structure SourceHeld (m : State n) (q : Request) (o : ObjId) (rights : CapRights) : Prop where
  occupied : (m.slot q.src (handleSlot q.handle).toNat).occupied = true
  gen : (m.slot q.src (handleSlot q.handle).toNat).gen = handleGen q.handle
  occ : m.current q.src (handleSlot q.handle).toNat = q.source
  obj : (m.slot q.src (handleSlot q.handle).toNat).obj = some o
  rights : CapRights.Within rights (m.slot q.src (handleSlot q.handle).toNat).rights

/-- At an earlier moment of a run to `s`, the source of `q` held `rights` on `o`. -/
def Vouched (ok : State n → Action n → Prop) (s : State n) (q : Request) (o : ObjId)
    (rights : CapRights) (P : State n → Prop) : Prop :=
  ∃ m as bs, Run step ok (init n) as m ∧ Run step ok m bs s ∧
    SourceHeld m q o rights ∧ P m

/-- The right `k` on `o` was handed out by a kernel install. -/
def Rooted (s : State n) (o : ObjId) (k : ℕ) : Prop :=
  ∃ b ∈ s.births, b.origin = .kernel ∧ b.obj = o ∧ b.rights.getLsbD k = true

structure Confined (ok : State n → Action n → Prop) (s : State n) : Prop where
  reach : ∃ as, Run step ok (init n) as s
  request : ∀ t q, .reread q ∈ s.stack t → ∃ p ∈ s.births, p.occ = q.source ∧ p.obj = q.target ∧
    p.gen = handleGen q.handle ∧ q.source.node = q.src ∧
    q.source.idx = (handleSlot q.handle).toNat
  pending : ∀ t r q, .acquire r ∈ s.stack t ∨ .fill r ∈ s.stack t → r.origin = .derived q →
    Vouched ok s q r.obj r.rights (fun _ => True)
  derived : ∀ b ∈ s.births, ∀ q, b.origin = .derived q →
    Vouched ok s q b.obj b.rights (b ∉ ·.births)
  rooted : ∀ b ∈ s.births, ∀ k, b.rights.getLsbD k → Rooted s b.obj k

theorem confined_init (ok : State n → Action n → Prop) : Confined ok (init n) where
  reach := ⟨[], .nil _⟩
  request _ _ h := by cases h
  pending _ _ _ h := by rcases h with h | h <;> cases h
  derived _ h := by cases h
  rooted _ h := by cases h

theorem Vouched.step {P : State n → Prop} (h : Vouched ok s q o rights P) (hok : ok s a)
    (hs : s.step a = some u) : Vouched ok u q o rights P := by
  obtain ⟨m, as, bs, hm, hms, hheld, hP⟩ := h
  exact ⟨m, as, bs ++ [a], hm, hms.append (.single hok hs), hheld, hP⟩

theorem Rooted.mono (h : Rooted s o k) (hb : ∀ b ∈ s.births, b ∈ u.births) : Rooted u o k := by
  obtain ⟨b, hmem, hrest⟩ := h
  exact ⟨b, hb b hmem, hrest⟩

theorem Derive.effective_within (kind : Derive) (r : CapRights) :
    CapRights.Within (kind.effective r) r := by
  cases kind with
  | copy mask op => exact and_within_right mask r
  | grant => exact within_refl r

theorem SlotHistory.lookup_birth (h : SlotHistory s) {handle : BitVec 64} {want : CapType}
    {need : CapRights} (hl : (s.node c).lookup handle want need = some o) (hd : s.disposed c = 0) :
    ∃ p ∈ s.births, p.occ = s.current c (handleSlot handle).toNat ∧ p.obj = o ∧
      p.gen = handleGen handle := by
  obtain ⟨-, hocc, hgen, -, hobj⟩ := lookup_eq_some hl
  obtain ⟨p, hp, hpocc, hpobj, -⟩ := h.occupant c _ hocc
  refine ⟨p, hp, hpocc, ?_, ?_⟩
  · exact Option.some.inj (hpobj.symm.trans hobj)
  · have hslot := h.gen c (handleSlot handle).toNat hd
    rw [(h.birth p hp).1, hpocc, hgen]
    rw [slot, hocc] at hslot
    exact hslot.symm

/-- While the generation has not come round, a slot whose generation is that of an earlier fill is
still in that fill. -/
theorem SlotHistory.same_occupancy (h : SlotHistory s) {i : ℕ} {p : Birth} (hp : p ∈ s.births)
    (hnode : p.occ.node = c) (hidx : p.occ.idx = i) (hd : s.disposed c = 0)
    (hocc : (s.slot c i).occupied) (hgen : (s.slot c i).gen = p.gen)
    (hclose : s.fills c i - (p.occ.fill + 1) < 2 ^ 32) : s.current c i = p.occ := by
  obtain ⟨hpgen, hlt, -⟩ := h.birth p hp
  rw [hnode, hidx] at hlt
  have hg := h.gen c i hd
  rw [hgen, hpgen, hocc] at hg
  have hfill : p.occ.fill = s.fills c i - 1 := ofNat_inj_of_close (by omega) (by omega) hg
  rw [current, ← hfill, ← hnode, ← hidx]

theorem Confined.reread (hc : Confined ok s) (h : SlotHistory s) {t : Fin n} {rest : List Frame}
    {type : CapType} (hst : s.stack t = .reread q :: rest) (hlive : s.liveNode q.src)
    (hr : (s.node q.src).reread q.handle q.kind.opMask = some (type, rights))
    (hclose : s.fills q.source.node q.source.idx - (q.source.fill + 1) < 2 ^ 32) :
    SourceHeld s q q.target (q.kind.effective rights) := by
  obtain ⟨p, hp, hpocc, hpobj, hpgen, hnode, hidx⟩ :=
    hc.request t q (by rw [hst]; exact mem_cons_self)
  obtain ⟨-, hocc, hgen, -, hrights⟩ := reread_eq_some hr
  obtain ⟨-, hd, -⟩ := (s.liveNode_iff q.src).mp hlive
  have hcur : s.current q.src (handleSlot q.handle).toNat = p.occ := by
    refine h.same_occupancy hp (by rw [hpocc, hnode]) (by rw [hpocc, hidx]) hd hocc ?_ ?_
    · rw [hpgen]
      exact hgen
    · rw [hpocc, ← hnode, ← hidx]
      exact hclose
  obtain ⟨b, hb, hbocc, hbobj, -⟩ := h.occupant q.src _ hocc
  have hbp : b = p := h.unique b hb p hp (hbocc.trans hcur)
  refine ⟨hocc, hgen, hcur.trans hpocc, ?_, ?_⟩
  · rw [hbobj, hbp, hpobj]
  · rw [hrights]
    exact q.kind.effective_within _

theorem Confined.step
    (hprompt : promptReread s a) (hok : ok s a) (hs : s.step a = some u) (hc : Confined ok s) :
    Confined ok u := by
  obtain ⟨as, hrun⟩ := hc.reach
  have h : SlotHistory s := .of_run hrun
  have htr := step_transition hs
  have hone : Run State.step ok s [a] u := .single hok hs
  have hmono := (births_mono hone).1
  have hpending : ∀ t r q, .acquire r ∈ s.stack t ∨ .fill r ∈ s.stack t → r.origin = .derived q →
      Vouched ok u q r.obj r.rights (fun _ => True) :=
    fun t r q hm ho => (hc.pending t r q hm ho).step hok hs
  constructor
  case reach => exact ⟨as ++ [a], hrun.append hone⟩
  case request =>
    intro t q hm
    rcases htr.mem_stack hm with hold | hnew
    · obtain ⟨p, hp, hrest⟩ := hc.request t q hold
      exact ⟨p, hmono p hp, hrest⟩
    · cases hnew with
      | lookup src dst o handle kind hlive hl =>
        obtain ⟨-, hd, -⟩ := (s.liveNode_iff src).mp hlive
        obtain ⟨p, hp, hocc, hobj, hgen⟩ := h.lookup_birth hl hd
        exact ⟨p, hmono p hp, hocc, hobj, hgen, rfl, rfl⟩
  case pending =>
    intro t r q hm ho
    rcases hm with hm | hm
    · rcases htr.mem_stack hm with hold | hnew
      · exact hpending t r q (.inl hold) ho
      cases hnew with
      | install _ hk =>
        rw [hk] at ho
        cases ho
      | reread t' q' rest type rights ha hst hlive hr =>
        cases ho
        have hlook : s.secondLook a = some q := by rw [ha, State.secondLook, hst]; rfl
        have hheld := hc.reread h hst hlive hr (hprompt q hlook)
        exact ⟨s, as, [a], hrun, hone, hheld, trivial⟩
    · rcases htr.mem_stack hm with hold | hnew
      · exact hpending t r q (.inr hold) ho
      · cases hnew with
        | acquire t' _ hold => exact hpending t' r q (.inl hold) ho
  case derived =>
    intro b hb q ho
    rcases htr.births_cases with ⟨hbs, -⟩ | ⟨t, r, rest, i, hst, hbs, -⟩ <;> rw [hbs] at hb
    · exact (hc.derived b hb q ho).step hok hs
    rcases mem_cons.mp hb with rfl | hold
    · have hm : Frame.fill r ∈ s.stack t := by
        rw [hst]
        exact mem_cons_self
      obtain ⟨m, as', bs, hm, hms, hheld, -⟩ := hc.pending t r q (.inr hm) ho
      refine ⟨m, as', bs ++ [a], hm, hms.append hone, hheld, ?_⟩
      intro hmem
      have hlt := (SlotHistory.of_run hm).birth _ hmem
      have hle := (births_mono hms).2 r.dst i
      simp only [birthOf] at hlt
      omega
    · exact (hc.derived b hold q ho).step hok hs
  case rooted =>
    intro b hb k hk
    rcases htr.births_cases with ⟨hbs, -⟩ | ⟨t, r, rest, i, hst, hbs, -⟩
    · rw [hbs] at hb
      exact (hc.rooted b hb k hk).mono hmono
    have hnew := hb
    rw [hbs] at hb
    rcases mem_cons.mp hb with rfl | hold
    · cases ho : r.origin with
      | kernel => exact ⟨_, hnew, ho, rfl, hk⟩
      | derived q =>
        have hm : Frame.fill r ∈ s.stack t := by
          rw [hst]
          exact mem_cons_self
        obtain ⟨m, as', bs, hm, hms, hheld, -⟩ := hc.pending t r q (.inr hm) ho
        obtain ⟨p, hp, -, hobj, hrights⟩ := (SlotHistory.of_run hm).occupant _ _ hheld.occupied
        have hbit := (within_iff _ _).mp (hheld.rights.trans hrights) k hk
        have hpobj : p.obj = r.obj := Option.some.inj (hobj.symm.trans hheld.obj)
        have hroot := hc.rooted p ((births_mono hms).1 p hp) k hbit
        rw [hpobj] at hroot
        exact hroot.mono hmono
    · exact (hc.rooted b hold k hk).mono hmono

/-- In every run whose second looks are prompt, a slot filled by copy, grant or mint got its rights
from its source slot, which held them on the same object before; and every right in a slot was
handed out by a kernel install on that object. -/
theorem rights_confined {s : State n} {as : List (Action n)}
    (hr : Run step promptReread (init n) as s) :
    (∀ b ∈ s.births, ∀ q, b.origin = .derived q →
      Vouched promptReread s q b.obj b.rights (b ∉ ·.births)) ∧
    ∀ c i o, (s.slot c i).occupied → (s.slot c i).obj = some o →
      ∀ k, (s.slot c i).rights.getLsbD k → Rooted s o k := by
  have hc : Confined promptReread s :=
    hr.invariant (fun _ _ _ h hok hs => h.step hok hok hs) (confined_init _)
  refine ⟨hc.derived, ?_⟩
  intro c i o hocc hobj k hk
  obtain ⟨b, hb, -, hbobj, hrights⟩ := (SlotHistory.of_run hr).occupant c i hocc
  have hbo : b.obj = o := Option.some.inj (hbobj.symm.trans hobj)
  have hroot := hc.rooted b hb k ((within_iff _ _).mp hrights k hk)
  rwa [hbo] at hroot

def copyOnce : List (Action 1) :=
  [.createNode 0 0#32, .createNode 0 1#32, .createObject 0,
    .install 0 0 2 .frame read, .resume 0, .resume 0, .copy 0 0 0#64 1,
    .resume 0, .resume 0, .resume 0]

theorem rights_confined_copyOnce :
    ∃ s, Run step promptReread (init 1) copyOnce s ∧ ∃ b ∈ s.births, ∃ q,
      b.origin = .derived q ∧ Vouched promptReread s q b.obj b.rights (b ∉ ·.births) := by
  let s := (exec step promptReread (init 1) copyOnce).getD (init 1)
  have hr : Run step promptReread (init 1) copyOnce s := .of_exec rfl
  refine ⟨s, hr, s.births.head (by decide), head_mem _, _, rfl, ?_⟩
  exact (rights_confined hr).1 _ (head_mem _) _ rfl

/-- The copy under way in the recycling run: object `2` from slot `0` of node `0` to node `1`. -/
def slowCopy : Request :=
  ⟨0, 0#64, 1, 2, .copy (read ||| write ||| copy ||| grant)
    kCapBrokerAllowCopy, ⟨0, 0, 0⟩⟩

def readWrite : CapRights := read ||| write

/-- Thread `1` empties and refills slot `0` of node `0`. -/
def recycle : List (Action 2) :=
  [.remove 1 0 0, .resume 1, .install 1 0 3 .frame readWrite, .resume 1, .resume 1]

/-- The copy has made its lookup, and the slot has been recycled `k` times since. -/
structure Recycled (k : ℕ) (s : State 2) : Prop where
  copying : s.stack 0 = [.reread slowCopy, .release 2]
  idle : s.stack 1 = []
  next : s.next = 4
  disposed : ∀ o, s.disposed o = 0
  nodes : (s.obj 0).isNode = true ∧ (s.obj 1).isNode = true
  copied : (s.obj 2).revoked = false
  other : s.obj 3 = { refCount := 2#32 }
  source : s.slot 0 0 = ⟨some 3, .frame, readWrite, BitVec.ofNat 32 k, true⟩
  policy : (s.node 0).policyWord = kCapBrokerAllowAll
  dest : s.node 1 = { cspaceId := 1#32 }
  births : ∀ b ∈ s.births, b.obj = 2 → b.rights = read

theorem Recycled.recycle {s : State 2} (h : Recycled k s) :
    ∃ u, Run step anyStep s recycle u ∧ Recycled (k + 1) u := by
  have hnode : s.liveNode 0 = true := by
    rw [liveNode_iff, h.next]
    exact ⟨by decide, h.disposed 0, h.nodes.1⟩
  have hslot : (s.node 0).slots 0 = ⟨some 3, .frame, readWrite, BitVec.ofNat 32 k, true⟩ := h.source
  let m₁ := (s.node 0).setSlot 0 (freed ((s.node 0).slots 0))
  let s₁ := s.vacate 1 0 0 m₁ [.release 3]
  have h₁ : s.step (.remove 1 0 0) = some s₁ := by
    simp [step, h.idle, hnode, remove, hslot, cslotCount, s₁, m₁]
  let s₂ := (s₁.setObj 3 { refCount := 1#32 }).setStack 1 []
  have h₂ : s₁.step (.resume 1) = some s₂ := by
    simp [step, stepFrame, s₁, s₂, live, h.next, h.disposed, h.other, KernelObject.release]
  let s₃ := s₂.setStack 1 [.acquire ⟨0, 3, .frame, readWrite, .kernel⟩]
  have h₃ : s₂.step (.install 1 0 3 .frame readWrite) = some s₃ := by
    simp [step, s₂, s₃]
  let s₄ := (s₃.setObj 3 { refCount := 2#32 }).setStack 1 [.fill ⟨0, 3, .frame, readWrite, .kernel⟩]
  have h₄ : s₃.step (.resume 1) = some s₄ := by
    simp [step, stepFrame, s₁, s₂, s₃, s₄, live, h.next, h.disposed, KernelObject.acquire]
  let r : Install := ⟨0, 3, .frame, readWrite, .kernel⟩
  let m₅ := m₁.setSlot 0 ⟨some 3, .frame, readWrite, BitVec.ofNat 32 (k + 1), true⟩
  let s₅ := ((s₄.recordFill r 0 (BitVec.ofNat 32 (k + 1))).setNode 0 m₅).setStack 1 []
  have hgen : BitVec.ofNat 32 k + 1#32 = BitVec.ofNat 32 (k + 1) := ofNat_pred_succ (Nat.succ_pos k)
  have hm₄ : s₄.node 0 = m₁ := by simp [s₁, s₂, s₃, s₄]
  have h₅ : s₄.step (.resume 1) = some s₅ := by
    have hfree : m₁.freeSlot = some 0 := freeSlot_zero (by simp [m₁, freed])
    have hlive : s₄.liveNode 0 = true := by
      rw [liveNode_iff]
      simp [s₁, s₂, s₃, s₄, h.next, h.disposed, h.nodes]
    have hst : s₄.stack 1 = [.fill r] := by simp [s₄, r]
    simp only [step, hst, stepFrame, r, hlive, if_true, hm₄, install, hfree]
    simp [s₅, m₅, m₁, r, afterFill, freed, hslot, hgen]
  refine ⟨s₅, .cons trivial h₁ (.cons trivial h₂ (.cons trivial h₃ (.cons trivial h₄
    (.single trivial h₅)))), ?_⟩
  constructor
  case copying => simp [s₁, s₂, s₃, s₄, s₅, h.copying]
  case idle => simp [s₅]
  case next => simp [s₁, s₂, s₃, s₄, s₅, h.next]
  case disposed => simp [s₁, s₂, s₃, s₄, s₅, h.disposed]
  case nodes => simp [s₁, s₂, s₃, s₄, s₅, h.nodes]
  case copied => simp [s₁, s₂, s₃, s₄, s₅, h.copied]
  case other => simp [s₄, s₅]
  case source => simp [s₅, slot, m₅]
  case policy => simp [s₅, m₅, m₁, setSlot, h.policy]
  case dest => simp [s₁, s₂, s₃, s₄, s₅, h.dest]
  case births =>
    intro b hb hobj
    rcases mem_cons.mp hb with rfl | hold
    · cases hobj
    · exact h.births b hold hobj

/-- Two nodes, two objects, a read-only slot, the lookup of the copy, and a first recycling. -/
def beginCopy : List (Action 2) :=
  [.createNode 0 0#32, .createNode 0 1#32, .createObject 0, .createObject 0,
    .install 0 0 2 .frame read, .resume 0, .resume 0, .copy 0 0 0#64 1] ++ recycle

theorem recycled_beginCopy : ∃ s, Run step anyStep (init 2) beginCopy s ∧ Recycled 1 s := by
  let s := (exec step anyStep (init 2) beginCopy).getD (init 2)
  refine ⟨s, .of_exec rfl, rfl, rfl, rfl, fun _ => rfl, ⟨rfl, rfl⟩, rfl, rfl, rfl, rfl, rfl, ?_⟩
  have hb : s.births.map (fun b => (b.obj, b.rights)) = [(3, readWrite), (2, read)] := rfl
  intro b hmem hobj
  have hp := mem_map_of_mem (f := fun b : Birth => (b.obj, b.rights)) hmem
  rw [hb] at hp
  simp only [hobj] at hp
  simpa using hp

theorem Recycled.finish {s : State 2} (h : Recycled k s) (hk : BitVec.ofNat 32 k = 0#32) :
    ∃ u, Run step anyStep s [.resume 0, .resume 0, .resume 0] u ∧
      u.births = ⟨⟨1, 0, s.fills 1 0⟩, 0#32, 2, .frame, readWrite, .derived slowCopy⟩ :: s.births ∧
      u.slot 1 0 = ⟨some 2, .frame, readWrite, 0#32, true⟩ := by
  have hsrc : (s.node 0).slots 0 = ⟨some 3, .frame, readWrite, 0#32, true⟩ := by
    rw [← hk]
    exact h.source
  let r : Install := ⟨1, 2, .frame, readWrite, .derived slowCopy⟩
  let s₁ := s.setStack 0 [.acquire r, .release 2]
  have h₁ : s.step (.resume 0) = some s₁ := by
    have hlive : s.liveNode 0 = true := by
      rw [liveNode_iff, h.next]
      exact ⟨by decide, h.disposed 0, h.nodes.1⟩
    have hre : (s.node 0).reread 0#64 kCapBrokerAllowCopy = some (.frame, readWrite) := by
      simp [reread, handleSlot, hsrc, h.policy]
      decide
    simp only [step, h.copying, stepFrame, slowCopy, hlive, Derive.opMask, hre]
    rfl
  let k₂ : KernelObject := { s.obj 2 with refCount := (s.obj 2).refCount + 1#32 }
  let s₂ := (s₁.setObj 2 k₂).setStack 0 [.fill r, .release 2]
  have h₂ : s₁.step (.resume 0) = some s₂ := by
    simp [step, stepFrame, s₁, s₂, k₂, r, live, h.next, h.disposed, KernelObject.acquire, h.copied]
  let m₃ := (s.node 1).setSlot 0 ⟨some 2, .frame, readWrite, 0#32, true⟩
  let s₃ := ((s₂.recordFill r 0 0#32).setNode 1 m₃).setStack 0 [.release 2]
  have h₃ : s₂.step (.resume 0) = some s₃ := by
    have hnode : s₂.node 1 = s.node 1 := rfl
    have hfree : (s.node 1).freeSlot = some 0 := freeSlot_zero (by rw [h.dest])
    have hlive : s₂.liveNode 1 = true := by
      rw [liveNode_iff]
      simp [s₁, s₂, h.next, h.disposed, h.nodes]
    have hst : s₂.stack 0 = [.fill r, .release 2] := by simp [s₂]
    simp only [step, hst, stepFrame, r, hlive, hnode, install, hfree]
    simp [s₃, m₃, r, afterFill, h.dest, slowCopy]
  refine ⟨s₃, .cons trivial h₁ (.cons trivial h₂ (.single trivial h₃)), rfl, ?_⟩
  simp [s₃, m₃, slot]

theorem copy_widens_after_wraparound :
    ∃ as s, Run step anyStep (init 2) as s ∧
      (s.slot 1 0).obj = some 2 ∧ CapRights.Within write (s.slot 1 0).rights ∧
      ∃ b ∈ s.births, b.origin = .derived slowCopy ∧ b.occ.node = 1 ∧ b.occ.idx = 0 ∧
        ∀ p ∈ s.births, p ≠ b → p.obj = 2 → ¬ CapRights.Within write p.rights := by
  obtain ⟨s, hs, h⟩ := recycled_beginCopy
  obtain ⟨as, t, ht, hrec⟩ := Run.iterate (P := fun k s => Recycled k s) (fun k s h => h.recycle)
    (2 ^ 32 - 1) 1 h
  obtain ⟨u, hu, hbirths, hslot⟩ := hrec.finish (by decide)
  refine ⟨_, u, hs.append (ht.append hu), ?_, ?_, ?_⟩
  · rw [hslot]
  · rw [hslot]
    decide
  refine ⟨_, by rw [hbirths]; exact mem_cons_self, rfl, rfl, rfl, ?_⟩
  intro p hp hne hobj
  rw [hbirths] at hp
  rcases mem_cons.mp hp with he | hold
  · exact absurd he hne
  · rw [hrec.births p hold hobj]
    decide

end Nexios.Cap
