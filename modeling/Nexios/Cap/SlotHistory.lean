import Nexios.Cap.Transition

/-!
# Slots and their histories

The generation word of a slot counts, modulo `2 ^ 32`, how often the slot has been vacated. The
occupant of a slot is the capability of its last fill, possibly with fewer rights. These facts hold
in every state of every run, whatever the interleaving.
-/

open Function List

namespace Nexios.Cap

open CapRights

variable {n : ℕ} {m : CNode}

open State

namespace State

def slot (s : State n) (c : ObjId) (i : ℕ) : CSlot := (s.node c).slots i

theorem slot_update (s : State n) (c : ObjId) (i : ℕ) (x : CSlot) (c' : ObjId) (j : ℕ) :
    ((update s.node c ((s.node c).setSlot i x)) c').slots j =
      if c' = c ∧ j = i then x else s.slot c' j := by
  by_cases hc : c' = c
  · subst c'
    by_cases hj : j = i
    · subst j
      simp only [update_self, CNode.setSlot_same, and_self, if_true]
    · simp only [update_self, CNode.setSlot_ne _ _ hj, hj, and_false, if_false, slot]
  · simp only [update_of_ne hc, hc, false_and, if_false, slot]

theorem fills_recordFill (s : State n) (r : Install) (i : ℕ) (gen : BitVec 32) (c : ObjId) (j : ℕ) :
    (s.recordFill r i gen).fills c j =
      if c = r.dst ∧ j = i then s.fills r.dst i + 1 else s.fills c j := by
  by_cases hc : c = r.dst
  · subst c
    by_cases hj : j = i <;> simp [hj]
  · simp [hc]

theorem live_iff (s : State n) (o : ObjId) : s.live o = true ↔ o < s.next ∧ s.disposed o = 0 := by
  simp [live]

theorem liveNode_iff (s : State n) (c : ObjId) :
    s.liveNode c = true ↔ c < s.next ∧ s.disposed c = 0 ∧ (s.obj c).isNode = true := by
  simp [liveNode, live, and_assoc]

end State

/-- Generation that a slot with this history carries. -/
def expectedGen (occupied : Bool) (fills : ℕ) : BitVec 32 :=
  BitVec.ofNat 32 (if occupied then fills - 1 else fills)

theorem ofNat_pred_succ {f : ℕ} (hf : 0 < f) :
    BitVec.ofNat 32 (f - 1) + 1#32 = BitVec.ofNat 32 f := by
  apply BitVec.eq_of_toNat_eq
  simp only [BitVec.toNat_add, BitVec.toNat_ofNat]
  omega

theorem ofNat_inj_of_close {f g : ℕ} (hle : f ≤ g) (hlt : g - f < 2 ^ 32)
    (h : BitVec.ofNat 32 f = BitVec.ofNat 32 g) : f = g := by
  have hn := congrArg BitVec.toNat h
  simp only [BitVec.toNat_ofNat] at hn
  omega

/-- The slot of `x` keeps the occupant of `y` with at most its rights. -/
structure CSlot.Narrows (x y : CSlot) : Prop where
  gen : x.gen = y.gen
  occupied : x.occupied = y.occupied
  obj : x.obj = y.obj
  type : x.type = y.type
  rights : CapRights.Within x.rights y.rights

theorem CSlot.Narrows.refl (x : CSlot) : x.Narrows x := ⟨rfl, rfl, rfl, rfl, within_refl _⟩

theorem CNode.narrows_clearGrant (m : CNode) (i j : ℕ) :
    ((m.clearGrant i).slots j).Narrows (m.slots j) := by
  unfold CNode.clearGrant
  split_ifs with hc
  · by_cases hj : j = i
    · subst j
      rw [CNode.setSlot_same]
      exact ⟨rfl, rfl, rfl, rfl, and_within_left _ _⟩
    · rw [CNode.setSlot_ne _ _ hj]
      exact .refl _
  · exact .refl _

theorem narrows_update (s : State n) {c : ObjId} (hm : ∀ j, (m.slots j).Narrows (s.slot c j))
    (c' : ObjId) (j : ℕ) : ((update s.node c m c').slots j).Narrows (s.slot c' j) := by
  by_cases hc : c' = c
  · subst c'
    rw [update_self]
    exact hm j
  · rw [update_of_ne hc]
    exact .refl _

structure SlotHistory (s : State n) : Prop where
  gen : ∀ c i, s.disposed c = 0 →
    (s.slot c i).gen = expectedGen (s.slot c i).occupied (s.fills c i)
  filled : ∀ c i, (s.slot c i).occupied → 0 < s.fills c i
  fresh : ∀ c i, s.next ≤ c → s.fills c i = 0
  occupant : ∀ c i, (s.slot c i).occupied → ∃ b ∈ s.births, b.occ = s.current c i ∧
    (s.slot c i).obj = some b.obj ∧ CapRights.Within (s.slot c i).rights b.rights
  birth : ∀ b ∈ s.births, b.gen = BitVec.ofNat 32 b.occ.fill ∧
    b.occ.fill < s.fills b.occ.node b.occ.idx ∧ b.occ.idx < cslotCount
  unique : ∀ b ∈ s.births, ∀ b' ∈ s.births, b.occ = b'.occ → b = b'
  removed : ∀ o ∈ s.removed, o.fill + 1 < s.fills o.node o.idx ∨
    (o.fill + 1 = s.fills o.node o.idx ∧ (s.slot o.node o.idx).occupied = false)
  disposing : ∀ t c i, Frame.dispose c i ∈ s.stack t → s.disposed c ≠ 0

theorem slotHistory_init (n : ℕ) : SlotHistory (State.init n) where
  gen _ _ _ := rfl
  filled _ _ h := by cases h
  fresh _ _ _ := rfl
  occupant _ _ h := by cases h
  birth _ h := by cases h
  unique _ h := by cases h
  removed _ h := by cases h
  disposing _ _ _ h := by cases h

namespace SlotHistory

variable {s u : State n} {c : ObjId} {i : ℕ} {x : CSlot} {t : Fin n} {fs rest : List Frame}

section

variable (h : SlotHistory s)
include h

/-- Every slot keeps its occupant with at most its rights, or is empty. -/
theorem reslot {nx : ObjId} {ob : ObjId → KernelObject} {nd : ObjId → CNode} {cr : Fin n → ObjId → ℕ}
    (hnext : s.next ≤ nx)
    (hslot : ∀ c j, ((nd c).slots j).Narrows (s.slot c j) ∨ ((nd c).slots j).occupied = false ∧
      (s.disposed c = 0 → ((nd c).slots j).gen = BitVec.ofNat 32 (s.fills c j))) :
    SlotHistory { s with next := nx, obj := ob, node := nd, creators := cr } := by
  have hkept : ∀ c j, ((nd c).slots j).occupied → ((nd c).slots j).Narrows (s.slot c j) := by
    intro c j hocc
    refine (hslot c j).resolve_right ?_
    rintro ⟨hx, -⟩
    rw [hx] at hocc
    cases hocc
  refine { h with
    gen := fun c j hc => ?gen
    filled := fun c j hc => h.filled c j ((hkept c j hc).occupied ▸ hc)
    fresh := fun c j hc => h.fresh c j (hnext.trans hc)
    occupant := fun c j hc => ?occupant
    removed := fun o ho => (h.removed o ho).imp_right (.imp_right fun hfree => ?removed) }
  case gen =>
    rcases hslot c j with hn | ⟨hx, hgen⟩
    · rw [slot, hn.gen, hn.occupied]
      exact h.gen c j hc
    · rw [slot, hx]
      exact hgen hc
  case occupant =>
    have hn := hkept c j hc
    obtain ⟨b, hb, hocc, hobj, hr⟩ := h.occupant c j (hn.occupied ▸ hc)
    exact ⟨b, hb, hocc, hn.obj.trans hobj, hn.rights.trans hr⟩
  case removed =>
    rcases hslot o.node o.idx with hn | ⟨hx, -⟩
    · exact hn.occupied.trans hfree
    · exact hx

theorem narrowed (hm : ∀ j, (m.slots j).Narrows (s.slot c j)) : SlotHistory (s.setNode c m) :=
  h.reslot le_rfl fun c' j => .inl (narrows_update s hm c' j)

theorem vacated (hx : x.occupied = false)
    (hgen : s.disposed c = 0 → x.gen = BitVec.ofNat 32 (s.fills c i)) :
    SlotHistory (s.setNode c ((s.node c).setSlot i x)) := by
  refine h.reslot le_rfl fun c' j => ?_
  rw [slot_update]
  split_ifs with hat
  · obtain ⟨rfl, rfl⟩ := hat
    exact .inr ⟨hx, hgen⟩
  · exact .inl (.refl _)

theorem created (t : Fin n) (isNode : Bool) (id : BitVec 32) :
    SlotHistory (s.create t { isNode := isNode } { cspaceId := id }) := by
  refine h.reslot (Nat.le_succ _) fun c j => ?_
  rw [update_apply]
  split_ifs with hat
  · refine .inr ⟨rfl, fun _ => ?_⟩
    rw [hat, h.fresh s.next j le_rfl]
  · exact .inl (.refl _)

theorem vacate (hocc : (s.slot c i).occupied)
    (hu : u = s.vacate t c i ((s.node c).setSlot i (CNode.freed (s.slot c i))) fs)
    (hdisp : ∀ t c i, Frame.dispose c i ∈ u.stack t → u.disposed c ≠ 0) : SlotHistory u := by
  have hgen : s.disposed c = 0 →
      (CNode.freed (s.slot c i)).gen = BitVec.ofNat 32 (s.fills c i) := by
    intro hd
    simp only [CNode.freed, h.gen c i hd, hocc]
    exact ofNat_pred_succ (h.filled c i hocc)
  have hv := h.vacated rfl hgen
  subst hu
  refine { hv with
    removed := forall_mem_cons.mpr ⟨.inr ⟨?_, ?_⟩, hv.removed⟩
    disposing := hdisp }
  · exact Nat.sub_add_cancel (h.filled c i hocc)
  · exact congrArg CSlot.occupied ((slot_update s c i _ c i).trans (if_pos ⟨rfl, rfl⟩))

theorem fill {r : Install} (hx : x = { s.slot r.dst i with
      obj := some r.obj, type := r.type, rights := r.rights, occupied := true })
    (hlive : s.liveNode r.dst) (hi : i < cslotCount)
    (hfree : (s.slot r.dst i).occupied = false)
    (hu : u = ((s.recordFill r i (s.slot r.dst i).gen).setNode r.dst
      ((s.node r.dst).setSlot i x)).setStack t (afterFill r ++ rest))
    (hdisp : ∀ t c i, .dispose c i ∈ u.stack t → u.disposed c ≠ 0) : SlotHistory u := by
  obtain ⟨hnext, hd, -⟩ := (s.liveNode_iff r.dst).mp hlive
  have hslot : ∀ c' j, u.slot c' j = if c' = r.dst ∧ j = i then x else s.slot c' j :=
    hu ▸ slot_update s r.dst i x
  have hfills : ∀ c' j, u.fills c' j =
      if c' = r.dst ∧ j = i then s.fills r.dst i + 1 else s.fills c' j :=
    hu ▸ fills_recordFill s r i (s.slot r.dst i).gen
  have hgen : (s.slot r.dst i).gen = BitVec.ofNat 32 (s.fills r.dst i) := by
    rw [h.gen r.dst i hd, hfree]
    rfl
  have hmono : ∀ c' j, s.fills c' j ≤ u.fills c' j := by
    intro c' j
    rw [hfills]
    split_ifs with hat
    · obtain ⟨rfl, rfl⟩ := hat
      omega
    · exact le_refl _
  subst hu
  constructor
  case gen =>
    intro c' j hc'
    rw [hslot, hfills]
    by_cases hat : c' = r.dst ∧ j = i
    · simp only [hat, and_self, if_true, hx, expectedGen, Nat.add_sub_cancel, hgen]
    · rw [if_neg hat, if_neg hat]
      exact h.gen c' j hc'
  case filled =>
    intro c' j hc'
    rw [hslot] at hc'
    rw [hfills]
    split_ifs at hc' ⊢ with hat
    · omega
    · exact h.filled c' j hc'
  case fresh =>
    intro c' j hc'
    rw [hfills, if_neg (by rintro ⟨rfl, -⟩; exact absurd hnext (not_lt.mpr hc'))]
    exact h.fresh c' j hc'
  case occupant =>
    intro c' j hc'
    rw [hslot] at hc' ⊢
    simp only [current, hfills]
    by_cases hat : c' = r.dst ∧ j = i
    · obtain ⟨rfl, rfl⟩ := hat
      refine ⟨_, mem_cons_self, ?_, ?_, ?_⟩
      · simp only [birthOf, and_self, if_true, Nat.add_sub_cancel]
      · simp only [birthOf, hx, and_self, if_true]
      · simp only [birthOf, hx, and_self, if_true, within_refl]
    · rw [if_neg hat] at hc' ⊢
      rw [if_neg hat]
      obtain ⟨b', hb', hrest⟩ := h.occupant c' j hc'
      exact ⟨b', mem_cons_of_mem _ hb', hrest⟩
  case birth =>
    refine forall_mem_cons.mpr ⟨⟨hgen, ?_, hi⟩, fun b hb => ?_⟩
    · simp only [birthOf, hfills, and_self, if_true]
      omega
    · obtain ⟨hg, hlt, hidx⟩ := h.birth b hb
      exact ⟨hg, lt_of_lt_of_le hlt (hmono _ _), hidx⟩
  case unique =>
    have hnew : ∀ b ∈ s.births, b.occ ≠ ⟨r.dst, i, s.fills r.dst i⟩ := by
      intro b hb he
      have hlt := (h.birth b hb).2.1
      rw [he] at hlt
      exact lt_irrefl _ hlt
    intro b₁ h₁ b₂ h₂ he
    rcases mem_cons.mp h₁ with hb₁ | hb₁ <;> rcases mem_cons.mp h₂ with hb₂ | hb₂
    · rw [hb₁, hb₂]
    · exact absurd (he.symm.trans (congrArg Birth.occ hb₁)) (hnew b₂ hb₂)
    · exact absurd (he.trans (congrArg Birth.occ hb₂)) (hnew b₁ hb₁)
    · exact h.unique b₁ hb₁ b₂ hb₂ he
  case removed =>
    intro o ho
    rw [hslot]
    have hle := hmono o.node o.idx
    rcases h.removed o ho with hlt | ⟨heq, hf⟩
    · exact .inl (by omega)
    by_cases hat : o.node = r.dst ∧ o.idx = i
    · rw [hfills, if_pos hat, heq, hat.1, hat.2]
      omega
    · refine .inr ⟨?_, ?_⟩
      · rw [hfills, if_neg hat, heq]
      · rw [if_neg hat, hf]
  case disposing => exact hdisp

theorem transition {a : Action n} (htr : Transition s a u) : SlotHistory u := by
  have hdisp := htr.disposing h.disposing
  have hdead := fun c => htr.disposed_ne_zero (c := c)
  cases htr with
  | idle => exact h
  | create _ t isNode id => exact h.created t isNode id
  | remove t c i _ _ _ hocc | revoke t c handle i _ _ _ hocc => exact h.vacate hocc rfl hdisp
  | clearGrant t c i => exact h.narrowed (CNode.narrows_clearGrant _ i)
  | setPolicyWord t c word => exact h.narrowed (fun _ => .refl _)
  | fill t r rest i hst hlive hf =>
    obtain ⟨hi, hfree⟩ := CNode.freeSlot_eq_some hf
    exact h.fill rfl hlive hi hfree rfl hdisp
  | strip t o rest hst hlive =>
    exact { h.narrowed (CNode.narrows_clearGrant _ o.idx) with disposing := hdisp }
  | lastRelease t o rest hst =>
    exact { h with
      gen := fun c i hc => h.gen c i (by_contra fun hne => hdead c hne hc), disposing := hdisp }
  | disposeSlot t c i rest o hst hi ho =>
    have hd : s.disposed c ≠ 0 := h.disposing t c i (by rw [hst]; exact mem_cons_self)
    have hv := h.vacated (i := i) (x := { s.slot c i with obj := none, occupied := false }) rfl
      fun hz => absurd hz hd
    exact { hv with disposing := hdisp }
  | _ => exact { h with disposing := hdisp }

end

theorem of_run {ok : State n → Action n → Prop} {as : List (Action n)}
    (hr : Run State.step ok (State.init n) as s) : SlotHistory s :=
  hr.invariant (fun _ _ _ h _ hs => h.transition (step_transition hs)) (slotHistory_init n)

end SlotHistory

end Nexios.Cap
