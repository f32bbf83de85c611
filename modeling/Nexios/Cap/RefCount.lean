import Nexios.Cap.SlotHistory
import Nexios.Lib.Sum

/-!
# Reference accounting

The references to an object are those of its creators, one for each occupied slot that names it,
and the pins: those that callers got from a lookup and those that calls in progress hold. Every
step of the machine keeps their number or changes it, together with the reference word of the
object, by one. The word is 32 bits wide and `acquire` does not guard it, so the two agree as long
as no object with `2 ^ 32 - 1` references is acquired again.
-/

open Function Finset Nat

namespace Nexios.Cap

open Cap.Frame State

variable {n : ℕ}

open State

/-- The reference that a call in progress holds on account of a frame. -/
def Frame.holds : Frame → Option ObjId
  | .fill r => some r.obj
  | .release o => some o
  | _ => none

def heldIn (fs : List Frame) (o : ObjId) : ℕ := (fs.map fun f => refTo f.holds o).sum

@[simp] theorem heldIn_nil (o : ObjId) : heldIn [] o = 0 := rfl

@[simp] theorem heldIn_cons (f : Frame) (fs : List Frame) (o : ObjId) :
    heldIn (f :: fs) o = refTo f.holds o + heldIn fs o := by
  simp [heldIn]

namespace State

def creatorRefs (s : State n) (o : ObjId) : ℕ := ∑ t, s.creators t o

def slotRefs (s : State n) (o : ObjId) : ℕ :=
  ∑ p ∈ Finset.range s.next ×ˢ Finset.range cslotCount, refTo (s.slot p.1 p.2).target o

def pinRefs (s : State n) (o : ObjId) : ℕ := ∑ t, (s.pins t o + heldIn (s.stack t) o)

/-- Creator references, occupied slots that name `o`, and outstanding pins. -/
def refs (s : State n) (o : ObjId) : ℕ := s.creatorRefs o + s.slotRefs o + s.pinRefs o

end State

variable {s u : State n} {t : Fin n} {fs : List Frame} {c : ObjId} {a : Action n} {o : ObjId}
  {i : ℕ} {x : CSlot} {k : KernelObject} {w : BitVec 32}

theorem refs_setStack (s : State n) (t : Fin n) (fs : List Frame) (o : ObjId) :
    (s.setStack t fs).refs o + heldIn (s.stack t) o = s.refs o + heldIn fs o := by
  have hp : (s.setStack t fs).pinRefs o + heldIn (s.stack t) o = s.pinRefs o + heldIn fs o := by
    have h := total_update (fun fs => heldIn fs o) s.stack t fs
    simp only [pinRefs, setStack_pins, setStack_stack, sum_add_distrib]
    omega
  change s.creatorRefs o + s.slotRefs o + (s.setStack t fs).pinRefs o + _ = _
  rw [refs]
  omega

theorem slotRefs_setSlot (x : CSlot) (hc : c < s.next) (hi : i < cslotCount) (o : ObjId) :
    (s.setNode c ((s.node c).setSlot i x)).slotRefs o + refTo (s.slot c i).target o =
      s.slotRefs o + refTo x.target o := by
  have hmem : (c, i) ∈ Finset.range s.next ×ˢ Finset.range cslotCount := by
    simp only [mem_product, mem_range]
    exact ⟨hc, hi⟩
  have hslot : ∀ c' j, (s.setNode c ((s.node c).setSlot i x)).slot c' j =
      if c' = c ∧ j = i then x else s.slot c' j := slot_update s c i x
  have h := total_of_eq_off (f := fun p : ℕ × ℕ => refTo (s.slot p.1 p.2).target o)
    (g := fun p : ℕ × ℕ => refTo ((s.setNode c ((s.node c).setSlot i x)).slot p.1 p.2).target o)
    hmem ?_
  · simp only [hslot c i] at h
    exact h
  · rintro ⟨c', j⟩ _ hne
    rw [hslot, if_neg]
    rintro ⟨rfl, rfl⟩
    exact hne rfl

theorem CSlot.Narrows.target {y : CSlot} (h : x.Narrows y) : x.target = y.target := by
  rw [CSlot.target, CSlot.target, h.occupied, h.obj]

theorem refs_narrowed {m : CNode} (hm : ∀ j, (m.slots j).Narrows (s.slot c j)) (o : ObjId) :
    (s.setNode c m).refs o = s.refs o := by
  have hslot : ∀ c' j, ((s.setNode c m).slot c' j).target = (s.slot c' j).target := fun c' j =>
    (narrows_update s hm c' j).target
  simp only [refs, slotRefs, hslot]
  rfl

/-- The object that the step acquires, unless it is revoked. -/
def State.acquires (s : State n) : Action n → Option ObjId
  | .lookup _ c handle want need => (s.node c).lookup handle want need
  | .resume t => match (s.stack t).head? with
    | some (.acquire r) => some r.obj
    | _ => none
  | a => a.derives.bind fun (_, src, handle, _, kind) =>
      (s.node src).lookup handle .null kind.needRights

/-- No object is acquired while it has `2 ^ 32 - 1` references. -/
def RefsBelow (s : State n) (a : Action n) : Prop := ∀ o ∈ s.acquires a, s.refs o < 2 ^ 32 - 1
  deriving Decidable

/-- The reference words after the count of `o` has become `w`. -/
def SetCount (s u : State n) (o : ObjId) (w : BitVec 32) : Prop :=
  (u.obj o).refCount = w ∧ ∀ o', o' ≠ o → (u.obj o').refCount = (s.obj o').refCount

/-- What a step can do to references, reference words and disposal. -/
inductive RefStep (s : State n) (a : Action n) (u : State n) : Prop
  | keep : u.next = s.next → u.disposed = s.disposed →
      (∀ o, (u.obj o).refCount = (s.obj o).refCount) → (∀ o, u.refs o = s.refs o) → RefStep s a u
  | create : u.next = s.next + 1 → u.disposed = s.disposed → SetCount s u s.next 1#32 →
      (∀ o, u.refs o = s.refs o + refTo (some s.next) o) → RefStep s a u
  | acquire (o : ObjId) : s.live o → s.acquires a = some o → u.next = s.next →
      u.disposed = s.disposed → SetCount s u o ((s.obj o).refCount + 1#32) →
      (∀ o', u.refs o' = s.refs o' + refTo (some o) o') → RefStep s a u
  | release (o : ObjId) : s.live o → (s.obj o).refCount ≠ 1#32 → u.next = s.next →
      u.disposed = s.disposed → SetCount s u o ((s.obj o).refCount - 1#32) →
      (∀ o', u.refs o' + refTo (some o) o' = s.refs o') → RefStep s a u
  | dispose (o : ObjId) : s.live o → (s.obj o).refCount = 1#32 → u.next = s.next →
      u.disposed = update s.disposed o (s.disposed o + 1) → SetCount s u o 0#32 →
      (∀ o', u.refs o' + refTo (some o) o' = s.refs o') → RefStep s a u

theorem refs_moved (hc : c < s.next) (hi : i < cslotCount)
    (hmove : ∀ o, refTo x.target o + heldIn fs o =
      refTo (s.slot c i).target o + heldIn (s.stack t) o) (o : ObjId) :
    ((s.setNode c ((s.node c).setSlot i x)).setStack t fs).refs o = s.refs o := by
  have hs := slotRefs_setSlot x hc hi o
  have hp := refs_setStack (s.setNode c ((s.node c).setSlot i x)) t fs o
  have hr : (s.setNode c ((s.node c).setSlot i x)).refs o =
      s.creatorRefs o + (s.setNode c ((s.node c).setSlot i x)).slotRefs o + s.pinRefs o := rfl
  have hm := hmove o
  rw [setNode_stack] at hp
  have hold : s.refs o = s.creatorRefs o + s.slotRefs o + s.pinRefs o := rfl
  omega

theorem refs_restacked (s : State n) (t : Fin n) (hfs : ∀ o, heldIn fs o = heldIn (s.stack t) o)
    (o : ObjId) : (s.setStack t fs).refs o = s.refs o := by
  have hr := refs_setStack s t fs o
  rw [hfs] at hr
  omega

theorem RefStep.restacked (hfs : ∀ o, heldIn fs o = heldIn (s.stack t) o) :
    RefStep s a (s.setStack t fs) :=
  .keep rfl rfl (fun _ => rfl) (refs_restacked s t hfs)

theorem refCount_revoke (s : State n) (o o' : ObjId) :
    (update s.obj o (s.obj o).revoke o').refCount = (s.obj o').refCount := by
  rw [update_apply]
  split_ifs with h
  · rw [h]
    rfl
  · rfl

theorem SetCount.setObj (hobj : u.obj = update s.obj o k) (hw : k.refCount = w) :
    SetCount s u o w := by
  constructor
  · rw [hobj, update_self, hw]
  · intro o' ho'
    rw [hobj, update_of_ne ho']

theorem RefStep.acquired (hlive : s.live o) (ha : s.acquires a = some o)
    (hk : (s.obj o).acquire = some k)
    (hfs : ∀ o', heldIn fs o' = heldIn (s.stack t) o' + refTo (some o) o') :
    RefStep s a ((s.setObj o k).setStack t fs) := by
  obtain ⟨-, hcount⟩ := KernelObject.acquire_eq_some hk
  refine .acquire o hlive ha rfl rfl (.setObj rfl (by rw [hcount])) ?_
  intro o'
  have hr : ((s.setObj o k).setStack t fs).refs o' + heldIn (s.stack t) o' = _ :=
    refs_setStack s t fs o'
  rw [hfs] at hr
  omega

theorem RefStep.vacate (hst : s.stack t = []) (hlive : s.liveNode c) (hi : i < cslotCount)
    (hocc : (s.slot c i).occupied) (hfs : ∀ o, heldIn fs o = refTo (s.slot c i).obj o) :
    RefStep s a (s.vacate t c i ((s.node c).setSlot i (CNode.freed (s.slot c i))) fs) := by
  obtain ⟨hc, -, -⟩ := (s.liveNode_iff c).mp hlive
  refine .keep rfl rfl (fun _ => rfl) (refs_moved (s := s) (t := t) hc hi fun o => ?_)
  rw [CSlot.target_of_occupied hocc, CSlot.target_of_free rfl, hst, hfs]
  exact add_comm _ _

theorem heldIn_release (x : Option ObjId) (o : ObjId) :
    heldIn (x.toList.map .release) o = refTo x o := by
  cases x <;> rfl

theorem heldIn_revoke (x : Option ObjId) (o : ObjId) :
    heldIn (x.toList.flatMap fun o => [.revokeMark o, .release o]) o = refTo x o := by
  cases x with
  | none => rfl
  | some o' => simp [holds]

theorem heldIn_afterFill (r : Install) (rest : List Frame) (o : ObjId) :
    heldIn (afterFill r ++ rest) o = heldIn rest o := by
  unfold afterFill
  split
  · split_ifs
    · simp [holds]
    · rfl
  · rfl

/-- One thread has a count for `o` that differs from the old one by `k` and `m`. -/
theorem total_counted {g : Fin n → ObjId → ℕ} {v k m : ℕ} (h : v + k = g t o + m) (o' : ObjId) :
    ∑ t', update g t (update (g t) o v) t' o' + k * refTo (some o) o' =
      ∑ t', g t' o' + m * refTo (some o) o' := by
  have hsum := total_update (fun f : ObjId → ℕ => f o') g t (update (g t) o v)
  by_cases ho : o' = o
  · subst o'
    rw [update_self] at hsum
    rw [refTo_self]
    omega
  · rw [update_of_ne ho] at hsum
    rw [refTo_ne ho]
    omega

theorem slotRefs_create (s : State n) (t : Fin n) (k : KernelObject) (id : BitVec 32) (o : ObjId) :
    (s.create t k { cspaceId := id }).slotRefs o = s.slotRefs o := by
  simp only [slotRefs, create_next, sum_product, sum_range_succ]
  have hnew : ∑ j ∈ Finset.range cslotCount,
      refTo ((s.create t k { cspaceId := id }).slot s.next j).target o = 0 := by
    simp [slot, CSlot.target]
  rw [hnew, add_zero]
  apply sum_congr rfl
  intro c hc
  have hne : c ≠ s.next := (mem_range.mp hc).ne
  simp only [slot, create_node, update_of_ne hne]

theorem RefStep.created (s : State n) (a : Action n) (t : Fin n) (isNode : Bool) (id : BitVec 32) :
    RefStep s a (s.create t { isNode := isNode } { cspaceId := id }) := by
  refine .create rfl rfl (.setObj rfl rfl) fun o => ?_
  have hs := slotRefs_create s t { isNode := isNode } id o
  have hc := total_counted (g := s.creators) (t := t) (o := s.next) (k := 0) (m := 1) rfl o
  simp only [refs, creatorRefs, create_creators, pinRefs, create_pins, create_stack]
  omega

theorem RefStep.pinned (hl : s.acquires a = some o) (ho : s.live o) (hk : (s.obj o).acquire = some k) :
    RefStep s a ((s.setObj o k).addPin t o) := by
  obtain ⟨-, hcount⟩ := KernelObject.acquire_eq_some hk
  refine .acquire o ho hl rfl rfl (.setObj rfl (by rw [hcount])) fun o' => ?_
  have hp := total_counted (g := s.pins) (t := t) (o := o) (k := 0) (m := 1) rfl o'
  have hu : ((s.setObj o k).addPin t o).refs o' = s.creatorRefs o' + s.slotRefs o' +
      ∑ t', (update s.pins t (update (s.pins t) o (s.pins t o + 1)) t' o' +
        heldIn (s.stack t') o') := rfl
  rw [hu, refs, pinRefs, sum_add_distrib, sum_add_distrib]
  omega

theorem refs_released {rest : List Frame} (fs : List Frame) (hst : s.stack t = .release o :: rest)
    (hfs : ∀ o', heldIn fs o' = heldIn rest o') (o' : ObjId) :
    (s.setStack t fs).refs o' + refTo (some o) o' = s.refs o' := by
  have hr := refs_setStack s t fs o'
  rw [hst, heldIn_cons, hfs, holds] at hr
  omega

/-- A caller gives a reference of its own to a call of `release`. -/
theorem RefStep.handed (creators pins : Fin n → ObjId → ℕ) (hst : s.stack t = [])
    (h : ∀ o', ∑ t', creators t' o' + ∑ t', pins t' o' + 1 * refTo (some o) o' =
      ∑ t', s.creators t' o' + ∑ t', s.pins t' o') :
    RefStep s a { s.setStack t [.release o] with creators := creators, pins := pins } := by
  refine .keep rfl rfl (fun _ => rfl) fun o' => ?_
  have hp := total_update (fun fs => heldIn fs o') s.stack t [.release o]
  have hsum := h o'
  have hu : State.refs { s.setStack t [.release o] with creators := creators, pins := pins } o' =
      ∑ t', creators t' o' + s.slotRefs o' +
        ∑ t', (pins t' o' + heldIn (update s.stack t [.release o] t') o') := rfl
  simp only [hst, heldIn_cons, heldIn_nil, holds] at hp
  rw [hu, refs, creatorRefs, pinRefs, sum_add_distrib, sum_add_distrib]
  omega

theorem Frame.holds_eq_none {f : Frame} (hnr : ∀ o, f ≠ .release o) (hnf : ∀ r, f ≠ .fill r) :
    f.holds = none := by
  cases f with
  | release o => exact absurd rfl (hnr o)
  | fill r => exact absurd rfl (hnf r)
  | _ => rfl

theorem Transition.refStep (htr : Transition s a u) (h : SlotHistory s)
    (hd : ∀ c, s.disposed c ≠ 0 → c < s.next) : RefStep s a u := by
  cases htr with
  | idle => exact .keep rfl rfl (fun _ => rfl) (fun _ => rfl)
  | create _ t isNode id => exact .created s a t isNode id
  | callInstall t c o type rights hst | reread t q rest type rights hst | full t r rest hst
  | disposeSkip t c i rest hst =>
    exact .restacked fun o' => by simp [hst, holds]
  | remove t c i hst hlive hi hocc =>
    exact .vacate hst hlive hi hocc (heldIn_release _)
  | revoke t c handle i hst hlive hi hocc =>
    exact .vacate hst hlive hi hocc (heldIn_revoke _)
  | lookup t c o handle want need k hst hlive hl ho hk => exact .pinned hl ho hk
  | derive _ t src dst o handle kind k ha hst hlive hl ho hk =>
    refine .acquired ho ?_ hk ?_
    · cases a <;> simp_all [Action.derives, acquires]
    · simp [hst, holds]
  | releaseCreator t o hst hpos =>
    refine .handed _ s.pins hst fun o' => ?_
    rw [add_right_comm, total_counted (m := 0) (by omega), zero_mul, add_zero]
  | releasePin t o hst hpos =>
    refine .handed s.creators _ hst fun o' => ?_
    rw [add_assoc, total_counted (m := 0) (by omega), zero_mul, add_zero]
  | clearGrant t c i =>
    exact .keep rfl rfl (fun _ => rfl) (refs_narrowed (CNode.narrows_clearGrant _ i))
  | setPolicyWord t c word =>
    exact .keep rfl rfl (fun _ => rfl) (refs_narrowed fun _ => .refl _)
  | markRevoked o =>
    exact .keep rfl rfl (refCount_revoke s o) (fun _ => rfl)
  | acquire t r rest k hst ho hk =>
    refine .acquired ho ?_ hk ?_
    · rw [acquires, hst]
      rfl
    · simp only [hst, heldIn_cons, holds, refTo_none]
      omega
  | abandon t f rest hst hnr hnf =>
    refine .restacked fun o' => ?_
    rw [hst, heldIn_cons, holds_eq_none hnr hnf, refTo_none, zero_add]
  | fill t r rest i hst hlive hf =>
    obtain ⟨hi, hfree⟩ := CNode.freeSlot_eq_some hf
    obtain ⟨hc, -, -⟩ := (s.liveNode_iff r.dst).mp hlive
    refine .keep rfl rfl (fun _ => rfl) (refs_moved (s := s) (t := t) hc hi fun o' => ?_)
    have hold : (s.slot r.dst i).target = none := CSlot.target_of_free hfree
    rw [hold, hst, heldIn_afterFill, heldIn_cons, refTo_none, zero_add]
    rfl
  | strip t o rest hst hlive =>
    have hfs : ∀ o', heldIn rest o' = heldIn (s.stack t) o' := fun o' => by simp [hst, holds]
    have hrefs := refs_restacked (s.setNode o.node ((s.node o.node).clearGrant o.idx)) t hfs
    refine .keep rfl rfl (fun _ => rfl) fun o' => (hrefs o').trans ?_
    exact refs_narrowed (CNode.narrows_clearGrant _ o.idx) o'
  | mark t o rest hst hlive =>
    exact .keep rfl rfl (refCount_revoke s o) (refs_restacked s t fun o' => by simp [hst, holds])
  | release t o rest hst hlive hne =>
    exact .release o hlive hne rfl rfl (.setObj rfl rfl)
      (refs_released rest hst fun _ => rfl)
  | lastRelease t o rest hst hlive hlast =>
    have hfs : ∀ o', heldIn (if (s.obj o).isNode then .dispose o 0 :: rest else rest) o' =
        heldIn rest o' := by
      intro o'
      split_ifs
      · exact zero_add _
      · rfl
    have hrefs := refs_released _ hst hfs
    refine .dispose o hlive hlast rfl rfl (.setObj rfl ?_) hrefs
    rw [KernelObject.release, hlast]
    rfl
  | disposeSlot t c i rest o hst hi ho =>
    have hc : c < s.next := hd c (h.disposing t c i (by rw [hst]; exact List.mem_cons_self))
    refine .keep rfl rfl (fun _ => rfl) (refs_moved (s := s) (t := t) hc hi fun o' => ?_)
    have ht : (s.slot c i).target = some o := ho
    rw [ht, CSlot.target_of_free rfl]
    simp [hst, holds]

/-- Reference words, references and disposal agree. -/
structure Accounted (s : State n) : Prop where
  count : ∀ o, s.live o → (s.obj o).refCount.toNat = s.refs o
  fresh : ∀ o, s.next ≤ o → s.refs o = 0 ∧ s.disposed o = 0
  disposed : ∀ o, o < s.next → s.disposed o = if s.refs o = 0 then 1 else 0

theorem accounted_init (n : ℕ) : Accounted (init n) where
  count o h := by cases h
  fresh o _ := ⟨by simp [refs, creatorRefs, slotRefs, pinRefs, init], rfl⟩
  disposed o h := by cases h

/-- The dispose of an object runs at the step at which its last reference goes. -/
def DisposesAtZero (s u : State n) : Prop :=
  ∀ o, u.disposed o = s.disposed o + if 0 < s.refs o ∧ u.refs o = 0 then 1 else 0

theorem Accounted.refs_of_live (h : Accounted s) (ho : s.live o) : 0 < s.refs o := by
  obtain ⟨hlt, hd⟩ := (s.live_iff o).mp ho
  rw [h.disposed o hlt] at hd
  by_contra hz
  rw [if_pos (by omega)] at hd
  cases hd

/-- Nothing that is counted changes at `o`. -/
def SameAt (s u : State n) (o : ObjId) : Prop :=
  (o < u.next ↔ o < s.next) ∧ u.disposed o = s.disposed o ∧
    (u.obj o).refCount = (s.obj o).refCount ∧ u.refs o = s.refs o

/-- The books of `o` are right after the step. -/
def RightAt (s u : State n) (o : ObjId) : Prop :=
  o < u.next ∧ (u.obj o).refCount.toNat = u.refs o ∧
    u.disposed o = (if u.refs o = 0 then 1 else 0) ∧
    u.disposed o = s.disposed o + if 0 < s.refs o ∧ u.refs o = 0 then 1 else 0

section

variable (h : Accounted s)
include h

theorem Accounted.of_each (heach : ∀ o, SameAt s u o ∨ RightAt s u o) :
    Accounted u ∧ DisposesAtZero s u := by
  refine ⟨⟨fun o ho => ?_, fun o ho => ?_, fun o ho => ?_⟩, fun o => ?_⟩ <;>
    rcases heach o with ⟨hlt, hd, hcount, hrefs⟩ | ⟨hlt, hcount, hd, hstep⟩
  · rw [live_iff, hlt, hd, ← live_iff] at ho
    rw [hcount, hrefs]
    exact h.count o ho
  · exact hcount
  · rw [hrefs, hd]
    exact h.fresh o (not_lt.mp (mt hlt.mpr (not_lt.mpr ho)))
  · exact absurd hlt (not_lt.mpr ho)
  · rw [hrefs, hd]
    exact h.disposed o (hlt.mp ho)
  · exact hd
  · rw [hd, if_neg (by omega)]
    rfl
  · exact hstep

theorem Accounted.create (hnext : u.next = s.next + 1)
    (hd : u.disposed = s.disposed) (hobj : SetCount s u s.next 1#32)
    (hrefs : ∀ o, u.refs o = s.refs o + refTo (some s.next) o) :
    Accounted u ∧ DisposesAtZero s u := by
  obtain ⟨hnew, hdnew⟩ := h.fresh s.next (le_refl _)
  have hone : u.refs s.next = 1 := by rw [hrefs, hnew, refTo_self]
  refine h.of_each fun o => ?_
  by_cases hon : o = s.next
  · rw [hon]
    refine .inr ⟨hnext ▸ lt_succ_self _, ?_, ?_, ?_⟩
    · rw [hobj.1, hone]
      rfl
    · rw [hd, hdnew, hone]
      rfl
    · rw [hd, if_neg (by omega)]
      rfl
  · refine .inl ⟨?_, by rw [hd], hobj.2 o hon, by rw [hrefs, refTo_ne hon, add_zero]⟩
    rw [hnext]
    exact ⟨fun ho => lt_of_le_of_ne (Nat.lt_succ_iff.mp ho) hon, Nat.lt_succ_of_lt⟩

theorem Accounted.change (hlive : s.live o) (hnext : u.next = s.next) (hobj : SetCount s u o w)
    (hw : w.toNat = u.refs o) (hrefs : ∀ o', o' ≠ o → u.refs o' = s.refs o')
    (hd : ∀ o', o' ≠ o → u.disposed o' = s.disposed o')
    (hdo : u.disposed o = if u.refs o = 0 then 1 else 0) : Accounted u ∧ DisposesAtZero s u := by
  obtain ⟨hlt, hzero⟩ := (s.live_iff o).mp hlive
  have hpos := h.refs_of_live hlive
  refine h.of_each fun o' => ?_
  by_cases hoo : o' = o
  · subst hoo
    refine .inr ⟨hnext ▸ hlt, hobj.1 ▸ hw, hdo, ?_⟩
    rw [hdo, hzero]
    by_cases hz : u.refs o' = 0
    · rw [if_pos hz, if_pos ⟨hpos, hz⟩]
    · rw [if_neg hz, if_neg (fun hc => hz hc.2)]
  · exact .inl ⟨by rw [hnext], hd o' hoo, hobj.2 o' hoo, hrefs o' hoo⟩

theorem Accounted.refStep (hok : RefsBelow s a)
    (hstep : RefStep s a u) : Accounted u ∧ DisposesAtZero s u := by
  cases hstep with try have hcount := h.count o hlive
  | keep hnext hd hobj hrefs =>
    exact h.of_each fun o => .inl ⟨by rw [hnext], by rw [hd], hobj o, hrefs o⟩
  | create hnext hd hobj hrefs => exact h.create hnext hd hobj hrefs
  | acquire o hlive ha hnext hd hobj hrefs =>
    have hbelow := hok o ha
    have hself : u.refs o = s.refs o + 1 := by rw [hrefs, refTo_self]
    refine h.change hlive hnext hobj ?_ ?_ (fun _ _ => by rw [hd]) ?_
    · rw [BitVec.toNat_add, hcount, hself]
      exact mod_eq_of_lt (by simpa using by omega)
    · intro o' ho'
      rw [hrefs, refTo_ne ho', add_zero]
    · rw [hd, ((s.live_iff o).mp hlive).2, if_neg (by omega)]
  | release o hlive hne hnext hd hobj hrefs =>
    have hself := hrefs o
    rw [refTo_self] at hself
    have htwo : (s.obj o).refCount.toNat ≠ 1 := fun hc => hne (BitVec.eq_of_toNat_eq hc)
    refine h.change hlive hnext hobj ?_ ?_ (fun _ _ => by rw [hd]) ?_
    · rw [BitVec.toNat_sub_of_le]
      · simp only [BitVec.toNat_ofNat]
        omega
      · rw [BitVec.le_def]
        simp only [BitVec.toNat_ofNat]
        omega
    · intro o' ho'
      have hr := hrefs o'
      rwa [refTo_ne ho'] at hr
    · rw [hd, ((s.live_iff o).mp hlive).2, if_neg (by omega)]
  | dispose o hlive hlast hnext hd hobj hrefs =>
    have hself := hrefs o
    rw [refTo_self, ← hcount, hlast] at hself
    have hzero : u.refs o = 0 := by simpa using hself
    refine h.change hlive hnext hobj ?_ ?_ ?_ ?_
    · rw [hzero]
      rfl
    · intro o' ho'
      have hr := hrefs o'
      rwa [refTo_ne ho'] at hr
    · intro o' ho'
      rw [hd, update_of_ne ho']
    · rw [hd, update_self, ((s.live_iff o).mp hlive).2, hzero]
      rfl

theorem Accounted.step (hh : SlotHistory s) (hok : RefsBelow s a)
    (hs : s.step a = some u) : Accounted u ∧ DisposesAtZero s u := by
  have hd : ∀ c, s.disposed c ≠ 0 → c < s.next := by
    intro c hc
    by_contra hge
    exact hc (h.fresh c (not_lt.mp hge)).2
  exact h.refStep hok ((step_transition hs).refStep hh hd)

end

theorem Accounted.of_run {as : List (Action n)} (hr : Run State.step RefsBelow (State.init n) as s) :
    SlotHistory s ∧ Accounted s := by
  refine hr.invariant (I := fun s => SlotHistory s ∧ Accounted s) ?_
    ⟨slotHistory_init n, accounted_init n⟩
  rintro s a u ⟨hh, hacc⟩ hok hs
  exact ⟨hh.transition (step_transition hs), (hacc.step hh hok hs).1⟩

theorem pins_le_refs (s : State n) (t : Fin n) (o : ObjId) :
    s.pins t o + heldIn (s.stack t) o ≤ s.refs o := by
  have hpin : s.pins t o + heldIn (s.stack t) o ≤ s.pinRefs o :=
    single_le_sum (f := fun t => s.pins t o + heldIn (s.stack t) o)
      (fun _ _ => zero_le _) (mem_univ t)
  rw [refs]
  omega

/-- In every run that acquires no object with `2 ^ 32 - 1` references, the reference word of each
live object is the number of its references, and its dispose runs once, at the step that takes the
last one away. -/
theorem references_accounted {as : List (Action n)}
    (hr : Run State.step RefsBelow (State.init n) as s) :
    (∀ o, s.live o → (s.obj o).refCount.toNat = s.refs o) ∧
    (∀ o, o < s.next → s.disposed o = if s.refs o = 0 then 1 else 0) ∧
    ∀ a u, RefsBelow s a → s.step a = some u → DisposesAtZero s u := by
  obtain ⟨hh, hacc⟩ := Accounted.of_run hr
  refine ⟨hacc.count, hacc.disposed, ?_⟩
  intro a u hok hs
  exact (hacc.step hh hok hs).2

/-- An object is installed, looked up, removed from its slot and released by its creator. -/
def pinOutlivesSlot : List (Action 1) :=
  [.createNode 0 0#32, .createObject 0, .install 0 0 1 .frame CapRights.read, .resume 0, .resume 0,
    .lookup 0 0 0#64 .frame CapRights.read, .remove 0 0 0, .resume 0, .releaseCreator 0 1, .resume 0]

theorem references_accounted_pinOutlivesSlot :
    ∃ s, Run step RefsBelow (init 1) pinOutlivesSlot s ∧ s.live 1 = true ∧
      s.pins 0 1 = 1 ∧ (s.obj 1).refCount.toNat = s.refs 1 := by
  refine Run.exists_imp_of_exec (fun s => s.live 1 = true ∧ s.pins 0 1 = 1) (by decide +kernel) ?_
  rintro s hr ⟨hlive, hpin⟩
  exact ⟨hlive, hpin, (references_accounted hr).1 1 hlive⟩

def oneSlot : List (Action 1) :=
  [.createNode 0 0#32, .createObject 0, .install 0 0 1 .frame CapRights.read, .resume 0, .resume 0]

/-- The object in the slot has been looked up `k` times, and no pin has been released. -/
structure LookedUp (k : ℕ) (s : State 1) : Prop where
  stack : s.stack 0 = []
  next : s.next = 2
  disposed : ∀ o, s.disposed o = 0
  node : (s.obj 0).isNode = true
  obj : s.obj 1 = { refCount := BitVec.ofNat 32 (2 + k) }
  cspaceId : (s.node 0).cspaceId = 0#32
  slot : (s.node 0).slots 0 = ⟨some 1, .frame, CapRights.read, 0#32, true⟩
  pins : s.pins 0 1 = k

theorem lookedUp_oneSlot : ∃ s, Run step anyStep (init 1) oneSlot s ∧ LookedUp 0 s := by
  let s := (exec step anyStep (init 1) oneSlot).getD (init 1)
  exact ⟨s, .of_exec rfl, rfl, rfl, fun _ => rfl, rfl, rfl, rfl, rfl, rfl⟩

theorem LookedUp.lookup {k : ℕ} {s : State 1} (h : LookedUp k s) :
    ∃ u, Run step anyStep s [.lookup 0 0 0#64 .frame CapRights.read] u ∧ LookedUp (k + 1) u := by
  have hl : (s.node 0).lookup 0#64 .frame CapRights.read = some 1 := by
    have hi : (handleSlot 0#64).toNat = 0 := by decide
    simp only [CNode.lookup, hi, h.slot, h.cspaceId]
    decide
  have hlive : s.live 1 = true := by
    rw [live_iff, h.next]
    exact ⟨by decide, h.disposed 1⟩
  have hnode : s.liveNode 0 = true := by
    rw [liveNode_iff, h.next]
    exact ⟨by decide, h.disposed 0, h.node⟩
  have hmay : s.mayLookup 0 0#64 .frame CapRights.read = true := by
    rw [mayLookup_iff]
    refine ⟨hnode, ?_⟩
    intro o ho
    rw [hl] at ho
    exact Option.some.inj ho ▸ hlive
  let k' : KernelObject := { refCount := BitVec.ofNat 32 (2 + (k + 1)) }
  have hadd : BitVec.ofNat 32 (2 + k) + 1#32 = BitVec.ofNat 32 (2 + (k + 1)) :=
    ofNat_pred_succ (succ_pos (2 + k))
  have hpin : s.pinned 0 0#64 .frame CapRights.read = some (1, k') := by
    simp [pinned, hl, h.obj, KernelObject.acquire, hadd, k']
  have hs : s.step (.lookup 0 0 0#64 .frame CapRights.read) = some ((s.setObj 1 k').addPin 0 1) := by
    simp only [step, h.stack, hmay, hpin, and_self, if_true]
  refine ⟨_, .single trivial hs, ?_⟩
  refine { h with node := ?node, obj := ?obj, pins := ?pins }
  case node => simpa using h.node
  case obj => simp [k']
  case pins => simp [h.pins]

theorem LookedUp.release {k : ℕ} {s : State 1} (h : LookedUp (k + 2) s)
    (hk : BitVec.ofNat 32 (2 + (k + 2)) = 1#32) :
    ∃ u, Run step anyStep s [.releasePin 0 1, .resume 0] u ∧
      u.disposed 1 = 1 ∧ u.pins 0 1 = k + 1 := by
  let s₁ : State 1 := { s.setStack 0 [.release 1] with
    pins := update s.pins 0 (update (s.pins 0) 1 (s.pins 0 1 - 1)) }
  have h₁ : s.step (.releasePin 0 1) = some s₁ := by
    have hpos : 0 < s.pins 0 1 := by
      rw [h.pins]
      omega
    simp only [step, h.stack, hpos, and_self, if_true, s₁]
  let s₂ : State 1 := { (s₁.setObj 1 { refCount := 0#32 }).setStack 0 [] with
    disposed := update s₁.disposed 1 1 }
  have h₂ : s₁.step (.resume 0) = some s₂ := by
    simp [step, stepFrame, s₁, s₂, live, h.next, h.disposed, h.obj, hk, KernelObject.release]
  refine ⟨s₂, .cons trivial h₁ (.single trivial h₂), ?_, ?_⟩
  · simp [s₂]
  · simp [s₁, s₂, h.pins]

theorem disposed_while_pinned :
    ∃ as s, Run step anyStep (init 1) as s ∧ s.disposed 1 = 1 ∧ 0 < s.refs 1 := by
  obtain ⟨s, hs, h⟩ := lookedUp_oneSlot
  obtain ⟨as, t, ht, hup⟩ := Run.iterate (P := fun k s => LookedUp k s) (fun k s h => h.lookup)
    (2 ^ 32 - 1) 0 h
  obtain ⟨u, hu, hdisp, hpins⟩ := hup.release (by decide)
  refine ⟨_, u, hs.append (ht.append hu), hdisp, ?_⟩
  have hle := pins_le_refs u 0 1
  omega

end Nexios.Cap
