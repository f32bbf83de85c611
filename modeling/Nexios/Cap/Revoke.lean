import Nexios.Cap.CNode
import Nexios.Lib.Acyclic

/-!
# Revocation of a tree of CNodes

`CNode::revoke` marks the node and walks an explicit work list of at most `CONFIG_CAP_MAX_DEPTH`
nodes. For every occupied slot of the node it takes from the list it calls `revoke` on the target,
which starts the same walk again when the target is a node, and it also pushes the target on the
list while depth and length allow. The nested calls alone visit everything below a node, so the
marking is complete whenever the call returns; and because nothing checks whether a node is already
revoked, it returns exactly when no cycle of nodes is within reach.

The fuel bounds the nesting and the turns of the loop; a call that does not return runs out of any.
-/

open Function Option List

namespace Nexios.Cap

open Relation

/-- Bound on the work list and on the depth of a cascade (`CONFIG_CAP_MAX_DEPTH`). -/
def capMaxDepth : ℕ := 8

/-- Objects and slot tables at rest: slots name existing objects, those of type CNode a node. -/
structure CapHeap where
  size : ℕ
  obj : ObjId → KernelObject
  node : ObjId → CNode
  closed : ∀ c i o, ((node c).slots i).target = some o → o < size
  typed : ∀ c i o, ((node c).slots i).target = some o → ((node c).slots i).type = .cnode →
    (obj o).isNode

namespace CapHeap

def mark (h : CapHeap) (o : ObjId) : CapHeap :=
  { h with
    obj := update h.obj o (h.obj o).revoke
    typed := by
      intro c i o' ht hty
      rw [update_apply]
      split_ifs with ho
      · exact ho ▸ h.typed c i o' ht hty
      · exact h.typed c i o' ht hty }

theorem slots_setDepth (node : ObjId → CNode) (o : ObjId) (d : BitVec 32) (c : ObjId) :
    (update node o { node o with depth := d } c).slots = (node c).slots := by
  rw [update_apply]
  split_ifs with ho
  · rw [ho]
  · rfl

def setDepth (h : CapHeap) (o : ObjId) (d : BitVec 32) : CapHeap :=
  { h with
    node := update h.node o { h.node o with depth := d }
    closed := by
      intro c i
      rw [slots_setDepth]
      exact h.closed c i
    typed := by
      intro c i
      rw [slots_setDepth]
      exact h.typed c i }

/-- The loop over the slots of `c`: `rev` is the call of `revoke` on a target. -/
def scanSlots (rev : CapHeap → ObjId → Option CapHeap) (c : ObjId) :
    List ℕ → CapHeap → List ObjId → Option (CapHeap × List ObjId)
  | [], h, todo => some (h, todo)
  | i :: is, h, todo =>
    match ((h.node c).slots i).target with
    | none => scanSlots rev c is h todo
    | some o => (rev h o).bind fun h =>
      if ((h.node c).slots i).type = .cnode ∧ (h.node c).depth.toNat < capMaxDepth ∧
          todo.length < capMaxDepth then
        scanSlots rev c is (h.setDepth o ((h.node c).depth + 1#32)) (o :: todo)
      else scanSlots rev c is h todo

mutual

/-- The virtual `revoke`: only a CNode cascades. -/
def revoke : ℕ → CapHeap → ObjId → Option CapHeap
  | 0, _, _ => none
  | fuel + 1, h, o => if (h.obj o).isNode then cascade fuel (h.mark o) [o] else some (h.mark o)

/-- The `while` loop over the work list, last pushed first. -/
def cascade : ℕ → CapHeap → List ObjId → Option CapHeap
  | 0, _, _ => none
  | _ + 1, h, [] => some h
  | fuel + 1, h, c :: todo =>
    (scanSlots (revoke fuel) c (List.range cslotCount) h todo).bind fun p =>
      cascade fuel p.1 p.2

end

/-- `b` is the target of an occupied slot of the node `a`. -/
def Edge (h : CapHeap) (a b : ObjId) : Prop :=
  (h.obj a).isNode = true ∧ ∃ i < cslotCount, ((h.node a).slots i).target = some b

structure Extends (h h' : CapHeap) : Prop where
  slots : ∀ c, (h'.node c).slots = (h.node c).slots
  isNode : ∀ o, (h'.obj o).isNode = (h.obj o).isNode
  revoked : ∀ o, (h.obj o).revoked → (h'.obj o).revoked

namespace Extends

theorem refl (h : CapHeap) : h.Extends h := ⟨fun _ => rfl, fun _ => rfl, fun _ hr => hr⟩

theorem trans {h h' h'' : CapHeap} (h₁ : h.Extends h') (h₂ : h'.Extends h'') : h.Extends h'' where
  slots c := (h₂.slots c).trans (h₁.slots c)
  isNode o := (h₂.isNode o).trans (h₁.isNode o)
  revoked o hr := h₂.revoked o (h₁.revoked o hr)

theorem edge_eq {h h' : CapHeap} (hx : h.Extends h') : h'.Edge = h.Edge := by
  funext a b
  simp only [Edge, hx.slots, hx.isNode]

theorem mark (h : CapHeap) (o : ObjId) : h.Extends (h.mark o) where
  slots _ := rfl
  isNode o' := by
    simp only [CapHeap.mark, update_apply]
    split_ifs with ho
    · rw [ho]
      rfl
    · rfl
  revoked o' hr := by
    simp only [CapHeap.mark, update_apply]
    split_ifs
    · rfl
    · exact hr

theorem setDepth (h : CapHeap) (o : ObjId) (d : BitVec 32) : h.Extends (h.setDepth o d) where
  slots c := slots_setDepth h.node o d c
  isNode _ := rfl
  revoked _ hr := hr

end Extends

theorem revoked_mark (h : CapHeap) (o : ObjId) : ((h.mark o).obj o).revoked = true := by
  simp [CapHeap.mark, KernelObject.revoke]

/-! ## What a call that returns has done -/

/-- Everything within reach of `o` is revoked in `h'`. -/
def AllRevoked (h h' : CapHeap) (o : ObjId) : Prop :=
  ∀ x, ReflTransGen h.Edge o x → (h'.obj x).revoked

variable {o : ObjId}

theorem AllRevoked.mono {h h' h'' : CapHeap} (hr : h.AllRevoked h' o)
    (hx : h'.Extends h'') : h.AllRevoked h'' o := fun x hox => hx.revoked x (hr x hox)

theorem AllRevoked.of_extends {g h h' : CapHeap} (hr : h.AllRevoked h' o)
    (hx : g.Extends h) : g.AllRevoked h' o := by
  unfold AllRevoked at hr
  rwa [hx.edge_eq] at hr

/-- Effect of a call of `revoke` that returns. -/
def Sound (rev : CapHeap → ObjId → Option CapHeap) : Prop :=
  ∀ h o h', rev h o = some h' → h.Extends h' ∧ h.AllRevoked h' o

variable {h h' : CapHeap} {c : ObjId} {rev : CapHeap → ObjId → Option CapHeap} {is : List ℕ}
  {fuel : ℕ}

theorem scanSlots_sound (hrev : Sound rev)
    {todo todo' : List ObjId} (hs : scanSlots rev c is h todo = some (h', todo')) :
    h.Extends h' ∧ ∀ i ∈ is, ∀ o, ((h.node c).slots i).target = some o → h.AllRevoked h' o := by
  induction is generalizing h todo with
  | nil =>
    simp only [scanSlots, Option.some.injEq, Prod.mk.injEq] at hs
    obtain ⟨rfl, -⟩ := hs
    exact ⟨.refl h, fun i hi => by cases hi⟩
  | cons i is ih =>
    rw [scanSlots] at hs
    split at hs
    · next ht =>
      obtain ⟨hx, hall⟩ := ih hs
      refine ⟨hx, ?_⟩
      intro j hj o ho
      rcases mem_cons.mp hj with rfl | hj
      · rw [ht] at ho
        cases ho
      · exact hall j hj o ho
    · next b ht =>
      obtain ⟨h₁, hb, hrest⟩ := bind_eq_some_iff.mp hs
      obtain ⟨hx₁, hall₁⟩ := hrev h b h₁ hb
      -- both branches go on with a heap that extends `h₁`
      obtain ⟨h₂, todo₂, hx₂, hs₂⟩ : ∃ h₂ todo₂, h₁.Extends h₂ ∧
          scanSlots rev c is h₂ todo₂ = some (h', todo') := by
        split_ifs at hrest
        · exact ⟨_, _, .setDepth h₁ b _, hrest⟩
        · exact ⟨_, _, .refl h₁, hrest⟩
      obtain ⟨hx, hall⟩ := ih hs₂
      have hx' := hx₁.trans hx₂
      refine ⟨hx'.trans hx, ?_⟩
      intro j hj o ho
      rcases mem_cons.mp hj with rfl | hj
      · rw [ht] at ho
        cases ho
        exact hall₁.mono (hx₂.trans hx)
      · have ho' : ((h₂.node c).slots j).target = some o := by rwa [hx'.slots]
        exact (hall j hj o ho').of_extends hx'

/-- A cascade that returns has revoked everything below the node on top of its list. -/
def CascadeSound (cas : CapHeap → List ObjId → Option CapHeap) : Prop :=
  ∀ h todo h', cas h todo = some h' → h.Extends h' ∧
    ∀ c ∈ todo.head?, ∀ o, h.Edge c o → h.AllRevoked h' o

theorem revoke_sound (hcas : CascadeSound (cascade fuel)) : Sound (revoke (fuel + 1)) := by
  intro h o h' hs
  rw [revoke] at hs
  split_ifs at hs with hn
  · obtain ⟨hx, hall⟩ := hcas _ _ _ hs
    refine ⟨(Extends.mark h o).trans hx, ?_⟩
    intro x hox
    rcases ReflTransGen.cases_head hox with rfl | ⟨b, hob, hbx⟩
    · exact hx.revoked _ (revoked_mark h o)
    · rw [← (Extends.mark h o).edge_eq] at hob hbx
      exact hall o rfl b hob x hbx
  · cases hs
    refine ⟨.mark h o, ?_⟩
    intro x hox
    rcases ReflTransGen.cases_head hox with rfl | ⟨b, hob, -⟩
    · exact revoked_mark h o
    · exact absurd hob.1 hn

theorem cascade_sound (hrev : Sound (revoke fuel)) (hcas : CascadeSound (cascade fuel)) :
    CascadeSound (cascade (fuel + 1)) := by
  intro h todo h' hs
  cases todo with
  | nil =>
    cases hs
    exact ⟨.refl h, fun c hc => by cases hc⟩
  | cons c todo =>
    obtain ⟨⟨h₁, todo₁⟩, hscan, hrest⟩ := bind_eq_some_iff.mp hs
    obtain ⟨hx₁, hall⟩ := scanSlots_sound hrev hscan
    obtain ⟨hx₂, -⟩ := hcas _ _ _ hrest
    refine ⟨hx₁.trans hx₂, ?_⟩
    rintro d hd o ⟨-, i, hi, ho⟩
    cases hd
    exact (hall i (mem_range.mpr hi) o ho).mono hx₂

theorem sound (fuel : ℕ) : Sound (revoke fuel) ∧ CascadeSound (cascade fuel) := by
  induction fuel with
  | zero =>
    constructor
    · intro h o h' hs
      cases hs
    · intro h todo h' hs
      cases hs
  | succ fuel ih => exact ⟨revoke_sound ih.2, cascade_sound ih.1 ih.2⟩

/-! ## More fuel changes nothing -/

variable {todo : List ObjId}

theorem scanSlots_mono {rev' : CapHeap → ObjId → Option CapHeap}
    (hle : ∀ h o h', rev h o = some h' → rev' h o = some h')
    {h : CapHeap} {p : CapHeap × List ObjId}
    (hs : scanSlots rev c is h todo = some p) : scanSlots rev' c is h todo = some p := by
  induction is generalizing h todo with
  | nil => exact hs
  | cons i is ih =>
    rw [scanSlots] at hs ⊢
    split at hs
    · exact ih hs
    · next b _ =>
      obtain ⟨h₁, hb, hrest⟩ := bind_eq_some_iff.mp hs
      simp only [hle h b h₁ hb, bind_some]
      split_ifs at hrest ⊢
      all_goals exact ih hrest

theorem fuel_succ (fuel : ℕ) :
    (∀ h o h', revoke fuel h o = some h' → revoke (fuel + 1) h o = some h') ∧
      ∀ h todo h', cascade fuel h todo = some h' → cascade (fuel + 1) h todo = some h' := by
  induction fuel with
  | zero =>
    constructor
    · intro h o h' hs
      cases hs
    · intro h todo h' hs
      cases hs
  | succ fuel ih =>
    constructor
    · intro h o h' hs
      rw [revoke] at hs ⊢
      split_ifs at hs ⊢
      · exact ih.2 _ _ _ hs
      · exact hs
    · intro h todo h' hs
      cases todo with
      | nil => exact hs
      | cons c todo =>
        rw [cascade] at hs ⊢
        obtain ⟨p, hscan, hrest⟩ := bind_eq_some_iff.mp hs
        rw [scanSlots_mono ih.1 hscan]
        exact ih.2 _ _ _ hrest

theorem revoke_le {f g : ℕ} (hfg : f ≤ g)
    (hs : revoke f h o = some h') : revoke g h o = some h' := by
  induction hfg with
  | refl => exact hs
  | step _ ih => exact (fuel_succ _).1 _ _ _ ih

theorem cascade_le {f g : ℕ} (hfg : f ≤ g)
    (hs : cascade f h todo = some h') : cascade g h todo = some h' := by
  induction hfg with
  | refl => exact hs
  | step _ ih => exact (fuel_succ _).2 _ _ _ ih

/-! ## Calls that return

`g` is the heap in which the outermost call starts; every later heap extends it. -/

variable (g : CapHeap)

def Returns (o : ObjId) : Prop := ∀ h, g.Extends h → ∃ fuel h', revoke fuel h o = some h'

def Drains (todo : List ObjId) : Prop :=
  ∀ h, g.Extends h → ∃ fuel h', cascade fuel h todo = some h'

variable {g}

theorem drains_nil : g.Drains [] := fun h _ => ⟨1, h, rfl⟩

theorem scanSlots_returns (is : List ℕ)
    (hret : ∀ i ∈ is, ∀ o, ((g.node c).slots i).target = some o → g.Returns o) (h : CapHeap)
    (hx : g.Extends h) (todo : List ObjId) :
    ∃ fuel h' pushed, scanSlots (revoke fuel) c is h todo = some (h', pushed ++ todo) ∧
      g.Extends h' ∧ ∀ d ∈ pushed, (g.obj d).isNode = true ∧
        ∃ i ∈ is, ((g.node c).slots i).target = some d := by
  induction is generalizing h todo with
  | nil => exact ⟨0, h, [], rfl, hx, fun d hd => by cases hd⟩
  | cons i is ih =>
    have hrest := ih fun j hj => hret j (mem_cons_of_mem i hj)
    cases ht : ((g.node c).slots i).target with
    | none =>
      obtain ⟨fuel, h', pushed, hs, hx', hp⟩ := hrest h hx todo
      refine ⟨fuel, h', pushed, ?_, hx', ?_⟩
      · rw [scanSlots, hx.slots, ht]
        exact hs
      · intro d hd
        obtain ⟨hn, j, hj, htj⟩ := hp d hd
        exact ⟨hn, j, mem_cons_of_mem i hj, htj⟩
    | some b =>
      obtain ⟨f₁, h₁, hb⟩ := hret i mem_cons_self b ht h hx
      have hx₁ := hx.trans ((sound f₁).1 h b h₁ hb).1
      by_cases hpush : ((h₁.node c).slots i).type = .cnode ∧
          (h₁.node c).depth.toNat < capMaxDepth ∧ todo.length < capMaxDepth
      · obtain ⟨f₂, h', pushed, hs, hx', hp⟩ :=
          hrest (h₁.setDepth b ((h₁.node c).depth + 1#32)) (hx₁.trans (.setDepth h₁ b _)) (b :: todo)
        refine ⟨max f₁ f₂, h', pushed ++ [b], ?_, hx', ?_⟩
        · rw [scanSlots, hx.slots, ht]
          simp only [revoke_le (le_max_left f₁ f₂) hb, bind_some, if_pos hpush]
          rw [append_assoc]
          exact scanSlots_mono (fun _ _ _ => revoke_le (le_max_right f₁ f₂)) hs
        · intro d hd
          rcases mem_append.mp hd with hd | hd
          · obtain ⟨hn, j, hj, htj⟩ := hp d hd
            exact ⟨hn, j, mem_cons_of_mem i hj, htj⟩
          · obtain rfl := mem_singleton.mp hd
            refine ⟨g.typed c i d ht ?_, i, mem_cons_self, ht⟩
            rw [← hx₁.slots]
            exact hpush.1
      · obtain ⟨f₂, h', pushed, hs, hx', hp⟩ := hrest h₁ hx₁ todo
        refine ⟨max f₁ f₂, h', pushed, ?_, hx', ?_⟩
        · rw [scanSlots, hx.slots, ht]
          simp only [revoke_le (le_max_left f₁ f₂) hb, bind_some, if_neg hpush]
          exact scanSlots_mono (fun _ _ _ => revoke_le (le_max_right f₁ f₂)) hs
        · intro d hd
          obtain ⟨hn, j, hj, htj⟩ := hp d hd
          exact ⟨hn, j, mem_cons_of_mem i hj, htj⟩

theorem drains_append (htodo : g.Drains todo) {ds : List ObjId}
    (hds : ∀ d ∈ ds, ∀ l, g.Drains l → g.Drains (d :: l)) : g.Drains (ds ++ todo) := by
  induction ds with
  | nil => exact htodo
  | cons d ds ih =>
    have hrest := ih fun d' hd' => hds d' (mem_cons_of_mem d hd')
    exact hds d mem_cons_self _ hrest

/-- One turn of the loop, given that the calls on the targets return and that the pushed nodes can
be worked off. -/
theorem drains_cons (hc : (g.obj c).isNode) (hret : ∀ b, g.Edge c b → g.Returns b)
    (hdrain : ∀ b, g.Edge c b → (g.obj b).isNode → ∀ l, g.Drains l → g.Drains (b :: l))
    (htodo : g.Drains todo) : g.Drains (c :: todo) := by
  intro h hx
  obtain ⟨f₁, h₁, pushed, hscan, hx₁, hp⟩ := scanSlots_returns (List.range cslotCount)
    (fun i hi o ho => hret o ⟨hc, i, mem_range.mp hi, ho⟩) h hx todo
  have hpushed : g.Drains (pushed ++ todo) := by
    refine drains_append htodo ?_
    intro d hd
    obtain ⟨hn, i, hi, ht⟩ := hp d hd
    exact hdrain d ⟨hc, i, mem_range.mp hi, ht⟩ hn
  obtain ⟨f₂, h₂, hcas⟩ := hpushed h₁ hx₁
  refine ⟨max f₁ f₂ + 1, h₂, ?_⟩
  rw [cascade, scanSlots_mono (fun _ _ _ => revoke_le (le_max_left f₁ f₂)) hscan]
  exact cascade_le (le_max_right f₁ f₂) hcas

theorem returns_of_acc (hacc : Acc (flip g.Edge) o) :
    g.Returns o ∧ ((g.obj o).isNode → ∀ l, g.Drains l → g.Drains (o :: l)) := by
  induction hacc with
  | intro o _ ih =>
    have hdrain : (g.obj o).isNode → ∀ l, g.Drains l → g.Drains (o :: l) := by
      intro hn l hl
      exact drains_cons hn (fun b hb => (ih b hb).1) (fun b hb => (ih b hb).2) hl
    refine ⟨?_, hdrain⟩
    intro h hx
    cases hn : (g.obj o).isNode with
    | false =>
      refine ⟨1, h.mark o, ?_⟩
      rw [revoke, hx.isNode, hn]
      rfl
    | true =>
      obtain ⟨fuel, h', hcas⟩ := hdrain hn [] drains_nil (h.mark o) (hx.trans (.mark h o))
      refine ⟨fuel + 1, h', ?_⟩
      rw [revoke, hx.isNode, hn]
      exact hcas

/-! ## Calls that do not return -/

theorem scanSlots_eq_none (hrev : Sound rev) {c b : ObjId}
    (hb : ∃ i ∈ is, ((g.node c).slots i).target = some b)
    (hnone : ∀ h, g.Extends h → rev h b = none) {h : CapHeap} (hx : g.Extends h)
    (todo : List ObjId) : scanSlots rev c is h todo = none := by
  induction is generalizing h todo with
  | nil =>
    obtain ⟨i, hi, -⟩ := hb
    cases hi
  | cons i is ih =>
    rw [scanSlots, hx.slots]
    by_cases hi : ((g.node c).slots i).target = some b
    · rw [hi]
      simp only [hnone h hx, bind_none]
    have hrest : ∃ j ∈ is, ((g.node c).slots j).target = some b := by
      obtain ⟨j, hj, ht⟩ := hb
      rcases mem_cons.mp hj with rfl | hj
      · exact absurd ht hi
      · exact ⟨j, hj, ht⟩
    cases ht : ((g.node c).slots i).target with
    | none => exact ih hrest hx todo
    | some o =>
      simp only
      cases hr : rev h o with
      | none => rfl
      | some h₁ =>
        have hx₁ := hx.trans (hrev h o h₁ hr).1
        simp only [bind_some]
        split_ifs
        · exact ih hrest (hx₁.trans (.setDepth h₁ o _)) (o :: todo)
        · exact ih hrest hx₁ todo

theorem exists_edge_of_not_acc (h : ¬ Acc (flip g.Edge) o) :
    ∃ b, g.Edge o b ∧ ¬ Acc (flip g.Edge) b := by
  by_contra hno
  apply h
  constructor
  intro b hb
  by_contra hacc
  exact hno ⟨b, hb, hacc⟩

theorem revoke_eq_none_of_not_acc (fuel : ℕ) (ho : ¬ Acc (flip g.Edge) o) {h : CapHeap}
    (hx : g.Extends h) : revoke fuel h o = none := by
  induction fuel using Nat.strong_induction_on generalizing o h with
  | _ fuel ih =>
    obtain ⟨b, ⟨hn, i, hi, ht⟩, hb⟩ := exists_edge_of_not_acc ho
    match fuel with
    | 0 => rfl
    | 1 => rw [revoke, hx.isNode, hn, if_pos rfl, cascade]
    | fuel + 2 =>
      rw [revoke, hx.isNode, hn, cascade,
        scanSlots_eq_none (sound fuel).1 ⟨i, mem_range.mpr hi, ht⟩
          (fun h' hx' => ih fuel (by omega) hb hx') (hx.trans (.mark h o)) []]
      rfl

theorem finite_reach (h : CapHeap) (root : ObjId) : {x | ReflTransGen h.Edge root x}.Finite := by
  apply ((Set.finite_Iio h.size).insert root).subset
  intro x hx
  rcases ReflTransGen.cases_tail hx with rfl | ⟨b, -, -, i, -, ht⟩
  · exact Set.mem_insert _ _
  · exact Set.mem_insert_of_mem _ (h.closed b i x ht)

/-- `CNode::revoke` returns with everything within reach of the root revoked exactly when no cycle
of nodes is within reach of the root. -/
theorem revoke_complete_iff (h : CapHeap) (root : ObjId) :
    (∃ fuel h', revoke fuel h root = some h' ∧
      ∀ x, ReflTransGen h.Edge root x → (h'.obj x).revoked) ↔
    ∀ c, ReflTransGen h.Edge root c → ¬ TransGen h.Edge c c := by
  rw [← acc_iff_no_cycle (h.finite_reach root)]
  constructor
  · rintro ⟨fuel, h', hs, -⟩
    by_contra hacc
    rw [revoke_eq_none_of_not_acc fuel hacc (.refl h)] at hs
    cases hs
  · intro hacc
    obtain ⟨fuel, h', hs⟩ := (returns_of_acc hacc).1 h (.refl h)
    exact ⟨fuel, h', hs, ((sound fuel).1 h root h' hs).2⟩

def selfLoop : CapHeap where
  size := 1
  obj _ := { isNode := true }
  node _ := CNode.setSlot {} 0 ⟨some 0, .cnode, CapRights.copy, 0#32, true⟩
  closed := by
    intro c i o ht
    by_cases hi : i = 0
    · subst i
      rw [CNode.setSlot_same] at ht
      cases ht
      exact Nat.one_pos
    · rw [CNode.setSlot_ne _ _ hi] at ht
      cases ht
  typed _ _ _ _ _ := rfl

theorem revoke_selfLoop_diverges : ¬ ∃ fuel h', revoke fuel selfLoop 0 = some h' := by
  rintro ⟨fuel, h', hs⟩
  have hedge : selfLoop.Edge 0 0 := ⟨rfl, 0, by decide, rfl⟩
  have hacc : ¬ Acc (flip selfLoop.Edge) 0 := fun hacc =>
    not_transGen_self_of_acc hacc (.single hedge)
  rw [revoke_eq_none_of_not_acc fuel hacc (.refl selfLoop)] at hs
  cases hs

end CapHeap

end Nexios.Cap
