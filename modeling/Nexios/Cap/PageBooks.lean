import Nexios.Cap.Untyped
import Nexios.Lib.Sum

/-!
# Bookkeeping of references and pages

While a call runs, it may hold references that neither a creator nor a slot accounts for, and it may
be moving pages from one owner to another. `Books s hand limbo` is the balance of a state with these
two positions open: `hand` lists the references that the call holds, `limbo` the runs of pages that
are out of the PMM and without an owner. A call is correct when it starts and ends with both lists
empty.
-/

open Function List BitVec Finset Nat

namespace Nexios.Cap

open MemState

variable {m : ℕ}

/-- How often `p` is among the `k` pages from `phys` on. -/
def pageIn (phys p : ℕ) : ℕ → ℕ
  | 0 => 0
  | k + 1 => pageIn phys p k + if p = phys + k * pageSize then 1 else 0

theorem update_pageIn {phys k : ℕ} {f g : ℕ → ℕ} (h : ∀ p, f p = g p + pageIn phys p k) (p : ℕ) :
    update f (phys + k * pageSize) (f (phys + k * pageSize) + 1) p = g p + pageIn phys p (k + 1) := by
  rw [update_apply, pageIn]
  split_ifs with hp
  · rw [← hp, h, add_assoc]
  · rw [h, add_zero]

theorem pageIn_add (phys p a b : ℕ) :
    pageIn phys p (a + b) = pageIn phys p a + pageIn (phys + a * pageSize) p b := by
  induction b with
  | zero => rfl
  | succ b ih =>
    have haddr : phys + (a + b) * pageSize = phys + a * pageSize + b * pageSize := by ring
    rw [← add_assoc, pageIn, pageIn, ih, haddr, add_assoc]

theorem pageIn_eq_zero_of_le {phys p k : ℕ} (h : phys + k * pageSize ≤ p) : pageIn phys p k = 0 := by
  induction k with
  | zero => rfl
  | succ k ih =>
    have hlt : phys + k * pageSize < p := by
      rw [Nat.succ_mul] at h
      have hpos : 0 < pageSize := by decide
      omega
    rw [pageIn, ih hlt.le, if_neg (ne_of_gt hlt)]

theorem pageIn_le_one (phys p k : ℕ) : pageIn phys p k ≤ 1 := by
  induction k with
  | zero => exact zero_le _
  | succ k ih =>
    rw [pageIn]
    split_ifs with hp
    · rw [pageIn_eq_zero_of_le hp.ge]
    · exact ih

theorem exists_of_pageIn {phys p k : ℕ} (h : 0 < pageIn phys p k) :
    ∃ i < k, p = phys + i * pageSize := by
  induction k with
  | zero => cases h
  | succ k ih =>
    by_cases hp : p = phys + k * pageSize
    · exact ⟨k, lt_succ_self k, hp⟩
    · rw [pageIn, if_neg hp] at h
      obtain ⟨i, hi, hpi⟩ := ih h
      exact ⟨i, lt_succ_of_lt hi, hpi⟩

/-- Pages that an object owns: an Untyped none once it is spent. -/
def Payload.owns (x : Payload) (p : ℕ) : ℕ :=
  match x with
  | .untyped u => if u.retyped then 0 else pageIn u.phys p (u.size / pageSize)
  | .frame f => pageIn f.phys p f.count

namespace MemState

variable (s : MemState m)

def ownedBy (o : ObjId) (p : ℕ) : ℕ :=
  if s.alive o then (s.payload o).owns p else 0

def owners (p : ℕ) : ℕ := ∑ o ∈ range s.next, s.ownedBy o p

def slotRefs (o : ObjId) : ℕ :=
  ∑ q ∈ Finset.univ ×ˢ Finset.range cslotCount, refTo ((s.node q.1).slots q.2).target o

def held (o : ObjId) : ℕ := (if s.creator o then 1 else 0) + s.slotRefs o

theorem freePages_spec (phys k : ℕ) : ∃ free returned,
    s.freePages phys k = { s with free := free, returned := returned } ∧
      (∀ p, returned p = s.returned p + pageIn phys p k) ∧
      ∀ p, free p → s.free p = true ∨ 0 < pageIn phys p k := by
  induction k with
  | zero => exact ⟨s.free, s.returned, rfl, fun _ => rfl, fun _ h => .inl h⟩
  | succ k ih =>
    obtain ⟨free, returned, heq, hret, hfree⟩ := ih
    rw [freePages, heq]
    refine ⟨_, _, rfl, fun p => update_pageIn hret p, fun p hp => ?_⟩
    · rw [update_apply] at hp
      rw [pageIn]
      split_ifs at hp ⊢ with heq
      · exact .inr (succ_pos _)
      · exact hfree p hp

theorem allocPages_spec (phys k : ℕ) : ∃ free carved,
    s.allocPages phys k = { s with free := free, carved := carved } ∧
      (∀ p, carved p = s.carved p + pageIn phys p k) ∧
      ∀ p, free p → s.free p = true ∧ pageIn phys p k = 0 := by
  induction k with
  | zero => exact ⟨s.free, s.carved, rfl, fun _ => rfl, fun _ h => ⟨h, rfl⟩⟩
  | succ k ih =>
    obtain ⟨free, carved, heq, hcar, hfree⟩ := ih
    rw [allocPages, heq]
    refine ⟨_, _, rfl, fun p => update_pageIn hcar p, fun p hp => ?_⟩
    · rw [update_apply] at hp
      rw [pageIn]
      split_ifs at hp ⊢ with heq
      exact hfree p hp

end MemState

def limboPages (limbo : List (ℕ × ℕ)) (p : ℕ) : ℕ := (limbo.map fun r => pageIn r.1 p r.2).sum

@[simp] theorem limboPages_nil (p : ℕ) : limboPages [] p = 0 := rfl

@[simp] theorem limboPages_cons (phys k : ℕ) (limbo : List (ℕ × ℕ)) (p : ℕ) :
    limboPages ((phys, k) :: limbo) p = pageIn phys p k + limboPages limbo p := by
  simp [limboPages]

/-- An Untyped covers whole pages and starts at a real address. -/
def Payload.Sane : Payload → Prop
  | .untyped u => u.size % pageSize = 0 ∧ u.phys ≠ 0
  | .frame _ => True

def Payload.isUntyped : Payload → Bool
  | .untyped _ => true
  | .frame _ => false

structure Books (s : MemState m) (hand : List ObjId) (limbo : List (ℕ × ℕ)) : Prop where
  count : ∀ o, s.alive o → (s.obj o).refCount.toNat = s.held o + hand.count o
  pos : ∀ o, s.alive o → 0 < s.held o + hand.count o
  dead : ∀ o, s.alive o = false → s.held o + hand.count o = 0
  fresh : ∀ o, s.next ≤ o → s.alive o = false
  pages : ∀ p, s.carved p = s.returned p + (s.owners p + limboPages limbo p)
  single : ∀ p, s.owners p + limboPages limbo p ≤ 1
  free : ∀ p, s.free p → s.owners p + limboPages limbo p = 0
  sane : ∀ o, s.alive o → (s.payload o).Sane
  typed : ∀ c i o, i < cslotCount → ((s.node c).slots i).target = some o →
    ((s.node c).slots i).type = .untyped → (s.payload o).isUntyped

namespace Books

variable {s u : MemState m} {hand hand' : List ObjId} {limbo limbo' : List (ℕ × ℕ)}
  {o : ObjId} {phys k : ℕ} {x : Payload}

theorem init (free : ℕ → Bool) : Books ({ free := free } : MemState m) [] [] where
  count _ h := by cases h
  pos _ h := by cases h
  dead o _ := by simp [held, slotRefs, CSlot.target]
  fresh _ _ := rfl
  pages p := by simp [owners]
  single p := by simp [owners]
  free p _ := by simp [owners]
  sane _ h := by cases h
  typed c i o _ h := by cases h

theorem refTo_le_slotRefs (s : MemState m) (c : Fin m) {i : ℕ} (hi : i < cslotCount) (o : ObjId) :
    refTo ((s.node c).slots i).target o ≤ s.slotRefs o := by
  have hmem : (c, i) ∈ Finset.univ ×ˢ Finset.range cslotCount :=
    Finset.mem_product.mpr ⟨Finset.mem_univ c, Finset.mem_range.mpr hi⟩
  exact single_le_sum (f := fun q : Fin m × ℕ => refTo ((s.node q.1).slots q.2).target o)
    (fun _ _ => zero_le _) hmem

theorem slotRefs_le (s : MemState m) (o : ObjId) : s.slotRefs o ≤ m * cslotCount := by
  have hle : s.slotRefs o ≤ ∑ _q ∈ (Finset.univ : Finset (Fin m)) ×ˢ Finset.range cslotCount, 1 := by
    apply Finset.sum_le_sum
    intro q _
    rw [refTo]
    split_ifs <;> omega
  simpa using hle

section

variable (h : Books s hand limbo)
include h

theorem alive_of_hand (ho : o ∈ hand) : s.alive o = true := by
  by_contra hno
  have hz := h.dead o (by simpa using hno)
  have hpos := count_pos_iff.mpr ho
  omega

theorem lt_next (ho : s.alive o) : o < s.next := by
  by_contra hge
  rw [h.fresh o (not_lt.mp hge)] at ho
  cases ho

theorem alive_of_slot {c : Fin m} {i : ℕ} (hi : i < cslotCount)
    (ht : ((s.node c).slots i).target = some o) : s.alive o = true := by
  by_contra hno
  have hz := h.dead o (by simpa using hno)
  have hle := refTo_le_slotRefs s c hi o
  rw [ht, refTo_self] at hle
  rw [held] at hz
  omega

theorem relist (hhand : ∀ o, hand'.count o = hand.count o)
    (hlimbo : ∀ p, limboPages limbo' p = limboPages limbo p) : Books s hand' limbo' where
  count o ho := by rw [hhand]; exact h.count o ho
  pos o ho := by rw [hhand]; exact h.pos o ho
  dead o ho := by rw [hhand]; exact h.dead o ho
  fresh := h.fresh
  pages p := by rw [hlimbo]; exact h.pages p
  single p := by rw [hlimbo]; exact h.single p
  free p hp := by rw [hlimbo]; exact h.free p hp
  sane := h.sane
  typed := h.typed

theorem rehold {creator : ObjId → Bool} {node : Fin m → CNode}
    (hheld : ∀ o, held { s with creator := creator, node := node } o + hand'.count o =
      s.held o + hand.count o)
    (htyped : ∀ c i o, i < cslotCount → ((node c).slots i).target = some o →
      ((node c).slots i).type = .untyped → (s.payload o).isUntyped) :
    Books { s with creator := creator, node := node } hand' limbo :=
  { h with
    count := fun o ho => (h.count o ho).trans (hheld o).symm
    pos := fun o ho => (h.pos o ho).trans_eq (hheld o).symm
    dead := fun o ho => (hheld o).trans (h.dead o ho)
    typed := htyped }

theorem recount {k : KernelObject} (halive : s.alive o)
    (hk : k.refCount.toNat = s.held o + hand'.count o) (hpos : 0 < s.held o + hand'.count o)
    (hother : ∀ o', o' ≠ o → hand'.count o' = hand.count o') :
    Books (s.setObj o k) hand' limbo where
  count o' ho' := by
    rw [setObj_obj, update_apply]
    split_ifs with hoo
    · rw [hoo]
      exact hk
    · rw [hother o' hoo]
      exact h.count o' ho'
  pos o' ho' := by
    by_cases hoo : o' = o
    · rw [hoo]
      exact hpos
    · rw [hother o' hoo]
      exact h.pos o' ho'
  dead o' ho' := by
    by_cases hoo : o' = o
    · rw [setObj_alive, hoo, halive] at ho'
      cases ho'
    · rw [hother o' hoo]
      exact h.dead o' ho'
  fresh := h.fresh
  pages := h.pages
  single := h.single
  free := h.free
  sane := h.sane
  typed := h.typed

theorem acquire (hm : m ≤ 2 ^ 25) (halive : s.alive o) (hhand : hand.length ≤ 3)
    (hu : s.acquire o = some u) : Books u (o :: hand) limbo := by
  obtain ⟨k, hk, rfl⟩ := Option.map_eq_some_iff.mp hu
  obtain ⟨-, rfl⟩ := KernelObject.acquire_eq_some hk
  have hcount := h.count o halive
  have hlen := hand.count_le_length (a := o)
  have hslots := slotRefs_le s o
  have hheld : s.held o ≤ 1 + m * cslotCount := by
    rw [held]
    split_ifs <;> omega
  have hcs : m * cslotCount ≤ 2 ^ 25 * cslotCount := mul_le_mul_right _ hm
  have hbound : 2 ^ 25 * cslotCount = 2 ^ 31 := by decide
  refine h.recount halive ?_ ?_ ?_
  · rw [count_cons_self]
    simp only [toNat_add, toNat_ofNat]
    omega
  · rw [count_cons_self]
    omega
  · intro o' ho'
    rw [count_cons_of_ne ho'.symm]

theorem setPayload (halive : s.alive o) (hsane : x.Sane)
    (hkind : (s.payload o).isUntyped → x.isUntyped)
    (hmove : ∀ p, x.owns p + limboPages limbo' p = (s.payload o).owns p + limboPages limbo p) :
    Books (s.setPayload o x) hand limbo' := by
  have howners : ∀ p, (s.setPayload o x).owners p + limboPages limbo' p =
      s.owners p + limboPages limbo p := by
    intro p
    have ht := total_of_eq_off (f := fun j => s.ownedBy j p)
      (g := fun j => (s.setPayload o x).ownedBy j p) (mem_range.mpr (h.lt_next halive)) ?_
    · have hnew : (s.setPayload o x).ownedBy o p = x.owns p := by
        simp only [ownedBy, setPayload_alive, setPayload_payload, halive, if_true, update_self]
      have hold : s.ownedBy o p = (s.payload o).owns p := by
        rw [ownedBy, halive, if_pos rfl]
      have hp := hmove p
      change (s.setPayload o x).owners p + _ = s.owners p + _ at ht
      omega
    · intro j _ hj
      simp only [ownedBy, setPayload_alive, setPayload_payload, update_of_ne hj]
  refine { h with
    pages := ?pages, single := ?single, free := ?free, sane := ?sane, typed := ?typed }
  case pages =>
    intro p
    rw [howners]
    exact h.pages p
  case single =>
    intro p
    rw [howners]
    exact h.single p
  case free =>
    intro p hp
    rw [howners]
    exact h.free p hp
  case sane =>
    intro o' ho'
    rw [setPayload_payload, update_apply]
    split_ifs
    · exact hsane
    · exact h.sane o' ho'
  case typed =>
    intro c i o' hi ht hty
    have hold := h.typed c i o' hi ht hty
    rw [setPayload_payload, update_apply]
    split_ifs with hoo
    · exact hkind (hoo ▸ hold)
    · exact hold

theorem allocPages (hfree : ∀ i < k, s.free (phys + i * pageSize) = true) :
    Books (s.allocPages phys k) hand ((phys, k) :: limbo) := by
  obtain ⟨free, carved, heq, hcar, hfr⟩ := s.allocPages_spec phys k
  rw [heq]
  refine { h with pages := fun p => ?pages, single := fun p => ?single, free := fun p hpf => ?free }
  case pages =>
    have hp := h.pages p
    change carved p = s.returned p + (s.owners p + _)
    rw [hcar, limboPages_cons]
    omega
  case single =>
    have hp := h.single p
    have hone := pageIn_le_one phys p k
    change s.owners p + _ ≤ 1
    rw [limboPages_cons]
    by_cases hin : 0 < pageIn phys p k
    · obtain ⟨i, hi, rfl⟩ := exists_of_pageIn hin
      have hz := h.free _ (hfree i hi)
      omega
    · omega
  case free =>
    obtain ⟨hold, hz⟩ := hfr p hpf
    rw [limboPages_cons, hz, zero_add]
    exact h.free p hold

end

theorem dispose_spec (hsane : (s.payload o).Sane) : ∃ free returned live,
    s.dispose o = { s.kill o with free := free, returned := returned, liveUntypeds := live } ∧
      (∀ p, returned p = s.returned p + (s.payload o).owns p) ∧
      ∀ p, free p → s.free p = true ∨ 0 < (s.payload o).owns p := by
  unfold dispose
  split
  · next ut hut =>
    rw [hut] at hsane ⊢
    cases hr : ut.retyped with
    | true =>
      simp only [Payload.owns, hr]
      exact ⟨s.free, s.returned, s.liveUntypeds - 1, rfl, fun _ => rfl, fun _ hp => .inl hp⟩
    | false =>
      simp only [Payload.owns, hr, hsane.2, ne_eq]
      obtain ⟨free, returned, heq, hspec⟩ := (s.kill o).freePages_spec ut.phys (ut.size / pageSize)
      exact ⟨free, returned, s.liveUntypeds - 1, by simp [heq], hspec⟩
  · next f hf =>
    rw [hf]
    obtain ⟨free, returned, heq, hspec⟩ := (s.kill o).freePages_spec f.phys f.count
    exact ⟨free, returned, s.liveUntypeds, heq, hspec⟩

theorem owners_kill (halive : s.alive o) (hlt : o < s.next) (p : ℕ) :
    (s.kill o).owners p + (s.payload o).owns p = s.owners p := by
  have ht := total_of_eq_off (f := fun o => s.ownedBy o p) (g := fun j => (s.kill o).ownedBy j p)
    (mem_range.mpr hlt) ?_
  · simp only [ownedBy, halive, if_true, kill_alive, update_self, Bool.false_eq_true,
      if_false, add_zero] at ht
    exact ht
  · intro j _ hj
    simp only [ownedBy, kill_alive, kill_payload, update_of_ne hj]

theorem disposed (h : Books s (o :: hand) limbo) (k : KernelObject)
    (hlast : s.held o + hand.count o = 0) : Books ((s.setObj o k).dispose o) hand limbo := by
  have halive := h.alive_of_hand mem_cons_self
  have hother : ∀ o', o' ≠ o → (o :: hand).count o' = hand.count o' := by
    intro o' ho'
    rw [count_cons_of_ne ho'.symm]
  obtain ⟨free, returned, live, heq, hret, hfr⟩ :=
    dispose_spec (s := s.setObj o k) (h.sane o halive)
  simp only [setObj_returned, setObj_free, setObj_payload] at hret hfr
  have howners : ∀ p, ((s.setObj o k).dispose o).owners p + (s.payload o).owns p = s.owners p :=
    heq ▸ owners_kill halive (h.lt_next halive)
  rw [heq] at howners ⊢
  have hlive : ∀ o', update s.alive o false o' → o' ≠ o ∧ s.alive o' = true := by
    intro o' ho'
    rw [update_apply] at ho'
    split_ifs at ho' with hoo
    exact ⟨hoo, ho'⟩
  refine { h with
    count := fun o' ho' => ?count
    pos := fun o' ho' => ?pos
    dead := fun o' ho' => ?dead
    fresh := fun o' ho' => ?fresh
    pages := fun p => ?pages
    single := fun p => ?single
    free := fun p hpf => ?free
    sane := fun o' ho' => h.sane o' (hlive o' ho').2 }
  case count =>
    obtain ⟨hoo, ho'⟩ := hlive o' ho'
    have hc := h.count o' ho'
    rw [hother o' hoo] at hc
    exact (congrArg (fun x => x.refCount.toNat) (update_of_ne hoo k s.obj)).trans hc
  case pos =>
    obtain ⟨hoo, ho'⟩ := hlive o' ho'
    exact hother o' hoo ▸ h.pos o' ho'
  case dead =>
    by_cases hoo : o' = o
    · rw [hoo]
      exact hlast
    · have ho' : update s.alive o false o' = false := ho'
      rw [update_of_ne hoo] at ho'
      exact hother o' hoo ▸ h.dead o' ho'
  case fresh =>
    change update s.alive o false o' = false
    rw [update_apply, h.fresh o' ho', ite_self]
  case pages =>
    have hp := h.pages p
    have ho := howners p
    have hr := hret p
    change s.carved p = returned p + _
    omega
  case single =>
    have hp := h.single p
    have ho := howners p
    omega
  case free =>
    have ho := howners p
    have hs := h.single p
    rcases hfr p hpf with hold | hin
    · have hp := h.free p hold
      omega
    · omega

theorem release (h : Books s (o :: hand) limbo) : Books (s.release o) hand limbo := by
  have halive := h.alive_of_hand mem_cons_self
  have hcount := h.count o halive
  rw [count_cons_self] at hcount
  have hother : ∀ o', o' ≠ o → hand.count o' = (o :: hand).count o' := by
    intro o' ho'
    rw [count_cons_of_ne ho'.symm]
  by_cases hlast : (s.obj o).refCount = 1#32
  · simp only [MemState.release, KernelObject.release, hlast]
    rw [hlast] at hcount
    have hzero : s.held o + hand.count o = 0 := by
      simp only [toNat_ofNat] at hcount
      omega
    exact h.disposed _ hzero
  · simp only [MemState.release, KernelObject.release, beq_eq_false_iff_ne.mpr hlast]
    have hne : (s.obj o).refCount.toNat ≠ 1 := fun hc => hlast (eq_of_toNat_eq hc)
    refine h.recount halive ?_ (by omega) hother
    rw [toNat_sub_of_le]
    · simp only [toNat_ofNat]
      omega
    · rw [le_def]
      simp only [toNat_ofNat]
      omega

theorem newObject (h : Books s hand ((phys, k) :: limbo)) (hsane : x.Sane)
    (howns : ∀ p, x.owns p = pageIn phys p k) : Books (s.newObject x) (s.next :: hand) limbo := by
  have hnew : s.alive s.next = false := h.fresh s.next (le_refl _)
  have hzero := h.dead s.next hnew
  have howners : ∀ p, (s.newObject x).owners p + limboPages limbo p =
      s.owners p + limboPages ((phys, k) :: limbo) p := by
    intro p
    have hlast : (s.newObject x).ownedBy s.next p = pageIn phys p k := by
      simp only [ownedBy, newObject_alive, newObject_payload, update_self, if_true, howns]
    have hrest : ∑ o ∈ range s.next, (s.newObject x).ownedBy o p = s.owners p := by
      apply sum_congr rfl
      intro o ho
      have hne : o ≠ s.next := (Finset.mem_range.mp ho).ne
      simp only [ownedBy, newObject_alive, newObject_payload, update_of_ne hne]
    rw [owners, newObject_next, Finset.sum_range_succ, hrest, hlast, limboPages_cons, add_assoc]
  have hcounts : ∀ o, o ≠ s.next → (s.next :: hand).count o = hand.count o := by
    intro o ho
    rw [count_cons_of_ne ho.symm]
  refine { h with
    count := fun o ho => ?count
    pos := fun o ho => ?pos
    dead := fun o ho => ?dead
    fresh := fun o ho => ?fresh
    pages := fun p => ?pages
    single := fun p => ?single
    free := fun p hpf => ?free
    sane := fun o ho => ?sane
    typed := fun c i o hi ht hty => ?typed }
  case count =>
    rw [newObject_obj]
    by_cases hon : o = s.next
    · rw [hon, update_self, count_cons_self]
      change 1 = s.held s.next + _
      omega
    · rw [newObject_alive, update_of_ne hon] at ho
      rw [update_of_ne hon, hcounts o hon]
      exact h.count o ho
  case pos =>
    by_cases hon : o = s.next
    · rw [hon, count_cons_self]
      omega
    · rw [newObject_alive, update_of_ne hon] at ho
      rw [hcounts o hon]
      exact h.pos o ho
  case dead =>
    by_cases hon : o = s.next
    · rw [newObject_alive, hon, update_self] at ho
      cases ho
    · rw [newObject_alive, update_of_ne hon] at ho
      rw [hcounts o hon]
      exact h.dead o ho
  case fresh =>
    have hlt : s.next < o := ho
    rw [newObject_alive, update_of_ne (ne_of_gt hlt)]
    exact h.fresh o hlt.le
  case pages =>
    rw [howners]
    exact h.pages p
  case single =>
    rw [howners]
    exact h.single p
  case free =>
    rw [howners]
    exact h.free p hpf
  case sane =>
    rw [newObject_payload, update_apply]
    split_ifs with hon
    · exact hsane
    · rw [newObject_alive, update_of_ne hon] at ho
      exact h.sane o ho
  case typed =>
    have hon : o ≠ s.next := by
      rintro rfl
      rw [h.alive_of_slot hi ht] at hnew
      cases hnew
    rw [newObject_payload, update_of_ne hon]
    exact h.typed c i o hi ht hty

theorem freePages (h : Books s hand ((phys, k) :: limbo)) :
    Books (s.freePages phys k) hand limbo := by
  obtain ⟨free, returned, heq, hret, hfr⟩ := s.freePages_spec phys k
  have hsingle := h.single
  have hpages := h.pages
  have hfree := h.free
  simp only [limboPages_cons] at hsingle hpages hfree
  rw [heq]
  refine { h with pages := fun p => ?pages, single := fun p => ?single, free := fun p hpf => ?free }
  case pages =>
    have hp := hpages p
    change s.carved p = returned p + (s.owners p + _)
    rw [hret]
    omega
  case single =>
    have hp := hsingle p
    change s.owners p + _ ≤ 1
    omega
  case free =>
    have hs := hsingle p
    change s.owners p + _ = 0
    rcases hfr p hpf with hold | hin
    · have hp := hfree p hold
      omega
    · omega

end Books

end Nexios.Cap
