import Nexios.Cap.MapCoverage
import Nexios.Lib.Run
import Nexios.Lib.Sum

/-!
# Pins of the mapping registry

The reference count of a FrameCap is the sum of the references held outside the registry, one pin
for each occupied slot, and the pins that calls in progress still have to release. `MapInv` joins
this balance with the coverage of the leaf entries and with what the entries of the to-do lists rely
on. Every step that meets `Apart` preserves it.
-/

open Finset Function

namespace Nexios.Cap

def MapSlot.pinned (x : MapSlot) : Option ObjId := if x.occupied then some x.fc else none

def Work.pinned : Work → Option ObjId
  | .clearPages job _ _ => some job.fc
  | _ => none

def Todo.pinned : Todo → Option ObjId
  | .mapCheck _ fc | .mapClaim _ fc | .release fc => some fc
  | _ => none

theorem Work.pinned_of_clean {w : Work} {fc : ObjId} (hk : w.kind = .clean) (hfc : w.job.fc = fc) :
    w.pinned = some fc := by
  cases w with
  | clearPages job pages j => exact congrArg some hfc
  | _ => cases hk

def Todo.revokes : Todo → Option ObjId
  | .scan fc _ .mark => some fc
  | _ => none

def owedBy (w : Option Work) (xs : List Todo) (fc : ObjId) : ℕ :=
  refTo (w.bind Work.pinned) fc + (xs.map fun x => refTo x.pinned fc).sum

@[simp] theorem owedBy_nil (w : Option Work) (fc : ObjId) :
    owedBy w [] fc = refTo (w.bind Work.pinned) fc := rfl

@[simp] theorem owedBy_cons (w : Option Work) (x : Todo) (xs : List Todo) (fc : ObjId) :
    owedBy w (x :: xs) fc = refTo x.pinned fc + owedBy w xs fc := by
  simp only [owedBy, List.map_cons, List.sum_cons]
  omega

namespace MapState

variable {n : ℕ}

def slotPins (s : MapState n) (fc : ObjId) : ℕ :=
  ∑ i ∈ Finset.range kMaxMaps, refTo (s.slots i).pinned fc

def owed (s : MapState n) (fc : ObjId) : ℕ := ∑ t, owedBy (s.work t) (s.todo t) fc

def revoking (s : MapState n) (fc : ObjId) : Prop := ∃ t, ∃ x ∈ s.todo t, x.revokes = some fc
  deriving Decidable

theorem cleaning_of_pinned {s : MapState n} {t : Fin n} {fc : ObjId}
    (h : (s.work t).bind Work.pinned = some fc) : s.cleaning fc := by
  obtain ⟨w, hw, hp⟩ := Option.bind_eq_some_iff.mp h
  cases w with
  | clearPages job pages j => exact ⟨t, _, hw, rfl, Option.some.inj hp⟩
  | _ => cases hp

end MapState

variable {n : ℕ}

/-- What the next part of a call relies on. -/
def Todo.Ok (s : MapState n) : Todo → Prop
  | .mapCheck _ fc => fc < s.next
  | .mapClaim _ fc => fc < s.next ∧ (s.frame fc).count * pageSize ≤ userShmRegionSize
  | .scan fc i .mark => ∀ j < i, j < kMaxMaps → (s.slots j).pinned ≠ some fc
  | .scan fc _ .free => s.refCount fc = 0 ∧ fc < s.next
  | _ => True

structure MapInv (s : MapState n) : Prop where
  covered : Covered s
  count : ∀ fc, s.refCount fc = s.ext fc + s.slotPins fc + s.owed fc
  below : ∀ fc, s.refCount fc < refLimit
  fresh : ∀ fc, s.next ≤ fc → s.refCount fc = 0
  freed : ∀ fc, s.freed fc → s.refCount fc = 0 ∧ fc < s.next
  revoked : ∀ fc, s.revoked fc →
    (∀ j < kMaxMaps, (s.slots j).pinned ≠ some fc) ∧ ¬ s.cleaning fc
  todoOk : ∀ t, ∀ x ∈ s.todo t, x.Ok s

namespace MapInv

variable {s : MapState n} {t : Fin n} {fc : ObjId} {i : ℕ} {x : MapSlot}

theorem init : MapInv (MapState.init : MapState n) where
  covered := .init
  count fc := by simp [MapState.init, MapState.slotPins, MapState.owed, MapSlot.pinned]
  below _ := Nat.two_pow_pos 32
  fresh _ _ := rfl
  freed _ h := by cases h
  revoked _ h := by cases h
  todoOk _ _ h := by cases h

theorem pinned_eq_some (h : x.pinned = some fc) : x.occupied = true ∧ x.fc = fc := by
  unfold MapSlot.pinned at h
  split_ifs at h with ho
  exact ⟨ho, Option.some.inj h⟩

theorem slotPins_pos (s : MapState n) (hi : i < kMaxMaps)
    (h : (s.slots i).pinned = some fc) : 0 < s.slotPins fc := by
  have hle := single_le_sum (f := fun j => refTo (s.slots j).pinned fc)
    (fun _ _ => Nat.zero_le _) (mem_range.mpr hi)
  simp only [h, refTo_self] at hle
  exact hle

theorem owedBy_le (s : MapState n) (t : Fin n) (fc : ObjId) :
    owedBy (s.work t) (s.todo t) fc ≤ s.owed fc :=
  single_le_sum (f := fun t => owedBy (s.work t) (s.todo t) fc) (fun _ _ => Nat.zero_le _)
    (mem_univ t)

theorem refCount_pos_of_slot (h : MapInv s) (fc : ObjId) (hi : i < kMaxMaps)
    (hp : (s.slots i).pinned = some fc) : 0 < s.refCount fc := by
  have hc := h.count fc
  have hs := slotPins_pos s hi hp
  omega

theorem refCount_pos_of_cleaning (h : MapInv s) (hc : s.cleaning fc) : 0 < s.refCount fc := by
  obtain ⟨t, w, hw, hk, hfc⟩ := hc
  have hpin : w.pinned = some fc := Work.pinned_of_clean hk hfc
  have hle := owedBy_le s t fc
  have hcount := h.count fc
  have hone : 1 ≤ owedBy (s.work t) (s.todo t) fc := by
    rw [owedBy, show s.work t = some w from hw, Option.bind_some, hpin, refTo_self]
    omega
  omega

theorem lt_next (h : MapInv s) (hpos : 0 < s.refCount fc) : fc < s.next := by
  by_contra hge
  have hz := h.fresh fc (not_lt.mp hge)
  omega

/-- A step of one thread that touches at most one slot. The pins of the slot may only grow for a
capability that is not revoked and not being revoked. -/
theorem thread_step {r e : ObjId → ℕ} {p : ℕ → ℕ → Option Pte} {w : Option Work} {l : List Todo}
    {q : Fin n → Option ℕ} (h : MapInv s) (hi : i < kMaxMaps) (hcov : Covered { s with
      slots := update s.slots i x, pte := p, work := update s.work t w })
    (hbal : ∀ fc, r fc + (s.ext fc + refTo (s.slots i).pinned fc +
      owedBy (s.work t) (s.todo t) fc) = s.refCount fc + (e fc + refTo x.pinned fc + owedBy w l fc))
    (hbelow : ∀ fc, r fc < refLimit) (hzero : ∀ fc, s.refCount fc = 0 → r fc = 0)
    (hpin : ∀ fc, x.pinned = some fc →
      (s.slots i).pinned = some fc ∨ s.revoked fc = false ∧ ¬ s.revoking fc)
    (hclean : ∀ fc, w.bind Work.pinned = some fc →
      (s.work t).bind Work.pinned = some fc ∨ (s.slots i).pinned = some fc)
    (hok : ∀ y ∈ l, y ∈ s.todo t ∨ y.Ok { s with
      refCount := r, slots := update s.slots i x }) : MapInv { s with
      refCount := r, ext := e, slots := update s.slots i x, pte := p
      work := update s.work t w, todo := update s.todo t l, ret := q } := by
  have hpins : ∀ j fc, (update s.slots i x j).pinned = some fc →
      (s.slots j).pinned = some fc ∨ s.revoked fc = false ∧ ¬ s.revoking fc := by
    intro j fc hp
    by_cases hj : j = i
    · subst hj
      exact hpin fc (by rwa [update_self] at hp)
    · rw [update_of_ne hj] at hp
      exact .inl hp
  have hmono : ∀ t' y, y ∈ s.todo t' → y.Ok { s with
      refCount := r, slots := update s.slots i x } := by
    intro t' y hy
    have hold := h.todoOk t' y hy
    cases y with
    | scan fc k after =>
      cases after with
      | mark =>
        intro j hj hjm hp
        rcases hpins j fc hp with hp | ⟨-, hno⟩
        · exact hold j hj hjm hp
        · exact hno ⟨t', _, hy, rfl⟩
      | free => exact ⟨hzero fc hold.1, hold.2⟩
    | _ => exact hold
  constructor
  case covered => exact { hcov with }
  case count =>
    intro fc
    have hs := total_of_eq_off (f := fun j => refTo (s.slots j).pinned fc)
      (g := fun j => refTo (update s.slots i x j).pinned fc) (mem_range.mpr hi)
      fun j _ hne => by simp only [update_of_ne hne]
    have ht := total_of_eq_off (f := fun t => owedBy (s.work t) (s.todo t) fc)
      (g := fun t' => owedBy (update s.work t w t') (update s.todo t l t') fc) (mem_univ t)
      fun t' _ hne => by simp only [update_of_ne hne]
    simp only [update_self] at hs ht
    change _ = s.slotPins fc + _ at hs
    change _ = s.owed fc + _ at ht
    have hb := hbal fc
    have hc := h.count fc
    simp only [MapState.slotPins, MapState.owed] at *
    omega
  case below => exact hbelow
  case fresh => exact fun fc hfc => hzero fc (h.fresh fc hfc)
  case freed => exact fun fc hf => ⟨hzero fc (h.freed fc hf).1, (h.freed fc hf).2⟩
  case revoked =>
    intro fc hr
    obtain ⟨hnone, hnc⟩ := h.revoked fc hr
    constructor
    · intro j hj hp
      rcases hpins j fc hp with hp | ⟨hf, -⟩
      · exact hnone j hj hp
      · exact absurd (hr.symm.trans hf) (by decide)
    · rintro ⟨t', v, hv, hk, hfc⟩
      have hpv : v.pinned = some fc := Work.pinned_of_clean hk hfc
      by_cases ht : t' = t
      · subst ht
        simp only [update_self, Option.mem_def] at hv
        rcases hclean fc (by rw [hv]; exact hpv) with hold | hold
        · exact hnc (MapState.cleaning_of_pinned hold)
        · exact hnone i hi hold
      · simp only [update_of_ne ht] at hv
        exact hnc ⟨t', v, hv, hk, hfc⟩
  case todoOk =>
    intro t' y hy
    by_cases ht : t' = t
    · subst ht
      simp only [update_self] at hy
      exact (hok y hy).elim (hmono t' y) id
    · simp only [update_of_ne ht] at hy
      exact hmono t' y hy

end MapInv

end Nexios.Cap
