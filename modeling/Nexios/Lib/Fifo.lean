import Mathlib.Data.List.Nodup
import Mathlib.Logic.Relation
import Mathlib.Tactic.Cases

/-!
# Linked queues

A queue kept in one successor field per element, with a pointer to its first and to its last
element. `Holds q l` says that the links and the two pointers spell the list `l`; adding an element
that is not in it and taking the first one out are then the list operations.
-/

open Function Option List

namespace Nexios

/-- `next` is the successor field of every element, whether it is in the queue or not. -/
structure Fifo (α : Type*) where
  next : α → Option α
  head : Option α
  tail : Option α

namespace Fifo

variable {α : Type*} {next next' : α → Option α} {o v : Option α} {x y : α} {l l₂ l₃ : List α}
  {q : Fifo α}

/-- Following `next` from `o` visits `l` and ends. -/
def Path (next : α → Option α) : Option α → List α → Prop
  | o, [] => o = none
  | o, x :: l => o = some x ∧ Path next (next x) l

theorem Path.congr (hp : Path next o l) (hnext : ∀ y ∈ l, next' y = next y) : Path next' o l := by
  induction l generalizing o with
  | nil => exact hp
  | cons z l ih =>
    refine ⟨hp.1, ?_⟩
    rw [hnext z mem_cons_self]
    exact ih hp.2 fun w hw => hnext w (mem_cons_of_mem _ hw)

theorem Path.splice (hp : Path next o (l ++ y :: l₂)) (hnext : ∀ z ∈ l, next' z = next z)
    (hy : next' y = v) (hv : Path next' v l₃) : Path next' o (l ++ y :: l₃) := by
  induction l generalizing o with
  | nil => exact ⟨hp.1, hy ▸ hv⟩
  | cons z l ih =>
    refine ⟨hp.1, ?_⟩
    rw [hnext z mem_cons_self]
    exact ih hp.2 fun w hw => hnext w (mem_cons_of_mem _ hw)

def Reaches (q : Fifo α) (x : α) : Prop :=
  ∃ h, q.head = some h ∧ Relation.ReflTransGen (fun a b => q.next a = some b) h x

structure Holds (q : Fifo α) (l : List α) : Prop where
  path : Path q.next q.head l
  tail : q.tail = l.getLast?
  nodup : l.Nodup

theorem Path.mem_of_reaches {h : α} (hr : Relation.ReflTransGen (fun a b => next a = some b) h x)
    (hp : Path next (some h) l) : x ∈ l := by
  induction hr using Relation.ReflTransGen.head_induction_on generalizing l with
  | refl =>
    cases l with
    | nil => exact absurd hp (some_ne_none _)
    | cons z l => exact some.inj hp.1 ▸ mem_cons_self
  | head hstep _ ih =>
    cases l with
    | nil => exact absurd hp (some_ne_none _)
    | cons z l =>
      obtain ⟨hz, hrest⟩ := hp
      rw [← some.inj hz, hstep] at hrest
      exact mem_cons_of_mem _ (ih hrest)

theorem Holds.mem_of_reaches (h : q.Holds l) (hx : q.Reaches x) : x ∈ l := by
  obtain ⟨z, hz, hr⟩ := hx
  have hp := h.path
  rw [hz] at hp
  exact hp.mem_of_reaches hr

theorem holds_nil (hh : q.head = none) (ht : q.tail = none) : q.Holds [] :=
  ⟨hh, ht, nodup_nil⟩

theorem Holds.eq_cons (h : q.Holds l) (hx : q.head = some x) : ∃ rest, l = x :: rest := by
  have hp := h.path
  rw [hx] at hp
  cases l with
  | nil => exact absurd hp (some_ne_none _)
  | cons z rest =>
    obtain rfl := some.inj hp.1
    exact ⟨rest, rfl⟩

variable [DecidableEq α]

def push (q : Fifo α) (x : α) : Fifo α :=
  match q.tail with
  | some y =>
    { next := update (update q.next x none) y (some x)
      head := q.head
      tail := some x }
  | none => { next := update q.next x none, head := some x, tail := some x }

def pop (q : Fifo α) (x : α) : Fifo α where
  next := update q.next x none
  head := q.next x
  tail := if q.next x = none then none else q.tail

theorem Holds.push (h : q.Holds l) (hx : x ∉ l) : (q.push x).Holds (l ++ [x]) := by
  have hnodup : (l ++ [x]).Nodup := nodup_append.mpr
    ⟨h.nodup, nodup_singleton x, fun a ha b hb hab =>
      hx (mem_singleton.mp hb ▸ hab ▸ ha)⟩
  have hout : ∀ z ∈ l, update q.next x none z = q.next z := fun z hz =>
    update_of_ne (ne_of_mem_of_not_mem hz hx) _ _
  have hpath : Path (update q.next x none) q.head l := h.path.congr hout
  have hend : update q.next x none x = none := update_self ..
  have ht := h.tail
  rcases eq_nil_or_concat l with rfl | ⟨front, y, rfl⟩
  · unfold Fifo.push
    rw [ht]
    exact ⟨⟨rfl, hend⟩, rfl, hnodup⟩
  · rw [concat_eq_append] at *
    rw [List.getLast?_concat] at ht
    unfold Fifo.push
    rw [ht]
    have hy : ∀ z ∈ front, z ≠ y := fun z hz =>
      (nodup_append.mp h.nodup).2.2 z hz y (mem_singleton_self y)
    have hxy : x ≠ y := fun he => hx (he ▸ mem_append_right _ (mem_singleton_self _))
    refine ⟨?_, (List.getLast?_concat ..).symm, hnodup⟩
    rw [append_assoc]
    exact hpath.splice (fun z hz => update_of_ne (hy z hz) ..) (update_self ..)
      ⟨rfl, (update_of_ne hxy ..).trans hend⟩

theorem Holds.pop (h : q.Holds (x :: l)) : (q.pop x).Holds l := by
  obtain ⟨hx, hnodup⟩ := nodup_cons.mp h.nodup
  have hpath : Path q.next (q.next x) l := h.path.2
  refine ⟨?_, ?_, hnodup⟩
  · exact hpath.congr fun z hz => update_of_ne (ne_of_mem_of_not_mem hz hx) _ _
  cases l with
  | nil => exact if_pos hpath
  | cons y l =>
    have hne : q.next x ≠ none := fun hn => some_ne_none y (hpath.1.symm.trans hn)
    have ht := h.tail
    exact (if_neg hne).trans ht

def rotate (q : Fifo α) (x : α) : Fifo α := (q.pop x).push x

theorem Holds.rotate (h : q.Holds (x :: l)) : (q.rotate x).Holds (l ++ [x]) :=
  h.pop.push (nodup_cons.mp h.nodup).1

end Fifo

/-! ## Families of lists

A list for each index, and a pointer from each element to the list that it is in. -/

variable {ι α : Type*} [DecidableEq ι] [DecidableEq α] {L : ι → List α} {place : α → Option ι}
  {a : α} {i : ι} {l : List α} (h : ∀ b j, b ∈ L j ↔ place b = some j)
include h

theorem mem_update_add (ha : place a = none) (hl : ∀ b, b ∈ l ↔ b = a ∨ b ∈ L i) (b : α) (j : ι) :
    b ∈ update L i l j ↔ update place a (some i) b = some j := by
  grind

theorem mem_update_drop (ha : place a = some i) (hl : ∀ b, b ∈ l ↔ b ≠ a ∧ b ∈ L i) (b : α)
    (j : ι) : b ∈ update L i l j ↔ update place a none b = some j := by
  grind

theorem mem_update_clear (b : α) (j : ι) :
    b ∈ update L i [] j ↔ (if b ∈ L i then none else place b) = some j := by
  grind

end Nexios
