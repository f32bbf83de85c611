import Mathlib.Data.List.Nodup
import Mathlib.Tactic.Cases
import Nexios.Lib.Update

/-!
# Intrusive doubly linked lists

The links of all elements lie in two maps, `next` and `prev`, which several lists share.
`Links.Seg k p h l n` is a stretch of a list: it starts at `h`, has the elements `l`, the element
before it is `p` and the one behind it is `n`. A family of lists has no element twice; inserting an
element and unlinking one change one list of the family.
-/

open Function Option List

namespace Nexios

variable {α ι : Type*} {l l₁ l₂ : List α} {p q h n : Option α} {x y : α}

structure Links (α : Type*) where
  next : α → Option α
  prev : α → Option α

namespace Links

variable {k k' : Links α}

def Seg (k : Links α) : Option α → Option α → List α → Option α → Prop
  | _, h, [], n => h = n
  | p, h, x :: l, n => h = some x ∧ k.prev x = p ∧ Seg k (some x) (k.next x) l n

theorem Seg.head_eq (hs : k.Seg p h l n) : h = l.head?.or n := by
  cases l with
  | nil => exact hs
  | cons x l => exact hs.1

theorem Seg.eq_cons_cons (hs : k.Seg p (some x) l none) (hnext : k.next x = some y) :
    ∃ r, l = x :: y :: r := by
  cases l with
  | nil => cases hs
  | cons z l =>
    obtain ⟨⟨⟩, -, hrest⟩ := hs
    rw [hnext] at hrest
    cases l with
    | nil => cases hrest
    | cons w r =>
      obtain ⟨⟨⟩, -, -⟩ := hrest
      exact ⟨r, rfl⟩

theorem getLast?_cons_or (x : α) (l : List α) (p : Option α) :
    (x :: l).getLast?.or p = l.getLast?.or (some x) := by
  rw [List.getLast?_cons]
  cases l.getLast? with
  | none => rfl
  | some y => rfl

theorem seg_append : k.Seg p h (l₁ ++ l₂) n ↔
    ∃ m, k.Seg p h l₁ m ∧ k.Seg (l₁.getLast?.or p) m l₂ n := by
  induction l₁ generalizing p h with
  | nil => exact ⟨fun hs => ⟨h, rfl, hs⟩, fun ⟨m, hm, hs⟩ => (show h = m from hm) ▸ hs⟩
  | cons x l ih =>
    rw [getLast?_cons_or]
    constructor
    · rintro ⟨hh, hp, hs⟩
      obtain ⟨m, hm, hrest⟩ := ih.mp hs
      exact ⟨m, ⟨hh, hp, hm⟩, hrest⟩
    · rintro ⟨m, ⟨hh, hp, hm⟩, hrest⟩
      exact ⟨hh, hp, ih.mpr ⟨m, hm, hrest⟩⟩

theorem Seg.congr (hs : k.Seg p h l n) (hnext : ∀ y ∈ l, k'.next y = k.next y)
    (hprev : ∀ y ∈ l, k'.prev y = k.prev y) : k'.Seg p h l n := by
  induction l generalizing p h with
  | nil => exact hs
  | cons x l ih =>
    obtain ⟨hh, hp, hrest⟩ := hs
    refine ⟨hh, (hprev x mem_cons_self).trans hp, ?_⟩
    rw [hnext x mem_cons_self]
    exact ih hrest (fun y hy => hnext y (mem_cons_of_mem _ hy))
      (fun y hy => hprev y (mem_cons_of_mem _ hy))

theorem Seg.relast (hs : k.Seg none h l n) (hnodup : l.Nodup) {n' : Option α}
    (hprev : ∀ y ∈ l, k'.prev y = k.prev y)
    (hnext : ∀ y ∈ l, l.getLast? ≠ some y → k'.next y = k.next y)
    (hlast : ∀ y, l.getLast? = some y → k'.next y = n') :
    k'.Seg none (if l = [] then n' else h) l n' := by
  rcases eq_nil_or_concat l with rfl | ⟨r, z, rfl⟩
  · exact if_pos rfl
  rw [if_neg (by simp)]
  rw [concat_eq_append] at *
  have hz : z ∉ r := by
    intro hz
    exact disjoint_of_nodup_append hnodup hz (mem_singleton_self z)
  have hlastz : (r ++ [z]).getLast? = some z := List.getLast?_concat
  obtain ⟨m, hr, hm, hp, -⟩ := seg_append.mp hs
  refine seg_append.mpr ⟨m, ?_, hm, ?_, ?_⟩
  · apply hr.congr
    · intro y hy
      apply hnext y (mem_append_left _ hy)
      rw [hlastz]
      rintro ⟨⟩
      exact hz hy
    · exact fun y hy => hprev y (mem_append_left _ hy)
  · rw [hprev z (mem_append_right _ (mem_singleton_self z)), hp]
  · exact hlast z hlastz

theorem Seg.refirst (hs : k.Seg p h l n) (hnodup : l.Nodup) {p' : Option α}
    (hnext : ∀ y ∈ l, k'.next y = k.next y)
    (hprev : ∀ y ∈ l, l.head? ≠ some y → k'.prev y = k.prev y)
    (hfirst : ∀ y, l.head? = some y → k'.prev y = p') : k'.Seg p' h l n := by
  cases l with
  | nil => exact hs
  | cons z r =>
    obtain ⟨hh, -, hr⟩ := hs
    have hz := (nodup_cons.mp hnodup).1
    refine ⟨hh, hfirst z rfl, ?_⟩
    rw [hnext z mem_cons_self]
    apply hr.congr
    · exact fun y hy => hnext y (mem_cons_of_mem _ hy)
    · intro y hy
      apply hprev y (mem_cons_of_mem _ hy)
      rintro ⟨⟩
      exact hz hy

/-- Following `next` from `h` comes to `x`. -/
inductive Reaches (k : Links α) : Option α → α → Prop
  | here (x : α) : Reaches k (some x) x
  | next {x y : α} (hr : Reaches k (k.next x) y) : Reaches k (some x) y

theorem Seg.reaches_iff (hs : k.Seg p h l none) : k.Reaches h x ↔ x ∈ l := by
  constructor
  · intro hr
    induction hr generalizing p l with
    | here x =>
      cases l with
      | nil => cases hs
      | cons y l =>
        obtain ⟨⟨⟩, -, -⟩ := hs
        exact mem_cons_self
    | next _ ih =>
      cases l with
      | nil => cases hs
      | cons y l =>
        obtain ⟨⟨⟩, -, hrest⟩ := hs
        exact mem_cons_of_mem _ (ih hrest)
  · intro hx
    induction l generalizing p h with
    | nil => cases hx
    | cons y l ih =>
      obtain ⟨rfl, -, hrest⟩ := hs
      rcases mem_cons.mp hx with rfl | hx
      · exact .here x
      · exact .next (ih hrest hx)

/-- The walk along a list to the first element that satisfies `stop`, with the element before it.
There is no result when the list is longer than `fuel`. -/
def seek (k : Links α) (stop : α → Bool) :
    ℕ → Option α → Option α → Option (Option α × Option α)
  | _, q, none => some (q, none)
  | 0, _, some _ => none
  | fuel + 1, q, some x => if stop x then some (q, some x) else seek k stop fuel (some x) (k.next x)

/-- On a proper list the walk splits it where the first such element is. -/
theorem Seg.seek_eq (hs : k.Seg p h l none) (stop : α → Bool) {fuel : ℕ} (hf : l.length ≤ fuel) :
    ∃ l₁ l₂, l = l₁ ++ l₂ ∧ k.seek stop fuel p h = some (l₁.getLast?.or p, l₂.head?) ∧
      (∀ y ∈ l₁, stop y = false) ∧ ∀ y, l₂.head? = some y → stop y := by
  induction l generalizing p h fuel with
  | nil =>
    obtain rfl : h = none := hs
    refine ⟨[], [], rfl, ?_, by simp, by simp⟩
    cases fuel <;> rfl
  | cons x l ih =>
    obtain ⟨rfl, -, hrest⟩ := hs
    cases fuel with
    | zero => cases hf
    | succ fuel =>
      cases hx : stop x with
      | true =>
        refine ⟨[], x :: l, rfl, ?_, by simp, ?_⟩
        · rw [seek, if_pos hx]
          rfl
        · rintro y ⟨⟩
          exact hx
      | false =>
        obtain ⟨l₁, l₂, rfl, hseek, hbefore, hat⟩ := ih hrest (Nat.le_of_succ_le_succ hf)
        refine ⟨x :: l₁, l₂, rfl, ?_, ?_, hat⟩
        · rw [seek, if_neg (by simp [hx]), hseek, getLast?_cons_or]
        · intro y hy
          rcases mem_cons.mp hy with rfl | hy
          · exact hx
          · exact hbefore y hy

structure Lists (k : Links α) (head : ι → Option α) (L : ι → List α) : Prop where
  seg : ∀ i, k.Seg none (head i) (L i) none
  nodup : ∀ i, (L i).Nodup
  apart : ∀ i j x, x ∈ L i → x ∈ L j → i = j

namespace Lists

variable {head : ι → Option α} {L : ι → List α} {i j : ι}

theorem head_eq (h : Lists k head L) (i : ι) : head i = (L i).head? := by
  rw [(h.seg i).head_eq, or_none]

theorem congr (h : Lists k head L) (hnext : ∀ i, ∀ y ∈ L i, k'.next y = k.next y)
    (hprev : ∀ i, ∀ y ∈ L i, k'.prev y = k.prev y) : Lists k' head L where
  seg i := (h.seg i).congr (hnext i) (hprev i)
  nodup := h.nodup
  apart := h.apart

theorem links_eq (h : Lists k head L) (hi : L i = l₁ ++ x :: l₂) :
    k.prev x = l₁.getLast? ∧ k.next x = l₂.head? := by
  have hs := h.seg i
  rw [hi] at hs
  obtain ⟨m, -, -, hp, hn⟩ := seg_append.mp hs
  rw [or_none] at hp
  refine ⟨hp, ?_⟩
  rw [hn.head_eq, or_none]

variable [DecidableEq ι]

theorem mem_update_insert (hi : L i = l₁ ++ l₂) (j : ι) (y : α) :
    y ∈ update L i (l₁ ++ x :: l₂) j ↔ y ∈ L j ∨ (j = i ∧ y = x) := by
  by_cases hj : j = i
  · subst hj
    rw [update_self, hi]
    simp only [mem_append, mem_cons]
    tauto
  · simp [hj]

theorem mem_update_unlink (h : Lists k head L) (hi : L i = l₁ ++ x :: l₂) (j : ι) (y : α) :
    y ∈ update L i (l₁ ++ l₂) j ↔ y ∈ L j ∧ y ≠ x := by
  have hnodup : (l₁ ++ x :: l₂).Nodup := hi ▸ h.nodup i
  obtain ⟨hxl, -⟩ := nodup_cons.mp (nodup_middle.mp hnodup)
  have hxi : x ∈ L i := hi ▸ mem_append_right _ mem_cons_self
  by_cases hj : j = i
  · subst hj
    rw [update_self, hi]
    constructor
    · intro hy
      refine ⟨?_, ne_of_mem_of_not_mem hy hxl⟩
      simp only [mem_append] at hy ⊢
      tauto
    · rintro ⟨hy, hne⟩
      simp only [mem_append, mem_cons, hne, false_or] at hy ⊢
      exact hy
  · rw [update_of_ne hj]
    refine ⟨fun hy => ⟨hy, ?_⟩, fun hy => hy.1⟩
    rintro rfl
    exact hj (h.apart j i y hy hxi)

end Lists

variable [DecidableEq α]

def setNext (k : Links α) (x : α) (y : Option α) : Links α :=
  { k with next := update k.next x y }

def setPrev (k : Links α) (x : α) (y : Option α) : Links α :=
  { k with prev := update k.prev x y }

def setNextAt (k : Links α) : Option α → Option α → Links α
  | none, _ => k
  | some x, y => k.setNext x y

def setPrevAt (k : Links α) : Option α → Option α → Links α
  | none, _ => k
  | some x, y => k.setPrev x y

/-- `x` is put between `q` and `n`. -/
def insert (k : Links α) (q : Option α) (x : α) (n : Option α) : Links α :=
  (((k.setNext x n).setPrev x q).setNextAt q (some x)).setPrevAt n (some x)

/-- The neighbours of `x` are linked to each other, and the links of `x` are cleared. -/
def unlink (k : Links α) (x : α) : Links α :=
  (((k.setNextAt (k.prev x) (k.next x)).setPrevAt (k.next x) (k.prev x)).setNext x none).setPrev x
    none

section

variable (k : Links α)

@[simp] theorem setNext_prev (x : α) (y : Option α) : (k.setNext x y).prev = k.prev :=
  rfl

@[simp] theorem setPrev_next (x : α) (y : Option α) : (k.setPrev x y).next = k.next :=
  rfl

theorem setNext_next (x : α) (y : Option α) (z : α) :
    (k.setNext x y).next z = if z = x then y else k.next z := update_apply ..

theorem setPrev_prev (x : α) (y : Option α) (z : α) :
    (k.setPrev x y).prev z = if z = x then y else k.prev z := update_apply ..

theorem insert_next (q n : Option α) (x z : α) :
    (k.insert q x n).next z = if q = some z then some x else if z = x then n else k.next z := by
  cases q <;> cases n <;> simp [insert, setNextAt, setPrevAt, setNext_next, eq_comm (a := z)]

theorem insert_prev (q n : Option α) (x z : α) :
    (k.insert q x n).prev z = if n = some z then some x else if z = x then q else k.prev z := by
  cases q <;> cases n <;> simp [insert, setNextAt, setPrevAt, setPrev_prev, eq_comm (a := z)]

theorem unlink_next (x z : α) : (k.unlink x).next z =
      if z = x then none else if k.prev x = some z then k.next x else k.next z := by
  unfold unlink
  cases k.prev x <;> cases k.next x <;> simp [setNextAt, setPrevAt, setNext_next, eq_comm (a := z)]

theorem unlink_prev (x z : α) : (k.unlink x).prev z =
      if z = x then none else if k.next x = some z then k.prev x else k.prev z := by
  unfold unlink
  cases k.prev x <;> cases k.next x <;> simp [setNextAt, setPrevAt, setPrev_prev, eq_comm (a := z)]

end

theorem Seg.insert_other (hs : k.Seg p h l n) (hx : x ∉ l) {q m : Option α}
    (hq : ∀ z, q = some z → z ∉ l) (hm : ∀ z, m = some z → z ∉ l) :
    (k.insert q x m).Seg p h l n := by
  apply hs.congr
  · intro y hy
    rw [insert_next, if_neg (fun heq => hq y heq hy), if_neg (ne_of_mem_of_not_mem hy hx)]
  · intro y hy
    rw [insert_prev, if_neg (fun heq => hm y heq hy), if_neg (ne_of_mem_of_not_mem hy hx)]

theorem Seg.insert (hs : k.Seg none h (l₁ ++ l₂) none) (hnodup : (l₁ ++ l₂).Nodup)
    (hx : x ∉ l₁ ++ l₂) : (k.insert l₁.getLast? x l₂.head?).Seg none (if l₁ = [] then some x else h)
      (l₁ ++ x :: l₂) none := by
  obtain ⟨hnd₁, hnd₂, hdis⟩ := nodup_append'.mp hnodup
  obtain ⟨hx₁, hx₂⟩ := not_or.mp (mt mem_append.mpr hx)
  obtain ⟨m, hs₁, hs₂⟩ := seg_append.mp hs
  obtain rfl : m = l₂.head? := by rw [hs₂.head_eq, or_none]
  refine seg_append.mpr ⟨some x, ?_, rfl, ?_, ?_⟩
  · apply hs₁.relast hnd₁
    · intro y hy
      rw [insert_prev, if_neg (fun heq => hdis hy (mem_of_head? heq)),
        if_neg (ne_of_mem_of_not_mem hy hx₁)]
    · intro y hy hne
      rw [insert_next, if_neg hne, if_neg (ne_of_mem_of_not_mem hy hx₁)]
    · intro y hy
      rw [insert_next, if_pos hy]
  · rw [insert_prev, if_neg (fun heq => hx₂ (mem_of_head? heq)), if_pos rfl, or_none]
  · rw [insert_next, if_neg (fun heq => hx₁ (mem_of_getLast? heq)), if_pos rfl]
    apply hs₂.refirst hnd₂
    · intro y hy
      rw [insert_next, if_neg (fun heq => hdis (mem_of_getLast? heq) hy),
        if_neg (ne_of_mem_of_not_mem hy hx₂)]
    · intro y hy hne
      rw [insert_prev, if_neg hne, if_neg (ne_of_mem_of_not_mem hy hx₂)]
    · intro y hy
      rw [insert_prev, if_pos hy]

theorem Seg.unlink_other (hs : k.Seg p h l n) (hx : x ∉ l) (hp : ∀ z, k.prev x = some z → z ∉ l)
    (hn : ∀ z, k.next x = some z → z ∉ l) : (k.unlink x).Seg p h l n := by
  apply hs.congr
  · intro y hy
    rw [unlink_next, if_neg (ne_of_mem_of_not_mem hy hx), if_neg (fun heq => hp y heq hy)]
  · intro y hy
    rw [unlink_prev, if_neg (ne_of_mem_of_not_mem hy hx), if_neg (fun heq => hn y heq hy)]

theorem Seg.unlink (hs : k.Seg none h (l₁ ++ x :: l₂) none) (hnodup : (l₁ ++ x :: l₂).Nodup) :
    (k.unlink x).Seg none (if l₁ = [] then l₂.head? else h) (l₁ ++ l₂) none := by
  obtain ⟨hxl, hnd⟩ := nodup_cons.mp (nodup_middle.mp hnodup)
  obtain ⟨hnd₁, hnd₂, hdis⟩ := nodup_append'.mp hnd
  obtain ⟨hx₁, hx₂⟩ := not_or.mp (mt mem_append.mpr hxl)
  obtain ⟨m, hs₁, -, hp, hs₂⟩ := seg_append.mp hs
  rw [or_none] at hp
  have hn : k.next x = l₂.head? := by rw [hs₂.head_eq, or_none]
  rw [hn] at hs₂
  refine seg_append.mpr ⟨l₂.head?, ?_, ?_⟩
  · apply hs₁.relast hnd₁
    · intro y hy
      rw [unlink_prev, if_neg (ne_of_mem_of_not_mem hy hx₁), hn,
        if_neg (fun heq => hdis hy (mem_of_head? heq))]
    · intro y hy hne
      rw [unlink_next, if_neg (ne_of_mem_of_not_mem hy hx₁), hp, if_neg hne]
    · intro y hy
      rw [unlink_next, if_neg (ne_of_mem_of_not_mem (mem_of_getLast? hy) hx₁),
        if_pos (hp.trans hy), hn]
  · rw [or_none]
    apply hs₂.refirst hnd₂
    · intro y hy
      rw [unlink_next, if_neg (ne_of_mem_of_not_mem hy hx₂), hp,
        if_neg (fun heq => hdis (mem_of_getLast? heq) hy)]
    · intro y hy hne
      rw [unlink_prev, if_neg (ne_of_mem_of_not_mem hy hx₂), hn, if_neg hne]
    · intro y hy
      rw [unlink_prev, if_neg (ne_of_mem_of_not_mem (mem_of_head? hy) hx₂),
        if_pos (hn.trans hy), hp]

namespace Lists

variable [DecidableEq ι] {head : ι → Option α} {L : ι → List α} {i j : ι}

theorem insert (h : Lists k head L) (hi : L i = l₁ ++ l₂) (hx : ∀ j, x ∉ L j) :
    Lists (k.insert l₁.getLast? x l₂.head?)
      (update head i (if l₁ = [] then some x else head i)) (update L i (l₁ ++ x :: l₂)) := by
  have hnodup : (l₁ ++ l₂).Nodup := hi ▸ h.nodup i
  refine ⟨?_, ?_, ?_⟩
  · intro j
    by_cases hj : j = i
    · subst hj
      rw [update_self, update_self]
      exact .insert (hi ▸ h.seg j) hnodup (hi ▸ hx j)
    rw [update_of_ne hj, update_of_ne hj]
    have hother : ∀ y, y ∈ l₁ ++ l₂ → y ∉ L j :=
      fun y hy hin => hj (h.apart j i y hin (hi ▸ hy))
    apply (h.seg j).insert_other (hx j)
    · exact fun z hz => hother z (mem_append_left _ (mem_of_getLast? hz))
    · exact fun z hz => hother z (mem_append_right _ (mem_of_head? hz))
  · refine (forall_update_iff L fun _ l => l.Nodup).mpr ⟨?_, fun j _ => h.nodup j⟩
    rw [nodup_middle, nodup_cons]
    exact ⟨hi ▸ hx i, hnodup⟩
  · intro j j' y hy hy'
    rw [mem_update_insert hi] at hy hy'
    rcases hy with hy | ⟨rfl, rfl⟩ <;> rcases hy' with hy' | ⟨rfl, heq⟩
    · exact h.apart j j' y hy hy'
    · exact absurd hy (heq ▸ hx j)
    · exact absurd hy' (hx j')
    · rfl

theorem unlink (h : Lists k head L) (hi : L i = l₁ ++ x :: l₂) :
    Lists (k.unlink x) (update head i (if l₁ = [] then l₂.head? else head i))
      (update L i (l₁ ++ l₂)) := by
  obtain ⟨hp, hn⟩ := h.links_eq hi
  have hnodup : (l₁ ++ x :: l₂).Nodup := hi ▸ h.nodup i
  refine ⟨?_, ?_, ?_⟩
  · intro j
    by_cases hj : j = i
    · subst hj
      rw [update_self, update_self]
      exact .unlink (hi ▸ h.seg j) hnodup
    rw [update_of_ne hj, update_of_ne hj]
    have hother : ∀ y, y ∈ l₁ ++ x :: l₂ → y ∉ L j :=
      fun y hy hin => hj (h.apart j i y hin (hi ▸ hy))
    apply (h.seg j).unlink_other (hother x (mem_append_right _ mem_cons_self))
    · rw [hp]
      exact fun z hz => hother z (mem_append_left _ (mem_of_getLast? hz))
    · rw [hn]
      exact fun z hz => hother z (mem_append_right _ (mem_cons_of_mem _ (mem_of_head? hz)))
  · exact (forall_update_iff L fun _ l => l.Nodup).mpr
      ⟨(nodup_cons.mp (nodup_middle.mp hnodup)).2, fun j _ => h.nodup j⟩
  · intro j j' y hy hy'
    rw [h.mem_update_unlink hi] at hy hy'
    exact h.apart j j' y hy.1 hy'.1

end Lists

end Links

end Nexios
