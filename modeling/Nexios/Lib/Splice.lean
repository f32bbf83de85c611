import Mathlib.Data.List.TakeWhile
import Mathlib.Order.Nat
import Nexios.Lib.Fifo

/-!
# Insertion and removal in a linked queue

A walk along the links of a queue looks for the place at which an element is put in or taken out,
and remembers the field that points there: the head, or the link of the element before. Both
operations then write that field. A walk may not end if the links form a cycle, so it is given a
number of steps.
-/

open Function Option List

namespace Nexios.Fifo

variable {α : Type*} {next : α → Option α} {o v prev : Option α} {x y z : α}
  {l l₁ l₂ l₃ : List α} {q : Fifo α} {stop : α → Bool} {fuel : ℕ}

/-- A walk from `o`, whose predecessor is `prev`, to the first element that stops it: that element
and its predecessor. -/
def seek (next : α → Option α) (stop : α → Bool) :
    ℕ → Option α → Option α → Option (Option α × Option α)
  | 0, _, _ => none
  | _ + 1, prev, none => some (prev, none)
  | fuel + 1, prev, some y =>
    if stop y then some (prev, some y) else seek next stop fuel (some y) (next y)

theorem Path.head_eq (hp : Path next o l) : o = l.head? := by
  cases l with
  | nil => exact hp
  | cons x l => exact hp.1

theorem Path.drop (hp : Path next o (l₁ ++ l₂)) : Path next l₂.head? l₂ := by
  induction l₁ generalizing o with
  | nil => exact Path.head_eq hp ▸ hp
  | cons x l₁ ih => exact ih hp.2

theorem seek_eq (prev : Option α) (hp : Path next o (l₁ ++ l₂)) (h₁ : ∀ y ∈ l₁, stop y = false)
    (h₂ : ∀ y ∈ l₂.head?, stop y = true) (hf : l₁.length < fuel) :
    seek next stop fuel prev o = some (l₁.getLast?.or prev, l₂.head?) := by
  induction l₁ generalizing o prev fuel with
      obtain ⟨fuel, rfl⟩ : ∃ f, fuel = f + 1 := ⟨fuel - 1, by simp at hf; omega⟩
  | nil =>
    rw [Path.head_eq hp]
    cases l₂ with
    | nil => rfl
    | cons y l₂ => exact if_pos (h₂ y rfl)
  | cons x l₁ ih =>
    rw [hp.1, seek, h₁ x mem_cons_self,
      ih _ hp.2 (fun y hy => h₁ y (mem_cons_of_mem _ hy)) (by simpa using hf)]
    cases l₁ with
    | nil => rfl
    | cons y l₁ =>
      rfl

theorem seek_last (prev : Option α) (hp : Path next o l) (hf : l.length < fuel) :
    ∃ p, seek next (fun y => (next y).isNone) fuel prev o = some (p, l.getLast?) := by
  induction l generalizing o prev fuel with
      obtain ⟨fuel, rfl⟩ : ∃ f, fuel = f + 1 := ⟨fuel - 1, by simp at hf; omega⟩
  | nil =>
    rw [Path.head_eq hp]
    exact ⟨prev, rfl⟩
  | cons x l ih =>
    rw [hp.1, seek]
    cases l with
    | nil => exact ⟨prev, if_pos (isNone_iff_eq_none.mpr hp.2)⟩
    | cons y l =>
      have hsome : (next x).isNone = false := by
        rw [hp.2.1]
        rfl
      rw [hsome]
      exact ih _ hp.2 (by simpa using hf)

/-- The elements from `o` on; `none` if there is no end in `fuel` steps. -/
def elements (next : α → Option α) : ℕ → Option α → Option (List α)
  | 0, _ => none
  | _ + 1, none => some []
  | fuel + 1, some x => (elements next fuel (next x)).map (x :: ·)

theorem elements_eq (hp : Path next o l) (hf : l.length < fuel) :
    elements next fuel o = some l := by
  induction l generalizing o fuel with
      obtain ⟨fuel, rfl⟩ : ∃ f, fuel = f + 1 := ⟨fuel - 1, by simp at hf; omega⟩
  | nil =>
    rw [Path.head_eq hp]
    rfl
  | cons x l ih => rw [hp.1, elements, ih hp.2 (by simpa using hf), map_some]

variable [DecidableEq α]

/-- The field that `prev` stands for is written. -/
def link (q : Fifo α) (prev v : Option α) : Fifo α :=
  match prev with
  | none => { q with head := v }
  | some y => { q with next := update q.next y v }

/-- The element `x` is put before the first one that stops the walk. -/
def insert (q : Fifo α) (fuel : ℕ) (stop : α → Bool) (x : α) : Option (Fifo α) :=
  (seek q.next stop fuel none q.head).map fun r =>
    let q' := ({ q with next := update q.next x r.2 } : Fifo α).link r.1 (some x)
    if q'.next x = none then { q' with tail := some x } else q'

def remove (q : Fifo α) (fuel : ℕ) (x : α) : Option (Fifo α) :=
  (seek q.next (fun y => y = x) fuel none q.head).bind fun r =>
    match r.2 with
    | none => some { q with next := update q.next x none }
    | some _ =>
      let q' := q.link r.1 (q.next x)
      if q'.tail = some x then
        (seek q'.next (fun y => (q'.next y).isNone) fuel none q'.head).map fun w =>
          { q' with next := update q'.next x none, tail := w.2 }
      else some { q' with next := update q'.next x none }

theorem link_next_ne (h : ∀ y ∈ prev, z ≠ y) : (q.link prev v).next z = q.next z := by
  cases prev with
  | none => rfl
  | some y => exact update_of_ne (h y rfl) ..

@[simp] theorem link_tail : (q.link prev v).tail = q.tail := by
  cases prev <;> rfl

theorem path_link (hp : Path q.next q.head (l₁ ++ l₂)) (hnodup : l₁.Nodup)
    (hv : Path (q.link l₁.getLast? v).next v l₃) :
    Path (q.link l₁.getLast? v).next (q.link l₁.getLast? v).head (l₁ ++ l₃) := by
  rcases eq_nil_or_concat l₁ with rfl | ⟨front, y, rfl⟩
  · exact hv
  rw [concat_eq_append] at *
  rw [List.getLast?_concat] at hv ⊢
  rw [append_assoc] at hp ⊢
  have hfront : ∀ z ∈ front, z ≠ y := fun z hz hzy =>
    (nodup_append.mp hnodup).2.2 z hz y (mem_singleton_self y) hzy
  exact hp.splice (fun z hz => update_of_ne (hfront z hz) ..) (update_self ..) hv

/-- An element that is not in the queue is put between `l₁` and `l₂`. -/
theorem Holds.insert_between (h : q.Holds (l₁ ++ l₂)) (hx : x ∉ l₁ ++ l₂)
    (h₁ : ∀ y ∈ l₁, stop y = false) (h₂ : ∀ y ∈ l₂.head?, stop y = true) (hf : l₁.length < fuel) :
    ∃ q', q.insert fuel stop x = some q' ∧ q'.Holds (l₁ ++ x :: l₂) ∧
      ∀ z, z ≠ x → z ∉ l₁ ++ l₂ → q'.next z = q.next z := by
  set q₁ : Fifo α := { q with next := update q.next x l₂.head? }
  set q₂ := q₁.link l₁.getLast? (some x)
  obtain ⟨hnodup₁, hnodup₂, hdisj⟩ := nodup_append.mp h.nodup
  have hout : ∀ z, z ≠ x → z ∉ l₁ → q₂.next z = q.next z := by
    intro z hz hz₁
    have hlink : q₂.next z = q₁.next z :=
      link_next_ne fun y hy hzy => hz₁ (hzy ▸ mem_of_getLast? hy)
    exact hlink.trans (update_of_ne hz ..)
  have hself : q₂.next x = l₂.head? := by
    have hlink : q₂.next x = q₁.next x :=
      link_next_ne fun y hy hxy => hx (mem_append_left _ (hxy ▸ mem_of_getLast? hy))
    exact hlink.trans (update_self ..)
  have hrest : Path q₂.next l₂.head? l₂ := by
    refine h.path.drop.congr fun z hz => hout z ?_ fun hz₁ => hdisj z hz₁ z hz rfl
    rintro rfl
    exact hx (mem_append_right _ hz)
  have hpath : Path q₂.next q₂.head (l₁ ++ x :: l₂) := by
    have hold : Path q₁.next q₁.head (l₁ ++ l₂) := h.path.congr fun z hz =>
      update_of_ne (ne_of_mem_of_not_mem hz hx) ..
    exact path_link hold hnodup₁ ⟨rfl, hself ▸ hrest⟩
  have hperm : (l₁ ++ x :: l₂).Nodup := perm_middle.nodup_iff.mpr (nodup_cons.mpr ⟨hx, h.nodup⟩)
  have hseek := seek_eq none h.path h₁ h₂ hf
  rw [or_none] at hseek
  unfold insert
  rw [hseek]
  cases l₂ with
  | nil =>
    refine ⟨{ q₂ with tail := some x }, congrArg some (if_pos hself),
      ⟨hpath, List.getLast?_concat.symm, hperm⟩, fun z hz hzl => hout z hz ?_⟩
    rwa [append_nil] at hzl
  | cons y l₂ =>
    refine ⟨q₂, congrArg some (if_neg ?_), ⟨hpath, ?_, hperm⟩,
      fun z hz hzl => hout z hz fun hz₁ => hzl ?_⟩
    · exact fun hnone => some_ne_none y (hself.symm.trans hnone)
    · rw [link_tail, List.getLast?_append_cons]
      exact h.tail.trans (List.getLast?_append_cons ..)
    · exact mem_append_left _ hz₁

theorem Holds.exists_insert (h : q.Holds l) (stop : α → Bool) (hx : x ∉ l) (hf : l.length < fuel) :
    ∃ q', q.insert fuel stop x = some q' ∧
      q'.Holds (l.takeWhile (fun y => !stop y) ++ x :: l.dropWhile (fun y => !stop y)) ∧
      ∀ z, z ≠ x → z ∉ l → q'.next z = q.next z := by
  have hl : l.takeWhile (fun y => !stop y) ++ l.dropWhile (fun y => !stop y) = l :=
    takeWhile_append_dropWhile
  have hlen : (l.takeWhile fun y => !stop y).length ≤ l.length := (List.takeWhile_prefix _).length_le
  have hgo : ∀ y ∈ l.takeWhile fun y => !stop y, stop y = false := fun y hy =>
    (Bool.not_eq_true' _).mp (mem_takeWhile_imp (p := fun y => !stop y) hy)
  have hstop : ∀ y ∈ (l.dropWhile fun y => !stop y).head?, stop y = true := by
    intro y hy
    have hhead := List.head?_dropWhile_not (fun y => !stop y) l
    rw [hy] at hhead
    exact (Bool.not_eq_false' _).mp hhead
  rw [← hl] at h hx
  have hins := h.insert_between hx hgo hstop (hlen.trans_lt hf)
  rwa [hl] at hins

theorem Holds.exists_remove (h : q.Holds (l₁ ++ x :: l₂)) (hf : (l₁ ++ x :: l₂).length < fuel) :
    ∃ q', q.remove fuel x = some q' ∧ q'.Holds (l₁ ++ l₂) ∧ q'.next x = none ∧
      ∀ z, z ∉ l₁ ++ x :: l₂ → q'.next z = q.next z := by
  obtain ⟨hx, hnodup⟩ := nodup_cons.mp (perm_middle.nodup_iff.mp h.nodup)
  obtain ⟨hnodup₁, hnodup₂, hdisj⟩ := nodup_append.mp hnodup
  have hx₁ : x ∉ l₁ := fun hm => hx (mem_append_left _ hm)
  set q₁ := q.link l₁.getLast? (q.next x)
  have hout : ∀ z, z ∉ l₁ → q₁.next z = q.next z := fun z hz =>
    link_next_ne fun y hy hzy => hz (hzy ▸ mem_of_getLast? hy)
  have hpath : Path q₁.next q₁.head (l₁ ++ l₂) := by
    refine path_link h.path hnodup₁ ?_
    have hrest : Path q.next (q.next x) l₂ := (Path.drop h.path).2
    exact hrest.congr fun z hz => hout z fun hz₁ => hdisj z hz₁ z hz rfl
  have hseek : seek q.next (fun y => y = x) fuel none q.head =
      some (l₁.getLast?.or none, (x :: l₂).head?) :=
    seek_eq none h.path (fun y hy => decide_eq_false (ne_of_mem_of_not_mem hy hx₁))
      (fun y hy => decide_eq_true (some.inj hy).symm) (by simp at hf; omega)
  rw [or_none] at hseek
  have hclear : ∀ t, t = (l₁ ++ l₂).getLast? →
      Holds { q₁ with next := update q₁.next x none, tail := t } (l₁ ++ l₂) :=
    fun t ht => ⟨hpath.congr fun z hz => update_of_ne (ne_of_mem_of_not_mem hz hx) ..,
      ht, hnodup⟩
  have hframe : ∀ z, z ∉ l₁ ++ x :: l₂ → update q₁.next x none z = q.next z := by
    intro z hz
    have hzx : z ≠ x := fun he => hz (he ▸ mem_append_right _ mem_cons_self)
    rw [update_of_ne hzx]
    exact hout z fun hz₁ => hz (mem_append_left _ hz₁)
  have htail : q₁.tail = (x :: l₂).getLast? := by
    rw [link_tail, h.tail, List.getLast?_append_cons]
  unfold remove
  rw [hseek]
  cases l₂ with
  | nil =>
    rw [append_nil] at hpath hclear ⊢
    have hlen : l₁.length < fuel := by
      simp at hf
      omega
    obtain ⟨p, hlast⟩ := seek_last none hpath hlen
    refine ⟨_, (if_pos htail).trans ?_, hclear _ rfl, update_self .., hframe⟩
    rw [hlast]
    rfl
  | cons y l₂ =>
    rw [List.getLast?_cons_cons] at htail
    have hne : q₁.tail ≠ some x := fun he =>
      hx (mem_append_right _ (mem_of_getLast? (htail.symm.trans he)))
    refine ⟨_, if_neg hne, hclear q₁.tail ?_, update_self .., hframe⟩
    rw [htail, List.getLast?_append_cons]

end Nexios.Fifo
