import Mathlib.Data.List.Perm.Basic

/-!
# Arrays of waiting entries

A dense array whose order does not matter: an entry is removed by moving the last one into its
place. The best entry is the first one of the greatest key among those that count; `purge` drops the
entries that are not to be kept, from the front, looking at a moved entry again.
-/

open List

namespace Nexios.WaitArray

variable {α : Type*} {l : List α} {i j : ℕ}

/-- The last entry takes the place of entry `i`. -/
def swapRemove (l : List α) (i : ℕ) : List α :=
  match l.getLast? with
  | none => []
  | some x => (l.set i x).dropLast

theorem perm_swapRemove (hi : i < l.length) : l.Perm (l[i] :: swapRemove l i) := by
  obtain ⟨l', x, rfl⟩ : ∃ l' x, l = l' ++ [x] := by
    rcases l.eq_nil_or_concat with rfl | ⟨l', x, rfl⟩
    · exact absurd hi (Nat.not_lt_zero i)
    · exact ⟨l', x, concat_eq_append⟩
  have hlast : (l' ++ [x]).getLast? = some x := by simp
  simp only [swapRemove, hlast]
  rw [length_append, length_singleton] at hi
  by_cases hlt : i < l'.length
  · rw [set_append_left _ _ hlt, dropLast_concat, getElem_append_left hlt]
    have hset : (l'.set i x).Perm (x :: l'.eraseIdx i) := set_perm_cons_eraseIdx hlt x
    have herase : l'.Perm (l'[i] :: l'.eraseIdx i) := (getElem_cons_eraseIdx_perm hlt).symm
    calc (l' ++ [x]).Perm (x :: l') := perm_append_singleton x l'
      _ |>.Perm (x :: l'[i] :: l'.eraseIdx i) := herase.cons x
      _ |>.Perm (l'[i] :: x :: l'.eraseIdx i) := .swap ..
      _ |>.Perm (l'[i] :: l'.set i x) := hset.symm.cons _
  · obtain rfl : i = l'.length := by omega
    simp [perm_append_singleton x l']

theorem swapRemove_length (hi : i < l.length) : (swapRemove l i).length + 1 = l.length := by
  simpa using (perm_swapRemove hi).length_eq.symm

theorem swapRemove_getElem? (hi : i < l.length) (hj : j < i) : (swapRemove l i)[j]? = l[j]? := by
  have hne : l ≠ [] := ne_nil_of_length_pos (Nat.zero_lt_of_lt hi)
  simp only [swapRemove, List.getLast?_eq_some_getLast hne]
  rw [List.getElem?_dropLast, length_set, if_pos (by omega), List.getElem?_set_ne (by omega)]

/-! ## The best entry -/

/-- The loop that looks for the best entry: `i` is the index of the entry that is looked at, `best`
what has been found so far. -/
def bestFrom (live : α → Bool) (key : α → ℕ) : ℕ → Option (ℕ × α) → List α → Option (ℕ × α)
  | _, best, [] => best
  | i, best, x :: xs =>
    if live x && best.all (fun b => key b.2 < key x) then bestFrom live key (i + 1) (some (i, x)) xs
    else bestFrom live key (i + 1) best xs

/-- The first entry of the greatest key among those that are `live`, with its index. -/
def best (live : α → Bool) (key : α → ℕ) (l : List α) : Option (ℕ × α) :=
  bestFrom live key 0 none l

structure IsBest (live : α → Bool) (key : α → ℕ) (l : List α) (b : Option (ℕ × α)) : Prop where
  entry : ∀ i x, b = some (i, x) → l[i]? = some x ∧ live x = true
  greatest : ∀ i x, b = some (i, x) → ∀ y ∈ l, live y → key y ≤ key x
  none : b = none → ∀ y ∈ l, live y = false

variable {live : α → Bool} {key : α → ℕ} {keep : α → Bool}

theorem IsBest.bestFrom {b : Option (ℕ × α)} (h : IsBest live key l b) (xs : List α) :
    IsBest live key (l ++ xs) (bestFrom live key l.length b xs) := by
  induction xs generalizing l b with
  | nil => simpa [WaitArray.bestFrom] using h
  | cons x xs ih =>
    have happend : l ++ x :: xs = (l ++ [x]) ++ xs := by simp
    have hlength : l.length + 1 = (l ++ [x]).length := by simp
    rw [WaitArray.bestFrom, happend, hlength]
    split_ifs with hx
    · -- `x` is better than what was found before
      rw [Bool.and_eq_true, Option.all_eq_true] at hx
      refine ih ⟨?_, ?_, nofun⟩
      · rintro i y ⟨⟩
        exact ⟨by simp, hx.1⟩
      rintro i y ⟨⟩ z hz hlive
      rcases mem_append.mp hz with hz | hz
      · cases hb : b with
        | none => exact absurd hlive (by simp [h.none hb z hz])
        | some c =>
          have hlt := of_decide_eq_true (hx.2 c hb)
          exact Nat.le_trans (h.greatest c.1 c.2 hb z hz hlive) (Nat.le_of_lt hlt)
      · exact Nat.le_of_eq (congrArg key (mem_singleton.mp hz))
    · refine ih ⟨?_, ?_, ?_⟩
      · intro i y hb
        obtain ⟨hentry, hlive⟩ := h.entry i y hb
        have hi : i < l.length := (List.getElem?_eq_some_iff.mp hentry).1
        exact ⟨by rw [List.getElem?_append_left hi, hentry], hlive⟩
      · intro i y hb z hz hlive
        rcases mem_append.mp hz with hz | hz
        · exact h.greatest i y hb z hz hlive
        · obtain rfl := mem_singleton.mp hz
          rw [hlive, hb] at hx
          simpa using hx
      · intro hb z hz
        rcases mem_append.mp hz with hz | hz
        · exact h.none hb z hz
        · obtain rfl := mem_singleton.mp hz
          rw [hb] at hx
          simpa using hx

theorem isBest_best (live : α → Bool) (key : α → ℕ) (l : List α) :
    IsBest live key l (best live key l) := by
  have hnil : IsBest live key ([] : List α) none := ⟨nofun, nofun, nofun⟩
  simpa [best] using hnil.bestFrom l

theorem best_eq_none_iff : best live key l = none ↔ ∀ y ∈ l, live y = false := by
  refine ⟨(isBest_best live key l).none, fun h => ?_⟩
  cases hb : best live key l with
  | none => rfl
  | some b =>
    obtain ⟨hentry, hlive⟩ := (isBest_best live key l).entry b.1 b.2 hb
    have hmem := mem_of_getElem? hentry
    rw [h _ hmem] at hlive
    cases hlive

theorem perm_of_best {x : α} (h : best live key l = some (i, x)) :
    l.Perm (x :: swapRemove l i) ∧ live x = true ∧ ∀ y ∈ l, live y → key y ≤ key x := by
  obtain ⟨hentry, hlive⟩ := (isBest_best live key l).entry i x h
  obtain ⟨hi, rfl⟩ := List.getElem?_eq_some_iff.mp hentry
  exact ⟨perm_swapRemove hi, hlive, (isBest_best live key l).greatest i _ h⟩

/-! ## Dropping entries -/

def purgeFrom (keep : α → Bool) : ℕ → ℕ → List α → List α
  | 0, _, l => l
  | fuel + 1, i, l =>
    match l[i]? with
    | none => l
    | some x =>
      if keep x then purgeFrom keep fuel (i + 1) l else purgeFrom keep fuel i (swapRemove l i)

/-- Each round moves on or shortens the array. -/
def purge (keep : α → Bool) (l : List α) : List α := purgeFrom keep l.length 0 l

def Kept (keep : α → Bool) (i : ℕ) (l : List α) : Prop :=
  ∀ j x, j < i → l[j]? = some x → keep x

theorem Kept.filter_eq (h : Kept keep i l) (hi : l.length ≤ i) : l.filter keep = l := by
  refine filter_eq_self.mpr (fun x hx => ?_)
  obtain ⟨j, hj, rfl⟩ := mem_iff_getElem.mp hx
  exact h j _ (by omega) (List.getElem?_eq_getElem hj)

theorem purgeFrom_perm (fuel : ℕ) (hfuel : l.length ≤ i + fuel) (hkept : Kept keep i l) :
    (purgeFrom keep fuel i l).Perm (l.filter keep) := by
  induction fuel generalizing i l with
  | zero => rw [purgeFrom, hkept.filter_eq hfuel]
  | succ fuel ih =>
    rw [purgeFrom]
    cases hx : l[i]? with
    | none => simp only [hkept.filter_eq (List.getElem?_eq_none_iff.mp hx), List.Perm.refl]
    | some x =>
      obtain ⟨hi, rfl⟩ := List.getElem?_eq_some_iff.mp hx
      simp only
      split_ifs with hkeep
      · refine ih (by omega) (fun j y hj hy => ?_)
        by_cases hji : j = i
        · subst hji
          rw [hx] at hy
          cases hy
          exact hkeep
        · exact hkept j y (by omega) hy
      · have hlength := swapRemove_length hi
        have hperm := (perm_swapRemove hi).filter keep
        rw [filter_cons_of_neg hkeep] at hperm
        refine (ih (by omega) (fun j y hj hy => ?_)).trans hperm.symm
        rw [swapRemove_getElem? hi hj] at hy
        exact hkept j y hj hy

theorem purge_perm (keep : α → Bool) (l : List α) : (purge keep l).Perm (l.filter keep) :=
  purgeFrom_perm l.length (Nat.le_add_left _ _) (fun _ _ hj => absurd hj (Nat.not_lt_zero _))

end Nexios.WaitArray
