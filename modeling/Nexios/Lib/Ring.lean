import Mathlib.Data.List.Range
import Mathlib.Data.Nat.ModEq

/-!
# Ring buffers

The entries of a ring of `m` cells that starts at the cell `head` and has `count` entries, as a list
with the oldest entry first. A cell behind the newest entry is written and counted, the newest entry
is overwritten, or the oldest one is given up; each is an operation on the end of the list. An entry
in the middle is removed by moving those behind it one cell forward.
-/

open Function List Nat

namespace Nexios.Ring

variable {α : Type*} {m head count : ℕ} {cells : ℕ → α} {i : ℕ}

def entries (m : ℕ) (cells : ℕ → α) (head count : ℕ) : List α :=
  (List.range count).map fun i => cells ((head + i) % m)

theorem entries_succ : entries m cells head (count + 1) =
      entries m cells head count ++ [cells ((head + count) % m)] := by
  simp [entries, range_succ]

theorem entries_cons : entries m cells head (count + 1) =
      cells (head % m) :: entries m cells ((head + 1) % m) count := by
  simp only [entries, range_succ_eq_map, map_cons, map_map]
  congr 1
  apply map_congr_left
  intro i _
  simp only [Function.comp, mod_add_mod]
  congr 2
  omega

/-- Two entries of a ring that is not overfull are in different cells. -/
theorem cell_ne (head : ℕ) (hi : i < count) (hcount : count < m) :
    (head + i) % m ≠ (head + count) % m := by
  intro he
  have hmod : i ≡ count [MOD m] := .add_left_cancel' head he
  rw [Nat.ModEq, mod_eq_of_lt (hi.trans hcount), mod_eq_of_lt hcount] at hmod
  omega

theorem entries_update_behind (hcount : count < m) (x : α) :
    entries m (update cells ((head + count) % m) x) head count = entries m cells head count := by
  apply map_congr_left
  intro i hi
  rw [update_of_ne (cell_ne head (mem_range.mp hi) hcount)]

theorem entries_update (hcount : count < m) (x : α) :
    entries m (update cells ((head + count) % m) x) head (count + 1) =
      entries m cells head count ++ [x] := by
  rw [entries_succ, update_self, entries_update_behind hcount]

/-! ## Removing an entry in the middle -/

@[simp] theorem entries_length : (entries m cells head count).length = count := by
  simp [entries]

theorem entries_getElem? (hi : i < count) :
    (entries m cells head count)[i]? = some (cells ((head + i) % m)) := by
  rw [entries, List.getElem?_map, List.getElem?_range hi, Option.map_some]

theorem cell_inj {i j : ℕ} (hi : i < m) (hj : j < m) (h : (head + i) % m = (head + j) % m) :
    i = j := by
  rcases lt_trichotomy i j with hlt | heq | hlt
  · exact absurd h (cell_ne head hlt hj)
  · exact heq
  · exact absurd h.symm (cell_ne head hlt hi)

theorem entries_set (hi : i < count) (hcount : count ≤ m) (x : α) :
    entries m (update cells ((head + i) % m) x) head count =
      (entries m cells head count).set i x := by
  apply ext_getElem?
  intro j
  by_cases hj : j < count
  · rw [entries_getElem? hj]
    by_cases hij : i = j
    · subst hij
      rw [update_self, List.getElem?_set_self (by simpa using hi)]
    · have hne : (head + j) % m ≠ (head + i) % m := fun he =>
        hij (cell_inj (hj.trans_le hcount) (hi.trans_le hcount) he).symm
      rw [update_of_ne hne, List.getElem?_set_ne hij, entries_getElem? hj]
  · rw [List.getElem?_eq_none (by simpa using hj), List.getElem?_eq_none (by simpa using hj)]

/-- Each cell from `pos` to the end of the ring gets the entry of the next one. The result is `none`
if the end is not found in `fuel` steps. -/
def compact (m tail : ℕ) : ℕ → ℕ → (ℕ → α) → Option (ℕ → α)
  | 0, _, _ => none
  | fuel + 1, pos, cells =>
    let next := (pos + 1) % m
    if next = tail then some cells
    else compact m tail fuel next (update cells pos (cells next))

theorem eraseIdx_set_succ {l : List α} {x : α} (hx : l[i + 1]? = some x) :
    (l.set i x).eraseIdx (i + 1) = l.eraseIdx i := by
  induction l generalizing i with
  | nil => cases hx
  | cons a l ih =>
    cases i with
    | zero =>
      cases l with
      | nil => cases hx
      | cons b l =>
        cases hx
        rfl
    | succ i => exact congrArg (a :: ·) (ih hx)

theorem eraseIdx_entries_last :
    (entries m cells head (count + 1)).eraseIdx count = entries m cells head count := by
  rw [entries_succ, eraseIdx_append_of_length_le (by simp)]
  simp

theorem next_eq_tail_iff (hi : i < count) (hcount : count ≤ m) :
    ((head + i) % m + 1) % m = (head + count) % m ↔ i + 1 = count := by
  rw [mod_add_mod, add_assoc]
  constructor
  · intro h
    obtain ⟨c, rfl⟩ : ∃ c, count = c + 1 := ⟨count - 1, by omega⟩
    have hmod : i + 1 ≡ c + 1 [MOD m] := .add_left_cancel' head h
    have hmod' : i ≡ c [MOD m] := .add_right_cancel' 1 hmod
    rw [Nat.ModEq, mod_eq_of_lt (by omega), mod_eq_of_lt (by omega)] at hmod'
    rw [hmod']
  · intro h
    rw [h]

theorem exists_compact (cells : ℕ → α) (head : ℕ) {i fuel : ℕ} (hi : i < count) (hcount : count ≤ m)
    (hfuel : count ≤ i + fuel) :
    ∃ cells', compact m ((head + count) % m) fuel ((head + i) % m) cells = some cells' ∧
      entries m cells' head (count - 1) = (entries m cells head count).eraseIdx i := by
  induction fuel generalizing i cells with
  | zero => omega
  | succ fuel ih =>
    rw [compact]
    split_ifs with hlast <;> rw [next_eq_tail_iff hi hcount] at hlast
    · subst hlast
      exact ⟨cells, rfl, eraseIdx_entries_last.symm⟩
    have hnext : ((head + i) % m + 1) % m = (head + (i + 1)) % m := by
      rw [mod_add_mod, add_assoc]
    rw [hnext]
    obtain ⟨cells', hc, he⟩ := ih
      (update cells ((head + i) % m) (cells ((head + (i + 1)) % m))) (i := i + 1)
      (by omega) (by omega)
    refine ⟨cells', hc, he.trans ?_⟩
    rw [entries_set hi hcount]
    exact eraseIdx_set_succ (entries_getElem? (by omega))

end Nexios.Ring
