import Mathlib.Order.Interval.Finset.Nat
import Nexios.Lib.Update

/-!
# Singly linked lists in an array of successors

`Chain valid next h l` says that following `next` from `h` visits the elements of `l` and then
leaves the set of valid indices. The end mark of a list is any index that is not valid.
-/

open Function List

namespace Nexios

variable {α : Type*} {valid : α → Prop} {next next' : α → α} {h x : α} {l l' : List α} {y : α}

def Chain (valid : α → Prop) (next : α → α) : α → List α → Prop
  | h, [] => ¬ valid h
  | h, x :: l => h = x ∧ valid x ∧ Chain valid next (next x) l

/-- The first elements of the list from `h`, at most `fuel` of them. -/
def chainList (valid : α → Prop) [DecidablePred valid] (next : α → α) : ℕ → α → List α
  | 0, _ => []
  | fuel + 1, h => if valid h then h :: chainList valid next fuel (next h) else []

/-- Following `next` from `h` comes to `x`. -/
inductive Visits (valid : α → Prop) (next : α → α) : α → α → Prop
  | here {h : α} (hv : valid h) : Visits valid next h h
  | next {h x : α} (hv : valid h) (hr : Visits valid next (next h) x) : Visits valid next h x

namespace Chain

section

variable (hc : Chain valid next h l)
include hc

theorem valid_of_mem (hx : x ∈ l) : valid x := by
  induction l generalizing h with
  | nil => cases hx
  | cons y l ih =>
    obtain ⟨-, hy, hrest⟩ := hc
    rcases mem_cons.mp hx with rfl | hx
    · exact hy
    · exact ih hrest hx

theorem eq_nil (hh : ¬ valid h) : l = [] := by
  cases l with
  | nil => rfl
  | cons y l => exact absurd (hc.1 ▸ hc.2.1) hh

theorem eq_cons (hh : valid h) : ∃ rest, l = h :: rest ∧ Chain valid next (next h) rest := by
  cases l with
  | nil => exact absurd hh hc
  | cons y rest =>
    obtain ⟨rfl, -, hrest⟩ := hc
    exact ⟨rest, rfl, hrest⟩

theorem unique (hc' : Chain valid next h l') : l = l' := by
  induction l generalizing h l' with
  | nil => exact (hc'.eq_nil hc).symm
  | cons y l ih =>
    obtain ⟨rfl, hv, hrest⟩ := hc
    obtain ⟨rest, rfl, hrest'⟩ := hc'.eq_cons hv
    rw [ih hrest hrest']

theorem congr (hnext : ∀ y ∈ l, next' y = next y) : Chain valid next' h l := by
  induction l generalizing h with
  | nil => exact hc
  | cons y l ih =>
    obtain ⟨hy, hv, hrest⟩ := hc
    refine ⟨hy, hv, ?_⟩
    rw [hnext y mem_cons_self]
    exact ih hrest (fun z hz => hnext z (mem_cons_of_mem _ hz))

omit hc in
theorem congr_iff (hnext : ∀ y, valid y → next' y = next y) :
    Chain valid next' h l ↔ Chain valid next h l :=
  ⟨fun hc => hc.congr fun y hy => (hnext y (hc.valid_of_mem hy)).symm,
    fun hc => hc.congr fun y hy => hnext y (hc.valid_of_mem hy)⟩

theorem update [DecidableEq α] (hx : x ∉ l) (y : α) : Chain valid (Function.update next x y) h l :=
  hc.congr (fun _ hz => update_of_ne (ne_of_mem_of_not_mem hz hx) _ _)

theorem push [DecidableEq α] (hx : x ∉ l) (hv : valid x) :
    Chain valid (Function.update next x h) x (x :: l) := by
  refine ⟨rfl, hv, ?_⟩
  rw [update_self]
  exact hc.update hx h

theorem chainList_eq [DecidablePred valid] {fuel : ℕ}
    (hf : l.length ≤ fuel) : chainList valid next fuel h = l := by
  induction l generalizing h fuel with
  | nil =>
    cases fuel with
    | zero => rfl
    | succ fuel => exact if_neg hc
  | cons y l ih =>
    obtain ⟨rfl, hv, hrest⟩ := hc
    cases fuel with
    | zero => exact absurd hf (Nat.not_succ_le_zero _)
    | succ fuel =>
      rw [chainList, if_pos hv, ih hrest (Nat.le_of_succ_le_succ hf)]

omit hc in
/-- Indices in their order, when each links to the following one and the last to the end mark. -/
theorem range' {valid : ℕ → Prop} {next : ℕ → ℕ} (k m : ℕ)
    (hv : ∀ b, m ≤ b → b < m + (k + 1) → valid b)
    (hnext : ∀ b, m ≤ b → b < m + k → next b = b + 1) (hend : ¬ valid (next (m + k))) :
    Chain valid next m (List.range' m (k + 1)) := by
  induction k generalizing m with
  | zero => exact ⟨rfl, hv m le_rfl (by omega), hend⟩
  | succ k ih =>
    refine ⟨rfl, hv m le_rfl (by omega), ?_⟩
    rw [hnext m le_rfl (by omega)]
    apply ih
    · exact fun b hle hlt => hv b (by omega) (by omega)
    · exact fun b hle hlt => hnext b (by omega) (by omega)
    · rwa [Nat.add_right_comm]

theorem mem_of_visits (hx : Visits valid next h x) : x ∈ l := by
  induction hx generalizing l with
  | here hv =>
    obtain ⟨rest, rfl, -⟩ := hc.eq_cons hv
    exact mem_cons_self
  | next hv _ ih =>
    obtain ⟨rest, rfl, hrest⟩ := hc.eq_cons hv
    exact mem_cons_of_mem _ (ih hrest)

theorem visits_of_mem (hx : x ∈ l) : Visits valid next h x := by
  induction l generalizing h with
  | nil => cases hx
  | cons y l ih =>
    obtain ⟨rfl, hv, hrest⟩ := hc
    rcases mem_cons.mp hx with rfl | hx
    · exact .here hv
    · exact .next hv (ih hrest hx)

end

/-- A list that survives the change of a link it does not come to was there before. -/
theorem of_update [DecidableEq α] (hx : ¬ Visits valid next h x)
    (hc : Chain valid (Function.update next x y) h l) : Chain valid next h l := by
  induction l generalizing h with
  | nil => exact hc
  | cons z l ih =>
    obtain ⟨rfl, hv, hrest⟩ := hc
    have hne : h ≠ x := by
      rintro rfl
      exact hx (.here hv)
    rw [update_of_ne hne] at hrest
    exact ⟨rfl, hv, ih (fun hvis => hx (.next hv hvis)) hrest⟩

theorem drop_to [DecidableEq α] (hx : Visits valid next h x)
    (hc : Chain valid (Function.update next x y) h l) :
    ∃ rest, Chain valid (Function.update next x y) x rest ∧ rest.length ≤ l.length := by
  induction hx generalizing l with
  | here _ => exact ⟨l, hc, le_rfl⟩
  | @next h x hv _ ih =>
    by_cases hhx : h = x
    · exact ⟨l, hhx ▸ hc, le_rfl⟩
    · obtain ⟨rest, rfl, hrest⟩ := hc.eq_cons hv
      rw [update_of_ne hhx] at hrest
      obtain ⟨r, hr, hlen⟩ := ih hrest
      exact ⟨r, hr, hlen.trans (Nat.le_succ _)⟩

/-- Pushing an element that the list already comes to closes a cycle. -/
theorem not_push [DecidableEq α] (hx : Visits valid next h x) (hv : valid x) :
    ¬ Chain valid (Function.update next x h) x l := by
  intro hc
  obtain ⟨rest, rfl, hrest⟩ := hc.eq_cons hv
  rw [update_self] at hrest
  obtain ⟨again, hagain, hlen⟩ := drop_to hx hrest
  have heq := hagain.unique hc
  rw [heq] at hlen
  exact absurd hlen (Nat.not_succ_le_self _)

end Chain

namespace Visits

/-- Changing the link of an element leaves what is visited before it. -/
theorem update [DecidableEq α] {z : α} (hx : Visits valid next h x)
    (hz : x = z ∨ ¬ Visits valid next h z) : Visits valid (Function.update next z y) h x := by
  induction hx with
  | here hv => exact .here hv
  | @next h x hv hr ih =>
    by_cases hhz : h = z
    · subst hhz
      rcases hz with rfl | hz
      · exact .here hv
      · exact absurd (.here hv) hz
    · refine .next hv ?_
      rw [update_of_ne hhz]
      exact ih (hz.imp_right fun hn hvis => hn (.next hv hvis))

end Visits

/-- A list of different indices from an interval is no longer than the interval. -/
theorem length_le_of_nodup {l : List ℕ} {a b : ℕ} (hn : l.Nodup) (hl : ∀ x ∈ l, a ≤ x ∧ x < b) :
    l.length ≤ b - a := by
  have hsub : l.toFinset ⊆ Finset.Ico a b := by
    intro x hx
    exact Finset.mem_Ico.mpr (hl x (mem_toFinset.mp hx))
  have hcard := Finset.card_le_card hsub
  rwa [toFinset_card_of_nodup hn, Nat.card_Ico] at hcard

end Nexios
