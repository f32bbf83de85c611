import Mathlib.Order.Nat

/-!
# The first entry of the least key

A scan over a list that remembers the first of the least keys below a bound, among the entries that
count, and stops at a key of 0, which nothing can improve on.
-/

open List

namespace Nexios.FirstMin

variable {α : Type*} {counts : α → Bool} {key : α → ℕ} {l pre : List α} {i j bound limit : ℕ}
  {a b : α} {best : Option ℕ}

/-- Entry `i` of `l` is `a`, the first of the least key among those that count. -/
structure IsFirstMin (counts : α → Bool) (key : α → ℕ) (l : List α) (i : ℕ) (a : α) : Prop where
  entry : l[i]? = some a
  counted : counts a = true
  least : ∀ b ∈ l, counts b → key a ≤ key b
  first : ∀ j b, j < i → l[j]? = some b → counts b → key a < key b

/-- The scan of the rest `l` of a list from its entry `i` on; `best` was found, of key `bound`. -/
def scan (counts : α → Bool) (key : α → ℕ) : List α → ℕ → ℕ → Option ℕ → Option ℕ
  | [], _, _, best => best
  | a :: l, i, bound, best =>
    if counts a && key a < bound then
      if key a = 0 then some i else scan counts key l (i + 1) (key a) (some i)
    else scan counts key l (i + 1) bound best

/-- What a scan of `l` for the keys below `limit` has to answer. -/
structure Answer (counts : α → Bool) (key : α → ℕ) (limit : ℕ) (l : List α) (best : Option ℕ) :
    Prop where
  missing : best = none → ∀ a ∈ l, counts a → limit ≤ key a
  found : ∀ i, best = some i → ∃ a, IsFirstMin counts key l i a ∧ key a < limit

/-- What a scan that has come to the end of `pre` knows. -/
structure Found (counts : α → Bool) (key : α → ℕ) (limit : ℕ) (pre : List α) (bound : ℕ)
    (best : Option ℕ) : Prop where
  all : ∀ a ∈ pre, counts a → bound ≤ key a
  missing : best = none → bound = limit
  found : ∀ i, best = some i → ∃ a, IsFirstMin counts key pre i a ∧ key a = bound
  le : bound ≤ limit
  lt : best ≠ none → bound < limit

theorem IsFirstMin.append (h : IsFirstMin counts key l i a)
    (hle : ∀ b ∈ pre, counts b → key a ≤ key b) : IsFirstMin counts key (l ++ pre) i a := by
  have hi := (List.getElem?_eq_some_iff.mp h.entry).1
  refine ⟨(List.getElem?_append_left hi).trans h.entry, h.counted, fun b hb hc => ?_,
    fun j b hj hb hc => ?_⟩
  · rcases mem_append.mp hb with hb | hb
    · exact h.least b hb hc
    · exact hle b hb hc
  · rw [List.getElem?_append_left (hj.trans hi)] at hb
    exact h.first j b hj hb hc

theorem IsFirstMin.unique (h : IsFirstMin counts key l i a) (h' : IsFirstMin counts key l j b) :
    a = b := by
  have hle := h.least b (mem_of_getElem? h'.entry) h'.counted
  have hle' := h'.least a (mem_of_getElem? h.entry) h.counted
  rcases Nat.lt_trichotomy i j with hlt | heq | hlt
  · exact absurd (h'.first i a hlt h.entry h.counted) hle.not_gt
  · subst heq
    exact Option.some.inj (h.entry.symm.trans h'.entry)
  · exact absurd (h.first j b hlt h'.entry h'.counted) hle'.not_gt

section

variable (h : Found counts key limit pre bound best)
include h

theorem Found.isFirstMin (hc : counts a)
    (hlt : key a < bound) : IsFirstMin counts key (pre ++ [a]) pre.length a := by
  refine ⟨List.getElem?_concat_length, hc, fun b hb hcb => ?_, fun j b hj hb hcb => ?_⟩
  · rcases mem_append.mp hb with hb | hb
    · exact hlt.le.trans (h.all b hb hcb)
    · exact (congrArg key (mem_singleton.mp hb)).ge
  · rw [List.getElem?_append_left hj] at hb
    exact hlt.trans_le (h.all b (mem_of_getElem? hb) hcb)

theorem Found.better (hc : counts a)
    (hlt : key a < bound) : Found counts key limit (pre ++ [a]) (key a) (some pre.length) where
  all := (h.isFirstMin hc hlt).least
  missing := nofun
  found i hi := by
    cases hi
    exact ⟨a, h.isFirstMin hc hlt, rfl⟩
  le := hlt.le.trans h.le
  lt _ := hlt.trans_le h.le

theorem Found.skip
    (hskip : counts a → bound ≤ key a) : Found counts key limit (pre ++ [a]) bound best where
  all b hb hcb := by
    rcases mem_append.mp hb with hb | hb
    · exact h.all b hb hcb
    · obtain rfl := mem_singleton.mp hb
      exact hskip hcb
  missing := h.missing
  found i hi := by
    obtain ⟨b, hb, hkey⟩ := h.found i hi
    refine ⟨b, hb.append fun c hc hcc => ?_, hkey⟩
    obtain rfl := mem_singleton.mp hc
    exact hkey.trans_le (hskip hcc)
  le := h.le
  lt := h.lt

theorem Found.scan (l : List α) :
    Answer counts key limit (pre ++ l) (scan counts key l pre.length bound best) := by
  induction l generalizing pre bound best with
  | nil =>
    rw [append_nil, FirstMin.scan]
    refine ⟨fun hb a ha hc => h.missing hb ▸ h.all a ha hc, fun i hi => ?_⟩
    obtain ⟨a, ha, hkey⟩ := h.found i hi
    exact ⟨a, ha, hkey.trans_lt (h.lt (hi ▸ Option.some_ne_none i))⟩
  | cons a l ih =>
    have happend : pre ++ a :: l = (pre ++ [a]) ++ l := (append_cons pre a l)
    have hlength : pre.length + 1 = (pre ++ [a]).length := by
      rw [length_append, length_singleton]
    rw [FirstMin.scan]
    split_ifs with hbetter hzero
    · -- nothing behind `a` has a smaller key
      obtain ⟨hc, hlt⟩ := Bool.and_eq_true_iff.mp hbetter
      have hmin := h.isFirstMin hc (of_decide_eq_true hlt)
      refine ⟨nofun, fun i hi => ⟨a, ?_, (of_decide_eq_true hlt).trans_le h.le⟩⟩
      cases hi
      rw [happend]
      exact hmin.append fun b _ _ => hzero ▸ Nat.zero_le _
    · obtain ⟨hc, hlt⟩ := Bool.and_eq_true_iff.mp hbetter
      rw [happend, hlength]
      exact ih (h.better hc (of_decide_eq_true hlt))
    · rw [happend, hlength]
      refine ih (h.skip fun hc => ?_)
      by_contra hlt
      exact hbetter (Bool.and_eq_true_iff.mpr ⟨hc, decide_eq_true (Nat.not_le.mp hlt)⟩)

end

theorem answer_scan (counts : α → Bool) (key : α → ℕ) (limit : ℕ) (l : List α) :
    Answer counts key limit l (scan counts key l 0 limit none) := by
  have hstart : Found counts key limit [] limit none :=
    ⟨nofun, fun _ => rfl, nofun, le_rfl, absurd rfl⟩
  exact hstart.scan l

end Nexios.FirstMin
