import Mathlib.Data.Nat.Bits
import Mathlib.Tactic.ByContra
import Mathlib.Tactic.SplitIfs

/-!
# The bitmap of non-empty priority levels

Two 64-bit words, one bit for each of the 128 levels, and the search for the highest set bit. Level
0 is the idle band; it also is the answer for an empty map.
-/

open BitVec

namespace Nexios.Sched

def priorityCeiling : ℕ := 127

structure PriorityMap where
  hi : BitVec 64
  lo : BitVec 64
  deriving DecidableEq

namespace PriorityMap

variable {m : PriorityMap} {p q : ℕ} {i : ℕ} {w : BitVec 64}

def empty : PriorityMap := ⟨0, 0⟩

def set (m : PriorityMap) (p : ℕ) : PriorityMap :=
  if 64 ≤ p then { m with hi := m.hi ||| (1#64 <<< (p - 64)) }
  else { m with lo := m.lo ||| (1#64 <<< p) }

def clear (m : PriorityMap) (p : ℕ) : PriorityMap :=
  if 64 ≤ p then { m with hi := m.hi &&& ~~~(1#64 <<< (p - 64)) }
  else { m with lo := m.lo &&& ~~~(1#64 <<< p) }

def isSet (m : PriorityMap) (p : ℕ) : Bool :=
  if 64 ≤ p then m.hi.getLsbD (p - 64) else m.lo.getLsbD p

/-- `hal::bits::find_highest_bit`, used on non-zero words only. -/
def findHighestBit (w : BitVec 64) : ℕ := w.toNat.log2

def getHighestPriority (m : PriorityMap) : ℕ :=
  if m.hi ≠ 0#64 then 64 + findHighestBit m.hi
  else if m.lo ≠ 0#64 then findHighestBit m.lo
  else 0

/-- The words masked to the levels from 1 to below `p`. -/
def window (m : PriorityMap) (p : ℕ) : PriorityMap :=
  let loMask := if 64 ≤ p then ~~~1#64 else ((1#64 <<< p) - 1#64) &&& ~~~1#64
  let hiMask := if p ≤ 64 then 0#64 else (1#64 <<< (p - 64)) - 1#64
  ⟨m.hi &&& hiMask, m.lo &&& loMask⟩

/-- The highest level from 1 to below `p`; `none` is `STARVABLE_NONE`. -/
def highestStarvableBelow (m : PriorityMap) (p : ℕ) : Option ℕ :=
  if p ≤ 1 then none
  else
    let masked := m.window p
    if masked.hi ≠ 0#64 then some (64 + findHighestBit masked.hi)
    else if masked.lo ≠ 0#64 then some (findHighestBit masked.lo)
    else none

def hasReady (m : PriorityMap) : Bool := m.hi ≠ 0#64 || m.lo ≠ 0#64

/-! ## Single levels -/

@[simp] theorem isSet_empty : empty.isSet p = false := by
  unfold isSet empty
  split_ifs <;> simp

theorem getLsbD_one_shiftLeft {j : ℕ} (hi : i < 64) : (1#64 <<< i).getLsbD j = decide (j = i) := by
  rw [getLsbD_shiftLeft]
  by_cases hji : j = i
  · subst hji
    simp [hi]
  have hone : ∀ x : ℕ, x ≠ 0 → (1#64).getLsbD x = false := by
    intro x hx
    simp [hx]
  rcases Nat.lt_or_gt_of_ne hji with hlt | hgt
  · simp [hlt, hji]
  · rw [hone _ (by omega)]
    simp [hji]

theorem isSet_set (hp : p ≤ priorityCeiling) : (m.set p).isSet q =
    (m.isSet q || decide (q = p)) := by
  unfold priorityCeiling at hp
  unfold isSet set
  by_cases h64 : 64 ≤ p <;> by_cases hq : 64 ≤ q
  · rw [if_pos h64, if_pos hq, if_pos hq]
    rw [getLsbD_or, getLsbD_one_shiftLeft (by omega)]
    congr 1
    exact decide_eq_decide.mpr (by omega)
  · rw [if_pos h64, if_neg hq, if_neg hq, decide_eq_false (by omega), Bool.or_false]
  · rw [if_neg h64, if_pos hq, if_pos hq, decide_eq_false (by omega), Bool.or_false]
  · rw [if_neg h64, if_neg hq, if_neg hq, getLsbD_or, getLsbD_one_shiftLeft (by omega)]

theorem isSet_clear (hp : p ≤ priorityCeiling) :
    (m.clear p).isSet q = (m.isSet q && !decide (q = p)) := by
  unfold priorityCeiling at hp
  have hmask : ∀ (w : BitVec 64) {i j : ℕ}, i < 64 →
      (w &&& ~~~(1#64 <<< i)).getLsbD j = (w.getLsbD j && !decide (j = i)) := by
    intro w i j hi
    rw [getLsbD_and, getLsbD_not, getLsbD_one_shiftLeft hi]
    by_cases hj : j < 64
    · simp [hj]
    · rw [getLsbD_of_ge w j (by omega)]
      rfl
  unfold isSet clear
  by_cases h64 : 64 ≤ p <;> by_cases hq : 64 ≤ q
  · rw [if_pos h64, if_pos hq, if_pos hq, hmask _ (by omega)]
    congr 2
    exact decide_eq_decide.mpr (by omega)
  · rw [if_pos h64, if_neg hq, if_neg hq, decide_eq_false (by omega)]
    simp
  · rw [if_neg h64, if_pos hq, if_pos hq, decide_eq_false (by omega)]
    simp
  · rw [if_neg h64, if_neg hq, if_neg hq, hmask _ (by omega)]

/-! ## The searches -/

theorem findHighestBit_set (hw : w ≠ 0#64) : w.getLsbD (findHighestBit w) = true := by
  have hne : w.toNat ≠ 0 := by
    intro h0
    exact hw (eq_of_toNat_eq h0)
  exact Nat.testBit_log2 hne

theorem findHighestBit_lt (w : BitVec 64) (hw : w ≠ 0#64) : findHighestBit w < 64 := by
  have hne : w.toNat ≠ 0 := by
    intro h0
    exact hw (eq_of_toNat_eq h0)
  exact (Nat.log2_lt hne).mpr w.isLt

theorem le_findHighestBit (hi : w.getLsbD i) : i ≤ findHighestBit w := by
  have hge : 2 ^ i ≤ w.toNat := Nat.ge_two_pow_of_testBit hi
  exact (Nat.le_log2 (by have := Nat.two_pow_pos i; omega)).mpr hge

theorem isSet_le (h : m.isSet p) : p ≤ priorityCeiling := by
  unfold isSet at h
  unfold priorityCeiling
  split_ifs at h
  · have hlt := lt_of_getLsbD h
    omega
  · omega

theorem isSet_getHighestPriority (h : m.isSet p) : m.isSet m.getHighestPriority = true := by
  unfold getHighestPriority
  by_cases hhi : m.hi = 0#64
  · have hlo : m.lo ≠ 0#64 := by
      intro hlo
      unfold isSet at h
      rw [hhi, hlo] at h
      simp at h
    have hlt := findHighestBit_lt m.lo hlo
    rw [if_neg (not_not.mpr hhi), if_pos hlo, isSet, if_neg (by omega)]
    exact findHighestBit_set hlo
  · rw [if_pos hhi, isSet, if_pos (by omega), Nat.add_sub_cancel_left]
    exact findHighestBit_set hhi

theorem le_getHighestPriority (h : m.isSet p) : p ≤ m.getHighestPriority := by
  unfold isSet at h
  unfold getHighestPriority
  split_ifs at h with h64
  · have hhi : m.hi ≠ 0#64 := by
      intro hhi
      simp [hhi] at h
    rw [if_pos hhi]
    have hle := le_findHighestBit h
    omega
  · split_ifs with hhi hlo
    · omega
    · exact le_findHighestBit h
    · rw [not_not.mp hlo] at h
      simp at h

theorem hasReady_iff : m.hasReady = true ↔ ∃ p, m.isSet p = true := by
  have hword : ∀ w : BitVec 64, w ≠ 0#64 → ∃ i, i < 64 ∧ w.getLsbD i = true :=
    fun w hw => ⟨findHighestBit w, findHighestBit_lt w hw, findHighestBit_set hw⟩
  unfold hasReady
  rw [Bool.or_eq_true, decide_eq_true_iff, decide_eq_true_iff]
  constructor
  · rintro (hhi | hlo)
    · obtain ⟨i, hi, hset⟩ := hword _ hhi
      refine ⟨i + 64, ?_⟩
      exact hset
    · obtain ⟨i, hi, hset⟩ := hword _ hlo
      refine ⟨i, ?_⟩
      rw [isSet, if_neg (by omega)]
      exact hset
  · rintro ⟨p, hp⟩
    by_contra hnone
    obtain ⟨hhi, hlo⟩ := not_or.mp hnone
    unfold isSet at hp
    rw [not_not.mp hhi, not_not.mp hlo] at hp
    simp at hp

theorem getLsbD_ones {j : ℕ} (hi : i < 64) : ((1#64 <<< i) - 1#64).getLsbD j = decide (j < i) := by
  have hpow : 2 ^ i < 2 ^ 64 := Nat.pow_lt_pow_right (by decide) hi
  have hshift : (1#64 <<< i).toNat = 2 ^ i := by
    rw [toNat_shiftLeft, Nat.shiftLeft_eq, toNat_one (by decide), Nat.one_mul]
    exact Nat.mod_eq_of_lt hpow
  have hle : 1#64 ≤ 1#64 <<< i := by
    rw [le_def, hshift]
    exact Nat.one_le_two_pow
  have hsub : ((1#64 <<< i) - 1#64).toNat = 2 ^ i - 1 := by
    rw [toNat_sub_of_le hle, hshift]
    rfl
  rw [BitVec.getLsbD, hsub, Nat.testBit_two_pow_sub_one]

theorem isSet_window (hp : p ≤ priorityCeiling) :
    (m.window p).isSet q = (m.isSet q && decide (1 ≤ q ∧ q < p)) := by
  unfold priorityCeiling at hp
  have hnot : ∀ {j}, (~~~1#64).getLsbD j = decide (1 ≤ j ∧ j < 64) := by
    intro j
    rw [getLsbD_not]
    by_cases h0 : j = 0
    · simp [h0]
    · have h1 : 1 ≤ j := Nat.one_le_iff_ne_zero.mpr h0
      simp [h0, h1]
  unfold isSet window
  by_cases hq : 64 ≤ q
  · rw [if_pos hq, if_pos hq, getLsbD_and]
    congr 1
    split_ifs with h64
    · rw [getLsbD_zero]
      exact (decide_eq_false (by omega)).symm
    · rw [getLsbD_ones (by omega)]
      exact decide_eq_decide.mpr (by omega)
  · rw [if_neg hq, if_neg hq, getLsbD_and]
    congr 1
    split_ifs with h64
    · rw [hnot]
      exact decide_eq_decide.mpr (by omega)
    · rw [getLsbD_and, getLsbD_ones (by omega), hnot, ← Bool.decide_and]
      exact decide_eq_decide.mpr (by omega)

theorem highestStarvableBelow_eq (hp : 1 < p) : m.highestStarvableBelow p =
      if (m.window p).hasReady then some (m.window p).getHighestPriority else none := by
  unfold highestStarvableBelow hasReady getHighestPriority
  rw [if_neg (by omega)]
  by_cases hhi : (m.window p).hi = 0#64 <;> by_cases hlo : (m.window p).lo = 0#64 <;> simp [hhi, hlo]

theorem highestStarvableBelow_some (hp : p ≤ priorityCeiling)
    (h : m.highestStarvableBelow p = some q) : 1 ≤ q ∧ q < p ∧ m.isSet q = true := by
  by_cases h1 : 1 < p
  · rw [highestStarvableBelow_eq h1] at h
    split_ifs at h with hready
    obtain ⟨r, hr⟩ := hasReady_iff.mp hready
    have hset := isSet_getHighestPriority hr
    rw [Option.some.inj h, isSet_window hp, Bool.and_eq_true, decide_eq_true_iff] at hset
    exact ⟨hset.2.1, hset.2.2, hset.1⟩
  · rw [highestStarvableBelow, if_pos (by omega)] at h
    cases h

end PriorityMap

end Nexios.Sched
