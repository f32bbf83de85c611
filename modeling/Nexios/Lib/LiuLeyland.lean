import Mathlib.Analysis.Complex.ExponentialBounds
import Mathlib.Analysis.Convex.SpecificFunctions.Basic

/-!
# The schedulability test of Liu and Leyland

A set of `n` periodic tasks of total utilization `U` passes the test if `(1 + U / n) ^ n ≤ 2`. The
left side grows with `U` and with `n`, so a set that passes still does when tasks leave it; and
since `(1 + U / n) ^ n` never exceeds `exp U`, a total of at most `log 2` passes whatever `n` is.
-/

open Real

namespace Nexios

def LiuLeyland (us : List ℚ) : Prop := (1 + us.sum / us.length) ^ us.length ≤ 2
  deriving Decidable

theorem one_add_div_pow_le_pow {x : ℝ} (hx : 0 ≤ x) {m n : ℕ} (hm : 0 < m) (hmn : m ≤ n) :
    (1 + x / m) ^ m ≤ (1 + x / n) ^ n := by
  have hm' : (0 : ℝ) < m := by exact_mod_cast hm
  have hn' : (0 : ℝ) < n := hm'.trans_le (by exact_mod_cast hmn)
  have hs : 0 ≤ x / n := div_nonneg hx hn'.le
  have hratio : (1 : ℝ) ≤ n / m := by
    rw [le_div_iff₀ hm', one_mul]
    exact_mod_cast hmn
  -- Bernoulli's inequality with the exponent `n / m`
  have hbernoulli : 1 + x / m ≤ (1 + x / n) ^ ((n : ℝ) / m) := by
    have h := one_add_mul_self_le_rpow_one_add (by linarith : -1 ≤ x / n) hratio
    have he : (n : ℝ) / m * (x / n) = x / m := by field_simp
    rwa [he] at h
  calc (1 + x / m) ^ m ≤ ((1 + x / n) ^ ((n : ℝ) / m)) ^ m :=
        pow_le_pow_left₀ (by positivity) hbernoulli m
    _ = (1 + x / n) ^ n := by
        rw [← rpow_natCast, ← rpow_mul (by positivity), div_mul_cancel₀ _ hm'.ne',
          rpow_natCast]

theorem one_add_div_pow_le_two {x : ℝ} (hx : 0 ≤ x) (hlog : x ≤ log 2) (n : ℕ) :
    (1 + x / n) ^ n ≤ 2 := by
  rcases Nat.eq_zero_or_pos n with rfl | hn
  · norm_num
  have hn' : (0 : ℝ) < n := by exact_mod_cast hn
  calc (1 + x / n) ^ n ≤ exp (x / n) ^ n := by
        refine pow_le_pow_left₀ (by positivity) ?_ n
        linarith [add_one_le_exp (x / n)]
    _ = exp x := by rw [← exp_nat_mul, mul_div_cancel₀ _ hn'.ne']
    _ ≤ exp (log 2) := exp_le_exp.mpr hlog
    _ = 2 := exp_log (by norm_num)

/-- Tasks may leave a set that passes the test, and utilizations may drop. -/
theorem LiuLeyland.of_le {us vs : List ℚ} (h : LiuLeyland us) (hvs : 0 ≤ vs.sum)
    (hsum : vs.sum ≤ us.sum) (hlength : vs.length ≤ us.length) : LiuLeyland vs := by
  unfold LiuLeyland at h ⊢
  rcases Nat.eq_zero_or_pos vs.length with hzero | hpos
  · rw [hzero]
    norm_num
  have hv : (0 : ℝ) ≤ vs.sum := by exact_mod_cast hvs
  have hpass : (1 + (us.sum : ℝ) / us.length) ^ us.length ≤ 2 := by exact_mod_cast h
  have hgoal : (1 + (vs.sum : ℝ) / vs.length) ^ vs.length ≤ 2 :=
    calc (1 + (vs.sum : ℝ) / vs.length) ^ vs.length
        ≤ (1 + (vs.sum : ℝ) / us.length) ^ us.length := one_add_div_pow_le_pow hv hpos hlength
      _ ≤ (1 + (us.sum : ℝ) / us.length) ^ us.length := by gcongr
      _ ≤ 2 := hpass
  exact_mod_cast hgoal

theorem LiuLeyland.sublist {us vs : List ℚ} (h : LiuLeyland us) (hsub : vs.Sublist us)
    (hus : ∀ u ∈ us, 0 ≤ u) : LiuLeyland vs :=
  h.of_le (List.sum_nonneg (fun v hv => hus v (hsub.subset hv)))
    (hsub.sum_le_sum hus) hsub.length_le

theorem liuLeyland_of_le_log {us : List ℚ} (hus : 0 ≤ us.sum) (hlog : (us.sum : ℝ) ≤ log 2) :
    LiuLeyland us := by
  have h := one_add_div_pow_le_two (by exact_mod_cast hus) hlog us.length
  exact_mod_cast h

end Nexios
