/-
Arithmetic of binary64 numbers.

A finite binary64 number is a rational; what an operation gives is its exact result, rounded to
53 significant bits, to the even one of two that are equally near.  Magnitudes stay far from
overflow and underflow here, so the exponent is not bounded.

* `roundEven` — to an integer;
* `round` — to a binary64 number;
* **`abs_round_sub_le`** — how far that is off.
-/
import Mathlib.Data.Int.Log
import Mathlib.Data.Rat.Floor
import Mathlib.Tactic.Linarith
import Mathlib.Tactic.Positivity

namespace Binary64

/-- The nearest integer, the even one of two. -/
def roundEven (x : ℚ) : ℤ :=
  if x - ⌊x⌋ < 1 / 2 then ⌊x⌋ else if 1 / 2 < x - ⌊x⌋ then ⌊x⌋ + 1 else ⌊x⌋ + ⌊x⌋ % 2

theorem abs_roundEven_sub_le (x : ℚ) : |(roundEven x : ℚ) - x| ≤ 1 / 2 := by
  have hle := Int.floor_le x
  have hlt := Int.lt_floor_add_one x
  rw [roundEven, abs_le]
  split
  · constructor
    · linarith
    · linarith
  · split
    · push_cast
      constructor
      · linarith
      · linarith
    · have htie : x - ⌊x⌋ = 1 / 2 := by linarith
      -- the even neighbour is the one below or the one above
      rcases Int.emod_two_eq_zero_or_one ⌊x⌋ with h | h
      · rw [h, add_zero]
        constructor
        · linarith
        · linarith
      · rw [h]
        push_cast
        constructor
        · linarith
        · linarith

theorem roundEven_eq {x : ℚ} {n : ℤ} (h : |x - n| < 1 / 2) : roundEven x = n := by
  have hround := abs_le.mp (abs_roundEven_sub_le x)
  have hnear := abs_lt.mp h
  have hlower : (n : ℚ) - 1 < roundEven x := by linarith
  have hupper : (roundEven x : ℚ) < n + 1 := by linarith
  have hlower' : n - 1 < roundEven x := by exact_mod_cast hlower
  have hupper' : roundEven x < n + 1 := by exact_mod_cast hupper
  omega

@[simp] theorem roundEven_intCast (n : ℤ) : roundEven n = n :=
  roundEven_eq (by rw [sub_self, abs_zero]; norm_num)

/-- The distance of the numbers next to `x`. -/
def ulp (x : ℚ) : ℚ := 2 ^ (Int.log 2 |x| - 52)

theorem ulp_pos (x : ℚ) : 0 < ulp x := zpow_pos two_pos _

/-- The nearest binary64 number. -/
def round (x : ℚ) : ℚ := roundEven (x / ulp x) * ulp x

@[simp] theorem round_zero : round 0 = 0 := by
  rw [round, zero_div]
  have h : roundEven 0 = 0 := roundEven_intCast 0
  rw [h, Int.cast_zero, zero_mul]

theorem abs_round_sub_le_ulp (x : ℚ) : |round x - x| ≤ ulp x / 2 := by
  have hpos := ulp_pos x
  have hsplit : round x - x = ((roundEven (x / ulp x) : ℚ) - x / ulp x) * ulp x := by
    rw [round, sub_mul, div_mul_cancel₀ _ hpos.ne']
  have hhalf := abs_roundEven_sub_le (x / ulp x)
  calc |round x - x| = |(roundEven (x / ulp x) : ℚ) - x / ulp x| * ulp x := by
        rw [hsplit, abs_mul, abs_of_pos hpos]
    _ ≤ 1 / 2 * ulp x := mul_le_mul_of_nonneg_right hhalf hpos.le
    _ = ulp x / 2 := by ring

theorem ulp_le {x : ℚ} {e : ℤ} (hx : x ≠ 0) (h : |x| < 2 ^ e) : ulp x ≤ 2 ^ (e - 53) := by
  have hlog : Int.log 2 |x| < e :=
    (Int.lt_zpow_iff_log_lt (by decide) (abs_pos.mpr hx)).mp (by exact_mod_cast h)
  exact zpow_le_zpow_right₀ one_le_two (by omega)

/-- **The error** of a rounding below `2 ^ e`. -/
theorem abs_round_sub_le {x : ℚ} {e : ℤ} (h : |x| < 2 ^ e) : |round x - x| ≤ 2 ^ (e - 54) := by
  by_cases hx : x = 0
  · subst hx
    rw [round_zero, sub_self, abs_zero]
    exact (zpow_pos two_pos _).le
  · have hsplit : (2 : ℚ) ^ (e - 53) = 2 ^ (e - 54) * 2 := by
      rw [← zpow_add_one₀ two_ne_zero]
      congr 1
      omega
    have hulp := ulp_le hx h
    have hround := abs_round_sub_le_ulp x
    rw [hsplit] at hulp
    linarith

end Binary64
