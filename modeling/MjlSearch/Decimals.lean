/-
Rounding to a number of decimals, halves to the even side.

* `nearest_mem` — what is rounded to is no farther than a half;
* `nearest_mono`, `nearest_lt` — rounding keeps the order, and keeps apart what lies more than
  one apart;
* `roundTo_mono`, `roundTo_lt`, `roundTo_of_mul_eq` — the same for decimals, and numbers of
  no more decimals stay as they are.
-/
import Mathlib.Algebra.Order.Floor.Ring
import Mathlib.Tactic.Linarith
import Mathlib.Tactic.Positivity

namespace Decimals

variable {K : Type*} [Field K] [LinearOrder K] [IsStrictOrderedRing K] [FloorRing K]

-- the numerals of the rounding
local instance instAtLeastTwoTwo : Nat.AtLeastTwo 2 := ⟨by decide⟩
local instance instAtLeastTwoTen : Nat.AtLeastTwo 10 := ⟨by decide⟩

/-- The whole number closest to `x`, the even one of two. -/
def nearest (x : K) : ℤ :=
  if x - ⌊x⌋ < 1 / 2 then ⌊x⌋
  else if x - ⌊x⌋ = 1 / 2 ∧ ⌊x⌋ % 2 = 0 then ⌊x⌋
  else ⌊x⌋ + 1

/-- `round(x, digits)` -/
def roundTo (digits : ℕ) (x : K) : K := nearest (x * 10 ^ digits) / 10 ^ digits

variable {x y : K} {digits : ℕ}

theorem nearest_mem (x : K) : x - 1 / 2 ≤ nearest x ∧ (nearest x : K) ≤ x + 1 / 2 := by
  have hlow := Int.floor_le x
  have hhigh := Int.lt_floor_add_one x
  rw [nearest]
  split_ifs with hbelow hhalf
  · constructor <;> linarith
  · obtain ⟨hhalf, -⟩ := hhalf
    constructor <;> linarith
  · rw [not_lt] at hbelow
    push_cast
    constructor <;> linarith

@[simp] theorem nearest_intCast (z : ℤ) : nearest (z : K) = z := by
  rw [nearest, Int.floor_intCast, sub_self, if_pos (by norm_num)]

omit [IsStrictOrderedRing K] in
theorem floor_le_nearest (x : K) : ⌊x⌋ ≤ nearest x := by
  rw [nearest]
  split_ifs <;> omega

omit [IsStrictOrderedRing K] in
theorem nearest_le_floor (x : K) : nearest x ≤ ⌊x⌋ + 1 := by
  rw [nearest]
  split_ifs <;> omega

/-- It is the whole number that is not below, or the one before. -/
theorem nearest_eq_or (x : K) : nearest x = ⌈x⌉ ∨ nearest x = ⌈x⌉ - 1 := by
  have hlow := floor_le_nearest x
  have hhigh := nearest_le_floor x
  rcases (Int.floor_le_ceil x).eq_or_lt with heq | hlt
  · -- a whole number is rounded to itself
    have hself : ((⌊x⌋ : ℤ) : K) = x := by
      refine le_antisymm (Int.floor_le x) ?_
      rw [heq]
      exact Int.le_ceil x
    left
    rw [← hself, nearest_intCast, Int.ceil_intCast]
  · have hnext := Int.ceil_le_floor_add_one x
    omega

/-- **Rounding keeps the order.** -/
theorem nearest_mono (h : x ≤ y) : nearest x ≤ nearest y := by
  rcases lt_or_eq_of_le (Int.floor_mono h) with hlt | heq
  · exact le_trans (nearest_le_floor x) (le_trans hlt (floor_le_nearest y))
  · -- between the same whole numbers it is what stands behind the point that decides
    by_cases hdown : x - ⌊x⌋ < 1 / 2 ∨ (x - ⌊x⌋ = 1 / 2 ∧ ⌊x⌋ % 2 = 0)
    · have hx : nearest x = ⌊x⌋ := by
        rw [nearest]
        rcases hdown with hbelow | heven
        · rw [if_pos hbelow]
        · rw [if_pos heven, ite_self]
      rw [hx, heq]
      exact floor_le_nearest y
    · rw [not_or] at hdown
      have hy : nearest y = ⌊y⌋ + 1 := by
        rw [nearest, ← heq, if_neg, if_neg]
        · rintro ⟨hhalf, heven⟩
          have hx : x - ⌊x⌋ = 1 / 2 := le_antisymm (by linarith) (not_lt.mp hdown.1)
          exact hdown.2 ⟨hx, heven⟩
        · linarith [not_lt.mp hdown.1]
      rw [hy, ← heq]
      exact nearest_le_floor x

/-- What lies more than one apart is not rounded to one number. -/
theorem nearest_lt (h : 1 < y - x) : nearest x < nearest y := by
  have hx := (nearest_mem x).2
  have hy := (nearest_mem y).1
  have hlt : (nearest x : K) < nearest y := by linarith
  exact Int.cast_lt.mp hlt

theorem roundTo_mono (h : x ≤ y) : roundTo digits x ≤ roundTo digits y := by
  have hpos : (0 : K) < 10 ^ digits := by positivity
  rw [roundTo, roundTo, div_le_div_iff_of_pos_right hpos, Int.cast_le]
  exact nearest_mono (mul_le_mul_of_nonneg_right h hpos.le)

theorem roundTo_lt (h : 1 < (y - x) * 10 ^ digits) : roundTo digits x < roundTo digits y := by
  have hpos : (0 : K) < 10 ^ digits := by positivity
  rw [roundTo, roundTo, div_lt_div_iff_of_pos_right hpos, Int.cast_lt]
  refine nearest_lt ?_
  rwa [← sub_mul]

/-- A number of so many decimals stays as it is. -/
theorem roundTo_of_mul_eq {z : ℤ} (h : x * 10 ^ digits = z) : roundTo digits x = x := by
  have hpos : (0 : K) < 10 ^ digits := by positivity
  rw [roundTo, h, nearest_intCast, ← h, mul_div_cancel_right₀ _ hpos.ne']

end Decimals
