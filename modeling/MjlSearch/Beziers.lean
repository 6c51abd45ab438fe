/-
Cubic Bézier curves whose control values lie between the ends.

* `blend_monotoneOn` — the blend of two ends by any two fractions runs from one to the other
  without turning back;
* `cubic_eq_blend` — a curve is such a blend of its ends;
* `cubic_monotone`, `cubic_mem` — so it is monotone and stays between them.
-/
import Mathlib.Analysis.Convex.Segment
import Mathlib.Order.Interval.Set.UnorderedInterval
import Mathlib.Tactic.Linarith
import Mathlib.Tactic.LinearCombination
import Mathlib.Tactic.Positivity

open Set

namespace Bezier

variable {K : Type*} [Field K] [LinearOrder K] [IsStrictOrderedRing K]

/-- The value on the way from `a` to `b`. -/
def lerp (a b t : K) : K := (1 - t) * a + t * b

/-- A coordinate of the quadratic curve with the control values `a`, `b` and `c`. -/
def quadratic (a b c t : K) : K := lerp (lerp a b t) (lerp b c t) t

/-- A coordinate of the cubic curve with the control values `a`, `b`, `c` and `d`. -/
def cubic (a b c d t : K) : K := lerp (quadratic a b c t) (quadratic b c d t) t

omit [LinearOrder K] [IsStrictOrderedRing K] in
theorem cubic_eq (a b c d t : K) :
    cubic a b c d t =
      (1 - t) ^ 3 * a + 3 * (1 - t) ^ 2 * t * b + 3 * (1 - t) * t ^ 2 * c + t ^ 3 * d := by
  simp only [cubic, quadratic, lerp]
  ring

/-- The curve from zero to one with the control values `p` and `q` between. -/
def blend (p q t : K) : K := cubic 0 p q 1 t

omit [LinearOrder K] [IsStrictOrderedRing K] in
/-- It is a mean of the four curves with control values at the ends. -/
theorem blend_eq (p q t : K) :
    blend p q t = (1 - p) * (1 - q) * t ^ 3 + p * (1 - q) * (3 * t - 6 * t ^ 2 + 4 * t ^ 3) +
      (1 - p) * q * (3 * t ^ 2 - 2 * t ^ 3) + p * q * (1 - (1 - t) ^ 3) := by
  rw [blend, cubic_eq]
  ring

/-- The slowest start and the slowest end. -/
theorem cube_le {s t : K} (hs : 0 ≤ s) (hst : s ≤ t) : s ^ 3 ≤ t ^ 3 :=
  pow_le_pow_left₀ hs hst 3

/-- Slow at both ends. -/
theorem slow_ends_le {s t : K} (hs : 0 ≤ s) (hst : s ≤ t) (ht : t ≤ 1) :
    3 * s ^ 2 - 2 * s ^ 3 ≤ 3 * t ^ 2 - 2 * t ^ 3 := by
  have ht0 : 0 ≤ t := hs.trans hst
  have hs1 : s ≤ 1 := hst.trans ht
  have hrise : 0 ≤ 2 * (t * (1 - t)) + 2 * (s * (1 - s)) + (t * (1 - s) + s * (1 - t)) := by
    have h1 := mul_nonneg ht0 (sub_nonneg.mpr ht)
    have h2 := mul_nonneg hs (sub_nonneg.mpr hs1)
    have h3 := mul_nonneg ht0 (sub_nonneg.mpr hs1)
    have h4 := mul_nonneg hs (sub_nonneg.mpr ht)
    linarith
  have hdiff := mul_nonneg (sub_nonneg.mpr hst) hrise
  linarith

/-- Fast at both ends: the curve stands still in the middle. -/
theorem fast_ends_le {s t : K} (hst : s ≤ t) :
    3 * s - 6 * s ^ 2 + 4 * s ^ 3 ≤ 3 * t - 6 * t ^ 2 + 4 * t ^ 3 := by
  have hrise : 0 ≤ (2 * t - 1) ^ 2 + (2 * s - 1) ^ 2 + ((2 * t - 1) + (2 * s - 1)) ^ 2 := by
    positivity
  have hdiff := mul_nonneg (sub_nonneg.mpr hst) hrise
  linarith

/-- **A blend never turns back.** -/
theorem blend_monotoneOn {p q : K} (hp : p ∈ Icc 0 1) (hq : q ∈ Icc 0 1) :
    MonotoneOn (blend p q) (Icc 0 1) := by
  intro s hs t ht hst
  have hp0 := hp.1
  have hq0 := hq.1
  have hp1 := sub_nonneg.mpr hp.2
  have hq1 := sub_nonneg.mpr hq.2
  have hback : 1 - (1 - s) ^ 3 ≤ 1 - (1 - t) ^ 3 :=
    sub_le_sub_left (cube_le (sub_nonneg.mpr ht.2) (sub_le_sub_left hst 1)) 1
  rw [blend_eq, blend_eq]
  refine add_le_add (add_le_add (add_le_add ?_ ?_) ?_) ?_
  · exact mul_le_mul_of_nonneg_left (cube_le hs.1 hst) (mul_nonneg hp1 hq1)
  · exact mul_le_mul_of_nonneg_left (fast_ends_le hst) (mul_nonneg hp0 hq1)
  · exact mul_le_mul_of_nonneg_left (slow_ends_le hs.1 hst ht.2) (mul_nonneg hp1 hq0)
  · exact mul_le_mul_of_nonneg_left hback (mul_nonneg hp0 hq0)

theorem blend_mem {p q t : K} (hp : p ∈ Icc 0 1) (hq : q ∈ Icc 0 1) (ht : t ∈ Icc 0 1) :
    blend p q t ∈ Icc 0 1 := by
  have hzero : blend p q 0 = 0 := by
    rw [blend, cubic_eq]
    ring
  have hone : blend p q 1 = 1 := by
    rw [blend, cubic_eq]
    ring
  have hmono := blend_monotoneOn hp hq
  have h0 := hmono (left_mem_Icc.mpr zero_le_one) ht ht.1
  have h1 := hmono ht (right_mem_Icc.mpr zero_le_one) ht.2
  rw [hzero] at h0
  rw [hone] at h1
  exact ⟨h0, h1⟩

/-- A value between two ends, as a fraction of the way. -/
theorem exists_fraction {a b d : K} (h : b ∈ uIcc a d) :
    ∃ p ∈ Icc (0 : K) 1, b = a + p * (d - a) := by
  rw [← segment_eq_uIcc] at h
  obtain ⟨u, p, hu, hp, hsum, rfl⟩ := h
  refine ⟨p, ⟨hp, by linarith⟩, ?_⟩
  rw [smul_eq_mul, smul_eq_mul]
  linear_combination a * hsum

/-- A fraction of the way from one end to the other. -/
theorem fraction_mem {a d p : K} (hp : p ∈ Icc (0 : K) 1) : a + p * (d - a) ∈ uIcc a d := by
  rw [← segment_eq_uIcc]
  refine ⟨1 - p, p, sub_nonneg.mpr hp.2, hp.1, sub_add_cancel 1 p, ?_⟩
  rw [smul_eq_mul, smul_eq_mul]
  ring

/-- **A curve with control values between its ends is a blend of these.** -/
theorem cubic_eq_blend {a b c d : K} (hb : b ∈ uIcc a d) (hc : c ∈ uIcc a d) :
    ∃ p ∈ Icc (0 : K) 1, ∃ q ∈ Icc (0 : K) 1, ∀ t,
      cubic a b c d t = a + blend p q t * (d - a) := by
  obtain ⟨p, hp, rfl⟩ := exists_fraction hb
  obtain ⟨q, hq, rfl⟩ := exists_fraction hc
  refine ⟨p, hp, q, hq, fun t => ?_⟩
  rw [blend, cubic_eq, cubic_eq]
  ring

/-- **A curve with control values between its ends is monotone.** -/
theorem cubic_monotone {a b c d : K} (hb : b ∈ uIcc a d) (hc : c ∈ uIcc a d) :
    MonotoneOn (cubic a b c d) (Icc 0 1) ∨ AntitoneOn (cubic a b c d) (Icc 0 1) := by
  obtain ⟨p, hp, q, hq, heq⟩ := cubic_eq_blend hb hc
  have hmono := blend_monotoneOn hp hq
  rcases le_total a d with hrise | hfall
  · refine Or.inl fun s hs t ht hst => ?_
    rw [heq, heq]
    exact add_le_add_right (mul_le_mul_of_nonneg_right (hmono hs ht hst) (sub_nonneg.mpr hrise)) a
  · refine Or.inr fun s hs t ht hst => ?_
    rw [heq, heq]
    exact add_le_add_right (mul_le_mul_of_nonpos_right (hmono hs ht hst) (sub_nonpos.mpr hfall)) a

/-- **A curve with control values between its ends stays between them.** -/
theorem cubic_mem {a b c d t : K} (hb : b ∈ uIcc a d) (hc : c ∈ uIcc a d) (ht : t ∈ Icc 0 1) :
    cubic a b c d t ∈ uIcc a d := by
  obtain ⟨p, hp, q, hq, heq⟩ := cubic_eq_blend hb hc
  rw [heq]
  exact fraction_mem (blend_mem hp hq ht)

omit [LinearOrder K] [IsStrictOrderedRing K] in
/-- A curve whose control values divide the way into thirds goes at one speed. -/
theorem cubic_thirds [CharZero K] (a width t : K) :
    cubic a (a + width / 3) (a + width - width / 3) (a + width) t = a + t * width := by
  rw [cubic_eq]
  ring

end Bezier
