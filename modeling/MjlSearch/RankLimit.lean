/-
Where the ranks of a finite graph go.

An iteration brings two assignments of ranks nearer to each other: what they differ by flows
along the edges as the ranks do, a share `d` of it, and what flows in from several nodes can
only cancel.  So the ranks approach one assignment that an iteration leaves alone, by a
factor `d` each time.

* `sum_abs_step_sub_le` — an iteration is a contraction in the sum of the differences;
* `Stationary.unique`, `exists_stationary` — one assignment is left alone, and no other;
* `sum_abs_ranks_sub_le` — how far from it the ranks are after some iterations.
-/
import Mathlib.Analysis.SpecificLimits.Basic
import MjlSearch.RankIteration

open Finset Filter Topology

namespace RankIteration

variable {α : Type*} [DecidableEq α] {d : ℝ} {V : Finset α} {out : α → Finset α}

/-- An iteration leaves the ranks of the nodes as they are. -/
def Stationary (d : ℝ) (V : Finset α) (out : α → Finset α) (s : α → ℝ) : Prop :=
  ∀ t ∈ V, step d V out s t = s t

/-! ### An iteration is a contraction -/

/-- The difference of two assignments flows like the ranks, and may cancel. -/
theorem abs_step_sub_step_le (hd : 0 ≤ d) (r s : α → ℝ) (t : α) :
    |step d V out r t - step d V out s t| ≤ d * step 1 V out (fun v => |r v - s v|) t := by
  have hedges : ∑ v ∈ V with t ∈ out v, d * r v / #(out v) -
      ∑ v ∈ V with t ∈ out v, d * s v / #(out v) =
      d * ∑ v ∈ V with t ∈ out v, (r v - s v) / #(out v) := by
    rw [← sum_sub_distrib, mul_sum]
    refine sum_congr rfl fun v _ => ?_
    ring
  have hspread : ∑ v ∈ V with out v = ∅, r v - ∑ v ∈ V with out v = ∅, s v =
      ∑ v ∈ V with out v = ∅, (r v - s v) := sum_sub_distrib _ _ |>.symm
  have hedge : |∑ v ∈ V with t ∈ out v, (r v - s v) / (#(out v) : ℝ)| ≤
      ∑ v ∈ V with t ∈ out v, 1 * |r v - s v| / #(out v) := by
    refine (abs_sum_le_sum_abs _ _).trans_eq (sum_congr rfl fun v _ => ?_)
    rw [abs_div, Nat.abs_cast, one_mul]
  have hall : |∑ v ∈ V with out v = ∅, (r v - s v)| ≤
      ∑ v ∈ V with out v = ∅, |r v - s v| := abs_sum_le_sum_abs _ _
  calc |step d V out r t - step d V out s t|
      = d * |∑ v ∈ V with t ∈ out v, (r v - s v) / #(out v) +
          (∑ v ∈ V with out v = ∅, (r v - s v)) / #V| := by
        rw [← abs_of_nonneg hd, ← abs_mul, abs_of_nonneg hd, mul_add, ← hedges, ← hspread]
        refine congrArg _ ?_
        rw [step, step]
        ring
    _ ≤ d * step 1 V out (fun v => |r v - s v|) t := by
        refine mul_le_mul_of_nonneg_left ((abs_add_le _ _).trans ?_) hd
        rw [step, sub_self, zero_div, zero_add, one_mul, abs_div, Nat.abs_cast]
        exact add_le_add hedge (div_le_div_of_nonneg_right hall (Nat.cast_nonneg _))

/-- **An iteration brings two assignments nearer**, by a factor. -/
theorem sum_abs_step_sub_le (hd : 0 ≤ d) (hV : V.Nonempty) (hout : ∀ v ∈ V, out v ⊆ V)
    (r s : α → ℝ) :
    ∑ t ∈ V, |step d V out r t - step d V out s t| ≤ d * ∑ t ∈ V, |r t - s t| := by
  calc ∑ t ∈ V, |step d V out r t - step d V out s t|
      ≤ ∑ t ∈ V, d * step 1 V out (fun v => |r v - s v|) t :=
        sum_le_sum fun t _ => abs_step_sub_step_le hd r s t
    _ = d * ∑ t ∈ V, |r t - s t| := by
        rw [← mul_sum, sum_step 1 hV hout, sub_self, zero_add, one_mul]

/-! ### The assignment that is left alone -/

/-- What is left alone sums to one, as the ranks do. -/
theorem Stationary.sum {s : α → ℝ} (hs : Stationary d V out s) (hd1 : d < 1)
    (hV : V.Nonempty) (hout : ∀ v ∈ V, out v ⊆ V) : ∑ t ∈ V, s t = 1 := by
  have hsum : ∑ t ∈ V, s t = (1 - d) + d * ∑ t ∈ V, s t := by
    rw [← sum_step d hV hout]
    exact sum_congr rfl fun t ht => (hs t ht).symm
  have hrest : (1 - d) * (∑ t ∈ V, s t - 1) = 0 := by linarith
  rcases mul_eq_zero.mp hrest with hzero | hone
  · linarith
  · linarith

/-- **Only one assignment is left alone.** -/
theorem Stationary.unique {s s' : α → ℝ} (hs : Stationary d V out s)
    (hs' : Stationary d V out s') (hd : 0 ≤ d) (hd1 : d < 1) (hV : V.Nonempty)
    (hout : ∀ v ∈ V, out v ⊆ V) : ∀ t ∈ V, s t = s' t := by
  have hnear : ∑ t ∈ V, |s t - s' t| ≤ d * ∑ t ∈ V, |s t - s' t| := by
    refine (sum_congr rfl fun t ht => ?_).trans_le (sum_abs_step_sub_le hd hV hout s s')
    rw [hs t ht, hs' t ht]
  have hnonneg : 0 ≤ ∑ t ∈ V, |s t - s' t| := sum_nonneg fun t _ => abs_nonneg _
  have hzero : ∑ t ∈ V, |s t - s' t| = 0 := by nlinarith
  intro t ht
  exact sub_eq_zero.mp (abs_eq_zero.mp ((sum_eq_zero_iff_of_nonneg fun t _ =>
    abs_nonneg _).mp hzero t ht))

omit [DecidableEq α] in
/-- Two assignments that sum to one, and hold nothing negative, differ by two at most. -/
theorem sum_abs_sub_le_two {r s : α → ℝ} (hr : ∀ t ∈ V, 0 ≤ r t) (hs : ∀ t ∈ V, 0 ≤ s t)
    (hr1 : ∑ t ∈ V, r t = 1) (hs1 : ∑ t ∈ V, s t = 1) : ∑ t ∈ V, |r t - s t| ≤ 2 := by
  calc ∑ t ∈ V, |r t - s t| ≤ ∑ t ∈ V, (r t + s t) := by
        refine sum_le_sum fun t ht => abs_sub_le_iff.mpr ?_
        have h1 := hr t ht
        have h2 := hs t ht
        constructor
        · linarith
        · linarith
    _ = 2 := by
        rw [sum_add_distrib, hr1, hs1]
        norm_num

theorem ranks_nonneg (hd : 0 ≤ d) (hd1 : d < 1) (k : ℕ) (t : α) : 0 ≤ ranks d V out k t :=
  (div_nonneg (sub_nonneg.mpr hd1.le) (Nat.cast_nonneg _)).trans (le_ranks hd hd1.le k t)

/-- One more iteration changes the ranks less than the one before. -/
theorem sum_abs_ranks_succ_sub_le (hd : 0 ≤ d) (hd1 : d < 1) (hV : V.Nonempty)
    (hout : ∀ v ∈ V, out v ⊆ V) (k : ℕ) :
    ∑ t ∈ V, |ranks d V out k t - ranks d V out (k + 1) t| ≤ 2 * d ^ k := by
  induction k with
  | zero =>
    rw [pow_zero, mul_one]
    exact sum_abs_sub_le_two (fun t _ => ranks_nonneg hd hd1 0 t)
      (fun t _ => ranks_nonneg hd hd1 1 t) (sum_ranks d hV hout 0) (sum_ranks d hV hout 1)
  | succ k ih =>
    calc ∑ t ∈ V, |ranks d V out (k + 1) t - ranks d V out (k + 2) t|
        ≤ d * ∑ t ∈ V, |ranks d V out k t - ranks d V out (k + 1) t| :=
          sum_abs_step_sub_le hd hV hout _ _
      _ ≤ d * (2 * d ^ k) := mul_le_mul_of_nonneg_left ih hd
      _ = 2 * d ^ (k + 1) := by ring

/-- The ranks of a node settle. -/
theorem exists_tendsto_ranks (hd : 0 ≤ d) (hd1 : d < 1) (hV : V.Nonempty)
    (hout : ∀ v ∈ V, out v ⊆ V) {t : α} (ht : t ∈ V) :
    ∃ x, Tendsto (fun k => ranks d V out k t) atTop (𝓝 x) := by
  refine cauchySeq_tendsto_of_complete (cauchySeq_of_le_geometric d 2 hd1 fun k => ?_)
  rw [Real.dist_eq]
  exact (single_le_sum (fun v _ => abs_nonneg (ranks d V out k v - ranks d V out (k + 1) v))
    ht).trans (sum_abs_ranks_succ_sub_le hd hd1 hV hout k)

/-- What the ranks of an iteration go to is an iteration of what the ranks go to. -/
theorem tendsto_step {r : ℕ → α → ℝ} {s : α → ℝ}
    (h : ∀ v ∈ V, Tendsto (fun k => r k v) atTop (𝓝 (s v))) (t : α) :
    Tendsto (fun k => step d V out (r k) t) atTop (𝓝 (step d V out s t)) := by
  have hedges : Tendsto (fun k => ∑ v ∈ V with t ∈ out v, d * r k v / #(out v)) atTop
      (𝓝 (∑ v ∈ V with t ∈ out v, d * s v / #(out v))) :=
    tendsto_finsetSum _ fun v hv => ((h v (mem_filter.mp hv).1).const_mul d).div_const _
  have hspread : Tendsto (fun k => ∑ v ∈ V with out v = ∅, r k v) atTop
      (𝓝 (∑ v ∈ V with out v = ∅, s v)) :=
    tendsto_finsetSum _ fun v hv => h v (mem_filter.mp hv).1
  exact (hedges.const_add _).add ((hspread.const_mul d).div_const _)

/-- **Some assignment is left alone**, and the ranks go to it; it holds nothing negative. -/
theorem exists_stationary (hd : 0 ≤ d) (hd1 : d < 1) (hV : V.Nonempty)
    (hout : ∀ v ∈ V, out v ⊆ V) :
    ∃ s : α → ℝ, Stationary d V out s ∧ ∀ t ∈ V, (1 - d) / #V ≤ s t := by
  have hex : ∀ t, ∃ x, t ∈ V → Tendsto (fun k => ranks d V out k t) atTop (𝓝 x) := by
    intro t
    by_cases ht : t ∈ V
    · obtain ⟨x, hx⟩ := exists_tendsto_ranks hd hd1 hV hout ht
      exact ⟨x, fun _ => hx⟩
    · exact ⟨0, fun h => absurd h ht⟩
  choose s hs using hex
  refine ⟨s, fun t ht => ?_, fun t ht => ?_⟩
  · -- the next ranks go where the ranks go, and to an iteration of it
    have hnext := (hs t ht).comp (tendsto_add_atTop_nat 1)
    exact tendsto_nhds_unique (tendsto_step hs t) hnext
  · exact ge_of_tendsto' (hs t ht) fun k => le_ranks hd hd1.le k t

/-- **How far the ranks are from where they go**, after some iterations. -/
theorem sum_abs_ranks_sub_le {s : α → ℝ} (hs : Stationary d V out s) (hd : 0 ≤ d)
    (hV : V.Nonempty) (hout : ∀ v ∈ V, out v ⊆ V) (k : ℕ) :
    ∑ t ∈ V, |ranks d V out k t - s t| ≤ d ^ k * ∑ t ∈ V, |1 / (#V : ℝ) - s t| := by
  induction k with
  | zero =>
    rw [pow_zero, one_mul]
    exact le_rfl
  | succ k ih =>
    calc ∑ t ∈ V, |ranks d V out (k + 1) t - s t|
        = ∑ t ∈ V, |step d V out (ranks d V out k) t - step d V out s t| := by
          refine sum_congr rfl fun t ht => ?_
          rw [hs t ht, ranks]
      _ ≤ d * ∑ t ∈ V, |ranks d V out k t - s t| := sum_abs_step_sub_le hd hV hout _ _
      _ ≤ d * (d ^ k * ∑ t ∈ V, |1 / (#V : ℝ) - s t|) := mul_le_mul_of_nonneg_left ih hd
      _ = d ^ (k + 1) * ∑ t ∈ V, |1 / (#V : ℝ) - s t| := by ring

/-- An even split is two at most away from what is left alone. -/
theorem Stationary.sum_abs_even_sub_le {s : α → ℝ} (hs : Stationary d V out s)
    (hs0 : ∀ t ∈ V, 0 ≤ s t) (hd1 : d < 1) (hV : V.Nonempty)
    (hout : ∀ v ∈ V, out v ⊆ V) : ∑ t ∈ V, |1 / (#V : ℝ) - s t| ≤ 2 :=
  sum_abs_sub_le_two (fun _ _ => div_nonneg zero_le_one (Nat.cast_nonneg _)) hs0
    (sum_ranks d hV hout 0) (hs.sum hd1 hV hout)

end RankIteration
