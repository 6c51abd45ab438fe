/-
Ranks that flow along the edges of a finite graph.

A node hands a share `d` of its rank to the nodes it points to, in equal parts; what the
nodes without successors hold is spread over all nodes, and so is the rest, `1 - d`.

* `sum_step` — an iteration keeps what it does not replace: the ranks sum to
  `(1 - d) + d * S` when they summed to `S`;
* `sum_ranks` — so they sum to one, after every number of iterations;
* `le_ranks` — no rank falls below the node's part of `1 - d`.
-/
import Mathlib.Algebra.BigOperators.Field
import Mathlib.Algebra.Order.BigOperators.Group.Finset
import Mathlib.Algebra.Order.Field.Basic
import Mathlib.Tactic.Positivity
import Mathlib.Tactic.Ring

open Finset

namespace RankIteration

variable {α K : Type*} [DecidableEq α] [Field K]
variable (d : K) (V : Finset α) (out : α → Finset α)

/-- The rank of a node after one iteration. -/
def step (r : α → K) (t : α) : K :=
  (1 - d) / #V + ∑ v ∈ V with t ∈ out v, d * r v / #(out v) +
    d * (∑ v ∈ V with out v = ∅, r v) / #V

/-- The rank of a node after some iterations, from an even split. -/
def ranks : ℕ → α → K
  | 0 => fun _ => 1 / #V
  | k + 1 => step d V out (ranks k)

variable {V out}

section Sums

variable [CharZero K]

omit [DecidableEq α] in
/-- What is spread evenly over the nodes is all there. -/
theorem sum_spread (hV : V.Nonempty) (c : K) : ∑ _t ∈ V, c / #V = c := by
  have hcard : (#V : K) ≠ 0 := Nat.cast_ne_zero.mpr (card_ne_zero.mpr hV)
  rw [sum_const, nsmul_eq_mul, mul_div_cancel₀ c hcard]

/-- The parts that a node hands out are what it hands out, if it has successors. -/
theorem sum_parts (v : α) (c : K) : ∑ _t ∈ out v, c / #(out v) = if out v = ∅ then 0 else c := by
  by_cases hv : out v = ∅
  · rw [if_pos hv, hv, sum_empty]
  · rw [if_neg hv]
    exact sum_spread (nonempty_iff_ne_empty.mpr hv) c

/-- What arrives along edges is what the nodes with successors hand out. -/
theorem sum_shares (hout : ∀ v ∈ V, out v ⊆ V) (r : α → K) :
    ∑ t ∈ V, ∑ v ∈ V with t ∈ out v, d * r v / #(out v) =
      d * ∑ v ∈ V with out v ≠ ∅, r v := by
  calc ∑ t ∈ V, ∑ v ∈ V with t ∈ out v, d * r v / #(out v)
      = ∑ v ∈ V, ∑ t ∈ out v, d * r v / #(out v) := by
        refine sum_comm' fun t v => ?_
        rw [mem_filter]
        exact ⟨fun h => ⟨h.2.2, h.2.1⟩, fun h => ⟨hout v h.2 h.1, h.2, h.1⟩⟩
    _ = ∑ v ∈ V, if out v = ∅ then 0 else d * r v := sum_congr rfl fun v _ => sum_parts v _
    _ = d * ∑ v ∈ V with out v ≠ ∅, r v := by
        rw [mul_sum, sum_filter]
        exact sum_congr rfl fun v _ => (ite_not _ _ _).symm

/-- **One iteration keeps the sum**, as far as it does not replace it. -/
theorem sum_step (hV : V.Nonempty) (hout : ∀ v ∈ V, out v ⊆ V) (r : α → K) :
    ∑ t ∈ V, step d V out r t = (1 - d) + d * ∑ v ∈ V, r v := by
  have hall := sum_filter_add_sum_filter_not V (fun v => out v = ∅) r
  calc ∑ t ∈ V, step d V out r t
      = (1 - d) + d * ∑ v ∈ V with out v ≠ ∅, r v + d * ∑ v ∈ V with out v = ∅, r v := by
        simp only [step, sum_add_distrib]
        rw [sum_spread hV, sum_shares d hout, sum_spread hV]
    _ = (1 - d) + d * ∑ v ∈ V, r v := by
        rw [← hall]
        ring

/-- **The ranks sum to one**, after every number of iterations. -/
theorem sum_ranks (hV : V.Nonempty) (hout : ∀ v ∈ V, out v ⊆ V) (k : ℕ) :
    ∑ t ∈ V, ranks d V out k t = 1 := by
  induction k with
  | zero => exact sum_spread hV 1
  | succ k ih =>
    show ∑ t ∈ V, step d V out (ranks d V out k) t = 1
    rw [sum_step d hV hout, ih]
    ring

end Sums

section Bounds

variable [LinearOrder K] [IsStrictOrderedRing K] {d}

theorem le_step (hd : 0 ≤ d) {r : α → K} (hr : ∀ v, 0 ≤ r v) (t : α) :
    (1 - d) / #V ≤ step d V out r t := by
  have hshares : 0 ≤ ∑ v ∈ V with t ∈ out v, d * r v / #(out v) :=
    sum_nonneg fun v _ => div_nonneg (mul_nonneg hd (hr v)) (Nat.cast_nonneg _)
  have hspread : 0 ≤ d * (∑ v ∈ V with out v = ∅, r v) / #V :=
    div_nonneg (mul_nonneg hd (sum_nonneg fun v _ => hr v)) (Nat.cast_nonneg _)
  rw [step, add_assoc]
  exact le_add_of_nonneg_right (add_nonneg hshares hspread)

/-- **Every node keeps its part of what is spread over all**, after every number of
iterations. -/
theorem le_ranks (hd : 0 ≤ d) (hd1 : d ≤ 1) (k : ℕ) (t : α) :
    (1 - d) / #V ≤ ranks d V out k t := by
  have hnonneg : 0 ≤ (1 - d) / #V := div_nonneg (sub_nonneg.mpr hd1) (Nat.cast_nonneg _)
  induction k generalizing t with
  | zero => exact div_le_div_of_nonneg_right (sub_le_self 1 hd) (Nat.cast_nonneg _)
  | succ k ih => exact le_step hd (fun v => hnonneg.trans (ih v)) t

end Bounds

end RankIteration
