/-
A list folded into bins in one pass, each element into the bin it belongs to, or into none.

* `getElem?_sweep` — each bin is the fold of the elements that belong to it;
* `sum_getD_sweep_le` — bins that count have no more in all than there are elements.
-/
import Mathlib.Algebra.GroupWithZero.Nat
import Mathlib.Data.List.Basic

namespace Binned

variable {α σ : Type*}

/-- One pass: `f` is done with each element to the bin that it belongs to. -/
def sweep (bin : α → Option ℕ) (f : σ → α → σ) (bins : List σ) (l : List α) : List σ :=
  l.foldl (fun bins a => match bin a with
    | some i => bins.modify i (f · a)
    | none => bins) bins

variable {bin : α → Option ℕ} {f : σ → α → σ} {bins : List σ} {l : List α}

@[simp] theorem sweep_nil : sweep bin f bins [] = bins := rfl

/-- An element that belongs to a bin. -/
theorem sweep_cons_some {a : α} {i : ℕ} (h : bin a = some i) :
    sweep bin f bins (a :: l) = sweep bin f (bins.modify i (f · a)) l := by
  simp [sweep, h]

/-- An element that belongs to none. -/
theorem sweep_cons_none {a : α} (h : bin a = none) :
    sweep bin f bins (a :: l) = sweep bin f bins l := by
  simp [sweep, h]

/-- **Each bin is the fold of the elements that belong to it.** -/
theorem getElem?_sweep (j : ℕ) :
    (sweep bin f bins l)[j]? =
      bins[j]?.map fun s => (l.filter fun a => bin a = some j).foldl f s := by
  induction l generalizing bins with
  | nil => simp
  | cons a l ih =>
    rcases hbin : bin a with _ | i
    · rw [sweep_cons_none hbin, ih, List.filter_cons_of_neg (by simp [hbin])]
    · rw [sweep_cons_some hbin, ih, List.getElem?_modify]
      by_cases hij : i = j
      · -- the element is the first that is folded into this bin
        subst hij
        rw [List.filter_cons_of_pos (by simp [hbin])]
        simp [Function.comp_def]
      · have hother : ¬ bin a = some j := by
          rw [hbin, Option.some_inj]
          exact hij
        rw [List.filter_cons_of_neg (by simpa using hother)]
        simp [hij]

/-- One more in a bin. -/
theorem sum_modify_succ_le (counts : List ℕ) (i : ℕ) :
    (counts.modify i (· + 1)).sum ≤ counts.sum + 1 := by
  induction counts generalizing i with
  | nil => simp
  | cons n counts ih =>
    cases i with
    | zero =>
      simp only [List.modify_zero_cons, List.sum_cons]
      omega
    | succ i =>
      have h := ih i
      simp only [List.modify_succ_cons, List.sum_cons]
      omega

/-- **No element is counted twice.** -/
theorem sum_sweep_le (counts : List ℕ) (l : List α) :
    (sweep bin (fun n _ => n + 1) counts l).sum ≤ counts.sum + l.length := by
  induction l generalizing counts with
  | nil => exact Nat.le_refl _
  | cons a l ih =>
    rw [List.length_cons]
    rcases hbin : bin a with _ | i
    · rw [sweep_cons_none hbin]
      exact Nat.le_trans (ih counts) (by omega)
    · rw [sweep_cons_some hbin]
      have h := ih (counts.modify i fun n => n + 1)
      have hone := sum_modify_succ_le counts i
      omega

theorem length_sweep (bins : List σ) (l : List α) : (sweep bin f bins l).length = bins.length := by
  induction l generalizing bins with
  | nil => rfl
  | cons a l ih =>
    rcases hbin : bin a with _ | i
    · rw [sweep_cons_none hbin, ih]
    · rw [sweep_cons_some hbin, ih, List.length_modify]

/-- **Bins that count have no more in all than there are elements.** -/
theorem sum_getD_sweep_le (n : ℕ) (l : List α) :
    ((List.range n).map fun i => (sweep bin (fun k _ => k + 1) (.replicate n 0) l).getD i 0).sum
      ≤ l.length := by
  have hlength : (sweep bin (fun k _ => k + 1) (.replicate n 0) l).length = n := by
    rw [length_sweep, List.length_replicate]
  have hall : ((List.range n).map fun i =>
      (sweep bin (fun k _ => k + 1) (.replicate n 0) l).getD i 0)
      = sweep bin (fun k _ => k + 1) (.replicate n 0) l := by
    refine List.ext_getElem (by simp [hlength]) fun i hi hi' => ?_
    simp [hi']
  have hsum : (sweep bin (fun k _ => k + 1) (.replicate n 0) l).sum
      ≤ (List.replicate n 0).sum + l.length := sum_sweep_le _ l
  rw [List.sum_replicate_nat, Nat.mul_zero, Nat.zero_add] at hsum
  rw [hall]
  exact hsum

end Binned
