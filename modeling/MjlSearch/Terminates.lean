/-
Systems that come to rest.

An invariant that bounds the steps that are left, and a bound that each step lowers, bound the
length of the runs.  When besides there is always a step to take before the work is done, every
run can be carried on to the end, and none can be carried on beyond it.

* `Run.length_add_le` — a run is no longer than what it takes off the bound;
* `Run.completes` — a run that is not done can be carried on until it is.
-/
import MjlSearch.Runs

namespace Runs

variable {σ ε : Type*} {step : σ → ε → σ → Prop} {I : σ → ℕ → Prop}

/-- `I s n` says that `s` is sound, with `n` steps left at most; and each step lowers that. -/
def Decreases (step : σ → ε → σ → Prop) (I : σ → ℕ → Prop) : Prop :=
  ∀ s e t n, I s n → step s e t → ∃ m < n, I t m

/-- **A run is no longer than what it takes off the bound.** -/
theorem Run.length_add_le (hstep : Decreases step I) {s t : σ} {es : List ε} {n : ℕ} (hs : I s n)
    (h : Run step s es t) : ∃ m, I t m ∧ es.length + m ≤ n := by
  refine h.invariant_trace (I := fun es t => ∃ m, I t m ∧ es.length + m ≤ n) ⟨n, hs, by simp⟩ ?_
  rintro es a e b ⟨m, ha, hle⟩ hab
  obtain ⟨k, hlt, hb⟩ := hstep a e b m ha hab
  refine ⟨k, hb, ?_⟩
  rw [List.length_append, List.length_singleton]
  omega

/-- **A run that is not done can be carried on until it is.** -/
theorem Run.completes {D : σ → Prop} (hstep : Decreases step I)
    (hprogress : ∀ s n, I s n → ¬ D s → ∃ e t, step s e t) {s t : σ} {es : List ε} {n : ℕ}
    (hs : I s n) (h : Run step s es t) : ∃ es' u, Run step t es' u ∧ D u := by
  obtain ⟨m, ht, -⟩ := h.length_add_le hstep hs
  clear h
  -- on the bound of what is left
  induction m using Nat.strongRecOn generalizing t with
  | ind m ih =>
    by_cases hdone : D t
    · exact ⟨[], t, Run.refl, hdone⟩
    · obtain ⟨e, u, htu⟩ := hprogress t m ht hdone
      obtain ⟨k, hlt, hu⟩ := hstep t e u m ht htu
      obtain ⟨es', v, hrun, hv⟩ := ih k hlt hu
      exact ⟨e :: es', v, Run.cons htu hrun, hv⟩

end Runs
