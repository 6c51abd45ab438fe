/-
Runs of a labelled transition system, and the one induction every safety
argument uses.

A system is a relation `step s e t`: from `s`, by doing `e`, to `t`.  A run
lists what was done, oldest first.

* `Run.invariant` — what holds at the start and is kept by every step holds
  at the end of every run;
* `Run.invariant_trace` — the same with the labels done so far in view, for
  laws that speak about a whole history;
* `perform_run` — executing choices is a run.
-/
import Mathlib.Data.List.Basic

namespace Runs

variable {σ ε : Type*} {step : σ → ε → σ → Prop}

/-- `Run step s es t`: doing `es` in order leads from `s` to `t`. -/
inductive Run (step : σ → ε → σ → Prop) (s : σ) : List ε → σ → Prop
  | refl : Run step s [] s
  | snoc {es : List ε} {e : ε} {t u : σ} :
      Run step s es t → step t e u → Run step s (es ++ [e]) u

theorem Run.single {s t : σ} {e : ε} (h : step s e t) : Run step s [e] t :=
  Run.snoc Run.refl h

theorem Run.append {s t u : σ} {es fs : List ε} (h : Run step s es t)
    (h' : Run step t fs u) : Run step s (es ++ fs) u := by
  induction h' with
  | refl => rwa [List.append_nil]
  | snoc _ hstep ih =>
    rw [← List.append_assoc]
    exact Run.snoc ih hstep

theorem Run.cons {s t u : σ} {e : ε} {es : List ε} (h : step s e t)
    (h' : Run step t es u) : Run step s (e :: es) u :=
  (Run.single h).append h'

/-- **The invariant rule with the history in view.** -/
theorem Run.invariant_trace {I : List ε → σ → Prop} {s t : σ} {es : List ε}
    (h0 : I [] s) (hstep : ∀ es t e u, I es t → step t e u → I (es ++ [e]) u)
    (h : Run step s es t) : I es t := by
  induction h with
  | refl => exact h0
  | snoc _ hs ih => exact hstep _ _ _ _ ih hs

/-- **The invariant rule.** -/
theorem Run.invariant {I : σ → Prop} {s t : σ} {es : List ε}
    (h0 : I s) (hstep : ∀ t e u, I t → step t e u → I u)
    (h : Run step s es t) : I t :=
  Run.invariant_trace (I := fun _ => I) h0 (fun _ => hstep) h

/-- A run whose labels all satisfy `Q` is a run of the steps that do. -/
theorem Run.restrict {Q : ε → Prop} {s t : σ} {es : List ε} (h : Run step s es t)
    (hQ : ∀ e ∈ es, Q e) : Run (fun s e u => step s e u ∧ Q e) s es t := by
  induction h with
  | refl => exact Run.refl
  | snoc _ hs ih =>
    refine Run.snoc (ih fun e he => hQ e (List.mem_append_left _ he)) ⟨hs, hQ _ ?_⟩
    exact List.mem_append_right _ (List.mem_singleton_self _)

/-- A run of restricted steps is a run. -/
theorem Run.unrestrict {Q : σ → ε → σ → Prop} {s t : σ} {es : List ε}
    (h : Run (fun s e u => step s e u ∧ Q s e u) s es t) : Run step s es t := by
  induction h with
  | refl => exact Run.refl
  | snoc _ hs ih => exact Run.snoc ih hs.1

/-- A run of steps that are also steps of another relation. -/
theorem Run.imp {step' : σ → ε → σ → Prop} {s t : σ} {es : List ε}
    (hstep : ∀ a e b, step a e b → step' a e b) (h : Run step s es t) : Run step' s es t := by
  induction h with
  | refl => exact Run.refl
  | snoc _ hs ih => exact Run.snoc ih (hstep _ _ _ hs)

/-- What each step is to another system, through a map of the states and of the labels, a run
is too. -/
theorem Run.image {σ' ε' : Type*} {step' : σ' → ε' → σ' → Prop} {s t : σ} {es : List ε}
    (f : σ → σ') (g : ε → ε') (hstep : ∀ a e b, step a e b → step' (f a) (g e) (f b))
    (h : Run step s es t) : Run step' (f s) (es.map g) (f t) := by
  induction h with
  | refl => exact Run.refl
  | snoc _ hs ih =>
    rw [List.map_append, List.map_singleton]
    exact Run.snoc ih (hstep _ _ _ hs)

/-- A part of a system, which not every step concerns: its share of a run is a run of it. -/
theorem Run.filterMap {σ' ε' : Type*} {step' : σ' → ε' → σ' → Prop} {s t : σ} {es : List ε}
    (f : σ → σ') (g : ε → Option ε')
    (hsome : ∀ a e b e', step a e b → g e = some e' → step' (f a) e' (f b))
    (hnone : ∀ a e b, step a e b → g e = none → f b = f a)
    (h : Run step s es t) : Run step' (f s) (es.filterMap g) (f t) := by
  induction h with
  | refl => exact Run.refl
  | @snoc es e a b _ hs ih =>
    rw [List.filterMap_append]
    cases he : g e with
    | none =>
      rw [List.filterMap_cons_none he, List.filterMap_nil, List.append_nil, hnone a e b hs he]
      exact ih
    | some e' =>
      rw [List.filterMap_cons_some he, List.filterMap_nil]
      exact Run.snoc ih (hsome a e b e' hs he)

/-- A run, with each label replaced by another that does the same. -/
theorem Run.map {ε' : Type*} {step' : σ → ε' → σ → Prop} {s t : σ} {es : List ε} (f : ε → ε')
    (hstep : ∀ a e b, step a e b → step' a (f e) b) (h : Run step s es t) :
    Run step' s (es.map f) t := h.image id f hstep

/-- A run passes through a state before and after each of its labels. -/
theorem Run.split {s u : σ} {fs gs : List ε} {e : ε} (h : Run step s (fs ++ e :: gs) u) :
    ∃ a b, Run step s fs a ∧ step a e b ∧ Run step b gs u := by
  generalize hes : fs ++ e :: gs = es at h
  induction h generalizing gs with
  | refl => simp at hes
  | @snoc es' e' t' u' hrun hs ih =>
    rcases List.eq_nil_or_concat gs with rfl | ⟨gs, g, rfl⟩
    · obtain ⟨rfl, hlast⟩ := List.append_inj' hes rfl
      cases hlast
      exact ⟨t', u', hrun, hs, Run.refl⟩
    · rw [List.concat_eq_append, ← List.cons_append, ← List.append_assoc] at hes
      obtain ⟨rfl, hlast⟩ := List.append_inj' hes rfl
      cases hlast
      obtain ⟨a, b, ha, hab, hb⟩ := ih rfl
      exact ⟨a, b, ha, hab, by rw [List.concat_eq_append]; exact Run.snoc hb hs⟩

/-- A run in two parts. -/
theorem Run.of_append {s u : σ} {fs gs : List ε} (h : Run step s (fs ++ gs) u) :
    ∃ t, Run step s fs t ∧ Run step t gs u := by
  rcases gs with _ | ⟨e, gs⟩
  · rw [List.append_nil] at h
    exact ⟨u, h, Run.refl⟩
  · obtain ⟨a, b, ha, hab, hb⟩ := h.split
    exact ⟨a, ha, Run.cons hab hb⟩

/-- The first step of a run. -/
theorem Run.of_cons {s u : σ} {e : ε} {es : List ε} (h : Run step s (e :: es) u) :
    ∃ t, step s e t ∧ Run step t es u := by
  rw [← List.nil_append (e :: es)] at h
  obtain ⟨a, b, ha, hab, hb⟩ := h.split
  generalize hnil : ([] : List ε) = none at ha
  cases ha with
  | refl => exact ⟨b, hab, hb⟩
  | snoc _ _ => simp at hnil

/-- The last step of a run. -/
theorem Run.last {s u : σ} {es : List ε} {e : ε} (h : Run step s (es ++ [e]) u) :
    ∃ t, Run step s es t ∧ step t e u := by
  obtain ⟨a, b, ha, hab, hb⟩ := h.split
  generalize hnil : ([] : List ε) = none at hb
  cases hb with
  | refl => exact ⟨a, ha, hab⟩
  | snoc _ _ => simp at hnil

/-- Where a step has one result, so has a run. -/
theorem Run.unique (hstep : ∀ a e b b', step a e b → step a e b' → b = b') {s t u : σ}
    {es : List ε} (h : Run step s es t) (h' : Run step s es u) : t = u := by
  induction h generalizing u with
  | refl =>
    generalize hnil : ([] : List ε) = none at h'
    cases h' with
    | refl => rfl
    | snoc _ _ => simp at hnil
  | @snoc es e a b _ hs ih =>
    obtain ⟨a', hrun', hs'⟩ := h'.last
    obtain rfl := ih hrun'
    exact hstep _ _ _ _ hs hs'

/-- Every label done on a run was done from a state the run passes through. -/
theorem Run.exists_step_of_mem {s t : σ} {es : List ε} {e : ε}
    (h : Run step s es t) (he : e ∈ es) :
    ∃ fs gs a b, es = fs ++ e :: gs ∧ Run step s fs a ∧ step a e b ∧ Run step b gs t := by
  obtain ⟨fs, gs, rfl⟩ := List.append_of_mem he
  obtain ⟨a, b, ha, hab, hb⟩ := h.split
  exact ⟨fs, gs, a, b, rfl, ha, hab, hb⟩

/-! ### Executing choices -/

/-- Executes choices; one that is not possible is passed over. -/
def perform {κ : Type*} (next : σ → κ → Option (ε × σ)) (s : σ) : List κ → List ε × σ
  | [] => ([], s)
  | choice :: choices =>
    match next s choice with
    | none => perform next s choices
    | some (e, t) => ((e :: (perform next t choices).1), (perform next t choices).2)

/-- Executing choices is a run. -/
theorem perform_run {κ : Type*} (next : σ → κ → Option (ε × σ)) (s : σ) (choices : List κ) :
    Run (fun s e t => ∃ choice, next s choice = some (e, t)) s (perform next s choices).1
      (perform next s choices).2 := by
  induction choices generalizing s with
  | nil => exact Run.refl
  | cons choice choices ih =>
    rw [perform]
    split
    · exact ih s
    · rename_i e t hstep
      exact Run.cons ⟨choice, hstep⟩ (ih t)

end Runs
