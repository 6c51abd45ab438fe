/-
First fit: things are put into bins one after the other, each into the first bin
with room for it.

A bin has room for so many things, and for so many of one kind.  What was put where
is a list `placed` of things with the number of their bin, in the order they came.

* `Placed.bin_length_le`, `Placed.bin_countP_le` — no bin holds more;
* `Placed.greedy` — a thing is in no later bin than it has to be;
* `Placed.bin_ne_nil` — the bins are filled without a gap;
* `bins_perm` — everything is in exactly one bin;
* `Placed.of_distinct` — things of different kinds fill the bins in order.
-/
import Mathlib.Data.List.Induction
import Mathlib.Data.List.Perm.Basic

namespace FirstFit

variable {α κ : Type*} [DecidableEq κ]

/-- The contents of a bin, in the order they came. -/
def bin (placed : List (α × ℕ)) (k : ℕ) : List α :=
  (placed.filter fun p => p.2 = k).map Prod.fst

/-- The bin has room for the thing. -/
def Fits (limit cap : ℕ) (kind : α → κ) (placed : List (α × ℕ)) (k : ℕ) (a : α) : Prop :=
  (bin placed k).length < limit ∧ (bin placed k).countP (fun b => kind b = kind a) < cap

/-- Each thing is in the first bin that had room for it. -/
inductive Placed (limit cap : ℕ) (kind : α → κ) : List (α × ℕ) → Prop
  | nil : Placed limit cap kind []
  | snoc {placed : List (α × ℕ)} {a : α} {k : ℕ} (h : Placed limit cap kind placed)
      (hfits : Fits limit cap kind placed k a) (hfirst : ∀ j < k, ¬ Fits limit cap kind placed j a) :
      Placed limit cap kind (placed ++ [(a, k)])

/-- The things put into a later bin when this one was not full. -/
def passedOver (limit k : ℕ) (placed : List (α × ℕ)) : ℕ :=
  placed.zipIdx.countP fun p => k < p.1.2 ∧ (bin (placed.take p.2) k).length < limit

variable {limit cap : ℕ} {kind : α → κ}

@[simp] theorem bin_nil (k : ℕ) : bin ([] : List (α × ℕ)) k = [] := rfl

theorem bin_snoc (placed : List (α × ℕ)) (a : α) (k j : ℕ) :
    bin (placed ++ [(a, k)]) j = if k = j then bin placed j ++ [a] else bin placed j := by
  rw [bin, bin, List.filter_append]
  by_cases h : k = j
  · simp [h]
  · simp [h]

theorem bin_cons (p : α × ℕ) (placed : List (α × ℕ)) (k : ℕ) :
    bin (p :: placed) k = if p.2 = k then p.1 :: bin placed k else bin placed k := by
  rw [bin, bin, List.filter_cons]
  by_cases h : p.2 = k
  · simp [h]
  · simp [h]

theorem bin_sublist (placed : List (α × ℕ)) (k : ℕ) : (bin placed k).Sublist (placed.map Prod.fst) :=
  List.Sublist.map _ List.filter_sublist

theorem bin_eq_nil {placed : List (α × ℕ)} {k : ℕ} (h : ∀ p ∈ placed, p.2 ≠ k) :
    bin placed k = [] := by
  rw [bin, List.map_eq_nil_iff, List.filter_eq_nil_iff]
  intro p hp
  simpa using h p hp

theorem mem_bin {placed : List (α × ℕ)} {a : α} {k : ℕ} :
    a ∈ bin placed k ↔ (a, k) ∈ placed := by
  rw [bin, List.mem_map]
  constructor
  · rintro ⟨p, hp, rfl⟩
    obtain ⟨hmem, hk⟩ := List.mem_filter.mp hp
    rwa [← of_decide_eq_true hk]
  · intro hmem
    exact ⟨(a, k), List.mem_filter.mpr ⟨hmem, by simp⟩, rfl⟩

theorem passedOver_snoc (placed : List (α × ℕ)) (a : α) (m k : ℕ) :
    passedOver limit k (placed ++ [(a, m)])
      = passedOver limit k placed
        + if k < m ∧ (bin placed k).length < limit then 1 else 0 := by
  rw [passedOver, passedOver, List.zipIdx_append, List.countP_append]
  congr 1
  · -- what came before a thing is the same
    refine List.countP_congr fun p hp => ?_
    have hlt : p.2 < placed.length := by
      have h := List.snd_lt_of_mem_zipIdx hp
      omega
    rw [List.take_append_of_le_length (Nat.le_of_lt hlt)]
  · simp [List.take_append, List.countP_cons]

theorem passedOver_eq_zero {placed : List (α × ℕ)} {k : ℕ} (h : ∀ p ∈ placed, p.2 ≤ k) :
    passedOver limit k placed = 0 := by
  rw [passedOver, List.countP_eq_zero]
  intro p hp
  have hle := h p.1 (List.fst_mem_of_mem_zipIdx hp)
  simp only [decide_eq_true_eq, not_and]
  omega

/-! ### What first fit keeps -/

theorem Placed.bin_length_le {placed : List (α × ℕ)} (h : Placed limit cap kind placed) (k : ℕ) :
    (bin placed k).length ≤ limit := by
  induction h with
  | nil => exact Nat.zero_le _
  | snoc _ hfits _ ih =>
    rw [bin_snoc]
    split
    · rename_i hk
      rw [List.length_append, List.length_singleton, ← hk]
      exact hfits.1
    · exact ih

theorem Placed.bin_countP_le {placed : List (α × ℕ)} (h : Placed limit cap kind placed) (k : ℕ)
    (c : κ) : (bin placed k).countP (fun b => kind b = c) ≤ cap := by
  induction h with
  | nil => exact Nat.zero_le _
  | @snoc placed a m _ hfits _ ih =>
    rw [bin_snoc]
    split
    · rename_i hk
      subst hk
      rw [List.countP_append, List.countP_singleton]
      by_cases hc : kind a = c
      · have hroom := hfits.2
        rw [hc] at hroom
        simp only [hc, decide_true, if_true]
        omega
      · simp only [hc, decide_false]
        exact ih
    · exact ih

/-- The things that came first were placed as if the others had never come. -/
theorem Placed.of_append {before after : List (α × ℕ)}
    (h : Placed limit cap kind (before ++ after)) : Placed limit cap kind before := by
  induction after using List.reverseRecOn with
  | nil => rwa [List.append_nil] at h
  | append_singleton after p ih =>
    rw [← List.append_assoc] at h
    generalize hl : before ++ after ++ [p] = l at h
    cases h with
    | nil => simp at hl
    | snoc h' _ _ =>
      obtain ⟨rfl, _⟩ := List.append_inj' hl rfl
      exact ih h'

theorem Placed.last {before : List (α × ℕ)} {a : α} {k : ℕ}
    (h : Placed limit cap kind (before ++ [(a, k)])) :
    Fits limit cap kind before k a ∧ ∀ j < k, ¬ Fits limit cap kind before j a := by
  generalize hl : before ++ [(a, k)] = l at h
  cases h with
  | nil => simp at hl
  | snoc _ hfits hfirst =>
    obtain ⟨rfl, hp⟩ := List.append_inj' hl rfl
    cases hp
    exact ⟨hfits, hfirst⟩

/-- **A thing is in no later bin than it has to be.** -/
theorem Placed.greedy {before after : List (α × ℕ)} {a : α} {k j : ℕ}
    (h : Placed limit cap kind (before ++ (a, k) :: after)) (hj : j < k) :
    limit ≤ (bin before j).length ∨ cap ≤ (bin before j).countP (fun b => kind b = kind a) := by
  rw [List.append_cons] at h
  have hfull := h.of_append.last.2 j hj
  rw [Fits, not_and_or, Nat.not_lt, Nat.not_lt] at hfull
  exact hfull

/-- **The bins are filled without a gap.** -/
theorem Placed.bin_ne_nil (hlimit : 0 < limit) (hcap : 0 < cap) {placed : List (α × ℕ)}
    (h : Placed limit cap kind placed) {a : α} {k j : ℕ} (hmem : (a, k) ∈ placed) (hj : j ≤ k) :
    bin placed j ≠ [] := by
  obtain ⟨before, after, rfl⟩ := List.append_of_mem hmem
  intro hnil
  have hall : ∀ p ∈ before ++ (a, k) :: after, p.2 ≠ j := by
    rintro p hp rfl
    have hin : p.1 ∈ bin (before ++ (a, k) :: after) p.2 := mem_bin.mpr hp
    rw [hnil] at hin
    cases hin
  have hlt : j < k := Nat.lt_of_le_of_ne hj fun hc => hall (a, k) hmem hc.symm
  have hempty : bin before j = [] :=
    bin_eq_nil fun p hp => hall p (List.mem_append_left _ hp)
  -- an empty bin has room for anything
  have hgreedy := h.greedy hlt
  rw [hempty] at hgreedy
  simp only [List.length_nil, List.countP_nil] at hgreedy
  omega

/-- **Things no two of which are of one kind fill the bins one after the other.** -/
theorem Placed.of_distinct (hlimit : 0 < limit) (hcap : 0 < cap) {placed : List (α × ℕ)}
    (h : Placed limit cap kind placed) (hkinds : (placed.map fun p => kind p.1).Nodup) :
    (∀ i p, placed[i]? = some p → p.2 = i / limit) ∧
      ∀ k, (bin placed k).length = min limit (placed.length - k * limit) := by
  induction h with
  | nil => exact ⟨fun i p hp => (by simp at hp), fun k => by simp⟩
  | @snoc placed a k h hfits hfirst ih =>
    rw [List.map_append, List.nodup_append] at hkinds
    obtain ⟨hbefore, _, hapart⟩ := hkinds
    obtain ⟨hplace, hlength⟩ := ih hbefore
    -- a bin has room for a thing of a new kind unless it is full
    have hnew : ∀ j, (bin placed j).countP (fun b => kind b = kind a) = 0 := by
      intro j
      rw [List.countP_eq_zero]
      intro b hb
      have hmem : kind b ∈ placed.map fun p => kind p.1 := List.mem_map_of_mem (mem_bin.mp hb)
      simpa using hapart (kind b) hmem (kind a) (by simp)
    have hroom : ∀ j, Fits limit cap kind placed j a ↔ placed.length < j * limit + limit := by
      intro j
      rw [Fits, hnew, hlength]
      omega
    have hlow := (hroom k).mp hfits
    have hhigh : k * limit ≤ placed.length := by
      rcases k with _ | k
      · simp
      · have hfull : ¬ placed.length < k * limit + limit :=
          fun hc => hfirst k (Nat.lt_succ_self k) ((hroom k).mpr hc)
        rw [Nat.succ_mul]
        omega
    refine ⟨fun i p hp => ?_, fun j => ?_⟩
    · rcases Nat.lt_or_ge i placed.length with hi | hi
      · rw [List.getElem?_append_left hi] at hp
        exact hplace i p hp
      · rw [List.getElem?_append_right hi, List.getElem?_singleton] at hp
        split at hp
        · rename_i hzero
          cases hp
          have hlast : i = placed.length := by omega
          rw [hlast]
          refine (Nat.div_eq_of_lt_le hhigh ?_).symm
          rw [Nat.succ_mul]
          exact hlow
        · cases hp
    · rw [bin_snoc, List.length_append, List.length_singleton]
      rcases Nat.lt_trichotomy j k with hj | hj | hj
      · have hmul : (j + 1) * limit ≤ k * limit := Nat.mul_le_mul_right _ hj
        rw [Nat.succ_mul] at hmul
        rw [if_neg (by omega), hlength]
        omega
      · subst hj
        rw [if_pos rfl, List.length_append, List.length_singleton, hlength]
        omega
      · have hmul : (k + 1) * limit ≤ j * limit := Nat.mul_le_mul_right _ hj
        rw [Nat.succ_mul] at hmul
        rw [if_neg (by omega), hlength]
        omega

/-- Putting one more thing first into one of the bins. -/
theorem flatMap_range_cons_perm {f : ℕ → List α} {a : α} {k n : ℕ} (hk : k < n) :
    ((List.range n).flatMap fun j => if k = j then a :: f j else f j).Perm
      (a :: (List.range n).flatMap f) := by
  induction n with
  | zero => omega
  | succ n ih =>
    rw [List.range_succ, List.flatMap_append, List.flatMap_append, List.flatMap_singleton,
      List.flatMap_singleton]
    by_cases hkn : k = n
    · subst hkn
      rw [if_pos rfl]
      have hbefore : ((List.range k).flatMap fun j => if k = j then a :: f j else f j)
          = (List.range k).flatMap f := by
        refine List.flatMap_congr fun j hj => ?_
        rw [if_neg]
        have hlt := List.mem_range.mp hj
        omega
      rw [hbefore]
      exact List.perm_middle
    · rw [if_neg hkn, ← List.cons_append]
      exact (ih (by omega)).append_right _

/-- **Everything is in exactly one bin.** -/
theorem bins_perm {placed : List (α × ℕ)} {n : ℕ} (h : ∀ p ∈ placed, p.2 < n) :
    ((List.range n).flatMap (bin placed)).Perm (placed.map Prod.fst) := by
  induction placed with
  | nil => simp
  | cons p placed ih =>
    have hrest := ih fun q hq => h q (List.mem_cons_of_mem _ hq)
    have hbin : bin (p :: placed) = fun k => if p.2 = k then p.1 :: bin placed k else bin placed k :=
      funext fun k => bin_cons p placed k
    rw [hbin, List.map_cons]
    exact (flatMap_range_cons_perm (h p List.mem_cons_self)).trans (hrest.cons p.1)

end FirstFit
