/-
Ranks in a list: the least member that enough of the members are not above.

* `getElem_iff_lt_countP` — what holds downwards holds of a first part of a sorted list, as
  long as the count of the members it holds of;
* `isRank_iff` — the member of rank `k + 1` is the one at `k` when the list is sorted;
* `tied_iff` — when two neighbours of a sorted list are the same, by counting.
-/
import Mathlib.Data.List.Basic
import Mathlib.Data.List.Sort
import Mathlib.Order.Basic

namespace Ranks

variable {α : Type*} [LinearOrder α] {l l' : List α} {k : ℕ} {x : α}

/-- The least member that at least `k` members are not above. -/
structure IsRank (k : ℕ) (l : List α) (x : α) : Prop where
  mem : x ∈ l
  enough : k ≤ l.countP (· ≤ x)
  least : ∀ y ∈ l, k ≤ l.countP (· ≤ y) → x ≤ y

/-- The members of rank `k` and of the rank before it are the same. -/
def Tied (k : ℕ) (l : List α) : Prop :=
  ∃ x ∈ l, l.countP (· < x) + 2 ≤ k ∧ k ≤ l.countP (· ≤ x)

/-- **What holds downwards holds of a first part of a sorted list.** -/
theorem getElem_iff_lt_countP (hl : l.Pairwise (· ≤ ·)) {p : α → Bool}
    (hp : ∀ a b, a ≤ b → p b = true → p a = true) (hk : k < l.length) :
    p l[k] = true ↔ k < l.countP p := by
  induction l generalizing k with
  | nil => cases hk
  | cons a l ih =>
    obtain ⟨hfirst, hrest⟩ := List.pairwise_cons.mp hl
    rw [List.countP_cons]
    by_cases ha : p a = true
    · rw [if_pos ha]
      rcases k with _ | k
      · simp [ha]
      · have hrec := ih hrest (Nat.lt_of_succ_lt_succ hk)
        rw [List.getElem_cons_succ, hrec]
        omega
    · -- nothing behind a member that it does not hold of
      have hnone : ∀ b ∈ a :: l, ¬ p b = true := by
        intro b hb
        rcases List.mem_cons.mp hb with rfl | hb
        · exact ha
        · exact fun hpb => ha (hp a b (hfirst b hb) hpb)
      have hzero : l.countP p = 0 :=
        List.countP_eq_zero.mpr fun b hb => hnone b (List.mem_cons_of_mem _ hb)
      rw [if_neg ha, hzero]
      exact iff_of_false (hnone _ (List.getElem_mem hk)) (by omega)

theorem getElem_le_iff (hl : l.Pairwise (· ≤ ·)) (hk : k < l.length) :
    l[k] ≤ x ↔ k < l.countP (· ≤ x) := by
  have h := getElem_iff_lt_countP hl (p := fun a => decide (a ≤ x))
    (fun a b hab hb => decide_eq_true (hab.trans (of_decide_eq_true hb))) hk
  rwa [decide_eq_true_iff] at h

theorem getElem_lt_iff (hl : l.Pairwise (· ≤ ·)) (hk : k < l.length) :
    l[k] < x ↔ k < l.countP (· < x) := by
  have h := getElem_iff_lt_countP hl (p := fun a => decide (a < x))
    (fun a b hab hb => decide_eq_true (hab.trans_lt (of_decide_eq_true hb))) hk
  rwa [decide_eq_true_iff] at h

/-- **The member of rank `k + 1` is the one at `k`.** -/
theorem isRank_iff (hl : l.Pairwise (· ≤ ·)) (hk : k < l.length) :
    IsRank (k + 1) l x ↔ x = l[k] := by
  have hself : k < l.countP (· ≤ l[k]) := (getElem_le_iff hl hk).mp le_rfl
  constructor
  · intro h
    have hle : l[k] ≤ x := (getElem_le_iff hl hk).mpr h.enough
    exact le_antisymm (h.least _ (List.getElem_mem hk) hself) hle
  · rintro rfl
    exact ⟨List.getElem_mem hk, hself, fun y _ hy => (getElem_le_iff hl hk).mpr hy⟩

/-- Ranks are the same in any order of the list. -/
theorem IsRank.perm (h : IsRank k l x) (hperm : l.Perm l') : IsRank k l' x := by
  refine ⟨hperm.mem_iff.mp h.mem, (hperm.countP_eq _).symm ▸ h.enough, fun y hy hcount => ?_⟩
  exact h.least y (hperm.mem_iff.mpr hy) ((hperm.countP_eq _).symm ▸ hcount)

theorem Tied.perm (h : Tied k l) (hperm : l.Perm l') : Tied k l' := by
  obtain ⟨x, hx, hbelow, hupto⟩ := h
  refine ⟨x, hperm.mem_iff.mp hx, ?_, ?_⟩
  · rwa [← hperm.countP_eq]
  · rwa [← hperm.countP_eq]

/-- **Two neighbours of a sorted list are the same**, if few members are below and many are not
above. -/
theorem tied_iff (hl : l.Pairwise (· ≤ ·)) (hk : k + 1 < l.length) :
    Tied (k + 2) l ↔ l[k] = l[k + 1] := by
  have hk' : k < l.length := Nat.lt_of_succ_lt hk
  constructor
  · rintro ⟨x, -, hbelow, hupto⟩
    have hnot : ¬ l[k] < x := fun hlt => by
      have := (getElem_lt_iff hl hk').mp hlt
      omega
    have hle : l[k + 1] ≤ x := (getElem_le_iff hl hk).mpr (by omega)
    have horder : l[k] ≤ l[k + 1] := List.pairwise_iff_getElem.mp hl k (k + 1) hk' hk (by omega)
    exact le_antisymm horder (hle.trans (not_lt.mp hnot))
  · intro heq
    have hbelow : ¬ k < l.countP (· < l[k]) := fun hlt =>
      absurd ((getElem_lt_iff hl hk').mpr hlt) (lt_irrefl _)
    have hupto : k + 1 < l.countP (· ≤ l[k]) := (getElem_le_iff hl hk).mp heq.ge
    exact ⟨l[k], List.getElem_mem hk', by omega, by omega⟩

end Ranks
