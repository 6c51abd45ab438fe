/-
The head of a list by a key, and how often elements occur.

* `Leads` — a list shows the `n` elements of the largest keys, elements of one key in the order
  they had;
* `leading_leads` — a sorted list that is cut does;
* `mostCommon_counts` — the elements that occur most often, with their numbers.
-/
import Mathlib.Data.List.Count
import MjlSearch.StableSort

namespace Leading

variable {α κ : Type*} [LinearOrder κ]

/-- By descending key, elements of one key in the order they had. -/
def byKey (key : α → κ) (l : List α) : List α := l.insertionSort fun a b => key b ≤ key a

/-- The first `n` by descending key. -/
def leading (key : α → κ) (n : ℕ) (l : List α) : List α := (byKey key l).take n

/-- `shown` are the `n` of the list with the largest keys, in order: what is left of the list
has no larger one, and those of each key come as they did. -/
structure Leads (key : α → κ) (n : ℕ) (l shown : List α) : Prop where
  length : shown.length = min n l.length
  sorted : shown.Pairwise fun a b => key b ≤ key a
  rest : ∃ left, (∀ k, (shown ++ left).filter (fun a => key a = k) = l.filter fun a => key a = k) ∧
    ∀ a ∈ shown, ∀ b ∈ left, key b ≤ key a

variable {key : α → κ} {l shown : List α} {n : ℕ}

/-- **The head of a sorted list leads it.** -/
theorem leading_leads (key : α → κ) (n : ℕ) (l : List α) : Leads key n l (leading key n l) := by
  have htotal : Std.Total fun a b : α => key b ≤ key a := ⟨fun a b => le_total (key b) (key a)⟩
  have htrans : IsTrans α fun a b : α => key b ≤ key a := ⟨fun _ _ _ hab hbc => le_trans hbc hab⟩
  have hsorted : (byKey key l).Pairwise fun a b => key b ≤ key a := List.pairwise_insertionSort _ l
  rw [← List.take_append_drop n (byKey key l), List.pairwise_append] at hsorted
  obtain ⟨hshown, -, hover⟩ := hsorted
  refine ⟨?_, hshown, (byKey key l).drop n, fun k => ?_, hover⟩
  · rw [leading, List.length_take, byKey, List.length_insertionSort]
  · rw [leading, List.take_append_drop, byKey, StableSort.filter_insertionSort]
    -- elements of one key are sorted as they are
    refine List.Pairwise.insertionSort_eq (List.pairwise_iff_forall_sublist.mpr ?_)
    intro a b hab
    have ha := List.mem_filter.mp (hab.subset List.mem_cons_self)
    have hb := List.mem_filter.mp (hab.subset (List.mem_cons_of_mem _ List.mem_cons_self))
    exact (of_decide_eq_true hb.2).le.trans (of_decide_eq_true ha.2).ge

/-- What is shown and what is left is the list. -/
theorem Leads.perm (h : Leads key n l shown) :
    ∃ left, (shown ++ left).Perm l ∧ ∀ a ∈ shown, ∀ b ∈ left, key b ≤ key a := by
  classical
  obtain ⟨left, hclass, hover⟩ := h.rest
  refine ⟨left, List.perm_iff_count.mpr fun a => ?_, hover⟩
  have hcount : ∀ l : List α, l.count a = (l.filter fun b => key b = key a).count a := fun l =>
    (List.count_filter (by simp)).symm
  rw [hcount, hclass, ← hcount]

theorem Leads.mem (h : Leads key n l shown) {a : α} (ha : a ∈ shown) : a ∈ l := by
  obtain ⟨left, hperm, -⟩ := h.perm
  exact hperm.mem_iff.mp (List.mem_append_left _ ha)

/-- What is not shown has no larger key than anything shown, of which there are `n`. -/
theorem Leads.not_shown (h : Leads key n l shown) {b : α} (hb : b ∈ l) (hnot : b ∉ shown) :
    shown.length = n ∧ ∀ a ∈ shown, key b ≤ key a := by
  obtain ⟨left, hperm, hover⟩ := h.perm
  have hleft : b ∈ left := (List.mem_append.mp (hperm.mem_iff.mpr hb)).resolve_left hnot
  refine ⟨?_, fun a ha => hover a ha b hleft⟩
  have hlength := hperm.length_eq
  rw [List.length_append] at hlength
  have hpos := List.length_pos_of_mem hleft
  have hshown := h.length
  omega

/-! ### How often elements occur -/

variable [DecidableEq α]

/-- Each element of a list with its number, in the order they come first. -/
def tally (l : List α) : List (α × ℕ) := (StableSort.firsts id [] l).map fun a => (a, l.count a)

/-- The `n` elements that occur most often, with their numbers. -/
def mostCommon (n : ℕ) (l : List α) : List (α × ℕ) := leading Prod.snd n (tally l)

theorem mem_tally {l : List α} {e : α × ℕ} : e ∈ tally l ↔ e.1 ∈ l ∧ e.2 = l.count e.1 := by
  rw [tally, List.mem_map]
  constructor
  · rintro ⟨a, ha, rfl⟩
    exact ⟨StableSort.mem_firsts_id.mp ha, rfl⟩
  · rintro ⟨hmem, hcount⟩
    exact ⟨e.1, StableSort.mem_firsts_id.mpr hmem, Prod.ext rfl hcount.symm⟩

/-- No element has two numbers. -/
theorem nodup_tally (l : List α) : ((tally l).map Prod.fst).Nodup := by
  rw [tally, List.map_map]
  show ((StableSort.firsts id [] l).map id).Nodup
  exact StableSort.nodup_firsts [] l

/-- `counted` are `n` elements that occur most often: each has its number, none comes twice, and
what is missing occurs no more often than any of them, of which there are `n` then. -/
structure Counts (n : ℕ) (l : List α) (counted : List (α × ℕ)) : Prop where
  exact_ : ∀ e ∈ counted, e.1 ∈ l ∧ e.2 = l.count e.1
  nodup : (counted.map Prod.fst).Nodup
  sorted : counted.Pairwise fun d e => e.2 ≤ d.2
  missing : ∀ a ∈ l, a ∉ counted.map Prod.fst →
    counted.length = n ∧ ∀ e ∈ counted, l.count a ≤ e.2

/-- **The most common are those that occur most often.** -/
theorem mostCommon_counts (n : ℕ) (l : List α) : Counts n l (mostCommon n l) := by
  have hleads := leading_leads Prod.snd n (tally l)
  refine ⟨fun e he => mem_tally.mp (hleads.mem he), ?_, hleads.sorted, fun a ha hnot => ?_⟩
  · obtain ⟨left, hperm, -⟩ := hleads.perm
    have hnodup := (hperm.map Prod.fst).nodup_iff.mpr (nodup_tally l)
    rw [List.map_append] at hnodup
    exact hnodup.of_append_left
  · refine hleads.not_shown (b := (a, l.count a)) (mem_tally.mpr ⟨ha, rfl⟩) fun hmem => ?_
    exact hnot (List.mem_map_of_mem hmem)

end Leading
