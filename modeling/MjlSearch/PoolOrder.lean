/-
What the ordered pool is a list of (`api.services.ranking`).

Whatever the two rescoring passes make of a hit, the pool is got by a stable sort and then
by dropping every hit that one with its key stands before.  So what is kept of a key is what
the sort puts first, and that is the earliest of its best.

* `collapse_eq_firsts` — dropping duplicates keeps the first of each key;
* `sortByScore_ties` — the sort keeps the engine's order among ties;
* `kept_best` — what is kept is the earliest of the best with its key;
* `orderedPool_ordered` — the pool.
-/
import MjlSearch.RankedPool
import MjlSearch.StableSort

open Text StableSort

namespace Ranking

variable {σ : Type} {lower : Str → Str}

theorem collapse_eq_firsts (seen : List (Str × Str × Str)) (hits : List (SearchHit σ)) :
    collapse lower seen hits = firsts (duplicateKey lower) seen hits := by
  induction hits generalizing seen with
  | nil => rfl
  | cons hit hits ih =>
    rw [collapse, firsts, ih, ih]
    congr 1

variable [LinearOrder σ]

theorem sortByScore_ties (hits : List (SearchHit σ)) (x : σ) :
    ((sortByScore hits).filter fun hit => decide (hit.score = x)) =
      hits.filter fun hit => decide (hit.score = x) := by
  rw [sortByScore, filter_insertionSort]
  refine List.Pairwise.insertionSort_eq ?_
  refine List.pairwise_of_forall_mem_list fun a ha b hb => ?_
  have ha := List.of_mem_filter ha
  have hb := List.of_mem_filter hb
  rw [decide_eq_true_eq] at ha hb
  exact le_of_eq (hb.trans ha.symm)

/-- **What is kept of a key is the earliest of its best.** -/
theorem kept_best {hits : List (SearchHit σ)} {hit : SearchHit σ}
    (h : hit ∈ collapseDuplicates lower (sortByScore hits)) :
    ∃ before after, hits = before ++ hit :: after ∧
      (∀ other ∈ before, duplicateKey lower other = duplicateKey lower hit →
        other.score < hit.score) ∧
      ∀ other ∈ after, duplicateKey lower other = duplicateKey lower hit →
        other.score ≤ hit.score := by
  rw [collapseDuplicates, collapse_eq_firsts, mem_firsts_iff] at h
  obtain ⟨front, back, hsorted, -, hfront⟩ := h
  -- among the hits with its key, it is the first of the sorted
  have hclass : ((hits.filter fun other => decide (duplicateKey lower other =
      duplicateKey lower hit)).insertionSort AtLeast) =
        hit :: back.filter fun other => decide (duplicateKey lower other =
          duplicateKey lower hit) := by
    rw [← filter_insertionSort]
    change (sortByScore hits).filter _ = _
    rw [hsorted, List.filter_append, List.filter_cons_of_pos (by simp),
      List.filter_eq_nil_iff.mpr fun other hother => by simpa using hfront other hother,
      List.nil_append]
  obtain ⟨before, after, hkey, hbefore, hafter⟩ := insertionSort_eq_cons hclass
  -- and the hits with other keys are put back between them
  obtain ⟨before', rest, rfl, hbefore', hrest⟩ := List.filter_eq_append_iff.mp hkey
  obtain ⟨skipped, after', rfl, hskipped, -, hafter'⟩ := List.filter_eq_cons_iff.mp hrest
  refine ⟨before' ++ skipped, after', by simp, fun other hother hsame => ?_,
    fun other hother hsame => ?_⟩
  · rcases List.mem_append.mp hother with hother | hother
    · refine not_le.mp (hbefore other ?_)
      rw [← hbefore']
      exact List.mem_filter.mpr ⟨hother, decide_eq_true hsame⟩
    · exact absurd (decide_eq_true hsame) (hskipped other hother)
  · refine hafter other ?_
    rw [← hafter']
    exact List.mem_filter.mpr ⟨hother, decide_eq_true hsame⟩

/-- A list of hits in the order of a page, without duplicates, of hits with their final
scores. -/
structure Ordered (lower : Str → Str) (hits pool : List (SearchHit σ)) : Prop where
  sorted : pool.Pairwise AtLeast
  ties : ∀ x, (pool.filter fun hit => decide (hit.score = x)).Sublist
    (hits.filter fun hit => decide (hit.score = x))
  distinct : (pool.map (duplicateKey lower)).Nodup
  complete : ∀ k, k ∈ pool.map (duplicateKey lower) ↔ k ∈ hits.map (duplicateKey lower)
  best : ∀ hit ∈ pool, ∃ before after, hits = before ++ hit :: after ∧
    (∀ other ∈ before, duplicateKey lower other = duplicateKey lower hit →
      other.score < hit.score) ∧
    ∀ other ∈ after, duplicateKey lower other = duplicateKey lower hit → other.score ≤ hit.score
  dropped : ∀ before hit after, sortByScore hits = before ++ hit :: after →
    (hit ∈ pool ∧ ∀ other ∈ before, duplicateKey lower other ≠ duplicateKey lower hit) ∨
      ∃ other ∈ before, other ∈ pool ∧ duplicateKey lower other = duplicateKey lower hit
  stable : collapseDuplicates lower pool = pool

/-- **The ordered pool.** -/
theorem orderedPool_ordered (lower : Str → Str) (scoring : Scoring σ) (hits : List (SearchHit σ)) :
    Ordered lower (rescore scoring hits) (orderedPool lower scoring hits) := by
  have hpool : orderedPool lower scoring hits =
      firsts (duplicateKey lower) [] (sortByScore (rescore scoring hits)) :=
    collapse_eq_firsts _ _
  have hsublist : (orderedPool lower scoring hits).Sublist (sortByScore (rescore scoring hits)) :=
    collapse_sublist _ _
  have hperm : (sortByScore (rescore scoring hits)).Perm (rescore scoring hits) :=
    List.perm_insertionSort _ _
  have hdistinct : ((orderedPool lower scoring hits).map (duplicateKey lower)).Nodup := by
    rw [hpool]
    exact nodup_firsts _ _
  -- the first of the sorted with a key is kept
  have hfirst : ∀ before hit after,
      sortByScore (rescore scoring hits) = before ++ hit :: after →
        (∀ other ∈ before, duplicateKey lower other ≠ duplicateKey lower hit) →
          hit ∈ orderedPool lower scoring hits := by
    intro before hit after hsorted hbefore
    rw [hpool, mem_firsts_iff]
    exact ⟨before, after, hsorted, List.not_mem_nil, hbefore⟩
  exact {
    sorted := (List.pairwise_insertionSort _ _).sublist hsublist
    ties := fun x => by
      rw [← sortByScore_ties (rescore scoring hits)]
      exact hsublist.filter _
    distinct := hdistinct
    complete := fun k => by
      rw [← (hperm.map (duplicateKey lower)).mem_iff]
      constructor
      · exact fun h => (hsublist.map _).subset h
      · intro h
        obtain ⟨before, hit, after, hsorted, rfl, hbefore⟩ := exists_first h
        exact List.mem_map_of_mem (hfirst before hit after hsorted hbefore)
    best := fun hit hhit => kept_best hhit
    dropped := fun before hit after hsorted => by
      by_cases hseen : duplicateKey lower hit ∈ before.map (duplicateKey lower)
      · obtain ⟨front, other, back, rfl, hother, hfront⟩ := exists_first hseen
        refine .inr ⟨other, by simp, hfirst front other (back ++ hit :: after) ?_ hfront, hother⟩
        rw [hsorted]
        simp
      · have hbefore : ∀ other ∈ before, duplicateKey lower other ≠ duplicateKey lower hit :=
          fun other hother heq => hseen (heq ▸ List.mem_map_of_mem hother)
        exact .inl ⟨hfirst before hit after hsorted hbefore, hbefore⟩
    stable := collapse_eq hdistinct fun _ _ => List.not_mem_nil }

end Ranking
