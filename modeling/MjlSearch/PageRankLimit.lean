/-
What `page_rank` approximates.

The twenty iterations of the source are cut off from a sequence that goes to the PageRank of
the graph: the one list of ranks that an iteration leaves as it is.

* `page_rank_converges` — that list, and how far from it the ranks are after some iterations.
-/
import MjlSearch.PageRank
import MjlSearch.RankLimit

open Text IndexWriter RankIteration

namespace Graph

open LinkGraph

variable {g : LinkGraph} {d : ℝ}

/-- The sum of what the ranks in two lists differ by. -/
noncomputable def distance (rank limit : List ℝ) : ℝ :=
  (List.zipWith (fun r s => |r - s|) rank limit).sum

/-- One iteration, with the uniform part that `page_rank` gives it. -/
noncomputable def LinkGraph.iterate (d : ℝ) (g : LinkGraph) (rank : List ℝ) :
    Option (List ℝ) :=
  g.propagate d ((1 - d) / g.urls.length) rank

/-- A list of ranks by the URLs of the nodes. -/
def LinkGraph.rankOf (g : LinkGraph) (rank : List ℝ) (url : Str) : ℝ :=
  rank.getD (g.idOf url) 0

theorem Wf.map_rankOf (h : Wf g) {rank : List ℝ} (hlength : rank.length = g.urls.length) :
    g.urls.map (g.rankOf rank) = rank := by
  refine List.ext_getElem (by simp [hlength]) fun i hi hi' => ?_
  rw [List.length_map] at hi
  rw [List.getElem_map, rankOf, h.idOf_getElem hi, List.getD_eq_getElem?_getD,
    List.getElem?_eq_getElem hi']
  rfl

theorem Shaped.distance_map (h : Shaped g) (r s : Str → ℝ) :
    distance (g.urls.map r) (g.urls.map s) = ∑ v ∈ g.nodes, |r v - s v| := by
  rw [distance, List.zipWith_map, List.zipWith_self, nodes,
    List.sum_toFinset _ h.wf.nodup_urls]

/-- What an iteration leaves as it is are the ranks that the graph leaves as they are. -/
theorem Shaped.iterate_eq_self (h : Shaped g) (hne : g.urls ≠ []) (s : Str → ℝ) :
    g.iterate d (g.urls.map s) = some (g.urls.map s) ↔
      Stationary d g.nodes g.successors s := by
  rw [iterate, propagate_eq h hne, Option.some_inj, List.map_inj_left]
  constructor
  · intro hall t ht
    exact hall t (List.mem_toFinset.mp ht)
  · intro hs t ht
    exact hs t (List.mem_toFinset.mpr ht)

/-- **The ranks converge.** Whatever was recorded, exactly one list of ranks is left as it is
by an iteration; it sums to one and holds nothing that is not positive.  After `k` iterations
the ranks of `page_rank` differ from it by `2 * d ^ k` in all, at most. -/
theorem page_rank_converges (hg : g.Built) (hne : g.urls ≠ []) (hd : 0 < d) (hd1 : d < 1) :
    ∃ limit : List ℝ,
      g.iterate d limit = some limit ∧ limit.length = g.urls.length ∧
      (∀ rank, rank.length = g.urls.length → g.iterate d rank = some rank → rank = limit) ∧
      limit.sum = 1 ∧ (∀ r ∈ limit, 0 < r) ∧
      ∀ k, ∃ rank, g.pageRank d k = some rank ∧ distance rank limit ≤ 2 * d ^ k := by
  have h := hg.shaped
  have hnodes : g.nodes.Nonempty := List.toFinset_nonempty_iff _ |>.mpr hne
  have hout : ∀ v ∈ g.nodes, g.successors v ⊆ g.nodes := fun v _ => h.wf.successors_subset v
  have hpart : 0 < (1 - d) / (g.nodes.card : ℝ) :=
    div_pos (sub_pos.mpr hd1) (Nat.cast_pos.mpr (Finset.card_pos.mpr hnodes))
  obtain ⟨s, hs, hpos⟩ := exists_stationary hd.le hd1 hnodes hout
  refine ⟨g.urls.map s, (h.iterate_eq_self hne s).mpr hs, List.length_map _, ?_, ?_, ?_, ?_⟩
  · intro rank hlength hrank
    rw [← h.wf.map_rankOf hlength] at hrank ⊢
    have hr := (h.iterate_eq_self hne _).mp hrank
    refine List.map_inj_left.mpr fun t ht => ?_
    exact hr.unique hs hd.le hd1 hnodes hout t (List.mem_toFinset.mpr ht)
  · rw [← List.sum_toFinset _ h.wf.nodup_urls]
    exact hs.sum hd1 hnodes hout
  · intro r hr
    obtain ⟨t, ht, rfl⟩ := List.mem_map.mp hr
    exact hpart.trans_le (hpos t (List.mem_toFinset.mpr ht))
  · intro k
    refine ⟨_, pageRank_eq h d k, ?_⟩
    have hnonneg : ∀ t ∈ g.nodes, 0 ≤ s t := fun t ht => hpart.le.trans (hpos t ht)
    rw [h.distance_map, mul_comm]
    exact (sum_abs_ranks_sub_le hs hd.le hnodes hout k).trans
      (mul_le_mul_of_nonneg_left (hs.sum_abs_even_sub_le hnonneg hd1 hnodes hout)
        (pow_nonneg hd.le k))

/-- With the damping and the iterations of the source, a twelfth is the most they differ. -/
theorem page_rank_converges_sample :
    ∃ limit rank : List ℝ,
      ((LinkGraph.new ⟨10, 10⟩ fun _ => 0).recordEach samplePages).pageRank damping
        iterations = some rank ∧ distance rank limit ≤ 1 / 12 := by
  have hlength :
      ((LinkGraph.new ⟨10, 10⟩ fun _ => 0).recordEach samplePages).urls.length = 3 := by
    decide
  obtain ⟨limit, -, -, -, -, -, hnear⟩ :=
    page_rank_converges (d := damping) ⟨⟨10, 10⟩, fun _ => 0, samplePages, rfl⟩
      (fun hc => by rw [hc] at hlength; cases hlength) (by norm_num [damping])
      (by norm_num [damping])
  obtain ⟨rank, hrank, hle⟩ := hnear iterations
  exact ⟨limit, rank, hrank, hle.trans (by norm_num [damping, iterations])⟩

end Graph
