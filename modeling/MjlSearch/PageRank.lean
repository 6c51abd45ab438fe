/-
The ranks of a link graph, and the scores made of them (`LinkGraph::page_rank`, `finish`).

The source computes in floating-point numbers; here it computes in a field, so that nothing
is rounded.  A division by zero has no result, nor has an index past the end of a list.
The ranks are then those of `RankIteration.lean` on the graph's URLs, however the nodes are
numbered.

* `pageRank_eq` — what `page_rank` computes, and that it does;
* `finishWith_eq` — what `finish` inserts then;
* `ranks_keep_their_mass` — the ranks of every graph that pages were recorded into.
-/
import Mathlib.Analysis.SpecialFunctions.Exp
import MjlSearch.LinkRecords
import MjlSearch.RankIteration

open Text IndexWriter RankIteration

namespace Graph

/-- Both scores of a document. -/
structure Scores (K : Type) where
  authority : K
  hostAuthority : K
  deriving DecidableEq

section Ranks

variable {K : Type} [Field K] [LinearOrder K]

/-- How many times the rank is propagated across the graph. -/
def iterations : ℕ := 20

/-- The classic damping factor. -/
def damping : K := 85 / 100

/-- `n * rank` at which the squashed page score reaches `1 - 1/e`. -/
def authorityScale : K := 4

/-- Cross-site inlinks at which the squashed host score reaches `1 - 1/e`. -/
def hostAuthorityScale : K := 8

/-- A quotient: there is none by zero. -/
def divide (x y : K) : Option K := if y = 0 then none else some (x / y)

/-- `next[target] += share` -/
def addAt (next : List K) (target : ℕ) (share : K) : Option (List K) :=
  if target < next.length then some (next.modify target (· + share)) else none

/-- A node hands out its rank: along its links, or as dangling mass when it has none. -/
def visit (d : K) (rank : List K) (pass : List K × K) (node : List ℕ × ℕ) :
    Option (List K × K) := do
  let (next, dangling) := pass
  let own ← rank[node.2]?
  if node.1 = [] then pure (next, dangling + own)
  else
    let share ← divide (d * own) node.1.length
    let next ← node.1.foldlM (fun next target => addAt next target share) next
    pure (next, dangling)

namespace LinkGraph

/-- One iteration over the edge list. -/
def propagate (d uniform : K) (g : LinkGraph) (rank : List K) : Option (List K) := do
  let n : K := g.urls.length
  let (next, dangling) ←
    g.out.zipIdx.foldlM (visit d rank) (List.replicate g.urls.length uniform, 0)
  let spread ← divide (d * dangling) n
  pure (next.map (· + spread))

/-- The ranks after some iterations. -/
def ranksAfter (d uniform first : K) (g : LinkGraph) : ℕ → Option (List K)
  | 0 => some (List.replicate g.urls.length first)
  | k + 1 => do
    let rank ← g.ranksAfter d uniform first k
    g.propagate d uniform rank

/-- PageRank with the dangling mass redistributed uniformly. -/
def pageRank (d : K) (iterations : ℕ) (g : LinkGraph) : Option (List K) :=
  if g.urls.length = 0 then some []
  else do
    let n : K := g.urls.length
    let uniform ← divide (1 - d) n
    let first ← divide 1 n
    g.ranksAfter d uniform first iterations

end LinkGraph

/-- Squashes a non-negative count into `[0, 1)`; `exp` is the exponential. -/
def squash (exp : K → K) (value scale : K) : Option K :=
  if value ≤ 0 ∨ scale ≤ 0 then some 0
  else do
    let x ← divide (-value) scale
    pure (1 - exp x)

namespace LinkGraph

/-- The cross-site links to a URL's host, with those of earlier runs. -/
def crossSite (g : LinkGraph) (url : Str) : ℕ :=
  match hostOf url with
  | none => 0
  | some host => g.hostInlinks host

/-- Both scores of a node, from its rank. -/
def score (exp : K → K) (g : LinkGraph) (url : Str) (rank : K) : Option (Scores K) := do
  let relative := g.urls.length * rank
  let authority ← squash exp relative authorityScale
  let hostAuthority ← squash exp (g.crossSite url) hostAuthorityScale
  pure { authority, hostAuthority }

/-- What `finish` inserts for each node of a graph that has this run's counts. -/
def scoreAll (exp : K → K) (d : K) (iterations : ℕ) (g : LinkGraph) :
    Option (List (Str × Scores K)) := do
  let ranks ← g.pageRank d iterations
  g.urls.zipIdx.mapM fun node => do
    let rank ← ranks[node.2]?
    let scores ← g.score exp node.1 rank
    pure (node.1, scores)

/-- `finish`, for any damping and any number of iterations: the scores it inserts, and the
graph with this run's counts. -/
def finishWith (exp : K → K) (d : K) (iterations : ℕ) (g : LinkGraph) :
    Option (List (Str × Scores K) × LinkGraph) := do
  let g := g.countCrossSiteLinks
  let scores ← g.scoreAll exp d iterations
  pure (scores, g)

/-- `finish`, computed exactly. -/
def finishScores (exp : K → K) (g : LinkGraph) : Option (List (Str × Scores K) × LinkGraph) :=
  g.finishWith exp damping iterations

end LinkGraph

open LinkGraph

/-! ### The adjacency, by URL -/

variable {g : LinkGraph} {url : Str}

/-- The nodes of a graph. -/
def LinkGraph.nodes (g : LinkGraph) : Finset Str := g.urls.toFinset

/-- The pages that a page links to. -/
def LinkGraph.successors (g : LinkGraph) (url : Str) : Finset Str := (g.linksOf url).toFinset

/-- The number of a URL's node, and zero when it has none. -/
def LinkGraph.idOf (g : LinkGraph) (url : Str) : ℕ := (g.ids url).getD 0

theorem Wf.idOf_getElem (h : Wf g) {i : ℕ} (hi : i < g.urls.length) : g.idOf g.urls[i] = i := by
  rw [idOf, (h.ids _ i).mpr (List.getElem?_eq_getElem hi)]
  rfl

theorem Wf.idOf_lt (h : Wf g) (hurl : url ∈ g.urls) : g.idOf url < g.urls.length := by
  obtain ⟨i, hi, rfl⟩ := List.mem_iff_getElem.mp hurl
  rw [h.idOf_getElem hi]
  exact hi

theorem Wf.getElem_idOf (h : Wf g) (hurl : url ∈ g.urls) :
    g.urls[g.idOf url]? = some url := by
  obtain ⟨id, hid⟩ := h.mem_urls.mp hurl
  rw [idOf, hid]
  exact (h.ids url id).mp hid

theorem Wf.idOf_urlOf (h : Wf g) {id : ℕ} (hid : id < g.urls.length) :
    g.idOf (g.urlOf id) = id := by
  rw [idOf, h.id_urlOf hid]
  rfl

theorem Wf.linksOf_eq (h : Wf g) (hurl : url ∈ g.urls) :
    g.linksOf url = (g.out.getD (g.idOf url) []).map g.urlOf := by
  obtain ⟨id, hid⟩ := h.mem_urls.mp hurl
  rw [linksOf, idOf, hid]
  rfl

/-- The nodes in their order are the URLs in theirs. -/
theorem Wf.zipIdx_out (h : Wf g) :
    g.out.zipIdx = g.urls.map fun url => (g.out.getD (g.idOf url) [], g.idOf url) := by
  refine List.ext_getElem (by simp [h.length]) fun i hi hi' => ?_
  rw [List.length_zipIdx] at hi
  rw [List.length_map] at hi'
  rw [List.getElem_map, List.getElem_zipIdx, h.idOf_getElem hi', Nat.zero_add,
    List.getD_eq_getElem?_getD, List.getElem?_eq_getElem hi]
  rfl

theorem Wf.zipIdx_urls (h : Wf g) :
    g.urls.zipIdx = g.urls.map fun url => (url, g.idOf url) := by
  refine List.ext_getElem (by simp) fun i hi hi' => ?_
  rw [List.length_map] at hi'
  rw [List.getElem_map, List.getElem_zipIdx, h.idOf_getElem hi', Nat.zero_add]

theorem Wf.successors_subset (h : Wf g) (url : Str) : g.successors url ⊆ g.nodes := by
  intro v hv
  rw [successors, List.mem_toFinset, linksOf] at hv
  rw [nodes, List.mem_toFinset]
  cases hid : g.ids url with
  | none =>
    rw [hid] at hv
    cases hv
  | some id =>
    rw [hid] at hv
    obtain ⟨target, htarget, rfl⟩ := List.mem_map.mp hv
    exact h.mem_urls.mpr ⟨target, h.id_urlOf (h.out_targets htarget)⟩

/-- The links of a page are the URLs of its targets. -/
theorem Wf.mem_targets (h : Wf g) {v : Str} (hurl : url ∈ g.urls) (hv : v ∈ g.urls) :
    g.idOf v ∈ g.out.getD (g.idOf url) [] ↔ v ∈ g.successors url := by
  obtain ⟨id, hid⟩ := h.mem_urls.mp hv
  rw [successors, List.mem_toFinset, h.linksOf_eq hurl, List.mem_map]
  constructor
  · intro hmem
    refine ⟨g.idOf v, hmem, ?_⟩
    rw [idOf, hid]
    exact h.urlOf hid
  · rintro ⟨target, htarget, rfl⟩
    rw [h.idOf_urlOf (h.out_targets htarget)]
    exact htarget

theorem Shaped.nodup_targets (h : Shaped g) (id : ℕ) : (g.out.getD id []).Nodup := by
  rw [List.getD_eq_getElem?_getD]
  cases hout : g.out[id]? with
  | none => exact List.nodup_nil
  | some targets => exact h.nodup targets (List.mem_of_getElem? hout)

theorem Shaped.card_successors (h : Shaped g) (hurl : url ∈ g.urls) :
    (g.successors url).card = (g.out.getD (g.idOf url) []).length := by
  rw [successors, h.wf.linksOf_eq hurl, List.toFinset_card_of_nodup, List.length_map]
  exact h.wf.nodup_map (h.nodup_targets _) fun _ => h.wf.out_targets

theorem Shaped.successors_eq_empty (h : Shaped g) (hurl : url ∈ g.urls) :
    g.successors url = ∅ ↔ g.out.getD (g.idOf url) [] = [] := by
  rw [← Finset.card_eq_zero, h.card_successors hurl, List.length_eq_zero_iff]

/-! ### What one iteration computes -/

theorem divide_eq {x y : K} (hy : y ≠ 0) : divide x y = some (x / y) := if_neg hy

omit [LinearOrder K] in
/-- One iteration over the targets of a node. -/
theorem foldlM_addAt (share : K) (targets : List ℕ) :
    ∀ next : List K, targets.Nodup → (∀ target ∈ targets, target < next.length) →
      ∃ next', targets.foldlM (fun next target => addAt next target share) next = some next' ∧
        next'.length = next.length ∧
        ∀ i, i < next.length →
          next'.getD i 0 = next.getD i 0 + if i ∈ targets then share else 0 := by
  induction targets with
  | nil =>
    intro next _ _
    exact ⟨next, rfl, rfl, fun i _ => by simp⟩
  | cons target targets ih =>
    intro next hnodup hlt
    obtain ⟨hnew, hrest⟩ := List.nodup_cons.mp hnodup
    have hin := hlt target List.mem_cons_self
    have hlength : (next.modify target (· + share)).length = next.length :=
      List.length_modify ..
    obtain ⟨next', hnext, hsame, hall⟩ := ih (next.modify target (· + share)) hrest
      fun other hother => by
        rw [hlength]
        exact hlt other (List.mem_cons_of_mem _ hother)
    refine ⟨next', ?_, hsame.trans hlength, fun i hi => ?_⟩
    · rw [List.foldlM_cons, addAt, if_pos hin]
      exact hnext
    · rw [hall i (hlength.symm ▸ hi), List.getD_eq_getElem?_getD, List.getElem?_modify,
        List.getD_eq_getElem?_getD, List.getElem?_eq_getElem hi]
      by_cases hfirst : target = i
      · subst hfirst
        simp [hnew]
      · have hne : i ≠ target := fun hc => hfirst hc.symm
        simp [hfirst, hne]

/-- What a node hands to another. -/
def handed (d : K) (rank : List K) (i : ℕ) (node : List ℕ × ℕ) : K :=
  if i ∈ node.1 then d * rank.getD node.2 0 / node.1.length else 0

/-- What a node leaves to all. -/
def left (rank : List K) (node : List ℕ × ℕ) : K :=
  if node.1 = [] then rank.getD node.2 0 else 0

variable [CharZero K]

/-- A pass over the nodes adds to each what the others hand it. -/
theorem foldlM_visit (d : K) (rank : List K) (nodes : List (List ℕ × ℕ)) :
    ∀ (next : List K) (dangling : K),
      (∀ node ∈ nodes, node.2 < rank.length ∧ node.1.Nodup ∧
        ∀ target ∈ node.1, target < next.length) →
      ∃ next', nodes.foldlM (visit d rank) (next, dangling) =
          some (next', dangling + (nodes.map (left rank)).sum) ∧
        next'.length = next.length ∧
        ∀ i, i < next.length →
          next'.getD i 0 = next.getD i 0 + (nodes.map (handed d rank i)).sum := by
  induction nodes with
  | nil =>
    intro next dangling _
    exact ⟨next, by simp, rfl, fun i _ => by simp⟩
  | cons node nodes ih =>
    intro next dangling hall
    obtain ⟨hrank, hnodup, htargets⟩ := hall node List.mem_cons_self
    have hown : rank[node.2]? = some (rank.getD node.2 0) := by
      rw [List.getD_eq_getElem?_getD, List.getElem?_eq_getElem hrank]
      rfl
    rw [List.foldlM_cons, visit, hown]
    by_cases hnone : node.1 = []
    · -- a node without links leaves its rank to all, and hands nothing on
      obtain ⟨next', hnext, hlength, hsum⟩ := ih next (dangling + rank.getD node.2 0)
        fun other hother => hall other (List.mem_cons_of_mem _ hother)
      refine ⟨next', ?_, hlength, fun i hi => ?_⟩
      · rw [List.map_cons, List.sum_cons, left, if_pos hnone, ← add_assoc, ← hnext]
        show (if node.1 = [] then _ else _) >>= _ = _
        rw [if_pos hnone]
        rfl
      · rw [hsum i hi, List.map_cons, List.sum_cons, handed, if_neg (by simp [hnone]),
          zero_add]
    · -- it has links, so that the share is no division by zero
      have hcount : (node.1.length : K) ≠ 0 :=
        Nat.cast_ne_zero.mpr fun hc => hnone (List.length_eq_zero_iff.mp hc)
      obtain ⟨mid, hmid, hlength, hadded⟩ :=
        foldlM_addAt (d * rank.getD node.2 0 / node.1.length) node.1 next hnodup htargets
      obtain ⟨next', hnext, hlength', hsum⟩ := ih mid dangling fun other hother => by
        rw [hlength]
        exact hall other (List.mem_cons_of_mem _ hother)
      refine ⟨next', ?_, hlength'.trans hlength, fun i hi => ?_⟩
      · rw [List.map_cons, List.sum_cons, left, if_neg hnone, zero_add, ← hnext]
        show (if node.1 = [] then _ else divide _ _ >>= _) >>= _ = _
        rw [if_neg hnone, divide_eq hcount]
        show (List.foldlM _ _ _ >>= _) >>= _ = _
        rw [hmid]
        rfl
      · rw [hsum i (hlength.symm ▸ hi), hadded i hi, List.map_cons, List.sum_cons, handed,
          add_assoc]

theorem Wf.card_nodes (h : Wf g) : g.nodes.card = g.urls.length := by
  rw [nodes, List.toFinset_card_of_nodup h.nodup_urls]

omit [LinearOrder K] [CharZero K] in
/-- A list over the nodes, at a URL's number. -/
theorem Wf.getD_map (h : Wf g) (r : Str → K) (hurl : url ∈ g.urls) :
    (g.urls.map r).getD (g.idOf url) 0 = r url := by
  rw [List.getD_eq_getElem?_getD, List.getElem?_map, h.getElem_idOf hurl]
  rfl

omit [LinearOrder K] [CharZero K] in
/-- A sum over the nodes in their order is one over the URLs. -/
theorem Wf.sum_zipIdx (h : Wf g) (f : List ℕ × ℕ → K) :
    (g.out.zipIdx.map f).sum = ∑ v ∈ g.nodes, f (g.out.getD (g.idOf v) [], g.idOf v) := by
  rw [h.zipIdx_out, List.map_map, nodes, List.sum_toFinset _ h.nodup_urls]
  rfl

omit [LinearOrder K] [CharZero K] in
theorem Shaped.sum_left (h : Shaped g) (r : Str → K) :
    (g.out.zipIdx.map (left (g.urls.map r))).sum =
      ∑ v ∈ g.nodes with g.successors v = ∅, r v := by
  rw [h.wf.sum_zipIdx, Finset.sum_filter]
  refine Finset.sum_congr rfl fun v hv => ?_
  have hurl : v ∈ g.urls := List.mem_toFinset.mp hv
  simp only [left, h.wf.getD_map r hurl, h.successors_eq_empty hurl]

omit [LinearOrder K] [CharZero K] in
theorem Shaped.sum_handed (h : Shaped g) (d : K) (r : Str → K) (hurl : url ∈ g.urls) :
    (g.out.zipIdx.map (handed d (g.urls.map r) (g.idOf url))).sum =
      ∑ v ∈ g.nodes with url ∈ g.successors v, d * r v / (g.successors v).card := by
  rw [h.wf.sum_zipIdx, Finset.sum_filter]
  refine Finset.sum_congr rfl fun v hv => ?_
  have hv' : v ∈ g.urls := List.mem_toFinset.mp hv
  simp only [handed, h.wf.getD_map r hv', h.wf.mem_targets hv' hurl, h.card_successors hv']

/-- One iteration computes the next ranks. -/
theorem propagate_eq (h : Shaped g) (hne : g.urls ≠ []) (d : K) (r : Str → K) :
    g.propagate d ((1 - d) / g.urls.length) (g.urls.map r) =
      some (g.urls.map (step d g.nodes g.successors r)) := by
  have hcount : (g.urls.length : K) ≠ 0 :=
    Nat.cast_ne_zero.mpr fun hc => hne (List.length_eq_zero_iff.mp hc)
  obtain ⟨next, hnext, hlength, hsum⟩ := foldlM_visit d (g.urls.map r) g.out.zipIdx
    (List.replicate g.urls.length ((1 - d) / g.urls.length)) 0 fun node hnode => by
      rw [h.wf.zipIdx_out, List.mem_map] at hnode
      obtain ⟨v, hv, rfl⟩ := hnode
      rw [List.length_map, List.length_replicate]
      exact ⟨h.wf.idOf_lt hv, h.nodup_targets _, fun _ => h.wf.out_targets⟩
  rw [List.length_replicate] at hlength hsum
  rw [zero_add, h.sum_left] at hnext
  rw [propagate, hnext]
  show divide _ _ >>= _ = _
  rw [divide_eq hcount]
  -- both lists at the number of a URL: what the pass added, and the sums over the nodes
  refine congrArg some (List.ext_getElem (by simp [hlength]) fun i hi hi' => ?_)
  rw [List.length_map] at hi hi'
  have hurl : g.urls[i] ∈ g.urls := List.getElem_mem hi'
  have hi'' : next[i] = next.getD i 0 := by
    rw [List.getD_eq_getElem?_getD, List.getElem?_eq_getElem hi]
    rfl
  have hstart : (List.replicate g.urls.length ((1 - d) / (g.urls.length : K))).getD i 0 =
      (1 - d) / g.urls.length := by
    rw [List.getD_eq_getElem?_getD, List.getElem?_replicate_of_lt hi']
    rfl
  have hhanded := h.sum_handed d r hurl
  rw [h.wf.idOf_getElem hi'] at hhanded
  rw [List.getElem_map, List.getElem_map, hi'', hsum i hi', hhanded, hstart, step,
    h.wf.card_nodes]

/-- **What `page_rank` computes**: the ranks of the URLs, and no step of it fails. -/
theorem pageRank_eq (h : Shaped g) (d : K) (k : ℕ) :
    g.pageRank d k = some (g.urls.map (ranks d g.nodes g.successors k)) := by
  rw [pageRank]
  by_cases hne : g.urls.length = 0
  · rw [if_pos hne, List.length_eq_zero_iff.mp hne]
    rfl
  · have hcount : (g.urls.length : K) ≠ 0 := Nat.cast_ne_zero.mpr hne
    rw [if_neg hne]
    show (divide (1 - d) (g.urls.length : K) >>= fun uniform =>
      divide 1 (g.urls.length : K) >>= fun first => g.ranksAfter d uniform first k) = _
    rw [divide_eq hcount, divide_eq hcount]
    show g.ranksAfter d ((1 - d) / g.urls.length) (1 / g.urls.length) k = _
    induction k with
    | zero =>
      rw [ranksAfter, ranks, h.wf.card_nodes, List.map_const']
    | succ k ih =>
      rw [ranksAfter, ih]
      exact propagate_eq h (fun hc => hne (hc ▸ rfl)) d _

/-! ### Scores -/

/-- The squashed value, where nothing can fail. -/
def squashed (exp : K → K) (value scale : K) : K :=
  if value ≤ 0 ∨ scale ≤ 0 then 0 else 1 - exp (-value / scale)

omit [CharZero K] in
theorem squash_eq (exp : K → K) (value scale : K) :
    squash exp value scale = some (squashed exp value scale) := by
  rw [squash, squashed]
  by_cases hflat : value ≤ 0 ∨ scale ≤ 0
  · rw [if_pos hflat, if_pos hflat]
  · rw [if_neg hflat, if_neg hflat, divide_eq (ne_of_gt (not_le.mp (not_or.mp hflat).2))]
    rfl

/-- The scores of a URL of a graph that has this run's counts, where nothing can fail. -/
def scoresOf (exp : K → K) (d : K) (k : ℕ) (g : LinkGraph) (url : Str) : Scores K :=
  { authority :=
      squashed exp (g.urls.length * ranks d g.nodes g.successors k url) authorityScale
    hostAuthority := squashed exp (g.crossSite url) hostAuthorityScale }

/-- Counting links across hosts leaves the nodes and edges alone. -/
theorem Shaped.counted (h : Shaped g) : Shaped g.countCrossSiteLinks :=
  ⟨⟨h.wf.ids, h.wf.length, h.wf.targets⟩, h.nodup, h.edges, h.within⟩

theorem mapM_eq_some_map {α β : Type} {f : α → Option β} {f' : α → β} (l : List α)
    (h : ∀ a ∈ l, f a = some (f' a)) : l.mapM f = some (l.map f') := by
  induction l with
  | nil => rfl
  | cons a l ih =>
    rw [List.mapM_cons, h a List.mem_cons_self,
      ih fun b hb => h b (List.mem_cons_of_mem _ hb)]
    rfl

/-- **What is inserted**: the scores of every URL, in the order of the nodes, and no step
fails. -/
theorem scoreAll_eq (h : Shaped g) (exp : K → K) (d : K) (k : ℕ) :
    g.scoreAll exp d k = some (g.urls.map fun url => (url, scoresOf exp d k g url)) := by
  rw [scoreAll, pageRank_eq h]
  show (g.urls.zipIdx.mapM fun node => do
      let rank ← (g.urls.map (ranks d g.nodes g.successors k))[node.2]?
      let scores ← g.score exp node.1 rank
      pure (node.1, scores)) = _
  rw [h.wf.zipIdx_urls, List.mapM_map]
  refine mapM_eq_some_map g.urls fun url hurl => ?_
  show ((g.urls.map _)[g.idOf url]? >>= fun rank => _) = _
  rw [List.getElem?_map, h.wf.getElem_idOf hurl]
  show (g.score exp url _ >>= _) = _
  rw [score, squash_eq, squash_eq]
  rfl

theorem finishWith_eq (h : Shaped g) (exp : K → K) (d : K) (k : ℕ) :
    g.finishWith exp d k =
      some (g.urls.map fun url => (url, scoresOf exp d k g.countCrossSiteLinks url),
        g.countCrossSiteLinks) := by
  rw [finishWith, scoreAll_eq h.counted]
  rfl

end Ranks

/-! ### Mass -/

variable {g : LinkGraph} {url : Str}

/-- A graph that pages were recorded into. -/
def LinkGraph.Built (g : LinkGraph) : Prop :=
  ∃ limits hostInlinks pages, g = (LinkGraph.new limits hostInlinks).recordEach pages

theorem LinkGraph.Built.shaped (h : g.Built) : Shaped g := by
  obtain ⟨limits, hostInlinks, pages, rfl⟩ := h
  exact (recordEach_shaped (new_shaped limits hostInlinks) pages).1

theorem Shaped.sum_ranks (h : Shaped g) (hne : g.urls ≠ []) {K : Type} [Field K] [CharZero K]
    (d : K) (k : ℕ) : (g.urls.map (ranks d g.nodes g.successors k)).sum = 1 := by
  have hnodes : g.nodes.Nonempty := List.toFinset_nonempty_iff _ |>.mpr hne
  rw [← List.sum_toFinset _ h.wf.nodup_urls]
  exact RankIteration.sum_ranks d hnodes (fun v _ => h.wf.successors_subset v) k

/-- A rank that is not zero has a score that is not zero. -/
theorem squashed_pos {value scale : ℝ} (hvalue : 0 < value) (hscale : 0 < scale) :
    0 < squashed Real.exp value scale := by
  have hflat : ¬ (value ≤ 0 ∨ scale ≤ 0) := by
    rw [not_or, not_le, not_le]
    exact ⟨hvalue, hscale⟩
  have hexp : Real.exp (-value / scale) < 1 :=
    Real.exp_lt_one_iff.mpr (div_neg_of_neg_of_pos (neg_neg_of_pos hvalue) hscale)
  rw [squashed, if_neg hflat]
  exact sub_pos.mpr hexp

theorem Shaped.authority_pos (h : Shaped g) (hne : g.urls ≠ []) {d : ℝ} (hd : 0 < d)
    (hd1 : d < 1) (k : ℕ) (url : Str) : 0 < (scoresOf Real.exp d k g url).authority := by
  have hcount : (0 : ℝ) < g.urls.length := Nat.cast_pos.mpr (List.length_pos_iff.mpr hne)
  have hrank : (1 - d) / (g.urls.length : ℝ) ≤ ranks d g.nodes g.successors k url := by
    rw [← h.wf.card_nodes]
    exact le_ranks hd.le hd1.le k url
  have hpart : 0 < (1 - d) / (g.urls.length : ℝ) := div_pos (sub_pos.mpr hd1) hcount
  exact squashed_pos (mul_pos hcount (hpart.trans_le hrank)) (by norm_num [authorityScale])

/-- **The ranks keep their mass.** Whatever was recorded, and however often the rank is
propagated, no step divides by zero, the ranks sum to one, and none falls below a node's part
of the mass that is spread evenly; so `finish` gives every node an authority above zero. -/
theorem ranks_keep_their_mass (hg : g.Built) (hne : g.urls ≠ []) {d : ℚ} (hd : 0 < d)
    (hd1 : d < 1) (k : ℕ) :
    (∃ rank, g.pageRank d k = some rank ∧ rank.length = g.urls.length ∧ rank.sum = 1 ∧
      ∀ r ∈ rank, (1 - d) / g.urls.length ≤ r) ∧
    ∃ scores counted, g.finishWith Real.exp (d : ℝ) k = some (scores, counted) ∧
      scores.map Prod.fst = g.urls ∧ ∀ entry ∈ scores, 0 < entry.2.authority := by
  have h := hg.shaped
  refine ⟨⟨_, pageRank_eq h d k, List.length_map _, h.sum_ranks hne d k, fun r hr => ?_⟩,
    _, _, finishWith_eq h Real.exp d k, ?_, fun entry hentry => ?_⟩
  · obtain ⟨url, -, rfl⟩ := List.mem_map.mp hr
    rw [← h.wf.card_nodes]
    exact le_ranks hd.le hd1.le k url
  · rw [List.map_map]
    exact List.map_id _
  · obtain ⟨url, -, rfl⟩ := List.mem_map.mp hentry
    exact h.counted.authority_pos hne (by exact_mod_cast hd) (by exact_mod_cast hd1) k url

/-- Two pages that link to each other, one of them to itself as well, the other to a page
that links nowhere. -/
def samplePages : List (Str × List Str) :=
  [("https://a.org/".toList, ["https://b.org/".toList, "https://c.org/".toList]),
    ("https://b.org/".toList, ["https://a.org/".toList, "https://b.org/".toList])]

theorem ranks_keep_their_mass_sample :
    ((LinkGraph.new ⟨10, 10⟩ fun _ => 0).recordEach samplePages).urls.length = 3 ∧
    ∃ rank, ((LinkGraph.new ⟨10, 10⟩ fun _ => 0).recordEach samplePages).pageRank
      (17 / 20 : ℚ) 20 = some rank ∧ rank.sum = 1 := by
  have hlength :
      ((LinkGraph.new ⟨10, 10⟩ fun _ => 0).recordEach samplePages).urls.length = 3 := by
    decide
  obtain ⟨⟨rank, hrank, -, hsum, -⟩, -⟩ :=
    ranks_keep_their_mass ⟨⟨10, 10⟩, fun _ => 0, samplePages, rfl⟩
      (fun hc => by rw [hc] at hlength; cases hlength) (by norm_num : (0 : ℚ) < 17 / 20)
      (by norm_num) 20
  exact ⟨hlength, rank, hrank, hsum⟩

end Graph
