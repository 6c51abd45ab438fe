/-
A link graph that was never full holds the last view of every page, and nothing else.

What pages were recorded determines the nodes, the links, their number and what the hosts
are credited with; nothing of it depends on how often a page was recorded or mentioned
before.

* `viewEdges` — the links of the pages recorded, each the last time it was;
* `Views.edgeCount_eq`, `Views.credited` — the graph's edges, and what they credit;
* `last_view_is_recorded` — the graph, its shape, and what `finish` makes of it.
-/
import MjlSearch.PageRank

open Text IndexWriter

namespace Graph

open LinkGraph

/-- The links of the pages recorded: those of each page's last view, with the page. -/
def viewEdges (pages : List (Str × List Str)) : List (Str × Str) :=
  (pages.map Prod.fst).dedup.flatMap fun url => (edgesOf pages url).map fun link => (url, link)

/-- A link that leads to a host from another one. -/
def arrivesAt (host : Str) (edge : Str × Str) : Bool :=
  hostOf edge.2 = some host ∧ (hostOf edge.1).any fun source => source ≠ host

variable {g : LinkGraph} {pages : List (Str × List Str)} {url : Str}

/-! ### Counts that recording leaves alone -/

theorem recordEach_withCounts (g : LinkGraph) (counts : Str → ℕ) (pages : List (Str × List Str)) :
    (g.withCounts counts).recordEach pages = (g.recordEach pages).withCounts counts := by
  induction pages using List.reverseRecOn with
  | nil => rfl
  | append_singleton pages page ih =>
    rw [recordEach_snoc, recordEach_snoc, ih, record_withCounts]

theorem recordEach_hostInlinks (limits : GraphLimits) (hostInlinks : Str → ℕ)
    (pages : List (Str × List Str)) :
    ((LinkGraph.new limits hostInlinks).recordEach pages).hostInlinks = hostInlinks := by
  have hsame := recordEach_withCounts (LinkGraph.new limits fun _ => 0) hostInlinks pages
  change (LinkGraph.new limits hostInlinks).recordEach pages = _ at hsame
  rw [hsame]
  rfl

/-! ### The nodes and edges of a graph with the last views -/

theorem edgesOf_of_not_mem (h : url ∉ pages.map Prod.fst) : edgesOf pages url = [] := by
  have hnone : (pages.reverse.find? fun page => page.1 = url) = none := by
    refine List.find?_eq_none.mpr fun page hpage hsame => h ?_
    rw [decide_eq_true_iff] at hsame
    exact List.mem_map.mpr ⟨page, List.mem_reverse.mp hpage, hsame⟩
  rw [edgesOf, lastView, hnone]
  rfl

theorem mem_mentioned (h : url ∈ pages.map Prod.fst) : url ∈ mentioned pages := by
  obtain ⟨page, hpage, rfl⟩ := List.mem_map.mp h
  exact List.mem_flatMap.mpr ⟨page, hpage, List.mem_cons_self⟩

/-- The nodes are the URLs mentioned, each once. -/
theorem Views.perm_urls (h : Views g pages) (hwf : Wf g) : g.urls.Perm (mentioned pages).dedup :=
  (List.perm_ext_iff_of_nodup hwf.nodup_urls (List.nodup_dedup _)).mpr fun v => by
    rw [List.mem_dedup]
    exact h.urls v

/-- The links of a page are those of its last view, each once. -/
theorem Views.perm_links (h : Views g pages) (v : Str) : (g.linksOf v).Perm (edgesOf pages v) :=
  (List.perm_ext_iff_of_nodup (h.nodup v) (List.nodup_dedup _)).mpr (h.links v)

/-- What only pages with links add to is added up over the pages recorded. -/
theorem Views.sum_urls (h : Views g pages) (hwf : Wf g) (f : Str → ℕ)
    (hf : ∀ v, edgesOf pages v = [] → f v = 0) :
    (g.urls.map f).sum = ((pages.map Prod.fst).dedup.map f).sum := by
  rw [((h.perm_urls hwf).map f).sum_eq, ← List.sum_toFinset f (List.nodup_dedup _),
    ← List.sum_toFinset f (List.nodup_dedup _)]
  -- the URLs that were only mentioned add nothing
  refine (Finset.sum_subset (fun v hv => ?_) fun v _ hv => ?_).symm
  · rw [List.mem_toFinset, List.mem_dedup] at hv ⊢
    exact mem_mentioned hv
  · rw [List.mem_toFinset, List.mem_dedup] at hv
    exact hf v (edgesOf_of_not_mem hv)

/-- The adjacency has an edge for every link of a URL. -/
theorem Wf.edgeCount_eq (h : Wf g) :
    g.edgeCount = (g.urls.map fun v => (g.linksOf v).length).sum := by
  have hout : g.out = g.urls.map fun v => g.out.getD (g.idOf v) [] := by
    have hfst := congrArg (List.map Prod.fst) h.zipIdx_out
    rw [List.zipIdx_map_fst, List.map_map] at hfst
    exact hfst
  rw [edgeCount, hout, List.map_map]
  refine congrArg List.sum (List.map_congr_left fun v hv => ?_)
  rw [h.linksOf_eq hv, List.length_map]
  rfl

/-- **The edges counted are the links of the last views.** -/
theorem Views.edgeCount_eq (h : Views g pages) (hwf : Wf g) :
    g.edgeCount = (viewEdges pages).length := by
  have hlength : ∀ v, (g.linksOf v).length = (edgesOf pages v).length :=
    fun v => (h.perm_links v).length_eq
  rw [hwf.edgeCount_eq, h.sum_urls hwf _ fun v hv => by rw [hlength, hv]; rfl, viewEdges,
    List.length_flatMap]
  refine congrArg List.sum (List.map_congr_left fun v _ => ?_)
  rw [hlength, List.length_map]

/-! ### What the hosts are credited with -/

/-- A page credits a host once for each of its links there, unless the page is on it. -/
theorem count_creditsOf (g : LinkGraph) (host v : Str) :
    (g.creditsOf v).count host = (g.linksOf v).countP fun w => arrivesAt host (v, w) := by
  rw [creditsOf, linksOf]
  cases hid : g.ids v with
  | none => rfl
  | some id =>
    show (g.credits v (g.out.getD id [])).count host =
      ((g.out.getD id []).map g.urlOf).countP _
    rw [credits, List.countP_map]
    cases hsource : hostOf v with
    | none =>
      -- a page without a host credits nobody
      refine (List.countP_eq_zero.mpr fun target _ hc => ?_).symm
      simp [arrivesAt, hsource] at hc
    | some source =>
      show List.count host (List.filterMap _ _) = _
      rw [List.count_filterMap]
      refine List.countP_congr fun target _ => ?_
      cases htarget : hostOf (g.urlOf target) with
      | none => simp [arrivesAt, htarget]
      | some other =>
        simp only [Option.filter_some, arrivesAt, Function.comp_apply, htarget, hsource,
          Option.any_some, Option.some.injEq]
        by_cases hsame : other = host
        · subst hsame
          by_cases hown : other = source
          · simp [hown]
          · simp [hown, Ne.symm hown]
        · by_cases hown : other = source <;> simp [hown, hsame]

/-- **What a host is credited with are the links that arrive there.** -/
theorem Views.credited (h : Views g pages) (hwf : Wf g) (host : Str) :
    g.crossSiteLinks.count host = (viewEdges pages).countP (arrivesAt host) := by
  have hcount : ∀ v, (g.creditsOf v).count host =
      (edgesOf pages v).countP fun w => arrivesAt host (v, w) := fun v => by
    rw [count_creditsOf]
    exact (h.perm_links v).countP_eq _
  rw [crossSiteLinks_eq hwf, List.count_flatMap, viewEdges, List.countP_flatMap]
  show (g.urls.map fun v => (g.creditsOf v).count host).sum = _
  rw [h.sum_urls hwf _ fun v hv => by rw [hcount, hv]; rfl]
  refine congrArg List.sum (List.map_congr_left fun v _ => ?_)
  rw [hcount, Function.comp_apply, List.countP_map]
  rfl

/-! ### The graph and its scores -/

/-- The graph of pages recorded, once `finish` has counted its links across hosts. -/
theorem Views.counted (h : Views g pages) (hwf : Wf g) (host : Str) :
    g.countCrossSiteLinks.hostInlinks host =
      g.hostInlinks host + (viewEdges pages).countP (arrivesAt host) :=
  congrArg (g.hostInlinks host + ·) (h.credited hwf host)

/-- **A graph that was never full holds the last views and nothing else.** Every page has the
distinct links of its last view other than itself; the shape is the number of URLs mentioned
and of these links; `finish` scores every URL mentioned, each once, and adds to the count of
each host the links that arrive there from another. -/
theorem last_view_is_recorded {K : Type} [Field K] [LinearOrder K] [CharZero K] (exp : K → K)
    (d : K) (k : ℕ) (limits : GraphLimits) (hostInlinks : Str → ℕ)
    (pages : List (Str × List Str))
    (hfull : ((LinkGraph.new limits hostInlinks).recordEach pages).truncated = false) :
    let g := (LinkGraph.new limits hostInlinks).recordEach pages
    (∀ page ∈ pages, (g.linksOf page.1).Perm (edgesOf pages page.1)) ∧
      g.shape = ((mentioned pages).dedup.length, (viewEdges pages).length) ∧
      ∃ scores counted, g.finishWith exp d k = some (scores, counted) ∧
        (scores.map Prod.fst).Perm (mentioned pages).dedup ∧
        ∀ host, counted.hostInlinks host =
          hostInlinks host + (viewEdges pages).countP (arrivesAt host) := by
  intro g
  have hviews : Views g pages := recordEach_views limits hostInlinks pages hfull
  have hshaped : Shaped g := (recordEach_shaped (new_shaped limits hostInlinks) pages).1
  have hwf := hshaped.wf
  refine ⟨fun page _ => hviews.perm_links page.1, ?_, _, _, finishWith_eq hshaped exp d k, ?_,
    fun host => ?_⟩
  · rw [shape, (hviews.perm_urls hwf).length_eq, hshaped.edges, hviews.edgeCount_eq hwf]
  · rw [List.map_map]
    exact (List.map_id g.urls).symm ▸ hviews.perm_urls hwf
  · rw [hviews.counted hwf, recordEach_hostInlinks]

/-- A page recorded twice, the second time with other links. -/
theorem last_view_is_recorded_sample :
    ((LinkGraph.new ⟨10, 10⟩ fun _ => 0).recordEach
      [("https://a.org/".toList, ["https://b.org/".toList, "https://b.org/".toList]),
        ("https://a.org/".toList, ["https://c.org/".toList, "https://a.org/".toList])]).shape =
      (3, 1) := by
  obtain ⟨-, hshape, -⟩ := last_view_is_recorded (fun x : ℚ => x) damping iterations ⟨10, 10⟩
    (fun _ => 0)
    [("https://a.org/".toList, ["https://b.org/".toList, "https://b.org/".toList]),
      ("https://a.org/".toList, ["https://c.org/".toList, "https://a.org/".toList])]
    (by decide)
  exact hshape.trans (by decide)

end Graph
