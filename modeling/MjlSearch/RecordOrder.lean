/-
The scores do not depend on the order in which documents are recorded.

The order numbers the nodes and arranges the adjacency, and every sum of the rank iteration
runs along it.  But a graph that was never full is, by URL, what its pages' last views make
it, and where no page is recorded twice these do not depend on the order.

* `edgesOf_perm` — the links of a page, in any order of the pages;
* `Views.scoresOf_eq` — two graphs with the same views have the same scores;
* `order_keeps_scores` — `finish`, for two orders of the same documents;
* `buildAuthority_perm` — and what the drain makes of it, however it rounds.
-/
import MjlSearch.LastView

open Text IndexWriter RankIteration

namespace Graph

open LinkGraph

variable {g g' : LinkGraph} {pages pages' : List (Str × List Str)} {url : Str}

/-! ### The views, in any order -/

/-- A page that is recorded once has the links it was recorded with. -/
theorem lastView_of_mem (hnodup : (pages.map Prod.fst).Nodup) {page : Str × List Str}
    (hpage : page ∈ pages) : lastView pages page.1 = page.2 := by
  have hfound : (pages.reverse.find? fun other => other.1 = page.1).isSome :=
    List.find?_isSome.mpr ⟨page, List.mem_reverse.mpr hpage, decide_eq_true rfl⟩
  obtain ⟨other, hother⟩ := Option.isSome_iff_exists.mp hfound
  have hkey : other.1 = page.1 := by simpa using List.find?_some hother
  have hsame : other = page :=
    List.inj_on_of_nodup_map hnodup (List.mem_reverse.mp (List.mem_of_find?_eq_some hother))
      hpage hkey
  rw [lastView, hother, hsame]
  rfl

theorem edgesOf_perm (hperm : pages.Perm pages') (hnodup : (pages.map Prod.fst).Nodup)
    (url : Str) : edgesOf pages url = edgesOf pages' url := by
  have hkeys := hperm.map Prod.fst
  by_cases hurl : url ∈ pages.map Prod.fst
  · obtain ⟨page, hpage, rfl⟩ := List.mem_map.mp hurl
    rw [edgesOf, edgesOf, lastView_of_mem hnodup hpage,
      lastView_of_mem (hkeys.nodup_iff.mp hnodup) (hperm.mem_iff.mp hpage)]
  · rw [edgesOf_of_not_mem hurl, edgesOf_of_not_mem fun hc => hurl (hkeys.mem_iff.mpr hc)]

theorem Views.perm (h : Views g pages) (hperm : pages.Perm pages')
    (hnodup : (pages.map Prod.fst).Nodup) : Views g pages' :=
  ⟨fun v => (h.urls v).trans (hperm.flatMap_right _).mem_iff, h.nodup, fun v w => by
    rw [← edgesOf_perm hperm hnodup]
    exact h.links v w⟩

/-! ### The scores, from the views -/

section Scores

variable {K : Type} [Field K] [LinearOrder K]

theorem Views.scoresOf_eq (h : Views g pages) (h' : Views g' pages) (hwf : Wf g) (hwf' : Wf g')
    (hcounts : g.hostInlinks = g'.hostInlinks) (exp : K → K) (d : K) (k : ℕ) (url : Str) :
    scoresOf exp d k g.countCrossSiteLinks url = scoresOf exp d k g'.countCrossSiteLinks url := by
  have hperm := (h.perm_urls hwf).trans (h'.perm_urls hwf').symm
  -- the ranks are of the nodes and successors as sets, whatever their numbers
  have hnodes : g.nodes = g'.nodes := List.toFinset_eq_of_perm _ _ hperm
  have hsuccessors : g.successors = g'.successors := funext fun v =>
    List.toFinset_eq_of_perm _ _ ((h.perm_links v).trans (h'.perm_links v).symm)
  have hcounted : g.countCrossSiteLinks.hostInlinks = g'.countCrossSiteLinks.hostInlinks :=
    funext fun host => by rw [h.counted hwf, h'.counted hwf', hcounts]
  have hcross : g.countCrossSiteLinks.crossSite url = g'.countCrossSiteLinks.crossSite url := by
    rw [crossSite, crossSite, hcounted]
  show ({ authority := squashed exp (g.urls.length * ranks d g.nodes g.successors k url) _
          hostAuthority := squashed exp (g.countCrossSiteLinks.crossSite url) _ } : Scores K) = _
  rw [hnodes, hsuccessors, hperm.length_eq, hcross]
  rfl

/-- Two orders of the same documents: the same nodes, scores and counts. -/
theorem recordEach_perm (exp : K → K) (d : K) (k : ℕ) (limits : GraphLimits)
    (hostInlinks : Str → ℕ) (hperm : pages.Perm pages') (hnodup : (pages.map Prod.fst).Nodup)
    (hg : g = (LinkGraph.new limits hostInlinks).recordEach pages)
    (hg' : g' = (LinkGraph.new limits hostInlinks).recordEach pages')
    (hfull : g.truncated = false) (hfull' : g'.truncated = false) :
    g.urls.Perm g'.urls ∧
      (∀ url, scoresOf exp d k g.countCrossSiteLinks url =
        scoresOf exp d k g'.countCrossSiteLinks url) ∧
      g.countCrossSiteLinks.hostInlinks = g'.countCrossSiteLinks.hostInlinks := by
  subst hg
  subst hg'
  have hwf := (recordEach_shaped (new_shaped limits hostInlinks) pages).1.wf
  have hwf' := (recordEach_shaped (new_shaped limits hostInlinks) pages').1.wf
  have h := (recordEach_views limits hostInlinks pages hfull).perm hperm hnodup
  have h' := recordEach_views limits hostInlinks pages' hfull'
  have hcounts : ((LinkGraph.new limits hostInlinks).recordEach pages).hostInlinks =
      ((LinkGraph.new limits hostInlinks).recordEach pages').hostInlinks := by
    rw [recordEach_hostInlinks, recordEach_hostInlinks]
  exact ⟨(h.perm_urls hwf).trans (h'.perm_urls hwf').symm,
    h.scoresOf_eq h' hwf hwf' hcounts exp d k,
    funext fun host => by rw [h.counted hwf, h'.counted hwf', hcounts]⟩

/-- **The order of the documents does not matter.** Two orders of documents with different
URLs, neither of which fills the graph, give every URL the same scores and every host the
same count. -/
theorem order_keeps_scores [CharZero K] (exp : K → K) (d : K) (k : ℕ) (limits : GraphLimits)
    (hostInlinks : Str → ℕ) (hperm : pages.Perm pages') (hnodup : (pages.map Prod.fst).Nodup)
    (hfull : ((LinkGraph.new limits hostInlinks).recordEach pages).truncated = false)
    (hfull' : ((LinkGraph.new limits hostInlinks).recordEach pages').truncated = false) :
    ∃ scores scores' counted counted',
      ((LinkGraph.new limits hostInlinks).recordEach pages).finishWith exp d k =
        some (scores, counted) ∧
      ((LinkGraph.new limits hostInlinks).recordEach pages').finishWith exp d k =
        some (scores', counted') ∧
      (scores.map Prod.fst).Nodup ∧ scores.Perm scores' ∧
      counted.hostInlinks = counted'.hostInlinks := by
  have hshaped := (recordEach_shaped (new_shaped limits hostInlinks) pages).1
  have hshaped' := (recordEach_shaped (new_shaped limits hostInlinks) pages').1
  obtain ⟨hurls, hscores, hcounts⟩ :=
    recordEach_perm exp d k limits hostInlinks hperm hnodup rfl rfl hfull hfull'
  refine ⟨_, _, _, _, finishWith_eq hshaped exp d k, finishWith_eq hshaped' exp d k, ?_, ?_,
    hcounts⟩
  · rw [List.map_map]
    exact (List.map_id _).symm ▸ hshaped.wf.nodup_urls
  · refine (List.Perm.of_eq (List.map_congr_left fun url _ => ?_)).trans (hurls.map _)
    rw [hscores url]

end Scores

/-- Two documents that link to a third page, in both orders. -/
theorem order_keeps_scores_sample :
    ∃ scores scores' counted counted',
      ((LinkGraph.new ⟨10, 10⟩ fun _ => 0).recordEach
        [("https://a.org/".toList, ["https://c.org/".toList]),
          ("https://b.org/".toList, ["https://c.org/".toList])]).finishWith
        (fun x : ℚ => x) damping iterations = some (scores, counted) ∧
      ((LinkGraph.new ⟨10, 10⟩ fun _ => 0).recordEach
        [("https://b.org/".toList, ["https://c.org/".toList]),
          ("https://a.org/".toList, ["https://c.org/".toList])]).finishWith
        (fun x : ℚ => x) damping iterations = some (scores', counted') ∧
      (scores.map Prod.fst).Nodup ∧ scores.Perm scores' ∧
      counted.hostInlinks = counted'.hostInlinks :=
  order_keeps_scores (fun x : ℚ => x) damping iterations ⟨10, 10⟩ (fun _ => 0)
    (List.Perm.swap _ _ _) (by decide) (by decide) (by decide)

/-! ### The drain's scores -/

/-- The scores that `finish` looks up for a URL, rounded to what a document stores. -/
noncomputable def rankOf (round : Scores ℝ → DocScores) (g : LinkGraph) (url : Str) :
    Option DocScores :=
  ((g.scoreAll Real.exp damping iterations).bind fun scores => scores.lookup url).map round

theorem lookup_map_self {β : Type} (f : Str → β) (urls : List Str) (url : Str) :
    (urls.map fun u => (u, f u)).lookup url = if url ∈ urls then some (f url) else none := by
  induction urls with
  | nil => rfl
  | cons u urls ih =>
    rw [List.map_cons, List.lookup_cons, ih]
    by_cases hurl : url = u
    · subst hurl
      simp
    · rw [beq_false_of_ne hurl]
      simp [hurl]

theorem rankOf_eq (h : Shaped g) (round : Scores ℝ → DocScores) (url : Str) :
    rankOf round g url =
      if url ∈ g.urls then some (round (scoresOf Real.exp damping iterations g url)) else none := by
  rw [rankOf, scoreAll_eq h]
  show ((g.urls.map fun u => (u, scoresOf Real.exp damping iterations g u)).lookup url).map
    round = _
  rw [lookup_map_self]
  split <;> rfl

theorem recordAll_eq (g : LinkGraph) (documents : List Document) :
    g.recordAll documents = g.recordEach (documents.map fun document =>
      (document.url, document.outlinks)) := by
  rw [recordAll, recordEach, List.foldl_map]

/-- **A drain's scores do not depend on the order of its documents**, however they are
rounded, and neither do the counts that it keeps. -/
theorem buildAuthority_perm (round : Scores ℝ → DocScores) (limits : GraphLimits)
    (hostInlinks : Str → ℕ) {documents documents' : List Document}
    (hperm : documents.Perm documents') (hnodup : (documents.map Document.url).Nodup)
    (hfull : (buildGraph limits hostInlinks documents).truncated = false)
    (hfull' : (buildGraph limits hostInlinks documents').truncated = false) :
    buildAuthority limits (rankOf round) hostInlinks documents =
      buildAuthority limits (rankOf round) hostInlinks documents' := by
  have hpages := hperm.map fun document => (document.url, document.outlinks)
  have hkeys : ((documents.map fun document => (document.url, document.outlinks)).map
      Prod.fst).Nodup := by
    rw [List.map_map]
    exact hnodup
  have hg := recordAll_eq (LinkGraph.new limits hostInlinks) documents
  have hg' := recordAll_eq (LinkGraph.new limits hostInlinks) documents'
  have hshaped : Shaped (buildGraph limits hostInlinks documents) := by
    rw [buildGraph, hg]
    exact (recordEach_shaped (new_shaped limits hostInlinks) _).1
  have hshaped' : Shaped (buildGraph limits hostInlinks documents') := by
    rw [buildGraph, hg']
    exact (recordEach_shaped (new_shaped limits hostInlinks) _).1
  obtain ⟨hurls, hscores, hcounts⟩ :=
    recordEach_perm Real.exp damping iterations limits hostInlinks hpages hkeys hg hg' hfull hfull'
  refine Prod.ext (funext fun url => ?_) hcounts
  show rankOf round (countCrossSiteLinks _) url = rankOf round (countCrossSiteLinks _) url
  rw [rankOf_eq hshaped.counted, rankOf_eq hshaped'.counted]
  exact if_congr hurls.mem_iff (congrArg (some ∘ round) (hscores url)) rfl

end Graph
