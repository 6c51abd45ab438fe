/-
Recording pages into a link graph, whatever its limits (`indexer::graph`).

`LinkGraph.lean` follows graphs that were never full.  A drain that is full stops at the
link where it is, and its graph is ranked all the same, so what is said here of the nodes
and edges holds of every graph that pages were recorded into.  The source keeps a node's
number in 32 bits, and it is less than how many nodes there are (`Wf.lt`), so the numbers
are the model's as long as there are at most 2^32 nodes.

* `Shaped` — the edges are counted as they are, each page links to a page once, and the
  edges stay within their limit;
* `Represents` — what was recorded is in the graph;
* `recordEach_views` — a graph that was never full has the last view of every page;
* `graph_bounds_iff` — when the nodes stay within their limit too.
-/
import Mathlib.Data.List.Dedup
import Mathlib.Data.List.Induction
import MjlSearch.LinkGraph

open Text IndexWriter

namespace Graph

namespace LinkGraph

/-- Records pages one after another, each with the links it has. -/
def recordEach (g : LinkGraph) (pages : List (Str × List Str)) : LinkGraph :=
  pages.foldl (fun g page => g.record page.1 page.2) g

/-- Nodes and edges recorded. -/
def shape (g : LinkGraph) : ℕ × ℕ := (g.urls.length, g.edges)

/-- How many edges the adjacency holds. -/
def edgeCount (g : LinkGraph) : ℕ := (g.out.map List.length).sum

end LinkGraph

open LinkGraph

variable {g : LinkGraph} {url : Str} {links : List Str}

theorem recordEach_snoc (g : LinkGraph) (pages : List (Str × List Str)) (page : Str × List Str) :
    g.recordEach (pages ++ [page]) = (g.recordEach pages).record page.1 page.2 := by
  rw [recordEach, List.foldl_append]
  rfl

/-! ### Interning and the loop -/

theorem intern_edgeCount (g : LinkGraph) (url : Str) :
    (g.intern url).2.edgeCount = g.edgeCount := by
  rw [LinkGraph.intern]
  cases g.ids url with
  | some id => rfl
  | none => simp [edgeCount]

theorem Wf.mem_urls (h : Wf g) : url ∈ g.urls ↔ ∃ id, g.ids url = some id := by
  rw [List.mem_iff_getElem?]
  exact exists_congr fun id => (h.ids url id).symm

theorem Wf.nodup_urls (h : Wf g) : g.urls.Nodup := by
  refine List.nodup_iff_getElem?_ne_getElem?.mpr fun i j hij hj heq => ?_
  have hi := (h.ids g.urls[j] i).mpr (heq.trans (List.getElem?_eq_getElem hj))
  have hj' := (h.ids g.urls[j] j).mpr (List.getElem?_eq_getElem hj)
  rw [hi, Option.some.injEq] at hj'
  omega

theorem mem_intern_urls (h : Wf g) (url v : Str) :
    v ∈ (g.intern url).2.urls ↔ v ∈ g.urls ∨ v = url := by
  rw [LinkGraph.intern]
  cases hid : g.ids url with
  | some id =>
    have hknown : url ∈ g.urls := h.mem_urls.mpr ⟨id, hid⟩
    show v ∈ g.urls ↔ _
    constructor
    · exact .inl
    · rintro (hv | rfl)
      · exact hv
      · exact hknown
  | none =>
    show v ∈ g.urls ++ [url] ↔ _
    rw [List.mem_append, List.mem_singleton]

/-- Interning adds a node for a URL that is new, and only then. -/
theorem intern_length (g : LinkGraph) (url : Str) :
    (g.intern url).2.urls.length =
      if (g.ids url).isSome then g.urls.length else g.urls.length + 1 := by
  rw [LinkGraph.intern]
  cases g.ids url with
  | some id => rfl
  | none => simp

/-- What the loop of `record` does to a graph and to the targets it collects, whether or
not it was cut short. -/
structure Looped (g : LinkGraph) (targets : List ℕ) (g' : LinkGraph) (targets' : List ℕ) :
    Prop where
  interned : Interned g g'
  limits : g'.limits = g.limits
  nodup : targets'.Nodup
  lt : ∀ target ∈ targets', target < g'.urls.length
  edges : g'.edges + targets.length = g.edges + targets'.length
  within : g'.edges ≤ g'.limits.maxEdges
  edgeCount : g'.edgeCount = g.edgeCount
  nodes : g'.urls.length ≤ max g.urls.length g.limits.maxNodes

theorem recordLinks_looped (node : ℕ) (links : List Str) :
    ∀ (g : LinkGraph) (targets : List ℕ), Wf g → targets.Nodup →
      (∀ target ∈ targets, target < g.urls.length) → g.edges ≤ g.limits.maxEdges →
      Looped g targets (recordLinks node links g targets).1
        (recordLinks node links g targets).2 := by
  induction links with
  | nil =>
    intro g targets hwf hnodup hlt hwithin
    exact ⟨.refl hwf, rfl, hnodup, hlt, rfl, hwithin, rfl, le_max_left _ _⟩
  | cons link links ih =>
    intro g targets hwf hnodup hlt hwithin
    rw [recordLinks_cons]
    by_cases hroom : g.limits.maxEdges ≤ g.edges ∨ g.limits.maxNodes ≤ g.urls.length
    · -- the loop stops here, and only the flag changes
      rw [if_pos hroom]
      have hsame : Interned g { g with truncated := true } :=
        ⟨⟨hwf.ids, hwf.length, hwf.targets⟩, fun _ _ hid => hid, List.prefix_refl _,
          fun _ => rfl⟩
      exact ⟨hsame, rfl, hnodup, hlt, rfl, hwithin, rfl, le_max_left _ _⟩
    · rw [if_neg hroom]
      obtain ⟨hinterned, hlink, hlimits, hedges, -⟩ := intern_spec hwf link
      have hcount := intern_edgeCount g link
      have hmaxNodes := congrArg GraphLimits.maxNodes hlimits
      have hmaxEdges := congrArg GraphLimits.maxEdges hlimits
      have hlonger := intern_length g link
      have hlt' : ∀ target ∈ targets, target < (g.intern link).2.urls.length :=
        fun target ht => lt_of_lt_of_le (hlt target ht) hinterned.urls.length_le
      have hnodes : (g.intern link).2.urls.length ≤ g.limits.maxNodes := by
        rw [hlonger]
        split <;> omega
      by_cases hknown : (g.intern link).1 = node ∨ (g.intern link).1 ∈ targets
      · -- a link to the page itself or to a target it has: a node at most, and no edge
        rw [if_pos hknown]
        have hrest := ih _ targets hinterned.wf hnodup hlt' (by omega)
        refine ⟨hinterned.trans hrest.interned, hrest.limits.trans hlimits, hrest.nodup,
          hrest.lt, hedges ▸ hrest.edges, hrest.within, hrest.edgeCount.trans hcount, ?_⟩
        have hlength := hrest.nodes
        omega
      · rw [if_neg hknown]
        obtain ⟨counted, hcounted⟩ : ∃ counted : LinkGraph,
            counted = { (g.intern link).2 with edges := (g.intern link).2.edges + 1 } :=
          ⟨_, rfl⟩
        have hone : counted.edges = (g.intern link).2.edges + 1 := by rw [hcounted]
        have hsame : counted.limits = g.limits := by rw [hcounted, ← hlimits]
        have hurls : counted.urls = (g.intern link).2.urls := by rw [hcounted]
        have hsum : counted.edgeCount = g.edgeCount := by
          rw [← hcount, hcounted]
          rfl
        have hmore : Interned g counted := by
          rw [hcounted]
          exact hinterned.edges _
        rw [← hcounted]
        have hrest := ih counted (targets ++ [(g.intern link).1]) hmore.wf
          (hnodup.append (List.nodup_singleton _) (by simpa using (not_or.mp hknown).2))
          (fun target ht => by
            rw [hurls]
            rcases List.mem_append.mp ht with hold | hlast
            · exact hlt' target hold
            · rw [List.mem_singleton.mp hlast]
              exact hinterned.wf.lt hlink)
          (by rw [hsame, hone]; omega)
        have hedges' := hrest.edges
        have hnodes' := hrest.nodes
        rw [List.length_append, List.length_singleton] at hedges'
        rw [hurls, hsame] at hnodes'
        exact ⟨hmore.trans hrest.interned, hrest.limits.trans hsame, hrest.nodup, hrest.lt,
          by omega, hrest.within, hrest.edgeCount.trans hsum, by omega⟩

/-! ### Every graph -/

/-- The edges are counted as they are, no page links to a page twice, and the edges are
within their limit. -/
structure Shaped (g : LinkGraph) : Prop where
  wf : Wf g
  nodup : ∀ targets ∈ g.out, targets.Nodup
  edges : g.edges = g.edgeCount
  within : g.edges ≤ g.limits.maxEdges

theorem new_shaped (limits : GraphLimits) (hostInlinks : Str → ℕ) :
    Shaped (LinkGraph.new limits hostInlinks) :=
  ⟨new_wf limits hostInlinks, fun _ hc => (List.not_mem_nil hc).elim, rfl, Nat.zero_le _⟩

/-- Replacing one list replaces its length in the sum. -/
theorem sum_lengths_set (out : List (List ℕ)) (node : ℕ) (targets : List ℕ)
    (h : node < out.length) :
    ((out.set node targets).map List.length).sum + (out.getD node []).length =
      (out.map List.length).sum + targets.length := by
  induction out generalizing node with
  | nil => cases h
  | cons first out ih =>
    cases node with
    | zero =>
      simp only [List.set_cons_zero, List.map_cons, List.sum_cons, List.getD_cons_zero]
      omega
    | succ node =>
      have hrest := ih node (Nat.lt_of_succ_lt_succ h)
      simp only [List.set_cons_succ, List.map_cons, List.sum_cons, List.getD_cons_succ]
      omega

/-- What recording a page does to the nodes and edges of any graph. -/
theorem record_shaped (h : Shaped g) (url : Str) (links : List Str) :
    Shaped (g.record url links) ∧ (g.record url links).limits = g.limits ∧
      (g.record url links).urls.length ≤ max (g.intern url).2.urls.length g.limits.maxNodes ∧
      (g.intern url).2.urls <+: (g.record url links).urls := by
  obtain ⟨hinterned, hnode, hlimits, hedges, -⟩ := intern_spec h.wf url
  have hlooped := recordLinks_looped (g.intern url).1 links (g.intern url).2 [] hinterned.wf
    List.nodup_nil (fun _ hc => (List.not_mem_nil hc).elim)
    (by rw [hlimits, hedges]; exact h.within)
  change Looped _ _ (g.looped url links).1 (g.looped url links).2 at hlooped
  have hnode' := hlooped.interned.kept url _ hnode
  have hlt : (g.intern url).1 < (g.looped url links).1.out.length := by
    rw [hlooped.interned.wf.length]
    exact hlooped.interned.wf.lt hnode'
  have hset := sum_lengths_set _ _ (g.looped url links).2 hlt
  have hcount : (g.looped url links).1.edgeCount = g.edges := by
    rw [hlooped.edgeCount, intern_edgeCount, h.edges]
  have hsum := hlooped.edges
  have hwithin := hlooped.within
  have hnodup : ∀ targets ∈ (g.looped url links).1.out, targets.Nodup := by
    -- the loop has only interned, so that the lists are the old ones and empty new ones
    intro targets htargets
    obtain ⟨id, hid⟩ := List.mem_iff_getElem?.mp htargets
    have hkept : targets = g.out.getD id [] := by
      rw [← hinterned.out, ← hlooped.interned.out, List.getD_eq_getElem?_getD, hid]
      rfl
    rw [hkept, List.getD_eq_getElem?_getD]
    cases hold : g.out[id]? with
    | none => exact List.nodup_nil
    | some old => exact h.nodup old (List.mem_of_getElem? hold)
  rw [LinkGraph.edgeCount] at hcount
  rw [hedges, List.length_nil, Nat.add_zero] at hsum
  rw [record_eq]
  refine ⟨⟨⟨hlooped.interned.wf.ids, ?_, fun targets htargets => ?_⟩,
    fun targets htargets => ?_, ?_, ?_⟩, hlooped.limits.trans hlimits, ?_,
    hlooped.interned.urls⟩
  · rw [List.length_set]
    exact hlooped.interned.wf.length
  · rcases List.mem_or_eq_of_mem_set htargets with hold | rfl
    · exact hlooped.interned.wf.targets targets hold
    · exact hlooped.lt
  · rcases List.mem_or_eq_of_mem_set htargets with hold | rfl
    · exact hnodup targets hold
    · exact hlooped.nodup
  · -- the loop has added the new targets, and what is left is to take the old ones away
    show (g.looped url links).1.edges - _ = ((List.set _ _ _).map List.length).sum
    omega
  · show (g.looped url links).1.edges - _ ≤ (g.looped url links).1.limits.maxEdges
    omega
  · have hnodes := hlooped.nodes
    rw [hlimits] at hnodes
    exact hnodes

theorem recordEach_shaped (h : Shaped g) (pages : List (Str × List Str)) :
    Shaped (g.recordEach pages) ∧ (g.recordEach pages).limits = g.limits := by
  induction pages using List.reverseRecOn with
  | nil => exact ⟨h, rfl⟩
  | append_singleton pages page ih =>
    rw [recordEach_snoc]
    obtain ⟨hshaped, hlimits, -⟩ := record_shaped ih.1 page.1 page.2
    exact ⟨hshaped, hlimits.trans ih.2⟩

/-! ### Graphs that were never full -/

/-- The URLs named by pages: their own, and those of their links. -/
def mentioned (pages : List (Str × List Str)) : List Str :=
  pages.flatMap fun page => page.1 :: page.2

/-- The links of a page the last time it was recorded. -/
def lastView (pages : List (Str × List Str)) (url : Str) : List Str :=
  ((pages.reverse.find? fun page => page.1 = url).map Prod.snd).getD []

/-- The distinct links of a page's last view, other than itself. -/
def edgesOf (pages : List (Str × List Str)) (url : Str) : List Str :=
  ((lastView pages url).filter fun link => link ≠ url).dedup

theorem mentioned_snoc (pages : List (Str × List Str)) (page : Str × List Str) :
    mentioned (pages ++ [page]) = mentioned pages ++ page.1 :: page.2 := by
  rw [mentioned, List.flatMap_append, List.flatMap_singleton]
  rfl

theorem lastView_snoc (pages : List (Str × List Str)) (page : Str × List Str) (url : Str) :
    lastView (pages ++ [page]) url = if page.1 = url then page.2 else lastView pages url := by
  rw [lastView, List.reverse_append, List.reverse_singleton, List.singleton_append,
    List.find?_cons]
  by_cases hsame : page.1 = url
  · rw [if_pos hsame, decide_eq_true hsame]
    rfl
  · rw [if_neg hsame, decide_eq_false hsame]
    rfl

theorem mem_edgesOf {pages : List (Str × List Str)} {v : Str} :
    v ∈ edgesOf pages url ↔ v ∈ lastView pages url ∧ v ≠ url := by
  rw [edgesOf, List.mem_dedup, List.mem_filter, decide_eq_true_iff]

/-- A loop that was not cut short has a node for every link. -/
theorem mem_recordLinks_urls {node : ℕ} (v : Str) (links : List Str) :
    ∀ (g : LinkGraph) (targets : List ℕ), Wf g →
      (recordLinks node links g targets).1.truncated = false →
      (v ∈ (recordLinks node links g targets).1.urls ↔ v ∈ g.urls ∨ v ∈ links) := by
  induction links with
  | nil =>
    intro g targets _ _
    simp [recordLinks]
  | cons link links ih =>
    intro g targets hwf hfull
    have hlink := mem_intern_urls hwf link v
    rw [List.mem_cons, ← or_assoc, ← hlink]
    rw [recordLinks_cons] at hfull ⊢
    split at hfull
    · cases hfull
    · rename_i hroom
      rw [if_neg hroom]
      obtain ⟨hinterned, -⟩ := intern_spec hwf link
      split at hfull
      · rename_i hknown
        rw [if_pos hknown]
        exact ih _ _ hinterned.wf hfull
      · rename_i hnew
        rw [if_neg hnew]
        exact ih _ _ (hinterned.edges _).wf hfull

theorem mem_record_urls (h : Wf g) (hfull : (g.record url links).truncated = false) (v : Str) :
    v ∈ (g.record url links).urls ↔ v ∈ g.urls ∨ v = url ∨ v ∈ links := by
  rw [← or_assoc, ← mem_intern_urls h url v]
  exact mem_recordLinks_urls v links _ [] (intern_spec h url).1.wf hfull

/-- A graph in which every page has its last view. -/
structure Views (g : LinkGraph) (pages : List (Str × List Str)) : Prop where
  urls : ∀ v, v ∈ g.urls ↔ v ∈ mentioned pages
  nodup : ∀ v, (g.linksOf v).Nodup
  links : ∀ v w, w ∈ g.linksOf v ↔ w ∈ edgesOf pages v

/-- **A graph that was never full has the last view of every page.** -/
theorem recordEach_views (limits : GraphLimits) (hostInlinks : Str → ℕ)
    (pages : List (Str × List Str))
    (hfull : ((LinkGraph.new limits hostInlinks).recordEach pages).truncated = false) :
    Views ((LinkGraph.new limits hostInlinks).recordEach pages) pages := by
  induction pages using List.reverseRecOn with
  | nil =>
    refine ⟨fun v => Iff.rfl, fun v => List.nodup_nil, fun v w => ?_⟩
    rw [mem_edgesOf]
    exact iff_of_false List.not_mem_nil fun hc => List.not_mem_nil hc.1
  | append_singleton pages page ih =>
    have hwf := (recordEach_shaped (new_shaped limits hostInlinks) pages).1.wf
    rw [recordEach_snoc] at hfull ⊢
    have hbefore := ih (record_truncated hfull)
    have hrecorded := record_spec hwf hfull
    refine ⟨fun v => ?_, fun v => ?_, fun v w => ?_⟩
    · rw [mem_record_urls hwf hfull, hbefore.urls, mentioned_snoc, List.mem_append,
        List.mem_cons]
    · by_cases hv : v = page.1
      · rw [hv]
        exact hrecorded.nodup
      · rw [hrecorded.others v hv]
        exact hbefore.nodup v
    · rw [mem_edgesOf, lastView_snoc]
      by_cases hv : v = page.1
      · rw [hv, if_pos rfl]
        exact hrecorded.mem w
      · rw [hrecorded.others v hv, if_neg (Ne.symm hv), hbefore.links, mem_edgesOf]

/-! ### The bounds -/

/-- What pages were recorded is in the graph: a node for every page and for every link, and
an edge for every link of a page's last view that leads to another page. -/
structure Represents (g : LinkGraph) (pages : List (Str × List Str)) : Prop where
  documents : ∀ page ∈ pages, page.1 ∈ g.urls
  links : ∀ page ∈ pages, ∀ link ∈ page.2, link ∈ g.urls
  edges : ∀ page ∈ pages, ∀ link ∈ edgesOf pages page.1, g.HasEdge page.1 link

theorem Views.represents {pages : List (Str × List Str)} (h : Views g pages) (hwf : Wf g) :
    Represents g pages := by
  refine ⟨fun page hpage => ?_, fun page hpage link hlink => ?_, fun page _ link hlink => ?_⟩
  · exact (h.urls _).mpr (List.mem_flatMap.mpr ⟨page, hpage, List.mem_cons_self⟩)
  · exact (h.urls _).mpr (List.mem_flatMap.mpr ⟨page, hpage, List.mem_cons_of_mem _ hlink⟩)
  · exact (hasEdge_iff hwf).mpr ((h.links _ _).mpr hlink)

/-- The graph keeps within its limits, and says so when it leaves something out. -/
structure Bounded (limits : GraphLimits) (g : LinkGraph) (pages : List (Str × List Str)) :
    Prop where
  nodes : g.shape.1 ≤ limits.maxNodes
  edges : g.shape.2 ≤ limits.maxEdges
  truncated : ¬ Represents g pages → g.truncated = true

/-- There is a node for a page already, or room for one. -/
def HasRoom (limits : GraphLimits) (g : LinkGraph) (url : Str) : Prop :=
  url ∈ g.urls ∨ g.urls.length < limits.maxNodes

/-- Recording a page keeps the nodes within their limit if, and only if, it has room. -/
theorem record_nodes_iff (h : Shaped g) (hnodes : g.urls.length ≤ g.limits.maxNodes)
    (url : Str) (links : List Str) :
    (g.record url links).urls.length ≤ g.limits.maxNodes ↔ HasRoom g.limits g url := by
  obtain ⟨-, -, hlength, hinitial⟩ := record_shaped h url links
  have hge := hinitial.length_le
  have hintern := intern_length g url
  rw [HasRoom, h.wf.mem_urls, ← Option.isSome_iff_exists]
  by_cases hid : (g.ids url).isSome
  · rw [if_pos hid] at hintern
    exact iff_of_true (by omega) (.inl hid)
  · rw [if_neg hid] at hintern
    constructor
    · intro hle
      exact .inr (by omega)
    · rintro (hc | hroom)
      · exact absurd hc hid
      · omega

/-- **The graph keeps within its limits in every state if, and only if, every page that it
records has a node already or finds room for one.** The edges keep within theirs, and what
is left out is owned up to, whatever is recorded: it is the node of the page itself that is
made without asking. -/
theorem graph_bounds_iff (limits : GraphLimits) (hostInlinks : Str → ℕ)
    (pages : List (Str × List Str)) :
    (∀ before, before <+: pages →
      Bounded limits ((LinkGraph.new limits hostInlinks).recordEach before) before) ↔
      ∀ before page, before ++ [page] <+: pages →
        HasRoom limits ((LinkGraph.new limits hostInlinks).recordEach before) page.1 := by
  have hshaped := recordEach_shaped (new_shaped limits hostInlinks)
  constructor
  · intro hall before page hinitial
    obtain ⟨hbefore, hlimits⟩ := hshaped before
    have hnodes := (hall before ((List.prefix_append _ _).trans hinitial)).nodes
    have hafter := (hall _ hinitial).nodes
    rw [recordEach_snoc] at hafter
    change _ = limits at hlimits
    have hiff := record_nodes_iff hbefore (by rw [hlimits]; exact hnodes) page.1 page.2
    rw [hlimits] at hiff
    exact hiff.mp hafter
  · intro hroom before
    induction before using List.reverseRecOn with
    | nil =>
      intro _
      refine ⟨Nat.zero_le _, Nat.zero_le _, fun hmissing => (hmissing ⟨?_, ?_, ?_⟩).elim⟩
      all_goals exact fun page hpage => (List.not_mem_nil hpage).elim
    | append_singleton before page ih =>
      intro hinitial
      obtain ⟨hbefore, hlimits⟩ := hshaped before
      obtain ⟨hafter, hlimits'⟩ := hshaped (before ++ [page])
      change _ = limits at hlimits
      change _ = limits at hlimits'
      have hnodes := (ih ((List.prefix_append _ _).trans hinitial)).nodes
      have hiff := record_nodes_iff hbefore (by rw [hlimits]; exact hnodes) page.1 page.2
      rw [hlimits, ← recordEach_snoc] at hiff
      refine ⟨hiff.mpr (hroom before page hinitial), ?_, fun hmissing => ?_⟩
      · have hwithin := hafter.within
        rw [hlimits'] at hwithin
        exact hwithin
      · -- a graph that was never full has every page's last view
        by_contra hfull
        rw [Bool.not_eq_true] at hfull
        exact hmissing ((recordEach_views limits hostInlinks _ hfull).represents hafter.wf)

/-- Room for one node, and two pages without links: both have nodes, and nothing says that
the limit was passed. -/
theorem page_past_the_limit :
    ¬ Bounded ⟨1, 10⟩
      ((LinkGraph.new ⟨1, 10⟩ fun _ => 0).recordEach
        [("https://a.org/".toList, []), ("https://b.org/".toList, [])])
      [("https://a.org/".toList, []), ("https://b.org/".toList, [])] ∧
    ((LinkGraph.new ⟨1, 10⟩ fun _ => 0).recordEach
      [("https://a.org/".toList, []), ("https://b.org/".toList, [])]).truncated = false := by
  refine ⟨fun hc => ?_, by decide⟩
  have hnodes := hc.nodes
  revert hnodes
  decide

end Graph
