/-
The link graph of one drain (`indexer::graph`).

A URL gets a node when it is first seen, and a page's links are the nodes it links to.
The ranks are floating-point numbers and enter as a parameter of `finish`; what is
modelled is the graph they are computed from, and the counts of links across hosts.

* `Wf` — every node has one URL, and every URL at most one node;
* `record_spec` — recording a page gives it the links it names, each once, and leaves
  the links of all others;
* `buildGraph_links` — what a page that is recorded last has for links in the end;
* `buildAuthority_counts` — what a batch adds to the counts.
-/
import MjlSearch.Drain

open Text IndexWriter

namespace Graph

/-- Bounds on what the graph will hold in memory. -/
structure GraphLimits where
  maxNodes : ℕ
  maxEdges : ℕ

/-- The link graph of one drain, plus the persisted cross-site counts. -/
structure LinkGraph where
  limits : GraphLimits
  ids : Str → Option ℕ
  urls : List Str
  out : List (List ℕ)
  edges : ℕ
  truncated : Bool
  hostInlinks : Str → ℕ

/-- What stands after the first occurrence of a separator. -/
def afterFirst (separator : Str) : Str → Option Str
  | [] => none
  | c :: s =>
    if separator.isPrefixOf (c :: s) then some ((c :: s).drop separator.length)
    else afterFirst separator s

/-- What stands before the first occurrence of a separator. -/
def beforeFirst (separator : Str) : Str → Str
  | [] => []
  | c :: s => if separator.isPrefixOf (c :: s) then [] else c :: beforeFirst separator s

/-- The lowercased host of a URL, or `none` when there is not one. -/
def hostOf (url : Str) : Option Str := do
  let rest ← afterFirst "://".toList url
  let withoutScheme := beforeFirst "://".toList rest
  let host := withoutScheme.takeWhile fun c => !(['/', '?', '#'].contains c)
  if host = [] then none else some (asciiLower host)

namespace LinkGraph

/-- Builds an empty graph, seeded with the cross-site counts from previous runs. -/
def new (limits : GraphLimits) (hostInlinks : Str → ℕ) : LinkGraph :=
  { limits, ids := fun _ => none, urls := [], out := [], edges := 0, truncated := false,
    hostInlinks }

/-- Interns a URL, returning its node id. -/
def intern (g : LinkGraph) (url : Str) : ℕ × LinkGraph :=
  match g.ids url with
  | some id => (id, g)
  | none =>
    (g.urls.length,
      { g with
        ids := Function.update g.ids url (some g.urls.length)
        urls := g.urls ++ [url]
        out := g.out ++ [[]] })

/-- The loop of `record` over the links.  What it has seen are its targets. -/
def recordLinks (source : ℕ) : List Str → LinkGraph → List ℕ → LinkGraph × List ℕ
  | [], g, targets => (g, targets)
  | link :: links, g, targets =>
    if g.limits.maxEdges ≤ g.edges ∨ g.limits.maxNodes ≤ g.urls.length then
      ({ g with truncated := true }, targets)
    else
      let (target, g) := g.intern link
      if target = source ∨ target ∈ targets then recordLinks source links g targets
      else recordLinks source links { g with edges := g.edges + 1 } (targets ++ [target])

/-- Records one document's outlinks. -/
def record (g : LinkGraph) (url : Str) (links : List Str) : LinkGraph :=
  let (source, g) := g.intern url
  let (g, targets) := recordLinks source links g []
  -- a page recorded before loses its links, and they are not counted any more
  let replaced := (g.out.getD source []).length
  { g with edges := g.edges - replaced, out := g.out.set source targets }

/-- Records the documents of a batch, in the order they are read. -/
def recordAll (g : LinkGraph) (documents : List Document) : LinkGraph :=
  documents.foldl (fun g document => g.record document.url document.outlinks) g

/-- The URL of a node. -/
def urlOf (g : LinkGraph) (node : ℕ) : Str := g.urls.getD node []

/-- The hosts that the links of a page credit, one entry for each link: only links that
leave the page's host count. -/
def credits (g : LinkGraph) (url : Str) (targets : List ℕ) : List Str :=
  match hostOf url with
  | none => []
  | some sourceHost =>
    targets.filterMap fun target =>
      (hostOf (g.urlOf target)).filter fun targetHost => targetHost ≠ sourceHost

/-- The hosts credited by all links of the graph. -/
def crossSiteLinks (g : LinkGraph) : List Str :=
  (g.urls.zip g.out).flatMap fun node => g.credits node.1 node.2

/-- Adds this run's cross-site links to the persisted counts. -/
def countCrossSiteLinks (g : LinkGraph) : LinkGraph :=
  { g with hostInlinks := fun host => g.hostInlinks host + g.crossSiteLinks.count host }

/-- Computes both scores for every node; `rank` computes the scores from the graph. -/
def finish (rank : LinkGraph → Str → Option DocScores) (g : LinkGraph) :
    (Str → Option DocScores) × LinkGraph :=
  (rank g.countCrossSiteLinks, g.countCrossSiteLinks)

end LinkGraph

open LinkGraph

/-- The graph of the documents about to be written. -/
def buildGraph (limits : GraphLimits) (hostInlinks : Str → ℕ) (documents : List Document) :
    LinkGraph :=
  (LinkGraph.new limits hostInlinks).recordAll documents

/-- `build_authority`: the scores, and the counts it persists. -/
def buildAuthority (limits : GraphLimits) (rank : LinkGraph → Str → Option DocScores)
    (hostInlinks : Str → ℕ) (documents : List Document) : (Str → Option DocScores) × (Str → ℕ) :=
  let (scores, g) := (buildGraph limits hostInlinks documents).finish rank
  (scores, g.hostInlinks)

/-- The files beside the index, with the counts that `build_authority` keeps. -/
def authoritySidecars {η : Type} (limits : GraphLimits)
    (rank : LinkGraph → Str → Option DocScores) (record : η → ℤ → ℕ → ℕ → η) :
    Drain.Sidecars (Str → ℕ) η :=
  { buildAuthority := buildAuthority limits rank, record }

/-! ### Nodes and links -/

/-- The links of a page, by URL. -/
def LinkGraph.linksOf (g : LinkGraph) (url : Str) : List Str :=
  match g.ids url with
  | none => []
  | some id => (g.out.getD id []).map g.urlOf

/-- There is an edge from one page's node to the other's. -/
def LinkGraph.HasEdge (g : LinkGraph) (source target : Str) : Prop :=
  ∃ i j, g.ids source = some i ∧ g.ids target = some j ∧ j ∈ g.out.getD i []

/-- How many links a page has. -/
def LinkGraph.outDegree (g : LinkGraph) (url : Str) : ℕ :=
  match g.ids url with
  | none => 0
  | some id => (g.out.getD id []).length

/-- Every node has one URL, every URL at most one node, and links go to nodes. -/
structure Wf (g : LinkGraph) : Prop where
  ids : ∀ url id, g.ids url = some id ↔ g.urls[id]? = some url
  length : g.out.length = g.urls.length
  targets : ∀ targets ∈ g.out, ∀ target ∈ targets, target < g.urls.length

theorem new_wf (limits : GraphLimits) (hostInlinks : Str → ℕ) :
    Wf (LinkGraph.new limits hostInlinks) :=
  ⟨fun url id => by simp [LinkGraph.new], rfl, fun _ hc => by cases hc⟩

variable {g : LinkGraph} {url source target : Str}

theorem Wf.lt (h : Wf g) {id : ℕ} (hid : g.ids url = some id) : id < g.urls.length := by
  obtain ⟨hlt, _⟩ := List.getElem?_eq_some_iff.mp ((h.ids url id).mp hid)
  exact hlt

theorem Wf.urlOf (h : Wf g) {id : ℕ} (hid : g.ids url = some id) : g.urlOf id = url := by
  rw [LinkGraph.urlOf, List.getD_eq_getElem?_getD, (h.ids url id).mp hid]
  rfl

theorem Wf.id_urlOf (h : Wf g) {id : ℕ} (hid : id < g.urls.length) :
    g.ids (g.urlOf id) = some id := by
  rw [h.ids, LinkGraph.urlOf, List.getD_eq_getElem?_getD, List.getElem?_eq_getElem hid]
  rfl

theorem Wf.out_targets (h : Wf g) {id target : ℕ} (ht : target ∈ g.out.getD id []) :
    target < g.urls.length := by
  rw [List.getD_eq_getElem?_getD] at ht
  cases hout : g.out[id]? with
  | none =>
    rw [hout] at ht
    cases ht
  | some targets =>
    rw [hout] at ht
    exact h.targets targets (List.mem_of_getElem? hout) target ht

theorem hasEdge_iff (h : Wf g) : g.HasEdge source target ↔ target ∈ g.linksOf source := by
  rw [LinkGraph.linksOf]
  constructor
  · rintro ⟨i, j, hi, hj, hmem⟩
    rw [hi]
    exact List.mem_map.mpr ⟨j, hmem, h.urlOf hj⟩
  · intro hmem
    cases hi : g.ids source with
    | none =>
      rw [hi] at hmem
      cases hmem
    | some i =>
      rw [hi] at hmem
      obtain ⟨j, hj, rfl⟩ := List.mem_map.mp hmem
      exact ⟨i, j, hi, h.id_urlOf (h.out_targets hj), hj⟩

theorem outDegree_eq (g : LinkGraph) (url : Str) : g.outDegree url = (g.linksOf url).length := by
  rw [LinkGraph.outDegree, LinkGraph.linksOf]
  cases g.ids url with
  | none => rfl
  | some id => exact (List.length_map _).symm

/-! ### Interning -/

/-- What interning URLs does to a graph: it adds nodes without links, and nothing else. -/
structure Interned (g g' : LinkGraph) : Prop where
  wf : Wf g'
  kept : ∀ url id, g.ids url = some id → g'.ids url = some id
  urls : g.urls <+: g'.urls
  out : ∀ id, g'.out.getD id [] = g.out.getD id []

theorem Interned.refl (h : Wf g) : Interned g g :=
  ⟨h, fun _ _ hid => hid, List.prefix_refl _, fun _ => rfl⟩

theorem Interned.trans {g' g'' : LinkGraph} (h : Interned g g') (h' : Interned g' g'') :
    Interned g g'' :=
  ⟨h'.wf, fun url id hid => h'.kept url id (h.kept url id hid), h.urls.trans h'.urls,
    fun id => (h'.out id).trans (h.out id)⟩

/-- The node of a URL, once it is interned. -/
theorem intern_spec (h : Wf g) (url : Str) :
    Interned g (g.intern url).2 ∧ (g.intern url).2.ids url = some (g.intern url).1 ∧
      (g.intern url).2.limits = g.limits ∧ (g.intern url).2.edges = g.edges ∧
      (g.intern url).2.truncated = g.truncated := by
  rw [LinkGraph.intern]
  cases hid : g.ids url with
  | some id => exact ⟨.refl h, hid, rfl, rfl, rfl⟩
  | none =>
    have hnew : ∀ id : ℕ, g.urls[id]? ≠ some url := by
      intro id hc
      rw [(h.ids url id).mpr hc] at hid
      cases hid
    -- the new id is the length of the table, which is where the url is appended
    refine ⟨⟨⟨fun other id => ?_, ?_, ?_⟩, fun other id hother => ?_, List.prefix_append _ _,
      fun id => ?_⟩, Function.update_self .., rfl, rfl, rfl⟩
    · show Function.update g.ids url (some g.urls.length) other = some id ↔ _
      rw [Function.update_apply, List.getElem?_append]
      by_cases hsame : other = url
      · subst hsame
        rw [if_pos rfl]
        split
        · rename_i hlt
          constructor
          · intro hc
            cases hc
            omega
          · intro hc
            exact absurd hc (hnew id)
        · rename_i hge
          constructor
          · intro hc
            cases hc
            simp
          · intro hc
            have hzero : id - g.urls.length = 0 := by
              by_contra hne
              rw [List.getElem?_eq_none (by simp; omega)] at hc
              cases hc
            exact congrArg some (by omega)
      · rw [if_neg hsame, h.ids]
        split
        · exact Iff.rfl
        · rename_i hge
          rw [List.getElem?_eq_none (by omega)]
          constructor
          · intro hc
            cases hc
          · intro hc
            rw [List.getElem?_singleton] at hc
            split at hc
            · cases hc
              exact absurd rfl hsame
            · cases hc
    · simp only [List.length_append, List.length_singleton, h.length]
    · intro targets htargets target ht
      rw [List.length_append, List.length_singleton]
      rcases List.mem_append.mp htargets with hold | hnil
      · exact Nat.lt_succ_of_lt (h.targets targets hold target ht)
      · rw [List.mem_singleton.mp hnil] at ht
        cases ht
    · show Function.update g.ids url (some g.urls.length) other = some id
      have hne : other ≠ url := by
        rintro rfl
        rw [hid] at hother
        cases hother
      rw [Function.update_of_ne hne]
      exact hother
    · show (g.out ++ [[]]).getD id [] = _
      rw [List.getD_eq_getElem?_getD, List.getD_eq_getElem?_getD, List.getElem?_append]
      split
      · rfl
      · rename_i hge
        rw [List.getElem?_eq_none (by omega : g.out.length ≤ id), List.getElem?_singleton]
        split <;> rfl

theorem Interned.urlOf {g' : LinkGraph} (h : Interned g g') {id : ℕ} (hid : id < g.urls.length) :
    g'.urlOf id = g.urlOf id := by
  have hid' : id < g'.urls.length := lt_of_lt_of_le hid h.urls.length_le
  rw [LinkGraph.urlOf, LinkGraph.urlOf, List.getD_eq_getElem?_getD, List.getD_eq_getElem?_getD,
    List.getElem?_eq_getElem hid, List.getElem?_eq_getElem hid', h.urls.getElem hid]

/-- Counting edges leaves the nodes alone. -/
theorem Interned.edges {g' : LinkGraph} (h : Interned g g') (edges : ℕ) :
    Interned g { g' with edges } :=
  ⟨⟨h.wf.ids, h.wf.length, h.wf.targets⟩, h.kept, h.urls, h.out⟩

/-! ### Recording -/

theorem intern_truncated (g : LinkGraph) (url : Str) :
    (g.intern url).2.truncated = g.truncated := by
  rw [LinkGraph.intern]
  split <;> rfl

theorem recordLinks_cons (node : ℕ) (link : Str) (links : List Str) (g : LinkGraph)
    (targets : List ℕ) :
    recordLinks node (link :: links) g targets =
      if g.limits.maxEdges ≤ g.edges ∨ g.limits.maxNodes ≤ g.urls.length then
        ({ g with truncated := true }, targets)
      else if (g.intern link).1 = node ∨ (g.intern link).1 ∈ targets then
        recordLinks node links (g.intern link).2 targets
      else
        recordLinks node links { (g.intern link).2 with edges := (g.intern link).2.edges + 1 }
          (targets ++ [(g.intern link).1]) := rfl

theorem recordLinks_truncated (node : ℕ) (links : List Str) (g : LinkGraph) (targets : List ℕ)
    (h : (recordLinks node links g targets).1.truncated = false) : g.truncated = false := by
  induction links generalizing g targets with
  | nil => exact h
  | cons link links ih =>
    rw [recordLinks_cons] at h
    split at h
    · cases h
    · rw [← intern_truncated g link]
      split at h
      · exact ih _ _ h
      · exact ih { (g.intern link).2 with edges := (g.intern link).2.edges + 1 } _ h

/-- The nodes collected for the links of a page, against the URLs they stand for. -/
structure Collected (g : LinkGraph) (targets : List ℕ) (urls : Str → Prop) : Prop where
  nodup : targets.Nodup
  lt : ∀ target ∈ targets, target < g.urls.length
  mem : ∀ id v, g.ids v = some id → (id ∈ targets ↔ urls v)
  known : ∀ v, urls v → ∃ id, g.ids v = some id

theorem Collected.congr {targets : List ℕ} {urls urls' : Str → Prop}
    (h : Collected g targets urls) (hsame : ∀ v, urls v ↔ urls' v) : Collected g targets urls' :=
  ⟨h.nodup, h.lt, fun id v hv => (h.mem id v hv).trans (hsame v),
    fun v hv => h.known v ((hsame v).mpr hv)⟩

/-- Interning more URLs keeps what is collected. -/
theorem Collected.interned {g' : LinkGraph} {targets : List ℕ} {urls : Str → Prop}
    (h : Collected g targets urls) (hwf : Wf g) (hg : Interned g g') :
    Collected g' targets urls := by
  refine ⟨h.nodup, fun target ht => lt_of_lt_of_le (h.lt target ht) hg.urls.length_le,
    fun id v hv => ⟨fun hmem => ?_, fun hv' => ?_⟩, fun v hv => ?_⟩
  · have hlt := h.lt id hmem
    have hsame : g.urlOf id = v := by
      rw [← hg.urlOf hlt]
      exact hg.wf.urlOf hv
    have hold : g.ids v = some id := by
      rw [← hsame]
      exact hwf.id_urlOf hlt
    exact (h.mem id v hold).mp hmem
  · obtain ⟨id', hid'⟩ := h.known v hv'
    have heq : some id' = some id := (hg.kept v id' hid').symm.trans hv
    cases heq
    exact (h.mem id v hid').mpr hv'
  · obtain ⟨id, hid⟩ := h.known v hv
    exact ⟨id, hg.kept v id hid⟩

theorem Wf.ids_inj (h : Wf g) {v w : Str} {id : ℕ} (hv : g.ids v = some id)
    (hw : g.ids w = some id) : v = w := by
  rw [← h.urlOf hv]
  exact h.urlOf hw

/-- One more URL, and its node. -/
theorem Collected.snoc {targets : List ℕ} {urls : Str → Prop} {link : Str} {target : ℕ}
    (h : Collected g targets urls) (hwf : Wf g) (hlink : g.ids link = some target)
    (hnew : target ∉ targets) :
    Collected g (targets ++ [target]) fun v => urls v ∨ v = link := by
  refine ⟨?_, fun t ht => ?_, fun id v hv => ?_, fun v hv => ?_⟩
  · refine List.nodup_append.mpr ⟨h.nodup, List.nodup_singleton _, fun a ha b hb heq => ?_⟩
    rw [List.mem_singleton.mp hb] at heq
    exact hnew (heq ▸ ha)
  · rcases List.mem_append.mp ht with hold | hlast
    · exact h.lt t hold
    · rw [List.mem_singleton.mp hlast]
      exact hwf.lt hlink
  · rw [List.mem_append, List.mem_singleton, h.mem id v hv]
    constructor
    · rintro (hold | rfl)
      · exact .inl hold
      · exact .inr (hwf.ids_inj hv hlink)
    · rintro (hold | rfl)
      · exact .inl hold
      · rw [hv] at hlink
        cases hlink
        exact .inr rfl
  · rcases hv with hold | rfl
    · exact h.known v hold
    · exact ⟨target, hlink⟩

/-- A loop that was not cut short has collected the nodes of all links but the page's own. -/
theorem recordLinks_spec {node : ℕ} (links : List Str) :
    ∀ (g : LinkGraph) (targets : List ℕ) (urls : Str → Prop), Wf g → g.ids url = some node →
      Collected g targets urls → (recordLinks node links g targets).1.truncated = false →
      Interned g (recordLinks node links g targets).1 ∧
        Collected (recordLinks node links g targets).1 (recordLinks node links g targets).2
          fun v => urls v ∨ v ∈ links ∧ v ≠ url := by
  induction links with
  | nil =>
    intro g targets urls hwf hnode hcollected hfull
    refine ⟨.refl hwf, hcollected.congr fun v => ?_⟩
    simp
  | cons link links ih =>
    intro g targets urls hwf hnode hcollected hfull
    obtain ⟨hinterned, hlink, -⟩ := intern_spec hwf link
    rw [recordLinks_cons] at hfull ⊢
    split at hfull
    · cases hfull
    · rename_i hroom
      rw [if_neg hroom]
      have hnode' := hinterned.kept url node hnode
      have hkept := hcollected.interned hwf hinterned
      split at hfull
      · rename_i hknown
        rw [if_pos hknown]
        obtain ⟨hrest, hall⟩ := ih _ targets urls hinterned.wf hnode' hkept hfull
        refine ⟨hinterned.trans hrest, hall.congr fun v => ?_⟩
        -- the link is the page itself, or one that was collected before
        have hold : link = url ∨ urls link := by
          rcases hknown with hself | hmem
          · rw [hself] at hlink
            exact .inl (hinterned.wf.ids_inj hlink hnode')
          · exact .inr ((hkept.mem _ link hlink).mp hmem)
        grind
      · rename_i hnew
        have hnew' := not_or.mp hnew
        rw [if_neg hnew]
        have hcounted := hinterned.edges ((g.intern link).2.edges + 1)
        have hsnoc := (hcollected.interned hwf hcounted).snoc hcounted.wf hlink hnew'.2
        obtain ⟨hrest, hall⟩ := ih _ _ _ hcounted.wf hnode' hsnoc hfull
        refine ⟨hcounted.trans hrest, hall.congr fun v => ?_⟩
        have hother : link ≠ url := by
          rintro rfl
          rw [hnode'] at hlink
          exact hnew'.1 (Option.some.inj hlink).symm
        grind

/-- Different nodes have different URLs. -/
theorem Wf.nodup_map (h : Wf g) {targets : List ℕ} (hnodup : targets.Nodup)
    (hlt : ∀ target ∈ targets, target < g.urls.length) : (targets.map g.urlOf).Nodup := by
  refine hnodup.map_on fun a ha b hb heq => ?_
  have hsome : some a = some b := by
    rw [← h.id_urlOf (hlt a ha), heq]
    exact h.id_urlOf (hlt b hb)
  exact Option.some.inj hsome

/-- The nodes collected are the URLs they stand for, each once. -/
theorem Collected.urls {targets : List ℕ} {urls : Str → Prop} (h : Collected g targets urls)
    (hwf : Wf g) :
    (targets.map g.urlOf).Nodup ∧ ∀ v, v ∈ targets.map g.urlOf ↔ urls v := by
  constructor
  · exact hwf.nodup_map h.nodup h.lt
  · intro v
    constructor
    · intro hv
      obtain ⟨id, hid, rfl⟩ := List.mem_map.mp hv
      exact (h.mem id _ (hwf.id_urlOf (h.lt id hid))).mp hid
    · intro hv
      obtain ⟨id, hid⟩ := h.known v hv
      exact List.mem_map.mpr ⟨id, (h.mem id v hid).mpr hv, hwf.urlOf hid⟩

/-- Interning URLs changes the links of no page. -/
theorem Interned.linksOf {g' : LinkGraph} (hwf : Wf g) (h : Interned g g') (v : Str) :
    g'.linksOf v = g.linksOf v := by
  rw [LinkGraph.linksOf, LinkGraph.linksOf]
  cases hid : g.ids v with
  | some id =>
    rw [h.kept v id hid]
    show (g'.out.getD id []).map g'.urlOf = (g.out.getD id []).map g.urlOf
    rw [h.out]
    exact List.map_congr_left fun target ht => h.urlOf (hwf.out_targets ht)
  | none =>
    cases hid' : g'.ids v with
    | none => rfl
    | some id =>
      -- a node that is new has no links
      have hnew : g.urls.length ≤ id := by
        by_contra hold
        have hlt : id < g.urls.length := by omega
        have hsame : g.urlOf id = v := by
          rw [← h.urlOf hlt]
          exact h.wf.urlOf hid'
        have hsome := hwf.id_urlOf hlt
        rw [hsame, hid] at hsome
        cases hsome
      have hnone : g.out.getD id [] = [] := by
        rw [List.getD_eq_getElem?_getD, List.getElem?_eq_none (by rw [hwf.length]; exact hnew)]
        rfl
      show (g'.out.getD id []).map g'.urlOf = []
      rw [h.out, hnone]
      rfl

/-- The loop of `record` over the links of a page. -/
def LinkGraph.looped (g : LinkGraph) (url : Str) (links : List Str) : LinkGraph × List ℕ :=
  recordLinks (g.intern url).1 links (g.intern url).2 []

theorem record_eq (g : LinkGraph) (url : Str) (links : List Str) :
    g.record url links =
      { (g.looped url links).1 with
        edges := (g.looped url links).1.edges -
          ((g.looped url links).1.out.getD (g.intern url).1 []).length
        out := (g.looped url links).1.out.set (g.intern url).1 (g.looped url links).2 } := rfl

/-- A graph that is full stays so. -/
theorem record_truncated {links : List Str} (h : (g.record url links).truncated = false) :
    g.truncated = false := by
  rw [← intern_truncated g url]
  exact recordLinks_truncated _ links _ [] h

/-- What recording a page does, unless the graph was full. -/
structure Recorded (g g' : LinkGraph) (url : Str) (links : List Str) : Prop where
  wf : Wf g'
  full : g.truncated = false
  nodup : (g'.linksOf url).Nodup
  mem : ∀ v, v ∈ g'.linksOf url ↔ v ∈ links ∧ v ≠ url
  others : ∀ v, v ≠ url → g'.linksOf v = g.linksOf v

theorem record_spec (h : Wf g) {links : List Str}
    (hfull : (g.record url links).truncated = false) :
    Recorded g (g.record url links) url links := by
  have hwhole := record_truncated hfull
  rw [record_eq] at hfull ⊢
  -- intern the page, then its links in turn, then replace its row by what was collected
  obtain ⟨hinterned, hnode, -⟩ := intern_spec h url
  have hnone : Collected (g.intern url).2 [] fun _ => False :=
    ⟨List.nodup_nil, fun _ hc => (List.not_mem_nil hc).elim,
      fun _ _ _ => iff_of_false List.not_mem_nil id, fun _ hc => hc.elim⟩
  obtain ⟨hlooped, hcollected⟩ := recordLinks_spec links _ [] _ hinterned.wf hnode hnone hfull
  change Interned _ (g.looped url links).1 at hlooped
  change Collected (g.looped url links).1 (g.looped url links).2 _ at hcollected
  have hall := hinterned.trans hlooped
  have hnode' := hlooped.kept url _ hnode
  have hlt : (g.intern url).1 < (g.looped url links).1.out.length := by
    rw [hlooped.wf.length]
    exact hlooped.wf.lt hnode'
  obtain ⟨hnodup, hmem⟩ := hcollected.urls hlooped.wf
  generalize g.looped url links = looped at *
  generalize (g.intern url).1 = node at *
  have hlinks : LinkGraph.linksOf { looped.1 with
      edges := looped.1.edges - (looped.1.out.getD node []).length
      out := looped.1.out.set node looped.2 } url = looped.2.map looped.1.urlOf := by
    rw [LinkGraph.linksOf]
    rw [show LinkGraph.ids _ url = some node from hnode']
    show ((looped.1.out.set node looped.2).getD node []).map looped.1.urlOf = _
    rw [List.getD_eq_getElem?_getD, List.getElem?_set_self hlt]
    rfl
  refine ⟨⟨hlooped.wf.ids, ?_, fun targets htargets target ht => ?_⟩, hwhole, ?_, fun v => ?_,
    fun v hv => ?_⟩
  · rw [List.length_set]
    exact hlooped.wf.length
  · rcases List.mem_or_eq_of_mem_set htargets with hold | rfl
    · exact hlooped.wf.targets targets hold target ht
    · exact hcollected.lt target ht
  · rw [hlinks]
    exact hnodup
  · rw [hlinks, hmem v]
    simp
  · rw [← hall.linksOf h v, LinkGraph.linksOf, LinkGraph.linksOf]
    cases hid : looped.1.ids v with
    | none => rfl
    | some id =>
      -- another url has another id, and only the page's own row is replaced
      have hne : node ≠ id := by
        rintro rfl
        exact hv (hlooped.wf.ids_inj hid hnode')
      show ((looped.1.out.set node looped.2).getD id []).map looped.1.urlOf = _
      rw [List.getD_eq_getElem?_getD, List.getElem?_set_ne hne, ← List.getD_eq_getElem?_getD]

theorem recordAll_truncated (documents : List Document) (g : LinkGraph)
    (h : (g.recordAll documents).truncated = false) : g.truncated = false := by
  induction documents generalizing g with
  | nil => exact h
  | cons document documents ih => exact record_truncated (ih _ h)

theorem recordAll_spec (documents : List Document) (g : LinkGraph) (h : Wf g)
    (hfull : (g.recordAll documents).truncated = false) :
    Wf (g.recordAll documents) ∧
      ∀ v ∉ documents.map Document.url, (g.recordAll documents).linksOf v = g.linksOf v := by
  induction documents generalizing g with
  | nil => exact ⟨h, fun _ _ => rfl⟩
  | cons document documents ih =>
    have hrecorded := record_spec h (recordAll_truncated documents _ hfull)
    obtain ⟨hwf, hothers⟩ := ih _ hrecorded.wf hfull
    refine ⟨hwf, fun v hv => ?_⟩
    rw [List.map_cons, List.mem_cons, not_or] at hv
    exact (hothers v hv.2).trans (hrecorded.others v hv.1)

/-- The last document of a batch under its URL. -/
def Standing (documents : List Document) (page : Document) : Prop :=
  ∃ before after, documents = before ++ page :: after ∧ page.url ∉ after.map Document.url

theorem Standing.of_append {documents more : List Document} {page : Document}
    (h : Standing (documents ++ more) page) (hpage : page ∉ documents) : Standing more page := by
  obtain ⟨before, after, heq, hlast⟩ := h
  rcases List.append_eq_append_iff.mp heq with ⟨rest, rfl, hmore⟩ | ⟨rest, hdocuments, hrest⟩
  · exact ⟨rest, after, hmore, hlast⟩
  · cases rest with
    | nil => exact ⟨[], after, hrest.symm, hlast⟩
    | cons other rest =>
      -- the page would be among the first documents
      rw [List.cons_append, List.cons.injEq] at hrest
      refine absurd ?_ hpage
      rw [hdocuments, ← hrest.1]
      simp

/-- The last document of a URL decides its links. -/
theorem buildGraph_links {limits : GraphLimits} {hostInlinks : Str → ℕ}
    {before after : List Document} {document : Document}
    (hlast : document.url ∉ after.map Document.url)
    (hfull : (buildGraph limits hostInlinks (before ++ document :: after)).truncated = false) :
    Wf (buildGraph limits hostInlinks (before ++ document :: after)) ∧
      ((buildGraph limits hostInlinks (before ++ document :: after)).linksOf document.url).Nodup ∧
      ∀ v, v ∈ (buildGraph limits hostInlinks (before ++ document :: after)).linksOf document.url ↔
        v ∈ document.outlinks ∧ v ≠ document.url := by
  have hsplit : buildGraph limits hostInlinks (before ++ document :: after) =
      (((LinkGraph.new limits hostInlinks).recordAll before).record document.url
        document.outlinks).recordAll after := by
    rw [buildGraph, recordAll, List.foldl_append]
    rfl
  rw [hsplit] at hfull ⊢
  have hafter := recordAll_truncated after _ hfull
  have hbefore := record_truncated hafter
  have hrecorded := record_spec (recordAll_spec before _ (new_wf _ _) hbefore).1 hafter
  obtain ⟨hwf, hothers⟩ := recordAll_spec after _ hrecorded.wf hfull
  rw [hothers document.url hlast]
  exact ⟨hwf, hrecorded.nodup, hrecorded.mem⟩

/-! ### Credits -/

/-- The hosts that a page credits. -/
def LinkGraph.creditsOf (g : LinkGraph) (url : Str) : List Str :=
  match g.ids url with
  | none => []
  | some id => g.credits url (g.out.getD id [])

/-- What is credited is what the pages credit. -/
theorem crossSiteLinks_eq (h : Wf g) : g.crossSiteLinks = g.urls.flatMap g.creditsOf := by
  have hnodes : g.urls.zip g.out =
      g.urls.map fun url => (url, g.out.getD ((g.ids url).getD 0) []) := by
    refine List.ext_getElem (by simp [h.length]) fun i hi hi' => ?_
    have hlt : i < g.urls.length := by
      rw [List.length_map] at hi'
      exact hi'
    have hid : g.ids g.urls[i] = some i := (h.ids _ i).mpr (List.getElem?_eq_getElem hlt)
    have hout : i < g.out.length := by
      rw [h.length]
      exact hlt
    rw [List.getElem_zip, List.getElem_map, hid, Option.getD_some, List.getD_eq_getElem?_getD,
      List.getElem?_eq_getElem hout]
    rfl
  rw [crossSiteLinks, hnodes, List.flatMap_map]
  refine List.flatMap_congr fun url hurl => ?_
  obtain ⟨i, hi⟩ := List.mem_iff_getElem?.mp hurl
  rw [creditsOf, (h.ids url i).mpr hi]
  rfl

/-- A page without a link to another host. -/
def StaysOnHost (page : Document) : Prop :=
  ∀ link ∈ page.outlinks, ∀ host, hostOf page.url = some host →
    ∀ host', hostOf link = some host' → host' = host

/-- Such a page credits nobody. -/
theorem StaysOnHost.creditsOf {limits : GraphLimits} {hostInlinks : Str → ℕ}
    {documents : List Document} {page : Document} (h : StaysOnHost page)
    (hpage : Standing documents page)
    (hfull : (buildGraph limits hostInlinks documents).truncated = false) :
    (buildGraph limits hostInlinks documents).creditsOf page.url = [] := by
  obtain ⟨before, after, rfl, hlast⟩ := hpage
  obtain ⟨-, -, hlinks⟩ := buildGraph_links hlast hfull
  generalize buildGraph limits hostInlinks (before ++ page :: after) = g at *
  rw [LinkGraph.creditsOf]
  rw [LinkGraph.linksOf] at hlinks
  cases hid : g.ids page.url with
  | none => rfl
  | some id =>
    rw [hid] at hlinks
    show g.credits page.url (g.out.getD id []) = []
    rw [credits]
    split
    · rfl
    · rename_i host hhost
      refine List.filterMap_eq_nil_iff.mpr fun target htarget => ?_
      obtain ⟨hlink, -⟩ := (hlinks _).mp (List.mem_map_of_mem htarget)
      rw [Option.filter_eq_none_iff]
      intro host' hhost'
      rw [h _ hlink host hhost host' hhost']
      simp

/-! ### The counts a graph starts from -/

/-- A graph with other persisted counts. -/
def LinkGraph.withCounts (g : LinkGraph) (hostInlinks : Str → ℕ) : LinkGraph :=
  { g with hostInlinks }

theorem intern_withCounts (g : LinkGraph) (counts : Str → ℕ) (url : Str) :
    (g.withCounts counts).intern url = ((g.intern url).1, (g.intern url).2.withCounts counts) := by
  rw [LinkGraph.intern, LinkGraph.intern]
  show (match g.ids url with
    | some id => (id, g.withCounts counts)
    | none => _) = _
  cases g.ids url <;> rfl

theorem recordLinks_withCounts (node : ℕ) (links : List Str) (counts : Str → ℕ) (g : LinkGraph)
    (targets : List ℕ) :
    recordLinks node links (g.withCounts counts) targets =
      ((recordLinks node links g targets).1.withCounts counts,
        (recordLinks node links g targets).2) := by
  induction links generalizing g targets with
  | nil => rfl
  | cons link links ih =>
    rw [recordLinks_cons, recordLinks_cons, intern_withCounts]
    show (if g.limits.maxEdges ≤ g.edges ∨ g.limits.maxNodes ≤ g.urls.length then _ else _) = _
    split
    · rfl
    · show (if (g.intern link).1 = node ∨ (g.intern link).1 ∈ targets then _ else _) = _
      split
      · exact ih _ _
      · exact ih { (g.intern link).2 with edges := (g.intern link).2.edges + 1 } _

theorem record_withCounts (g : LinkGraph) (counts : Str → ℕ) (url : Str) (links : List Str) :
    (g.withCounts counts).record url links = (g.record url links).withCounts counts := by
  rw [record_eq, record_eq, looped, looped, intern_withCounts, recordLinks_withCounts]
  rfl

/-- The counts take no part in what is recorded. -/
theorem buildGraph_counts (limits : GraphLimits) (counts : Str → ℕ) (documents : List Document) :
    buildGraph limits counts documents = (buildGraph limits (fun _ => 0) documents).withCounts counts := by
  have hall : ∀ g : LinkGraph,
      (g.withCounts counts).recordAll documents = (g.recordAll documents).withCounts counts := by
    induction documents with
    | nil => exact fun _ => rfl
    | cons document documents ih =>
      intro g
      show ((g.withCounts counts).record document.url document.outlinks).recordAll documents = _
      rw [record_withCounts]
      exact ih _
  exact hall (LinkGraph.new limits fun _ => 0)

/-- **A batch adds the links across hosts that it records**, whatever was counted before. -/
theorem buildAuthority_counts (limits : GraphLimits) (rank : LinkGraph → Str → Option DocScores)
    (counts : Str → ℕ) (documents : List Document) (host : Str) :
    (buildAuthority limits rank counts documents).2 host =
      counts host + (buildGraph limits (fun _ => 0) documents).crossSiteLinks.count host := by
  show (buildGraph limits counts documents).hostInlinks host +
    (buildGraph limits counts documents).crossSiteLinks.count host = _
  rw [buildGraph_counts]
  rfl

end Graph
