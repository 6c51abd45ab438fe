/-
Which links of a page become edges between the pages of a batch
(`crawler::parser`, `crawler::main`, `indexer::graph`).

The parser resolves a page's links against its base and takes their fragments off; the
crawler archives a page under its canonical URL, without campaign parameters.  The link
graph knows both as strings.

* `resolveLinks_canonical` — every link that is kept has a canonical form;
* `edges_follow_iff` — the edges of a page follow the canonical forms of its links exactly
  if every link to a page of the batch is spelled like that page's URL, and no two links
  have one canonical form.
-/
import Mathlib.Data.Finset.Card
import MjlSearch.Intake
import MjlSearch.LinkGraph
import MjlSearch.PageParser

open Text Policy Crawler
open PageParser (resolveLink resolveLinks)

namespace Graph

/-! ### Renaming the members of a finite set -/

/-- A renaming that keeps a point keeps the number of the others exactly if it keeps the
members apart and sends no other member to the point. -/
theorem card_erase_image_iff {α : Type} [DecidableEq α] (f : α → α) (s : Finset α) {p : α}
    (hp : p ∈ s → f p = p) :
    (s.erase p).card = ((s.image f).erase p).card ↔
      (∀ x ∈ s, f x = p → x = p) ∧ ∀ x ∈ s, ∀ y ∈ s, f x = f y → x = y := by
  -- the members that are not sent to the point
  have himage : (s.image f).erase p = (s.filter fun x => f x ≠ p).image f := by
    ext y
    simp only [Finset.mem_erase, Finset.mem_image, Finset.mem_filter]
    constructor
    · rintro ⟨hy, x, hx, rfl⟩
      exact ⟨x, ⟨hx, hy⟩, rfl⟩
    · rintro ⟨x, ⟨hx, hy⟩, rfl⟩
      exact ⟨hy, x, hx, rfl⟩
  have hsub : (s.filter fun x => f x ≠ p) ⊆ s.erase p := by
    intro x hx
    obtain ⟨hmem, hne⟩ := Finset.mem_filter.mp hx
    refine Finset.mem_erase.mpr ⟨?_, hmem⟩
    rintro rfl
    exact hne (hp hmem)
  rw [himage]
  constructor
  · intro hcard
    have hle : ((s.filter fun x => f x ≠ p).image f).card ≤ (s.filter fun x => f x ≠ p).card :=
      Finset.card_image_le
    have hsame : (s.filter fun x => f x ≠ p) = s.erase p :=
      Finset.eq_of_subset_of_card_le hsub (hcard.trans_le hle)
    have hinj : Set.InjOn f (s.filter fun x => f x ≠ p) := by
      rw [← Finset.card_image_iff, ← hcard, hsame]
    have hpoint : ∀ x ∈ s, f x = p → x = p := by
      intro x hx hfx
      by_contra hne
      have hx' : x ∈ s.filter fun x => f x ≠ p := by
        rw [hsame]
        exact Finset.mem_erase.mpr ⟨hne, hx⟩
      exact (Finset.mem_filter.mp hx').2 hfx
    refine ⟨hpoint, fun x hx y hy hxy => ?_⟩
    by_cases hfx : f x = p
    · rw [hpoint x hx hfx, hpoint y hy (hxy ▸ hfx)]
    · refine hinj (Finset.mem_coe.mpr (Finset.mem_filter.mpr ⟨hx, hfx⟩))
        (Finset.mem_coe.mpr (Finset.mem_filter.mpr ⟨hy, ?_⟩)) hxy
      rw [← hxy]
      exact hfx
  · rintro ⟨hpoint, hinj⟩
    have hsame : (s.filter fun x => f x ≠ p) = s.erase p := by
      refine subset_antisymm hsub fun x hx => ?_
      obtain ⟨hne, hx⟩ := Finset.mem_erase.mp hx
      exact Finset.mem_filter.mpr ⟨hx, fun hfx => hne (hpoint x hx hfx)⟩
    rw [hsame]
    refine (Finset.card_image_of_injOn fun x hx y hy hxy => ?_).symm
    exact hinj x (Finset.mem_of_mem_erase hx) y (Finset.mem_of_mem_erase hy) hxy

/-! ### The links of a page -/

section

variable (urls : UrlCrate) (join : urls.Url → Str → Option urls.Url)

/-- What `url::Url::join` promises: a URL that it builds is one that can be read. -/
def JoinLaw : Prop :=
  ∀ raw base candidate url, urls.parse raw = some base → join base candidate = some url →
    ∃ raw', urls.parse raw' = some url

variable {urls join}

theorem mem_foldl_resolved {base : urls.Url} {link : Str} (raw : List Str) :
    ∀ resolved : List Str,
      link ∈ raw.foldl (fun resolved candidate =>
        match resolveLink urls join base candidate with
        | none => resolved
        | some normalized =>
          if normalized ∈ resolved then resolved else resolved ++ [normalized]) resolved →
      link ∈ resolved ∨ ∃ candidate, resolveLink urls join base candidate = some link := by
  induction raw with
  | nil =>
    intro resolved h
    exact .inl h
  | cons candidate raw ih =>
    intro resolved h
    rw [List.foldl_cons] at h
    rcases ih _ h with hmem | hlater
    · split at hmem
      · exact .inl hmem
      · rename_i normalized hnormalized
        split at hmem
        · exact .inl hmem
        · rcases List.mem_append.mp hmem with hold | hnew
          · exact .inl hold
          · rw [List.mem_singleton] at hnew
            subst hnew
            exact .inr ⟨candidate, hnormalized⟩
    · exact .inr hlater

/-- **Every link that is kept has a canonical form.** -/
theorem resolveLinks_canonical (forms : FormUrlencoded) (hhttp : HttpLaws urls)
    (hjoin : JoinLaw urls join) {raw : List Str} {base link : Str}
    (h : link ∈ resolveLinks urls join raw base) :
    ∃ canonical, canonicalUrl urls forms link = some canonical := by
  rw [resolveLinks] at h
  split at h
  · cases h
  · rename_i base' hbase
    obtain hnil | ⟨candidate, hcandidate⟩ := mem_foldl_resolved raw [] h
    · cases hnil
    · simp only [resolveLink] at hcandidate
      split at hcandidate
      · cases hcandidate
      · obtain ⟨resolved, hresolved, hlink⟩ := Option.bind_eq_some_iff.mp hcandidate
        split at hlink
        · rename_i hscheme
          cases hlink
          obtain ⟨raw', hraw'⟩ := hjoin base base' _ resolved hbase hresolved
          obtain ⟨url', hurl', hscheme'⟩ := hhttp.unfragmented raw' resolved hraw' hscheme
          refine ⟨urls.toStr (stripTrackingParams urls forms (urls.setFragment url' none)), ?_⟩
          rw [canonicalUrl, hurl']
          exact if_pos hscheme'
        · cases hlink

end

/-! ### The pages of a batch -/

/-- Pages get their links from `resolve_links`. -/
def ParsesLinks (lib : Libraries) (join : lib.urls.Url → Str → Option lib.urls.Url) : Prop :=
  ∀ html base parsed, lib.parsePage html base = .ok parsed →
    ∃ hrefs base', parsed.links = resolveLinks lib.urls join hrefs base'

/-- A document that absorbing the answer to a request has archived. -/
def Archived (lib : Libraries) (document : Document) : Prop :=
  ∃ cli nowMs outcome answer page, outcome.result = visited lib answer ∧
    (page, document) ∈ archived lib cli nowMs outcome

variable {lib : Libraries} {join : lib.urls.Url → Str → Option lib.urls.Url}

theorem visited_page {answer : Answer} {page : FetchedPage} {parsed : ParsedPage}
    (h : visited lib answer = .ok (.page page parsed)) :
    (∃ raw, page = canonicalFinalUrl lib raw) ∧
      lib.parsePage page.body page.finalUrl = .ok parsed := by
  cases answer with
  | error e => cases h
  | ok raw =>
    simp only [visited] at h
    split at h
    · cases h
    · split at h
      · rename_i hparse
        cases h
        exact ⟨⟨raw, rfl⟩, hparse⟩
      · cases h

/-- A document is archived under a canonical URL, or one that has no canonical form. -/
theorem Archived.url_fixed (hserial : SerialLaws lib.urls lib.forms) {document : Document}
    (h : Archived lib document) {canonical : Str}
    (hcanonical : canonicalUrl lib.urls lib.forms document.url = some canonical) :
    canonical = document.url := by
  obtain ⟨cli, nowMs, outcome, answer, page, hresult, hmem⟩ := h
  rw [archived, hresult] at hmem
  split at hmem
  · rename_i page' parsed hpage
    split at hmem
    · cases hmem
    · cases List.mem_singleton.mp hmem
      obtain ⟨⟨raw, hraw⟩, -⟩ := visited_page hpage
      change canonicalUrl lib.urls lib.forms page.finalUrl = some canonical at hcanonical
      show canonical = page.finalUrl
      rw [canonicalFinalUrl] at hraw
      split at hraw
      · rename_i fixed hfixed
        have hagain := canonicalUrl_fixed hserial hfixed
        have hurl : page.finalUrl = fixed := congrArg FetchedPage.finalUrl hraw
        rw [hurl, hagain] at hcanonical
        rw [hurl]
        exact (Option.some.inj hcanonical).symm
      · rename_i hnone
        rw [hraw, hnone] at hcanonical
        cases hcanonical
  · cases hmem

theorem Archived.links (hhttp : HttpLaws lib.urls) (hjoin : JoinLaw lib.urls join)
    (hparses : ParsesLinks lib join) {document : Document} (h : Archived lib document)
    {link : Str} (hlink : link ∈ document.outlinks) :
    ∃ canonical, canonicalUrl lib.urls lib.forms link = some canonical := by
  obtain ⟨cli, nowMs, outcome, answer, page, hresult, hmem⟩ := h
  rw [archived, hresult] at hmem
  split at hmem
  · rename_i page' parsed hpage
    split at hmem
    · cases hmem
    · cases List.mem_singleton.mp hmem
      obtain ⟨-, hparse⟩ := visited_page hpage
      obtain ⟨hrefs, base', hlinks⟩ := hparses _ _ _ hparse
      change link ∈ parsed.links at hlink
      rw [hlinks] at hlink
      exact resolveLinks_canonical lib.forms hhttp hjoin hlink
  · cases hmem

/-! ### Edges by identity -/

/-- A page has an edge to every page of the batch that one of its links leads to, and as
many edges as its links have canonical forms other than its own. -/
structure EdgesFollow (lib : Libraries) (g : LinkGraph) (documents : List Document)
    (page : Document) : Prop where
  edges : ∀ link ∈ page.outlinks, ∀ target ∈ documents,
    canonicalUrl lib.urls lib.forms link = some target.url → target.url ≠ page.url →
    g.HasEdge page.url target.url
  degree : g.outDegree page.url =
    ((page.outlinks.filterMap (canonicalUrl lib.urls lib.forms)).toFinset.erase page.url).card

/-- A page spells its links to pages of the batch as they are archived, and no two links of
it have one canonical form. -/
structure Spelled (lib : Libraries) (documents : List Document) (page : Document) : Prop where
  archived : ∀ link ∈ page.outlinks, ∀ target ∈ documents,
    canonicalUrl lib.urls lib.forms link = some target.url → link = target.url
  distinct : ∀ link ∈ page.outlinks, ∀ link' ∈ page.outlinks,
    canonicalUrl lib.urls lib.forms link = canonicalUrl lib.urls lib.forms link' → link = link'

/-- **The edges of a page follow the identity of the pages exactly if it spells its links
that way.** -/
theorem edges_follow_iff (lib : Libraries) (join : lib.urls.Url → Str → Option lib.urls.Url)
    (hhttp : HttpLaws lib.urls) (hserial : SerialLaws lib.urls lib.forms)
    (hjoin : JoinLaw lib.urls join) (hparses : ParsesLinks lib join) (limits : GraphLimits)
    (hostInlinks : Str → ℕ) (documents : List Document)
    (harchived : ∀ document ∈ documents, Archived lib document)
    (hfull : (buildGraph limits hostInlinks documents).truncated = false) (page : Document)
    (hpage : Standing documents page) :
    EdgesFollow lib (buildGraph limits hostInlinks documents) documents page ↔
      Spelled lib documents page := by
  obtain ⟨before, after, rfl, hlast⟩ := hpage
  have hmem : page ∈ before ++ page :: after := by simp
  have hpageArchived := harchived page hmem
  obtain ⟨hwf, hnodup, hlinks⟩ := buildGraph_links hlast hfull
  generalize buildGraph limits hostInlinks (before ++ page :: after) = g at *
  -- the canonical forms of the links, as a renaming
  let canonical := canonicalUrl lib.urls lib.forms
  let f := fun link => (canonical link).getD link
  have hf : ∀ link ∈ page.outlinks, canonical link = some (f link) := by
    intro link hlink
    obtain ⟨c, hc⟩ := hpageArchived.links hhttp hjoin hparses hlink
    show canonical link = some ((canonical link).getD link)
    rw [show canonical link = some c from hc]
    rfl
  have hf_iff : ∀ link ∈ page.outlinks, ∀ url, canonical link = some url ↔ f link = url := by
    intro link hlink url
    rw [hf link hlink]
    exact Option.some_inj
  have hself : page.url ∈ page.outlinks.toFinset → f page.url = page.url := by
    intro hc
    exact hpageArchived.url_fixed hserial (hf _ (List.mem_toFinset.mp hc))
  have htargets : (page.outlinks.filterMap canonical).toFinset = page.outlinks.toFinset.image f := by
    ext url
    simp only [List.mem_toFinset, List.mem_filterMap, Finset.mem_image]
    exact exists_congr fun link => and_congr_right fun hlink => hf_iff link hlink url
  have hdegree : g.outDegree page.url = (page.outlinks.toFinset.erase page.url).card := by
    rw [outDegree_eq, ← List.toFinset_card_of_nodup hnodup]
    congr 1
    ext url
    rw [List.mem_toFinset, hlinks, Finset.mem_erase, List.mem_toFinset, and_comm]
  have hcard : g.outDegree page.url =
        ((page.outlinks.filterMap canonical).toFinset.erase page.url).card ↔
      (∀ link ∈ page.outlinks, f link = page.url → link = page.url) ∧
        ∀ link ∈ page.outlinks, ∀ link' ∈ page.outlinks, f link = f link' → link = link' := by
    rw [hdegree, htargets, card_erase_image_iff f _ hself]
    simp only [List.mem_toFinset]
  constructor
  · rintro ⟨hedges, hcount⟩
    obtain ⟨hself', hinj⟩ := hcard.mp hcount
    refine ⟨fun link hlink target htarget hc => ?_, fun link hlink link' hlink' hc => ?_⟩
    · have hto : f link = target.url := (hf_iff link hlink _).mp hc
      by_cases hsame : target.url = page.url
      · rw [hsame]
        exact hself' link hlink (hto.trans hsame)
      · -- the edge goes to a link that is spelled like the page
        have hedge := (hasEdge_iff hwf).mp (hedges link hlink target htarget hc hsame)
        obtain ⟨hout, -⟩ := (hlinks _).mp hedge
        have hfixed : f target.url = target.url :=
          (harchived target htarget).url_fixed hserial (hf _ hout)
        exact hinj link hlink target.url hout (hto.trans hfixed.symm)
    · refine hinj link hlink link' hlink' ?_
      exact (hf_iff link hlink _).mp (hc.trans (hf link' hlink'))
  · rintro ⟨hspelled, hinj⟩
    refine ⟨fun link hlink target htarget hc hne => ?_, hcard.mpr ⟨fun link hlink hto => ?_, ?_⟩⟩
    · have heq := hspelled link hlink target htarget hc
      rw [hasEdge_iff hwf, hlinks]
      exact ⟨heq ▸ hlink, hne⟩
    · exact hspelled link hlink page hmem ((hf_iff link hlink _).mpr hto)
    · intro link hlink link' hlink' hsame
      refine hinj link hlink link' hlink' ?_
      show canonical link = canonical link'
      rw [hf link hlink, hf link' hlink', hsame]

/-! ### URLs with a query -/

/-- The crate on plain URLs that a query may follow. -/
def queryUrls : UrlCrate :=
  { plainUrls with
    parse := fun raw =>
      match splitOnce '?' raw with
      | none => plainUrls.parse raw
      | some (front, query) =>
        (plainUrls.parse front).map fun plain => { plain with query := some query } }

theorem queryUrls_parse (raw : Str) :
    queryUrls.parse raw =
      match splitOnce '?' raw with
      | none => plainUrls.parse raw
      | some (front, query) =>
        (plainUrls.parse front).map fun plain : PlainUrl => { plain with query := some query } := rfl

theorem queryUrls_parsed {raw : Str} {url : PlainUrl} (h : queryUrls.parse raw = some url) :
    ∃ front plain query, '?' ∉ front ∧ plainUrls.parse front = some plain ∧
      url = { plain with query } := by
  rw [queryUrls_parse, splitOnce] at h
  split at h
  · rename_i hnone
    split at hnone
    · cases hnone
    · rename_i hfront
      refine ⟨raw, url, url.query, hfront, h, rfl⟩
  · rename_i front query hsplit
    split at hsplit
    · cases hsplit
      obtain ⟨plain, hplain, rfl⟩ := Option.map_eq_some_iff.mp h
      refine ⟨_, plain, _, fun hc => ?_, hplain, rfl⟩
      have hne := List.all_eq_true.mp List.all_takeWhile _ hc
      simp at hne
    · cases hsplit

/-- Whatever query it is given, a URL is read back. -/
theorem queryUrls_reads {front : Str} {plain : PlainUrl} (hfront : '?' ∉ front)
    (hplain : plainUrls.parse front = some plain) (query : Option Str) :
    queryUrls.parse (PlainUrl.toStr { plain with query }) = some { plain with query } := by
  obtain ⟨htoStr, hquery, -⟩ := plainUrls_parsed hplain
  have hwritten : PlainUrl.toStr { plain with query } =
      front ++ (query.map fun query => '?' :: query).getD [] := by
    rw [← htoStr, PlainUrl.toStr, PlainUrl.toStr, hquery]
    simp
  rw [hwritten]
  cases query with
  | none =>
    have hnone : splitOnce '?' (front ++ []) = none := by
      rw [List.append_nil, splitOnce, if_neg hfront]
    rw [queryUrls_parse, Option.map_none, Option.getD_none, hnone, List.append_nil]
    show plainUrls.parse front = some { plain with query := none }
    rw [hplain, ← hquery]
    rfl
  | some query =>
    rw [queryUrls_parse, Option.map_some, Option.getD_some, splitOnce_append hfront]
    show (plainUrls.parse front).map _ = _
    rw [hplain]
    rfl

theorem queryUrls_http : HttpLaws queryUrls := by
  refine ⟨fun raw url h _ => ?_, fun raw url h hhttp => ?_, fun raw url query query' h hhttp _ => ?_⟩
  · obtain ⟨front, plain, query, -, hplain, rfl⟩ := queryUrls_parsed h
    exact (plainUrls_parsed hplain).2.2
  · obtain ⟨front, plain, query, hfront, hplain, rfl⟩ := queryUrls_parsed h
    exact ⟨_, queryUrls_reads hfront hplain query, hhttp⟩
  · obtain ⟨front, plain, query, hfront, hplain, rfl⟩ := queryUrls_parsed h
    exact ⟨_, queryUrls_reads hfront hplain query', hhttp⟩

theorem queryUrls_serial (forms : FormUrlencoded)
    (hforms : ∀ query pairs, pairs.Sublist (forms.parse query) → pairs ≠ [] →
      forms.parse (forms.serialize pairs) = pairs) : SerialLaws queryUrls forms where
  unfragmented raw url h hhttp := by
    obtain ⟨front, plain, query, hfront, hplain, rfl⟩ := queryUrls_parsed h
    exact ⟨_, queryUrls_reads hfront hplain query, hhttp, rfl, rfl⟩
  unqueried raw url query h hhttp _ := by
    obtain ⟨front, plain, query, hfront, hplain, rfl⟩ := queryUrls_parsed h
    exact ⟨_, queryUrls_reads hfront hplain none, hhttp, rfl, rfl⟩
  requeried raw url query pairs h hhttp _ _ _ := by
    obtain ⟨front, plain, query, hfront, hplain, rfl⟩ := queryUrls_parsed h
    exact ⟨_, queryUrls_reads hfront hplain (some (forms.serialize pairs)), hhttp, rfl, rfl⟩
  reads_back := hforms

/-- The libraries, where the body of a page is one `href` value. -/
def queryLibraries : Libraries :=
  { plainLibraries with
    urls := queryUrls
    parsePage := fun body base => .ok
      { title := [], text := [],
        links := resolveLinks queryUrls (fun _ href => queryUrls.parse href) [body] base } }

theorem queryLibraries_laws : HttpLaws queryLibraries.urls ∧
    SerialLaws queryLibraries.urls queryLibraries.forms ∧
    JoinLaw queryLibraries.urls (fun _ href => queryUrls.parse href) ∧
    ParsesLinks queryLibraries (fun _ href => queryUrls.parse href) := by
  refine ⟨queryUrls_http, queryUrls_serial _ fun query pairs hsub hne => ?_,
    fun _ _ href _ _ h => ⟨href, h⟩, fun body base parsed h => ⟨[body], base, ?_⟩⟩
  · rcases List.sublist_singleton.mp hsub with rfl | rfl
    · exact absurd rfl hne
    · simp [queryLibraries, plainLibraries]
  · cases h
    rfl

/-- A page with one link, and the document it is archived as. -/
def linkingPage (url href : Str) : FetchedPage := { blankPage url with body := href }

def linkingDocument (url href : Str) : Document :=
  documentOf queryLibraries 1000 (linkingPage url href)
    { title := [], text := [],
      links := resolveLinks queryUrls (fun _ href => queryUrls.parse href) [href] url }

/-- What visiting a page reports. -/
def visitedOutcome (url href : Str) : Outcome :=
  { host := [], job := { url, depth := 0 }, rules := none,
    rulesTtlMs := none, crawlDelayS := none, sitemaps := [],
    result := visited queryLibraries (.ok (linkingPage url href)) }

/-- The front page, with a link to the site's other page, and that page, which links back. -/
def linkedPages (href : Str) : List Document :=
  [linkingDocument "http://b.c/".toList href,
    linkingDocument "http://b.c/x".toList "http://b.c/".toList]

def roomyLimits : GraphLimits := { maxNodes := 250000, maxEdges := 2000000 }

theorem linkedPages_archived {href : Str}
    (hfront : archived queryLibraries (plainCli [] 2) 1000 (visitedOutcome "http://b.c/".toList href)
      = [(linkingPage "http://b.c/".toList href, linkingDocument "http://b.c/".toList href)]) :
    ∀ document ∈ linkedPages href, Archived queryLibraries document := by
  intro document hmem
  rcases List.mem_cons.mp hmem with rfl | hother
  · refine ⟨plainCli [] 2, 1000, visitedOutcome "http://b.c/".toList href,
      .ok (linkingPage "http://b.c/".toList href), linkingPage "http://b.c/".toList href, rfl, ?_⟩
    rw [hfront]
    exact List.mem_singleton_self _
  · rw [List.mem_singleton.mp hother]
    exact ⟨plainCli [] 2, 1000, visitedOutcome "http://b.c/x".toList "http://b.c/".toList,
      .ok (linkingPage "http://b.c/x".toList "http://b.c/".toList),
      linkingPage "http://b.c/x".toList "http://b.c/".toList, rfl, by decide⟩

theorem linkedPages_standing (href : Str) :
    Standing (linkedPages href) (linkingDocument "http://b.c/".toList href) :=
  ⟨[], [linkingDocument "http://b.c/x".toList "http://b.c/".toList], rfl, by
    show "http://b.c/".toList ∉ ["http://b.c/x".toList]
    decide⟩

/-- A link without a campaign parameter is an edge. -/
theorem edges_follow_sample :
    EdgesFollow queryLibraries
      (buildGraph roomyLimits (fun _ => 0) (linkedPages "http://b.c/x".toList))
      (linkedPages "http://b.c/x".toList)
      (linkingDocument "http://b.c/".toList "http://b.c/x".toList) := by
  obtain ⟨hhttp, hserial, hjoin, hparses⟩ := queryLibraries_laws
  refine (edges_follow_iff queryLibraries _ hhttp hserial hjoin hparses roomyLimits (fun _ => 0)
    (linkedPages "http://b.c/x".toList) (linkedPages_archived (by decide)) (by decide) _
    (linkedPages_standing _)).mpr ⟨by decide, by decide⟩

/-- A link with one is not: it is a link to a page that was never crawled. -/
theorem campaign_links_lost :
    HttpLaws queryLibraries.urls ∧ SerialLaws queryLibraries.urls queryLibraries.forms ∧
      JoinLaw queryLibraries.urls (fun _ href => queryUrls.parse href) ∧
      ParsesLinks queryLibraries (fun _ href => queryUrls.parse href) ∧
      (∀ document ∈ linkedPages "http://b.c/x?utm_source".toList,
        Archived queryLibraries document) ∧
      (buildGraph roomyLimits (fun _ => 0)
        (linkedPages "http://b.c/x?utm_source".toList)).truncated = false ∧
      Standing (linkedPages "http://b.c/x?utm_source".toList)
        (linkingDocument "http://b.c/".toList "http://b.c/x?utm_source".toList) ∧
      ¬ EdgesFollow queryLibraries
        (buildGraph roomyLimits (fun _ => 0) (linkedPages "http://b.c/x?utm_source".toList))
        (linkedPages "http://b.c/x?utm_source".toList)
        (linkingDocument "http://b.c/".toList "http://b.c/x?utm_source".toList) := by
  obtain ⟨hhttp, hserial, hjoin, hparses⟩ := queryLibraries_laws
  refine ⟨hhttp, hserial, hjoin, hparses, linkedPages_archived (by decide), by decide,
    linkedPages_standing _, fun hfollow => ?_⟩
  have hwf : Wf (buildGraph roomyLimits (fun _ => 0)
      (linkedPages "http://b.c/x?utm_source".toList)) :=
    (recordAll_spec _ _ (new_wf _ _) (by decide)).1
  have hedge := hfollow.edges "http://b.c/x?utm_source".toList (by decide)
    (linkingDocument "http://b.c/x".toList "http://b.c/".toList) (by decide) (by decide) (by decide)
  have hmem := (hasEdge_iff hwf).mp hedge
  have hlinks : (buildGraph roomyLimits (fun _ => 0)
      (linkedPages "http://b.c/x?utm_source".toList)).linksOf "http://b.c/".toList
      = ["http://b.c/x?utm_source".toList] := by decide
  exact absurd (hlinks ▸ hmem) (by decide)

end Graph
