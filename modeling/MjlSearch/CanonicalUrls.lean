/-
Canonical URLs: what the rewriting of a query keeps, and what it does not.

The `url` crate enters with what the URL standard says about setting a query and a
fragment, and about writing a URL and reading it again (`UrlLaws`), and about reading and
writing the pairs of a query (`FormLaws`, which `formUrlencoded` keeps).

* `strip_spec` — the query is left as it is, or written anew from the pairs kept;
* `canonical_projects` — what is canonical has no fragment and no campaign pair, has
  the other pairs of its source in their order, and is its own canonical form;
* `canonical_decorated_iff` — inserting campaign pairs into a query leaves the
  canonical form as it is unless writing the query anew changes it.
-/
import MjlSearch.FormEncoding

open Text Policy FormEncoding

namespace CanonicalUrls

/-- What the crate promises: setting one part of a URL leaves the others, a URL is
determined by what is written, and an `http` or `https` URL is read back as written. -/
structure UrlLaws (urls : UrlCrate) (fragment : urls.Url → Option Str) : Prop where
  scheme_setFragment : ∀ url value, urls.scheme (urls.setFragment url value) = urls.scheme url
  scheme_setQuery : ∀ url value, urls.scheme (urls.setQuery url value) = urls.scheme url
  query_setFragment : ∀ url value, urls.query (urls.setFragment url value) = urls.query url
  query_setQuery : ∀ url query, (∀ c ∈ query, isQueryChar c = true) →
    urls.query (urls.setQuery url (some query)) = some query
  query_dropped : ∀ url, urls.query (urls.setQuery url none) = none
  query_clean : ∀ url query, isHttp urls url = true → urls.query url = some query →
    ∀ c ∈ query, isQueryChar c = true
  fragment_dropped : ∀ url, fragment (urls.setFragment url none) = none
  fragment_setQuery : ∀ url value, fragment (urls.setQuery url value) = fragment url
  setFragment_same : ∀ url, isHttp urls url = true → fragment url = none →
    urls.setFragment url none = url
  setFragment_setQuery : ∀ url value, isHttp urls url = true →
    urls.setFragment (urls.setQuery url value) none = urls.setQuery (urls.setFragment url none) value
  setQuery_setQuery : ∀ url value value', isHttp urls url = true →
    urls.setQuery (urls.setQuery url value) value' = urls.setQuery url value'
  setQuery_same : ∀ url, isHttp urls url = true → urls.setQuery url (urls.query url) = url
  query_of_toStr : ∀ url url', urls.toStr url = urls.toStr url' → urls.query url = urls.query url'
  parse_toStr : ∀ url, isHttp urls url = true → urls.parse (urls.toStr url) = some url

/-- What a form encoding promises: a query is read piece by piece, and the pairs written are
read back, and need no escape in a URL. -/
structure FormLaws (forms : FormUrlencoded) : Prop where
  parse_join : ∀ parts : List Str, (∀ part ∈ parts, '&' ∉ part) →
    forms.parse (join parts) = parts.flatMap forms.parse
  parse_serialize : ∀ pairs, forms.parse (forms.serialize pairs) = pairs
  serialize_clean : ∀ pairs, ∀ c ∈ forms.serialize pairs, isQueryChar c = true

/-- A piece is a pair, unless it is empty. -/
theorem parse_piece {piece : Str} (h : '&' ∉ piece) :
    parse piece = if piece.isEmpty then [] else [readPiece piece] := by
  have hjoin : join [piece] = piece := List.intercalate_singleton
  rw [← hjoin, FormEncoding.parse_join (by simpa using h), hjoin, readPieces]
  rcases piece with _ | ⟨c, piece⟩ <;> rfl

theorem formUrlencoded_laws : FormLaws formUrlencoded where
  parse_join parts hparts := by
    show parse (join parts) = parts.flatMap parse
    rw [FormEncoding.parse_join hparts]
    induction parts with
    | nil => rfl
    | cons part parts ih =>
      rw [List.flatMap_cons, ← ih fun p hp => hparts p (List.mem_cons_of_mem _ hp),
        parse_piece (hparts part List.mem_cons_self), readPieces, List.filter_cons]
      rcases part with _ | ⟨c, part⟩ <;> rfl
  parse_serialize := parse_serialize
  serialize_clean := serialize_clean

variable {urls : UrlCrate} {fragment : urls.Url → Option Str} {forms : FormUrlencoded}

/-- The form-decoded pairs of a URL's query. -/
def pairsOf (urls : UrlCrate) (forms : FormUrlencoded) (url : urls.Url) : List (Str × Str) :=
  (urls.query url).elim [] forms.parse

/-- The pairs that are no campaign's. -/
def keptPairs (pairs : List (Str × Str)) : List (Str × Str) :=
  pairs.filter fun pair => !isTrackingParam pair.1

/-- The query the kept pairs are written as. -/
def rewritten (forms : FormUrlencoded) (pairs : List (Str × Str)) : Option Str :=
  if pairs = [] then none else some (forms.serialize pairs)

/-- No pair is a campaign's. -/
def Clean (pairs : List (Str × Str)) : Prop := ∀ pair ∈ pairs, isTrackingParam pair.1 = false

instance (pairs : List (Str × Str)) : Decidable (Clean pairs) :=
  inferInstanceAs (Decidable (∀ pair ∈ pairs, isTrackingParam pair.1 = false))

theorem keptPairs_clean (pairs : List (Str × Str)) : Clean (keptPairs pairs) := by
  intro pair hpair
  simpa using (List.mem_filter.mp hpair).2

theorem keptPairs_of_clean {pairs : List (Str × Str)} (h : Clean pairs) :
    keptPairs pairs = pairs := by
  refine List.filter_eq_self.mpr fun pair hpair => ?_
  rw [h pair hpair]
  rfl

theorem keptPairs_length_iff {pairs : List (Str × Str)} :
    (keptPairs pairs).length = pairs.length ↔ Clean pairs := by
  rw [keptPairs, List.length_filter_eq_length_iff]
  simp only [Clean, Bool.not_eq_true']

/-- **The query is left as it is, or written anew from the pairs kept.** -/
theorem strip_spec (url : urls.Url) :
    stripTrackingParams urls forms url =
      if Clean (pairsOf urls forms url) then url
      else urls.setQuery url (rewritten forms (keptPairs (pairsOf urls forms url))) := by
  rcases hquery : urls.query url with _ | query
  · simp [stripTrackingParams, pairsOf, hquery, Clean]
  · have hpairs : pairsOf urls forms url = forms.parse query := by simp [pairsOf, hquery]
    simp only [stripTrackingParams, hquery, hpairs]
    show (if (keptPairs (forms.parse query)).length = (forms.parse query).length then url
      else if keptPairs (forms.parse query) = [] then urls.setQuery url none
      else urls.setQuery url (some (forms.serialize (keptPairs (forms.parse query))))) = _
    simp only [keptPairs_length_iff, rewritten]
    split
    · rfl
    · split <;> rfl

theorem isHttp_setFragment (hlaws : UrlLaws urls fragment) (url : urls.Url) (value : Option Str) :
    isHttp urls (urls.setFragment url value) = isHttp urls url := by
  rw [isHttp, isHttp, hlaws.scheme_setFragment]

theorem isHttp_setQuery (hlaws : UrlLaws urls fragment) (url : urls.Url) (value : Option Str) :
    isHttp urls (urls.setQuery url value) = isHttp urls url := by
  rw [isHttp, isHttp, hlaws.scheme_setQuery]

theorem query_rewritten (hlaws : UrlLaws urls fragment) (hforms : FormLaws forms)
    (url : urls.Url) (pairs : List (Str × Str)) :
    urls.query (urls.setQuery url (rewritten forms pairs)) = rewritten forms pairs := by
  rw [rewritten]
  split
  · exact hlaws.query_dropped url
  · exact hlaws.query_setQuery url _ (hforms.serialize_clean pairs)

/-- The pairs written are those read. -/
theorem pairsOf_rewritten (hlaws : UrlLaws urls fragment) (hforms : FormLaws forms)
    (url : urls.Url) (pairs : List (Str × Str)) :
    pairsOf urls forms (urls.setQuery url (rewritten forms pairs)) = pairs := by
  rw [pairsOf, query_rewritten hlaws hforms, rewritten]
  split
  · rename_i hnil
    rw [hnil]
    rfl
  · exact hforms.parse_serialize pairs

/-- The canonical form of a string that parses as an `http` or `https` URL. -/
theorem canonicalUrl_eq {raw : Str} {parsed : urls.Url} (hparse : urls.parse raw = some parsed)
    (hhttp : isHttp urls parsed = true) : canonicalUrl urls forms raw =
      some (urls.toStr (stripTrackingParams urls forms
        (urls.setFragment parsed none))) := by
  simp [canonicalUrl, hparse, hhttp]

theorem canonicalUrl_some {raw url : Str} (h : canonicalUrl urls forms raw = some url) :
    ∃ parsed, urls.parse raw = some parsed ∧ isHttp urls parsed = true ∧
      url = urls.toStr (stripTrackingParams urls forms
        (urls.setFragment parsed none)) := by
  simp only [canonicalUrl, Option.bind_eq_bind, Option.bind_eq_some_iff] at h
  obtain ⟨parsed, hparse, h⟩ := h
  split at h
  · rename_i hhttp
    exact ⟨parsed, hparse, hhttp, (Option.some.inj h).symm⟩
  · cases h

/-- What stripping an `http` URL without a fragment leaves. -/
theorem strip_keeps (hlaws : UrlLaws urls fragment) (hforms : FormLaws forms) {url : urls.Url}
    (hhttp : isHttp urls url = true) (hfragment : fragment url = none) :
    let stripped := stripTrackingParams urls forms url
    isHttp urls stripped = true ∧ fragment stripped = none ∧
      pairsOf urls forms stripped = keptPairs (pairsOf urls forms url) := by
  dsimp only
  rw [strip_spec]
  split
  · rename_i hclean
    exact ⟨hhttp, hfragment, (keptPairs_of_clean hclean).symm⟩
  · refine ⟨?_, ?_, pairsOf_rewritten hlaws hforms url _⟩
    · rw [isHttp_setQuery hlaws, hhttp]
    · rw [hlaws.fragment_setQuery, hfragment]

/-- **The canonical form is a projection.**  It parses as an `http` or `https` URL without
a fragment, none of its pairs is a campaign's, its pairs are the others of its source in
their order, and it is its own canonical form. -/
theorem canonical_projects (hlaws : UrlLaws urls fragment) (hforms : FormLaws forms)
    (raw url : Str) (h : canonicalUrl urls forms raw = some url) :
    ∃ source canonical, urls.parse raw = some source ∧ urls.parse url = some canonical ∧
      isHttp urls canonical = true ∧ fragment canonical = none ∧
      Clean (pairsOf urls forms canonical) ∧
      pairsOf urls forms canonical = keptPairs (pairsOf urls forms source) ∧
      canonicalUrl urls forms url = some url := by
  obtain ⟨source, hparse, hhttp, rfl⟩ := canonicalUrl_some h
  have hhttp' : isHttp urls (urls.setFragment source none) = true := by
    rw [isHttp_setFragment hlaws, hhttp]
  obtain ⟨hstripped, hfragment, hpairs⟩ :=
    strip_keeps hlaws hforms hhttp' (hlaws.fragment_dropped source)
  have hsame : pairsOf urls forms (urls.setFragment source none) = pairsOf urls forms source := by
    rw [pairsOf, pairsOf, hlaws.query_setFragment]
  rw [hsame] at hpairs
  generalize stripTrackingParams urls forms (urls.setFragment source none) = canonical
    at hstripped hfragment hpairs
  have hclean : Clean (pairsOf urls forms canonical) := by
    rw [hpairs]
    exact keptPairs_clean _
  have hread := hlaws.parse_toStr canonical hstripped
  refine ⟨source, canonical, hparse, hread, hstripped, hfragment, hclean, hpairs, ?_⟩
  -- nothing is left to drop
  rw [canonicalUrl_eq hread hstripped, hlaws.setFragment_same canonical hstripped hfragment,
    strip_spec, if_pos hclean]

/-! ### Inserting campaign pairs -/

/-- `merged` is `l` with the elements of `inserted` at any places among its own. -/
inductive Interleaves {α : Type*} : List α → List α → List α → Prop
  | nil : Interleaves [] [] []
  | keep {l inserted merged : List α} (a : α) (h : Interleaves l inserted merged) :
      Interleaves (a :: l) inserted (a :: merged)
  | insert {l inserted merged : List α} (a : α) (h : Interleaves l inserted merged) :
      Interleaves l (a :: inserted) (a :: merged)

theorem Interleaves.mem_iff {α : Type*} {l inserted merged : List α}
    (h : Interleaves l inserted merged) {x : α} : x ∈ merged ↔ x ∈ l ∨ x ∈ inserted := by
  induction h with
  | nil => simp
  | keep a _ ih => simp only [List.mem_cons, ih, or_assoc]
  | insert a _ ih => simp only [List.mem_cons, ih, or_left_comm]

/-- What is not inserted keeps its order. -/
theorem Interleaves.flatMap_eq {α β : Type*} {l inserted merged : List α}
    (h : Interleaves l inserted merged) {f : α → List β} (hf : ∀ x ∈ inserted, f x = []) :
    merged.flatMap f = l.flatMap f := by
  induction h with
  | nil => rfl
  | keep a _ ih => rw [List.flatMap_cons, List.flatMap_cons, ih hf]
  | insert a _ ih =>
    rw [List.flatMap_cons, hf a List.mem_cons_self, List.nil_append]
    exact ih fun x hx => hf x (List.mem_cons_of_mem _ hx)

/-- A piece that is read as a pair whose key marks a campaign. -/
structure IsCampaign (forms : FormUrlencoded) (piece : Str) : Prop where
  reads : ∃ key value, forms.parse piece = [(key, value)] ∧ isTrackingParam key = true
  whole : '&' ∉ piece
  clean : ∀ c ∈ piece, isQueryChar c = true

/-- Such is `key=value`, if the decoded key marks a campaign. -/
theorem IsCampaign.of_key {key value : Str} (hkey : '=' ∉ key)
    (htracking : isTrackingParam (decode key) = true) (hwhole : '&' ∉ key ++ '=' :: value)
    (hclean : ∀ c ∈ key ++ '=' :: value, isQueryChar c = true) :
    IsCampaign formUrlencoded (key ++ '=' :: value) := by
  have hall : ∀ c ∈ key, (c != '=') = true := by
    intro c hc
    rw [bne_iff_ne]
    rintro rfl
    exact hkey hc
  refine ⟨⟨decode key, decode value, ?_, htracking⟩, hwhole, hclean⟩
  show parse (key ++ '=' :: value) = _
  rw [parse_piece hwhole, if_neg (by simp), readPiece, List.takeWhile_append_of_pos hall,
    List.dropWhile_append_of_pos hall]
  simp

/-- The pieces of a URL's query. -/
def piecesOf (urls : UrlCrate) (url : urls.Url) : List Str := (urls.query url).elim [] pieces

/-- A URL with pieces inserted into its query, at any places, is another; a URL without a
query is given one. -/
def Decorates (urls : UrlCrate) (url : urls.Url) (inserted : List Str) (decorated : urls.Url) :
    Prop :=
  ∃ merged, Interleaves (piecesOf urls url) inserted merged ∧
    decorated = if inserted = [] then url else urls.setQuery url (some (join merged))

/-- Nothing of such a piece is kept. -/
theorem IsCampaign.dropped {piece : Str} (h : IsCampaign forms piece) :
    keptPairs (forms.parse piece) = [] := by
  obtain ⟨key, value, hreads, htracking⟩ := h.reads
  simp [keptPairs, hreads, htracking]

theorem keptPairs_flatMap (parts : List Str) :
    keptPairs (parts.flatMap forms.parse) = parts.flatMap fun part => keptPairs (forms.parse part) :=
  List.filter_flatMap

theorem pairsOf_eq (hforms : FormLaws forms) (url : urls.Url) :
    pairsOf urls forms url = (piecesOf urls url).flatMap forms.parse := by
  rw [pairsOf, piecesOf]
  rcases urls.query url with _ | query
  · rfl
  · show forms.parse query = (pieces query).flatMap forms.parse
    rw [← hforms.parse_join _ fun _ hpart => mem_pieces hpart, join_pieces]

/-- The pieces that come together in a decorated query. -/
theorem merged_parts (hlaws : UrlLaws urls fragment) {url : urls.Url}
    (hhttp : isHttp urls url = true) {inserted merged : List Str}
    (hinserted : ∀ piece ∈ inserted, IsCampaign forms piece)
    (h : Interleaves (piecesOf urls url) inserted merged) :
    (∀ part ∈ merged, '&' ∉ part) ∧ ∀ c ∈ join merged, isQueryChar c = true := by
  have hpieces : ∀ part ∈ piecesOf urls url, '&' ∉ part ∧ ∀ c ∈ part, isQueryChar c = true := by
    intro part hpart
    rw [piecesOf] at hpart
    rcases hquery : urls.query url with _ | query
    · rw [hquery] at hpart
      cases hpart
    · rw [hquery] at hpart
      refine ⟨mem_pieces hpart, fun c hc => hlaws.query_clean url query hhttp hquery c ?_⟩
      rw [← join_pieces query]
      exact mem_join_of_mem hpart hc
  have hparts : ∀ part ∈ merged, '&' ∉ part ∧ ∀ c ∈ part, isQueryChar c = true := by
    intro part hpart
    rcases h.mem_iff.mp hpart with hpart | hpart
    · exact hpieces part hpart
    · exact ⟨(hinserted part hpart).whole, (hinserted part hpart).clean⟩
  refine ⟨fun part hpart => (hparts part hpart).1, fun c hc => ?_⟩
  rcases mem_join hc with rfl | ⟨part, hpart, hc⟩
  · decide
  · exact (hparts part hpart).2 c hc

/-- **What a decorated query is rewritten to**: the pairs that were kept of the query it was
made from. -/
theorem strip_decorated (hlaws : UrlLaws urls fragment) (hforms : FormLaws forms)
    {url : urls.Url} (hhttp : isHttp urls url = true) {inserted merged : List Str}
    (hinserted : ∀ piece ∈ inserted, IsCampaign forms piece) (hsome : inserted ≠ [])
    (h : Interleaves (piecesOf urls url) inserted merged) :
    stripTrackingParams urls forms (urls.setQuery url (some (join merged)))
      = urls.setQuery url (rewritten forms (keptPairs (pairsOf urls forms url))) := by
  obtain ⟨hwhole, hclean⟩ := merged_parts hlaws hhttp hinserted h
  have hpairs : pairsOf urls forms (urls.setQuery url (some (join merged)))
      = merged.flatMap forms.parse := by
    rw [pairsOf, hlaws.query_setQuery url _ hclean]
    exact hforms.parse_join merged hwhole
  have hkept : keptPairs (merged.flatMap forms.parse) = keptPairs (pairsOf urls forms url) := by
    rw [pairsOf_eq hforms, keptPairs_flatMap, keptPairs_flatMap]
    exact h.flatMap_eq fun piece hpiece => (hinserted piece hpiece).dropped
  have hdirty : ¬ Clean (merged.flatMap forms.parse) := by
    obtain ⟨piece, hpiece⟩ := List.exists_mem_of_ne_nil inserted hsome
    obtain ⟨key, value, hreads, htracking⟩ := (hinserted piece hpiece).reads
    intro hall
    have hmem : (key, value) ∈ merged.flatMap forms.parse := by
      refine List.mem_flatMap.mpr ⟨piece, h.mem_iff.mpr (Or.inr hpiece), ?_⟩
      rw [hreads]
      exact List.mem_singleton_self _
    have hcleaned : isTrackingParam key = false := hall _ hmem
    rw [htracking] at hcleaned
    cases hcleaned
  rw [strip_spec, hpairs, if_neg hdirty, hkept, hlaws.setQuery_setQuery url _ _ hhttp]

/-- Writing the pairs of a query anew gives the query back. -/
def WrittenAsRead (urls : UrlCrate) (forms : FormUrlencoded) (url : urls.Url) : Prop :=
  urls.query url = rewritten forms (pairsOf urls forms url)

theorem rewritten_eq_iff (hlaws : UrlLaws urls fragment) (hforms : FormLaws forms)
    {url : urls.Url} (hhttp : isHttp urls url = true) :
    urls.toStr (urls.setQuery url (rewritten forms (pairsOf urls forms url))) = urls.toStr url ↔
      WrittenAsRead urls forms url := by
  constructor
  · intro h
    have hquery := hlaws.query_of_toStr _ _ h
    rw [query_rewritten hlaws hforms] at hquery
    exact hquery.symm
  · intro h
    rw [← h, hlaws.setQuery_same url hhttp]

/-- **Campaign pairs in a query leave the canonical form as it is** iff none is inserted,
or the query has one already, or writing its pairs anew gives the query back. -/
theorem canonical_decorated_iff (hlaws : UrlLaws urls fragment) (hforms : FormLaws forms)
    (raw raw' : Str) (url decorated : urls.Url) (inserted : List Str)
    (hparse : urls.parse raw = some url) (hhttp : isHttp urls url = true)
    (hinserted : ∀ piece ∈ inserted, IsCampaign forms piece)
    (hdecorates : Decorates urls url inserted decorated)
    (hparse' : urls.parse raw' = some decorated) :
    canonicalUrl urls forms raw' = canonicalUrl urls forms raw ↔
      inserted = [] ∨ ¬ Clean (pairsOf urls forms url) ∨ WrittenAsRead urls forms url := by
  obtain ⟨merged, hmerged, hdecorated⟩ := hdecorates
  by_cases hnone : inserted = []
  · rw [if_pos hnone] at hdecorated
    rw [hdecorated] at hparse'
    refine iff_of_true ?_ (Or.inl hnone)
    rw [canonicalUrl_eq hparse hhttp, canonicalUrl_eq hparse' hhttp]
  · rw [if_neg hnone] at hdecorated
    have hhttp' : isHttp urls decorated = true := by
      rw [hdecorated, isHttp_setQuery hlaws, hhttp]
    -- without its fragment, the decorated URL is the other one decorated
    have hbare : isHttp urls (urls.setFragment url none) = true := by
      rw [isHttp_setFragment hlaws, hhttp]
    have hpieces : piecesOf urls (urls.setFragment url none) = piecesOf urls url := by
      rw [piecesOf, piecesOf, hlaws.query_setFragment]
    have hpairs : pairsOf urls forms (urls.setFragment url none) = pairsOf urls forms url := by
      rw [pairsOf, pairsOf, hlaws.query_setFragment]
    have hstrip : stripTrackingParams urls forms (urls.setFragment decorated none)
        = urls.setQuery (urls.setFragment url none)
          (rewritten forms (keptPairs (pairsOf urls forms url))) := by
      rw [hdecorated, hlaws.setFragment_setQuery url _ hhttp,
        strip_decorated hlaws hforms hbare hinserted hnone (by rw [hpieces]; exact hmerged), hpairs]
    rw [canonicalUrl_eq hparse hhttp, canonicalUrl_eq hparse' hhttp', hstrip, strip_spec, hpairs,
      Option.some.injEq]
    by_cases hclean : Clean (pairsOf urls forms url)
    · rw [if_pos hclean, keptPairs_of_clean hclean, ← hpairs,
        rewritten_eq_iff hlaws hforms hbare, hpairs]
      simp [hnone, hclean, WrittenAsRead, hlaws.query_setFragment, hpairs]
    · rw [if_neg hclean]
      exact iff_of_true rfl (Or.inr (Or.inl hclean))

/-! ### URLs that are cut at the question mark and the number sign -/

/-- A URL `http://rest?query#fragment`. -/
structure WebUrl where
  secure : Bool
  rest : { s : Str // (s.all fun c => c != '?' && c != '#') = true }
  query : Option { s : Str // s.all isQueryChar = true }
  fragment : Option Str

namespace WebUrl

def scheme (url : WebUrl) : Str := if url.secure then "https".toList else "http".toList

/-- What stands before the fragment. -/
def front (url : WebUrl) : Str :=
  url.rest.val ++ (url.query.map fun query => '?' :: query.val).getD []

def toStr (url : WebUrl) : Str :=
  url.scheme ++ "://".toList ++ (url.front ++ (url.fragment.map fun s => '#' :: s).getD [])

/-- What stands before and after the first separator, if there is one. -/
def cut (separator : Char) (s : Str) : Str × Option Str :=
  match splitOnce separator s with
  | some (before, after) => (before, some after)
  | none => (s, none)

/-- Reads what follows the scheme. -/
def read (secure : Bool) (s : Str) : Option WebUrl :=
  let (front, fragment) := cut '#' s
  let (rest, query) := cut '?' front
  if hrest : (rest.all fun c => c != '?' && c != '#') = true then
    match query with
    | none => some { secure, rest := ⟨rest, hrest⟩, query := none, fragment }
    | some query =>
      if hquery : query.all isQueryChar = true then
        some { secure, rest := ⟨rest, hrest⟩, query := some ⟨query, hquery⟩, fragment }
      else none
  else none

def parse (raw : Str) : Option WebUrl :=
  match "https://".toList.isPrefixOf? raw with
  | some s => read true s
  | none => ("http://".toList.isPrefixOf? raw).bind (read false)

def setPath (url : WebUrl) (path : Str) : WebUrl :=
  { url with rest := ⟨(url.rest.val.takeWhile fun c => c != '/') ++
      path.filter fun c => c != '?' && c != '#', by
    refine List.all_eq_true.mpr fun c hc => ?_
    rcases List.mem_append.mp hc with hc | hc
    · exact List.all_eq_true.mp url.rest.property c (List.takeWhile_subset _ hc)
    · exact (List.mem_filter.mp hc).2⟩ }

/-- A query is stored without the characters it may not have. -/
def setQuery (url : WebUrl) (query : Option Str) : WebUrl :=
  { url with query := query.map fun s =>
      ⟨s.filter isQueryChar, List.all_eq_true.mpr fun _ hc => (List.mem_filter.mp hc).2⟩ }

theorem cut_append {separator : Char} {before : Str} (h : separator ∉ before)
    (after : Option Str) :
    cut separator (before ++ (after.map fun s => separator :: s).getD []) = (before, after) := by
  rcases after with _ | after
  · simp [cut, splitOnce, h]
  · rw [cut, Option.map_some, Option.getD_some, splitOnce_append h]

theorem read_front (url : WebUrl) :
    read url.secure (url.front ++ (url.fragment.map fun s => '#' :: s).getD []) = some url := by
  obtain ⟨secure, ⟨rest, hrest⟩, query, fragment⟩ := url
  have hmark : '?' ∉ rest := fun hmem => absurd (List.all_eq_true.mp hrest _ hmem) (by decide)
  have hsign : '#' ∉ front ⟨secure, ⟨rest, hrest⟩, query, fragment⟩ := by
    rw [front, List.mem_append]
    rintro (hmem | hmem)
    · exact absurd (List.all_eq_true.mp hrest _ hmem) (by decide)
    · rcases query with _ | ⟨query, hquery⟩
      · cases hmem
      · rcases List.mem_cons.mp hmem with heq | hmem
        · exact absurd heq (by decide)
        · exact absurd (List.all_eq_true.mp hquery _ hmem) (by decide)
  have hcut : cut '?' (front ⟨secure, ⟨rest, hrest⟩, query, fragment⟩)
      = (rest, query.map Subtype.val) := by
    have hcut := cut_append hmark (query.map Subtype.val)
    rwa [Option.map_map] at hcut
  simp only [read, cut_append hsign, hcut]
  rw [dif_pos hrest]
  rcases query with _ | ⟨query, hquery⟩
  · rfl
  · simp only [Option.map_some]
    rw [dif_pos hquery]

theorem parse_toStr (url : WebUrl) : parse url.toStr = some url := by
  have hread := read_front url
  rw [toStr, scheme, parse]
  rcases hsecure : url.secure with _ | _
  · rw [hsecure] at hread
    exact hread
  · rw [hsecure] at hread
    exact hread

theorem toStr_injective {url url' : WebUrl} (h : url.toStr = url'.toStr) : url = url' := by
  have hread := parse_toStr url
  rw [h, parse_toStr] at hread
  exact (Option.some.inj hread).symm

end WebUrl

/-- The crate on URLs of that form. -/
def webUrls : UrlCrate where
  Url := WebUrl
  parse := WebUrl.parse
  toStr := WebUrl.toStr
  scheme := WebUrl.scheme
  hostStr url := some (url.rest.val.takeWhile fun c => c != '/')
  path url := url.rest.val.dropWhile fun c => c != '/'
  query url := url.query.map Subtype.val
  setPath := WebUrl.setPath
  setQuery := WebUrl.setQuery
  setFragment url fragment := { url with fragment }

theorem webUrls_laws : UrlLaws webUrls WebUrl.fragment where
  scheme_setFragment _ _ := rfl
  scheme_setQuery _ _ := rfl
  query_setFragment _ _ := rfl
  query_setQuery url query hclean := by
    show some (query.filter isQueryChar) = some query
    rw [List.filter_eq_self.mpr hclean]
  query_dropped _ := rfl
  query_clean url query _ hquery := by
    obtain ⟨stored, _, rfl⟩ := Option.map_eq_some_iff.mp hquery
    exact List.all_eq_true.mp stored.property
  fragment_dropped _ := rfl
  fragment_setQuery _ _ := rfl
  setFragment_same url _ hnone := by
    rcases url with ⟨secure, rest, query, fragment⟩
    obtain rfl : fragment = none := hnone
    rfl
  setFragment_setQuery _ _ _ := rfl
  setQuery_setQuery _ _ _ _ := rfl
  setQuery_same url _ := by
    rcases url with ⟨secure, rest, query, fragment⟩
    rcases query with _ | ⟨query, hquery⟩
    · rfl
    · simp only [webUrls, WebUrl.setQuery, Option.map_some,
        List.filter_eq_self.mpr (List.all_eq_true.mp hquery)]
  query_of_toStr url url' h := by
    rw [WebUrl.toStr_injective h]
  parse_toStr url _ := WebUrl.parse_toStr url

/-- The page `https://a.org/s` with a query. -/
def pageUrl (query : Str) : Str := "https://a.org/s?".toList ++ query

theorem utm_source_campaign : IsCampaign formUrlencoded "utm_source=x".toList :=
  @IsCampaign.of_key "utm_source".toList ['x'] (by decide) (by decide +kernel) (by decide)
    (List.all_eq_true.mp (by decide))

/-- **A campaign parameter makes a second document of one page**: with `q=a,b` for its
query, a page is canonical as it is; with a campaign parameter after it, the comma comes
back escaped. -/
theorem comma_escaped :
    IsCampaign formUrlencoded "utm_source=x".toList ∧
      canonicalUrl webUrls formUrlencoded (pageUrl "q=a,b&utm_source=x".toList)
        = some (pageUrl "q=a%2Cb".toList) ∧
      canonicalUrl webUrls formUrlencoded (pageUrl "q=a,b&utm_source=x".toList)
        ≠ canonicalUrl webUrls formUrlencoded (pageUrl "q=a,b".toList) := by
  exact ⟨utm_source_campaign, by decide +kernel, by decide +kernel⟩

/-- The canonical form of a URL with a campaign parameter and a fragment. -/
theorem canonical_projects_sample :
    canonicalUrl webUrls formUrlencoded (pageUrl "q=a,b&utm_source=x#top".toList)
        = some (pageUrl "q=a%2Cb".toList) ∧
      canonicalUrl webUrls formUrlencoded (pageUrl "q=a%2Cb".toList)
        = some (pageUrl "q=a%2Cb".toList) := by
  have hcanonical : canonicalUrl webUrls formUrlencoded
      (pageUrl "q=a,b&utm_source=x#top".toList) = some (pageUrl "q=a%2Cb".toList) := by
    decide +kernel
  obtain ⟨_, _, _, _, _, _, _, _, hfixed⟩ :=
    canonical_projects webUrls_laws formUrlencoded_laws _ _ hcanonical
  exact ⟨hcanonical, hfixed⟩

/-- The page `https://a.org/s?id=7`. -/
def samplePage : WebUrl where
  secure := true
  rest := ⟨"a.org/s".toList, by decide⟩
  query := some ⟨"id=7".toList, by decide⟩
  fragment := none

/-- A query that is written as it was read: a campaign parameter before it changes nothing. -/
theorem canonical_decorated_iff_sample :
    samplePage.toStr = pageUrl "id=7".toList ∧
      canonicalUrl webUrls formUrlencoded (pageUrl "utm_source=x&id=7".toList)
        = canonicalUrl webUrls formUrlencoded samplePage.toStr := by
  have hpieces : piecesOf webUrls samplePage = ["id=7".toList] := by decide +kernel
  have hwritten : WrittenAsRead webUrls formUrlencoded samplePage := by
    show webUrls.query samplePage
      = rewritten formUrlencoded (pairsOf webUrls formUrlencoded samplePage)
    decide +kernel
  have hdecorates : Decorates webUrls samplePage ["utm_source=x".toList]
      (samplePage.setQuery (some "utm_source=x&id=7".toList)) := by
    refine ⟨["utm_source=x".toList, "id=7".toList], ?_, rfl⟩
    rw [hpieces]
    exact Interleaves.insert _ (Interleaves.keep _ Interleaves.nil)
  have hcampaign : ∀ piece ∈ ["utm_source=x".toList], IsCampaign formUrlencoded piece := by
    intro piece hpiece
    rw [List.mem_singleton.mp hpiece]
    exact utm_source_campaign
  have hread : webUrls.parse (pageUrl "utm_source=x&id=7".toList)
      = some (samplePage.setQuery (some "utm_source=x&id=7".toList)) :=
    WebUrl.parse_toStr (samplePage.setQuery (some "utm_source=x&id=7".toList))
  exact ⟨by decide, (canonical_decorated_iff webUrls_laws formUrlencoded_laws samplePage.toStr _
    samplePage _ _ (WebUrl.parse_toStr samplePage) rfl hcampaign hdecorates hread).mpr
      (Or.inr (Or.inr hwritten))⟩

end CanonicalUrls
