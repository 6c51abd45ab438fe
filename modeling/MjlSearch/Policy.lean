/-
Crawl policy: which URLs are worth fetching, and in what form
(`crawler::policy`).

The form encoding of a query is the `url` crate's, and enters as a
`FormUrlencoded`.

* `canonicalUrl_http` — what is canonical parses as an `http` or `https` URL;
* `canonicalUrl_fixed` — it is its own canonical form;
* `requestPath_slash` — the path such a URL is requested by starts with a slash.
-/
import MjlSearch.Urls

open Text

/-- `url::form_urlencoded`: reading the pairs of a query, and writing them. -/
structure FormUrlencoded where
  parse : Str → List (Str × Str)
  serialize : List (Str × Str) → Str

namespace Policy

/-- Query parameters that identify a campaign or a session. -/
def trackingParams : List Str :=
  ["fbclid", "gclid", "gclsrc", "dclid", "msclkid", "yclid", "twclid", "igshid", "mc_cid",
    "mc_eid", "s_kwcid", "vero_conv", "vero_id", "wickedid", "_openstat", "_ga", "_gl", "ef_id",
    "spm", "scm", "ucbcb", "ucpp", "primecampaignid", "gsc"].map String.toList

/-- Parameter-name prefixes that mark a campaign parameter. -/
def trackingPrefixes : List Str :=
  ["utm_", "pk_", "mtm_", "hsa_", "ref_", "pf_rd_", "pd_rd_", "_gac_"].map String.toList

/-- File extensions that are never an HTML page. -/
def nonPageExtensions : List Str :=
  ["jpg", "jpeg", "png", "gif", "webp", "svg", "ico", "bmp", "tif", "tiff", "avif", "heic",
    "css", "js", "mjs", "map", "wasm", "woff", "woff2", "ttf", "otf", "eot",
    "mp3", "mp4", "m4a", "m4v", "wav", "ogg", "oga", "ogv", "webm", "avi", "mov", "mkv", "flv",
    "zip", "tar", "rar", "7z", "bz2", "xz", "exe", "dmg", "deb", "rpm", "apk", "iso", "bin",
    "pdf", "ps", "eps", "csv", "tsv", "xls", "xlsx", "doc", "docx", "ppt", "pptx", "odt",
    "ods"].map String.toList

/-- Whether a parameter name is a campaign or session marker. -/
def isTrackingParam (name : Str) : Bool :=
  let lowered := asciiLower name
  trackingParams.contains lowered || trackingPrefixes.any fun start => start.isPrefixOf lowered

variable (urls : UrlCrate) (forms : FormUrlencoded)

/-- A URL the crawler can fetch. -/
def isHttp (url : urls.Url) : Bool :=
  urls.scheme url = "http".toList ∨ urls.scheme url = "https".toList

/-- Removes campaign parameters; a query without any is left byte for byte. -/
def stripTrackingParams (parsed : urls.Url) : urls.Url :=
  match urls.query parsed with
  | none => parsed
  | some query =>
    let pairs := forms.parse query
    let kept := pairs.filter fun pair => !isTrackingParam pair.1
    if kept.length = pairs.length then parsed
    else if kept = [] then urls.setQuery parsed none
    else urls.setQuery parsed (some (forms.serialize kept))

/-- The canonical, fetchable form of a URL, or `none` if it is not one. -/
def canonicalUrl (raw : Str) : Option Str := do
  let parsed ← urls.parse raw
  if isHttp urls parsed then
    some (urls.toStr (stripTrackingParams urls forms (urls.setFragment parsed none)))
  else none

/-- What stands after the last slash. -/
def lastSegment (path : Str) : Str := (path.reverse.takeWhile fun c => c != '/').reverse

/-- Strips a suffix, if it is there. -/
def stripSuffix (suffix s : Str) : Str :=
  if suffix.isSuffixOf s then s.take (s.length - suffix.length) else s

/-- What stands before and after the last separator. -/
def rsplitOnce (separator : Char) (s : Str) : Option (Str × Str) :=
  (splitOnce separator s.reverse).map fun p => (p.2.reverse, p.1.reverse)

/-- Whether a URL plausibly addresses an HTML document. -/
def isProbablyPage (url : Str) : Bool :=
  match urls.parse url with
  | none => false
  | some parsed =>
    match rsplitOnce '.' (stripSuffix ".gz".toList (asciiLower (lastSegment (urls.path parsed)))) with
    -- a leading dot with no stem is a filename, not a suffix
    | some (stem, extension) => stem = [] || !nonPageExtensions.contains extension
    | none => true

/-- Whether a URL addresses a sitemap rather than a page. -/
def isSitemapUrl (url : Str) : Bool :=
  match urls.parse url with
  | none => false
  | some parsed =>
    let path := asciiLower (urls.path parsed)
    "sitemap.xml".toList.isSuffixOf path || ".xml".toList.isSuffixOf path ||
      ".xml.gz".toList.isSuffixOf path

/-- Whether a server answered with XML that is not HTML. -/
def isXmlContentType : Option Str → Bool
  | none => false
  | some value =>
    let value := asciiLower value
    contains value "xml".toList && !contains value "html".toList

/-- The set of hosts a crawl is allowed to fetch from. -/
structure CrawlScope where
  hosts : List Str
  restricted : Bool

namespace CrawlScope

/-- Builds a scope from seeds and explicitly allowed hosts. -/
def new (restricted : Bool) (seeds allowedHosts : List Str) : CrawlScope :=
  let hosts := seeds.filterMap urls.hostOf ++ allowedHosts.map fun host => asciiLower (trim host)
  { hosts, restricted := restricted || !hosts.isEmpty }

/-- Whether a URL is inside the crawl's scope. -/
def allows (scope : CrawlScope) (url : Str) : Bool :=
  if !scope.restricted then true
  else
    match urls.hostOf url with
    | some host => scope.hosts.contains host
    | none => false

end CrawlScope

/-! ### Canonical URLs -/

/-- What the crate promises about `http` and `https` URLs: their path starts with a
slash, and an edited URL still reads as one. -/
structure HttpLaws (urls : UrlCrate) : Prop where
  path_slash : ∀ raw url, urls.parse raw = some url → isHttp urls url = true →
    (urls.path url).head? = some '/'
  unfragmented : ∀ raw url, urls.parse raw = some url → isHttp urls url = true →
    ∃ url', urls.parse (urls.toStr (urls.setFragment url none)) = some url' ∧
      isHttp urls url' = true
  requeried : ∀ raw url query query', urls.parse raw = some url → isHttp urls url = true →
    urls.query (urls.setFragment url none) = some query →
    ∃ url', urls.parse (urls.toStr (urls.setQuery (urls.setFragment url none) query'))
      = some url' ∧ isHttp urls url' = true

/-- A string that parses as an `http` or `https` URL. -/
def IsHttpUrl (url : Str) : Prop := ∃ parsed, urls.parse url = some parsed ∧ isHttp urls parsed = true

variable {urls forms}

theorem canonicalUrl_http (hlaws : HttpLaws urls) {raw url : Str}
    (h : canonicalUrl urls forms raw = some url) : IsHttpUrl urls url := by
  simp only [canonicalUrl, Option.bind_eq_bind, Option.bind_eq_some_iff] at h
  obtain ⟨parsed, hparse, h⟩ := h
  split at h
  · rename_i hhttp
    cases h
    rw [stripTrackingParams]
    split
    · exact hlaws.unfragmented raw parsed hparse hhttp
    · rename_i query hquery
      dsimp only
      split
      · exact hlaws.unfragmented raw parsed hparse hhttp
      · split
        · exact hlaws.requeried raw parsed query _ hparse hhttp hquery
        · exact hlaws.requeried raw parsed query _ hparse hhttp hquery
  · cases h

/-- What the crate promises about writing a URL and reading it again: a URL without a
fragment is read as one that is written the same, a query that is set is there, and the
pairs that make up a query are read back. -/
structure SerialLaws (urls : UrlCrate) (forms : FormUrlencoded) : Prop where
  unfragmented : ∀ raw url, urls.parse raw = some url → isHttp urls url = true →
    ∃ url', urls.parse (urls.toStr (urls.setFragment url none)) = some url' ∧
      isHttp urls url' = true ∧
      urls.query (urls.setFragment url' none) = urls.query (urls.setFragment url none) ∧
      urls.toStr (urls.setFragment url' none) = urls.toStr (urls.setFragment url none)
  unqueried : ∀ raw url query, urls.parse raw = some url → isHttp urls url = true →
    urls.query (urls.setFragment url none) = some query →
    ∃ url', urls.parse (urls.toStr (urls.setQuery (urls.setFragment url none) none)) = some url' ∧
      isHttp urls url' = true ∧ urls.query (urls.setFragment url' none) = none ∧
      urls.toStr (urls.setFragment url' none)
        = urls.toStr (urls.setQuery (urls.setFragment url none) none)
  requeried : ∀ raw url query pairs, urls.parse raw = some url → isHttp urls url = true →
    urls.query (urls.setFragment url none) = some query →
    pairs.Sublist (forms.parse query) → pairs ≠ [] →
    ∃ url', urls.parse (urls.toStr
        (urls.setQuery (urls.setFragment url none) (some (forms.serialize pairs)))) = some url' ∧
      isHttp urls url' = true ∧
      urls.query (urls.setFragment url' none) = some (forms.serialize pairs) ∧
      urls.toStr (urls.setFragment url' none) = urls.toStr
        (urls.setQuery (urls.setFragment url none) (some (forms.serialize pairs)))
  reads_back : ∀ query pairs, pairs.Sublist (forms.parse query) → pairs ≠ [] →
    forms.parse (forms.serialize pairs) = pairs

/-- A URL that has no query, or none of whose parameters marks a campaign, keeps it. -/
theorem stripTrackingParams_of_clean {url : urls.Url}
    (h : ∀ query, urls.query url = some query →
      ∀ pair ∈ forms.parse query, isTrackingParam pair.1 = false) :
    stripTrackingParams urls forms url = url := by
  rw [stripTrackingParams]
  split
  · rfl
  · rename_i query hquery
    have hall : (forms.parse query).filter (fun pair => !isTrackingParam pair.1)
        = forms.parse query := by
      refine List.filter_eq_self.mpr fun pair hpair => ?_
      rw [h query hquery pair hpair]
      rfl
    dsimp only
    rw [hall, if_pos rfl]

/-- **A canonical URL is its own canonical form.** -/
theorem canonicalUrl_fixed (hlaws : SerialLaws urls forms) {raw url : Str}
    (h : canonicalUrl urls forms raw = some url) : canonicalUrl urls forms url = some url := by
  simp only [canonicalUrl, Option.bind_eq_bind, Option.bind_eq_some_iff] at h
  obtain ⟨parsed, hparse, h⟩ := h
  split at h
  · rename_i hhttp
    -- what is read again is written the same, if none of its parameters is dropped
    have hagain : ∀ edited url', urls.parse (urls.toStr edited) = some url' →
        isHttp urls url' = true →
        urls.toStr (urls.setFragment url' none) = urls.toStr edited →
        (∀ query, urls.query (urls.setFragment url' none) = some query →
          ∀ pair ∈ forms.parse query, isTrackingParam pair.1 = false) →
        canonicalUrl urls forms (urls.toStr edited) = some (urls.toStr edited) := by
      intro edited url' hparse' hhttp' hstr hclean
      simp only [canonicalUrl, Option.bind_eq_bind, hparse', Option.bind_some, hhttp', if_true]
      rw [stripTrackingParams_of_clean hclean, hstr]
    cases h
    rw [stripTrackingParams]
    split
    · rename_i hquery
      obtain ⟨url', hparse', hhttp', hquery', hstr⟩ := hlaws.unfragmented raw parsed hparse hhttp
      refine hagain _ url' hparse' hhttp' hstr fun query hc => ?_
      rw [hquery', hquery] at hc
      cases hc
    · rename_i query hquery
      dsimp only
      split
      · rename_i hlength
        obtain ⟨url', hparse', hhttp', hquery', hstr⟩ := hlaws.unfragmented raw parsed hparse hhttp
        refine hagain _ url' hparse' hhttp' hstr fun query' hc pair hpair => ?_
        rw [hquery', hquery] at hc
        cases hc
        have hall := List.length_filter_eq_length_iff.mp hlength pair hpair
        simpa using hall
      · split
        · obtain ⟨url', hparse', hhttp', hquery', hstr⟩ :=
            hlaws.unqueried raw parsed query hparse hhttp hquery
          refine hagain _ url' hparse' hhttp' hstr fun query' hc => ?_
          rw [hquery'] at hc
          cases hc
        · rename_i hsome
          have hsub : ((forms.parse query).filter fun pair => !isTrackingParam pair.1).Sublist
              (forms.parse query) := List.filter_sublist
          obtain ⟨url', hparse', hhttp', hquery', hstr⟩ :=
            hlaws.requeried raw parsed query _ hparse hhttp hquery hsub hsome
          refine hagain _ url' hparse' hhttp' hstr fun query' hc pair hpair => ?_
          rw [hquery'] at hc
          cases hc
          rw [hlaws.reads_back query _ hsub hsome] at hpair
          simpa using (List.mem_filter.mp hpair).2
  · cases h

/-- **A fetchable URL is requested by a path that starts with a slash.** -/
theorem requestPath_slash (hlaws : HttpLaws urls) {url : Str} (h : IsHttpUrl urls url) :
    (urls.requestPath url).head? = some '/' := by
  obtain ⟨parsed, hparse, hhttp⟩ := h
  have hslash := hlaws.path_slash url parsed hparse hhttp
  rw [UrlCrate.requestPath, hparse]
  dsimp only
  split
  · rw [List.head?_append, hslash]
    rfl
  · exact hslash

/-! ### Plain URLs -/

/-- A plain URL is written as it was read. -/
theorem toStr_of_parseScheme {scheme raw : Str} {url : PlainUrl}
    (h : PlainUrl.parseScheme scheme raw = some url) :
    url.toStr = raw ∧ url.scheme = scheme ∧ url.query = none ∧ url.path.head? = some '/' := by
  simp only [PlainUrl.parseScheme, Option.bind_eq_bind, Option.bind_eq_some_iff] at h
  obtain ⟨rest, hrest, h⟩ := h
  split at h
  · rename_i hfits
    cases h
    refine ⟨?_, rfl, rfl, ?_⟩
    · have hraw : raw = scheme ++ "://".toList ++ rest :=
        (List.isPrefixOf?_eq_some_iff_append_eq.mp hrest).symm
      simp only [PlainUrl.toStr, Option.map_none, Option.getD_none, List.append_nil]
      rw [hraw, List.append_assoc, List.append_assoc, ← List.append_assoc (List.takeWhile _ _),
        List.takeWhile_append_dropWhile, List.takeWhile_append_dropWhile]
    · -- the path begins where the authority ends
      rcases hpath : rest.dropWhile (fun c => c != '/') with _ | ⟨c, path⟩
      · exact absurd hpath (decide_eq_true_eq.mp hfits.2).1
      · have hc : (c != '/') = false := by
          have hhead := List.head?_dropWhile_not (fun c => c != '/') rest
          rwa [hpath] at hhead
        simpa using hc
  · cases h

theorem plainUrls_parsed {raw : Str} {url : PlainUrl} (h : plainUrls.parse raw = some url) :
    url.toStr = raw ∧ url.query = none ∧ url.path.head? = some '/' := by
  rcases Option.or_eq_some_iff.mp h with hp | ⟨_, hp⟩
  · obtain ⟨htoStr, _, hquery, hpath⟩ := toStr_of_parseScheme hp
    exact ⟨htoStr, hquery, hpath⟩
  · obtain ⟨htoStr, _, hquery, hpath⟩ := toStr_of_parseScheme hp
    exact ⟨htoStr, hquery, hpath⟩

theorem plainUrls_http : HttpLaws plainUrls := by
  refine ⟨fun raw url h _ => (plainUrls_parsed h).2.2, ?_, ?_⟩
  · intro raw url h hhttp
    refine ⟨url, ?_, hhttp⟩
    rw [show plainUrls.toStr (plainUrls.setFragment url none) = raw from (plainUrls_parsed h).1]
    exact h
  · intro raw url query query' h _ hquery
    rw [show plainUrls.query (plainUrls.setFragment url none) = none from
      (plainUrls_parsed h).2.1] at hquery
    cases hquery

theorem plainUrls_serial (forms : FormUrlencoded)
    (hforms : ∀ query pairs, pairs.Sublist (forms.parse query) → pairs ≠ [] →
      forms.parse (forms.serialize pairs) = pairs) : SerialLaws plainUrls forms where
  unfragmented raw url h hhttp := by
    have htoStr : plainUrls.toStr (plainUrls.setFragment url none) = raw := (plainUrls_parsed h).1
    exact ⟨url, by rw [htoStr]; exact h, hhttp, rfl, rfl⟩
  unqueried raw url query h _ hquery := by
    rw [show plainUrls.query (plainUrls.setFragment url none) = none from
      (plainUrls_parsed h).2.1] at hquery
    cases hquery
  requeried raw url query pairs h _ hquery := by
    rw [show plainUrls.query (plainUrls.setFragment url none) = none from
      (plainUrls_parsed h).2.1] at hquery
    cases hquery
  reads_back := hforms

end Policy
