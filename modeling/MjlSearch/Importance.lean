/-
The two rescoring passes of the ranking (`api.services.ranking`), and the bonus of a site
that a query names.

The label that a site is named by is cut out of its host, and the terms of a query out of
the query, each its own way: a label may have a hyphen, and a term has none.

* `policyPool_eq` — the two passes are a rescoring of each hit by itself;
* `queryTerms_of_term`, `mem_queryTerms` — what the terms of a query are;
* `navigates_iff` — a site is navigated to by its name iff the name has no hyphen and is
  not one of the words that a host is written out with.
-/
import Mathlib.Algebra.Field.Rat
import Mathlib.Algebra.Order.Field.Basic
import Mathlib.Data.List.Dedup
import Mathlib.Data.List.SplitBy
import MjlSearch.Policy
import MjlSearch.RankedPool

open Text

namespace Ranking

/-! ### The shape of a URL -/

/-- Words that mark a page as site furniture rather than content. -/
def legalTokens : List Str :=
  ["privacy", "terms", "legal", "cookie", "cookies", "policies", "policy", "eula", "gdpr",
    "imprint", "impressum", "disclaimer", "licenses", "licence", "license", "trademark",
    "accessibility"].map String.toList

def searchPathTokens : List Str :=
  ["search", "suche", "searchresults", "search-results", "suchergebnisse"].map String.toList

def searchQueryParams : List Str :=
  ["s", "q", "query", "search", "searchterm", "search_term", "keyword", "keywords"].map
    String.toList

/-- What stands before the last dot of a segment. -/
def stem (segment : Str) : Str := ((Policy.rsplitOnce '.' segment).map Prod.fst).getD segment

/-- Whether a path segment names site furniture rather than content. -/
def isLegalSegment (segment : Str) : Bool :=
  (((stem segment).splitOnP fun c => c == '-' || c == '_').filter fun part => part ≠ []).head?.any
    legalTokens.contains

/-- A path segment like `en-us` or `zh-hant`. -/
def isRegionTag : Str → Bool
  | a :: b :: separator :: rest =>
    ('a' ≤ a && a ≤ 'z') && ('a' ≤ b && b ≤ 'z') && (separator == '-' || separator == '_') &&
      (2 ≤ rest.length && rest.length ≤ 4) && rest.all isTermChar
  | _ => false

/-- Python's `str.strip`. -/
def strip (s : Str) : Str :=
  ((s.dropWhile isSpace).reverse.dropWhile isSpace).reverse

variable {σ : Type} (lower : Str → Str)

/-- The path segments of a URL, lowercased, without the query or fragment. -/
def pathSegments (url : Str) : List Str :=
  let path := ((afterFirst "://".toList url).takeWhile fun c => c != '?').takeWhile fun c => c != '#'
  let path := (path.dropWhile fun c => c != '/').tail
  ((path.splitOn '/').filter fun segment => segment ≠ []).map lower

/-- The parameter names in a URL's query string, lowercased. -/
def queryParamNames (url : Str) : List Str :=
  let query := ((afterFirst "://".toList url).dropWhile fun c => c != '?').tail
  ((query.splitOnP fun c => c == '&' || c == ';').filter fun pair => pair ≠ []).map fun pair =>
    lower (strip (pair.takeWhile fun c => c != '='))

/-- Whether a URL addresses a site's own search results rather than a page. -/
def isSearchView (url : Str) : Bool :=
  ((pathSegments lower url).any fun segment => searchPathTokens.contains (stem segment)) ||
    (queryParamNames lower url).any searchQueryParams.contains

/-- How much each signal is worth. -/
structure Weights (σ : Type) where
  authorityWeight : σ
  hostAuthorityWeight : σ
  titleWeight : σ
  legalPenalty : σ
  localePenalty : σ
  searchViewPenalty : σ
  depthDecay : σ
  siteRootWeight : σ
  siteHostWeight : σ

variable [Field σ] [LinearOrder σ]

-- the numerals of the weights
local instance instAtLeastTwoTwo : Nat.AtLeastTwo 2 := ⟨by decide⟩
local instance instAtLeastTwoThree : Nat.AtLeastTwo 3 := ⟨by decide⟩
local instance instAtLeastTwoEight : Nat.AtLeastTwo 8 := ⟨by decide⟩
local instance instAtLeastTwoHundred : Nat.AtLeastTwo 100 := ⟨by decide⟩

def defaultWeights : Weights σ where
  authorityWeight := 5 / 2
  hostAuthorityWeight := 3 / 2
  titleWeight := 2
  legalPenalty := 3 / 10
  localePenalty := 55 / 100
  searchViewPenalty := 3 / 10
  depthDecay := 93 / 100
  siteRootWeight := 8
  siteHostWeight := 12 / 10

def depthFloor : σ := 55 / 100

def homeBonus : σ := 115 / 100

/-- A multiplier for what the URL's own shape says about the page. -/
def urlQuality (w : Weights σ) (url : Str) : Except Str σ :=
  if w.legalPenalty ≤ 0 ∨ w.localePenalty ≤ 0 ∨ w.searchViewPenalty ≤ 0 then
    .error "penalties must be positive".toList
  else
    let segments := pathSegments lower url
    let quality : σ := 1
    let quality := if segments.any isLegalSegment then quality * w.legalPenalty else quality
    let quality := if segments.contains "intl".toList || segments.any isRegionTag then
      quality * w.localePenalty else quality
    let quality := if isSearchView lower url then quality * w.searchViewPenalty else quality
    -- the root of a host is the page a search for that host's name means
    .ok (if segments = [] then quality * homeBonus
      else if 2 < segments.length then
        quality * max depthFloor (w.depthDecay ^ (segments.length - 2))
      else quality)

/-! ### The passes -/

/-- How much of a title the query accounts for. -/
def titleMatch (title : Str) (terms : List Str) : σ :=
  let titleTerms := queryTerms lower title
  if terms = [] ∨ titleTerms = [] then 0
  else
    let unique := terms.dedup
    let coverage : σ := ((unique.filter titleTerms.contains).length : σ) / (unique.length : σ)
    min 1 (coverage * (unique.length : σ) / (titleTerms.length : σ))

/-- What the link graph and the title add to a score. -/
def signals (w : Weights σ) (terms : List Str) (hit : SearchHit σ) : σ :=
  w.authorityWeight * hit.authority + w.hostAuthorityWeight * hit.hostAuthority +
    w.titleWeight * titleMatch lower hit.title terms

/-- What is added to the score of a hit. -/
def importance (w : Weights σ) (query : Str) (hit : SearchHit σ) : σ :=
  let terms := queryTerms lower query
  let target := navigationalTarget terms
  let segments := pathSegments lower hit.url
  let importance := signals lower w terms hit
  -- a named site's pages are lifted; its front page only by its name and nothing else
  let label := hostLabel lower hit.url
  let importance := if label ≠ [] ∧ label ∈ terms ∧ segments ≠ [] then
    importance + w.siteHostWeight else importance
  if label ≠ [] ∧ target = some label ∧ segments = [] then
    importance + (w.siteHostWeight + w.siteRootWeight)
  else importance

/-- Re-scores hits by authority, URL shape and how much the title matches. -/
def applyImportance (w : Weights σ) (query : Str) (hits : List (SearchHit σ)) :
    Except Str (List (SearchHit σ)) :=
  hits.mapM fun hit => do
    let quality ← urlQuality lower w hit.url
    .ok { hit with score := hit.score * quality + importance lower w query hit }

variable (exp : σ → σ) (ln2 : σ)

/-- Scales each score by an exponential decay on document age. -/
def applyFreshnessBoost (now : ℤ) (halfLifeDays : σ) (hits : List (SearchHit σ)) :
    Except Str (List (SearchHit σ)) :=
  if halfLifeDays ≤ 0 then .error "half_life_days must be positive".toList
  else
    let decayPerDay := ln2 / halfLifeDays
    .ok (hits.map fun hit =>
      let ageDays := max 0 (((now - hit.fetchedAt : ℤ) : σ) / 86400)
      { hit with score := hit.score * exp (-decayPerDay * ageDays) })

/-- The whole policy except the caps: boosted, sorted, deduplicated. -/
def policyPool (w : Weights σ) (now : ℤ) (query : Str) (halfLifeDays : σ)
    (hits : List (SearchHit σ)) : Except Str (List (SearchHit σ)) := do
  let fresh ← applyFreshnessBoost exp ln2 now halfLifeDays hits
  let important ← applyImportance lower w query fresh
  .ok (collapseDuplicates lower (sortByScore important))

/-! ### One rescoring -/

variable {lower exp ln2}

/-- The score of a hit after both passes. -/
def finalScore (lower : Str → Str) (exp : σ → σ) (ln2 : σ) (w : Weights σ) (now : ℤ) (query : Str)
    (halfLifeDays : σ) (hit : SearchHit σ) : σ :=
  let ageDays := max 0 (((now - hit.fetchedAt : ℤ) : σ) / 86400)
  hit.score * exp (-(ln2 / halfLifeDays) * ageDays) *
      (urlQuality lower w hit.url).toOption.getD 0 + importance lower w query hit

theorem applyImportance_eq {w : Weights σ} {query : Str} {hits out : List (SearchHit σ)}
    (h : applyImportance lower w query hits = .ok out) :
    out = hits.map fun hit => { hit with score := hit.score *
      (urlQuality lower w hit.url).toOption.getD 0 + importance lower w query hit } := by
  induction hits generalizing out with
  | nil =>
    cases h
    rfl
  | cons hit hits ih =>
    rw [applyImportance, List.mapM_cons] at h
    rcases hquality : urlQuality lower w hit.url with m | quality
    · rw [hquality] at h
      cases h
    · rw [hquality] at h
      rcases hrest : applyImportance lower w query hits with m | rest
      · rw [applyImportance] at hrest
        rw [hrest] at h
        cases h
      · have heq := ih hrest
        rw [applyImportance] at hrest
        rw [hrest] at h
        cases h
        rw [heq, List.map_cons, hquality]
        rfl

/-- **The two passes are a rescoring of each hit by itself.** -/
theorem policyPool_eq {w : Weights σ} {now : ℤ} {query : Str} {halfLifeDays : σ}
    {hits pool : List (SearchHit σ)}
    (h : policyPool lower exp ln2 w now query halfLifeDays hits = .ok pool) :
    pool = orderedPool lower (finalScore lower exp ln2 w now query halfLifeDays) hits := by
  rw [policyPool] at h
  rcases hfresh : applyFreshnessBoost exp ln2 now halfLifeDays hits with m | fresh
  · rw [hfresh] at h
    cases h
  · rw [hfresh] at h
    change (applyImportance lower w query fresh).bind _ = _ at h
    rcases himportant : applyImportance lower w query fresh with m | important
    · rw [himportant] at h
      cases h
    · rw [himportant] at h
      cases h
      rw [applyFreshnessBoost] at hfresh
      split at hfresh
      · cases hfresh
      · cases hfresh
        rw [applyImportance_eq himportant, List.map_map, orderedPool, rescore]
        rfl

/-! ### Names of sites -/

theorem isTermChar_of_isChain {c : Char} {s : Str}
    (h : (c :: s).IsChain fun a b => (isTermChar a == isTermChar b) = true) :
    ∀ d ∈ s, isTermChar d = isTermChar c := by
  induction s generalizing c with
  | nil => exact List.forall_mem_nil _
  | cons d s ih =>
    rw [List.isChain_cons_cons, beq_iff_eq] at h
    refine List.forall_mem_cons.mpr ⟨h.1.symm, fun e he => ?_⟩
    rw [ih h.2 e he, h.1]

/-- A term has term characters only. -/
theorem mem_queryTerms {query term : Str} (h : term ∈ queryTerms lower query) :
    ∀ c ∈ term, isTermChar c = true := by
  obtain ⟨hpart, hhead⟩ := List.mem_filter.mp h
  have hchain := List.isChain_of_mem_splitBy hpart
  rcases term with _ | ⟨first, rest⟩
  · exact List.forall_mem_nil _
  · have hfirst : isTermChar first = true := hhead
    exact List.forall_mem_cons.mpr ⟨hfirst, fun c hc =>
      (isTermChar_of_isChain hchain c hc).trans hfirst⟩

/-- What has term characters only is the only term of a query for it. -/
theorem queryTerms_of_term {term : Str} (hlower : lower term = term) (hne : term ≠ [])
    (hterm : ∀ c ∈ term, isTermChar c = true) : queryTerms lower term = [term] := by
  have hchain : term.IsChain fun a b => (isTermChar a == isTermChar b) = true := by
    refine List.Pairwise.isChain (List.pairwise_of_forall_mem_list fun a ha b hb => ?_)
    rw [hterm a ha, hterm b hb]
    rfl
  obtain ⟨first, rest, rfl⟩ := List.exists_cons_of_ne_nil hne
  rw [queryTerms, hlower, List.splitBy_of_isChain hne hchain, List.filter_singleton]
  rw [List.head?_cons, Option.any_some, hterm first (List.mem_cons_self ..)]
  rfl

/-- A character of a label: a letter in lower case, a digit or a hyphen. -/
def isLabelChar (c : Char) : Bool := isTermChar c || c == '-'

/-- `str.lower` is that of ASCII on ASCII texts. -/
def LowersAscii (lower : Str → Str) : Prop :=
  ∀ s : Str, (∀ c ∈ s, c.toNat < 128) → lower s = asciiLower s

/-- Labels are in lower case. -/
theorem lower_label (hlower : LowersAscii lower) {label : Str}
    (hlabel : ∀ c ∈ label, isLabelChar c = true) : lower label = label := by
  have hchar : ∀ c, isLabelChar c = true → c.toNat < 128 ∧ c.toLower = c := by
    intro c hc
    have hrange : c.toNat = 45 ∨ (48 ≤ c.toNat ∧ c.toNat ≤ 57) ∨
        (97 ≤ c.toNat ∧ c.toNat ≤ 122) := by
      simp only [isLabelChar, isTermChar, Bool.or_eq_true, Bool.and_eq_true, decide_eq_true_eq,
        beq_iff_eq, Char.le_def, UInt32.le_iff_toNat_le] at hc
      rcases hc with (hc | hc) | rfl
      · exact .inr (.inr hc)
      · exact .inr (.inl hc)
      · exact .inl rfl
    refine ⟨by omega, ?_⟩
    have hupper : ¬ (c.val ≥ 'A'.val ∧ c.val ≤ 'Z'.val) := by
      rintro ⟨hge, hle⟩
      have hge : 65 ≤ c.toNat := hge
      have hle : c.toNat ≤ 90 := hle
      omega
    unfold Char.toLower
    rw [dif_neg hupper]
  rw [hlower label fun c hc => (hchar c (hlabel c hc)).1, asciiLower]
  exact (List.map_congr_left fun c hc => (hchar c (hlabel c hc)).2).trans (List.map_id _)

variable (σ lower) in
/-- A site is navigated to by its name: the query that is the name has the site for its
target, and gives it the weights of a site and of a root. -/
structure Navigates (url : Str) : Prop where
  target : navigationalTarget (queryTerms lower (hostLabel lower url)) = some (hostLabel lower url)
  weights : ∀ (w : Weights σ) (hit : SearchHit σ), hit.url = url →
    importance lower w (hostLabel lower url) hit =
      signals lower w (queryTerms lower (hostLabel lower url)) hit +
        (w.siteHostWeight + w.siteRootWeight)

/-- **A site is navigated to by its name** iff the name has no hyphen and is not one of the
words that a host is written out with. -/
theorem navigates_iff (hlower : LowersAscii lower) {url : Str} (hroot : pathSegments lower url = [])
    (hne : hostLabel lower url ≠ [])
    (hlabel : ∀ c ∈ hostLabel lower url, isLabelChar c = true) :
    Navigates σ lower url ↔
      '-' ∉ hostLabel lower url ∧ hostLabel lower url ∉ navigationalNoise := by
  constructor
  · rintro ⟨htarget, -⟩
    have hmem : hostLabel lower url ∈ (queryTerms lower (hostLabel lower url)).filter fun term =>
        !navigationalNoise.contains term := by
      rw [navigationalTarget] at htarget
      split at htarget
      · rename_i target htarget'
        rw [htarget']
        cases htarget
        exact List.mem_singleton_self _
      · cases htarget
    obtain ⟨hterm, hnoise⟩ := List.mem_filter.mp hmem
    -- the name is one of its own terms, and none that is noise
    refine ⟨fun hhyphen => ?_, fun hnoise' => ?_⟩
    · exact absurd (mem_queryTerms hterm '-' hhyphen) (by decide)
    · rw [List.contains_iff_mem.mpr hnoise'] at hnoise
      cases hnoise
  · rintro ⟨hhyphen, hnoise⟩
    have hterm : ∀ c ∈ hostLabel lower url, isTermChar c = true := by
      intro c hc
      have hc' := hlabel c hc
      rw [isLabelChar, Bool.or_eq_true, beq_iff_eq] at hc'
      refine hc'.resolve_right ?_
      rintro rfl
      exact hhyphen hc
    -- without a hyphen the name is one term, which is its target
    have hterms := queryTerms_of_term (lower_label hlower hlabel) hne hterm
    have htarget : navigationalTarget (queryTerms lower (hostLabel lower url)) =
        some (hostLabel lower url) := by
      have hmeaningful : (!navigationalNoise.contains (hostLabel lower url)) = true := by
        rw [Bool.not_eq_true', ← Bool.not_eq_true, List.contains_iff_mem]
        exact hnoise
      rw [hterms, navigationalTarget, List.filter_singleton, hmeaningful]
      rfl
    refine ⟨htarget, fun w hit hhit => ?_⟩
    rw [importance]
    simp only [hhit, hroot, htarget]
    simp [hne]

theorem asciiLower_lowersAscii : LowersAscii asciiLower := fun _ _ => rfl

/-- A search for `python` names the site of `docs.python.org`. -/
theorem python_navigates :
    hostLabel asciiLower "https://docs.python.org/".toList = "python".toList ∧
      Navigates ℚ asciiLower "https://docs.python.org/".toList :=
  ⟨by decide, (navigates_iff asciiLower_lowersAscii (by decide) (by decide)
    (List.all_eq_true.mp (by decide))).mpr ⟨by decide, by decide⟩⟩

/-- No query names a site whose label has a hyphen. -/
theorem hyphen_not_navigable : pathSegments asciiLower "https://www.my-site.co.uk/".toList = [] ∧
    hostLabel asciiLower "https://www.my-site.co.uk/".toList = "my-site".toList ∧
      navigationalTarget (queryTerms asciiLower "my-site".toList) = none ∧
        ¬ Navigates ℚ asciiLower "https://www.my-site.co.uk/".toList := by
  have htarget : navigationalTarget (queryTerms asciiLower
      (hostLabel asciiLower "https://www.my-site.co.uk/".toList)) = none := by decide
  refine ⟨by decide, by decide, htarget, fun h => ?_⟩
  have hsome := h.target
  rw [htarget] at hsome
  cases hsome

end Ranking
