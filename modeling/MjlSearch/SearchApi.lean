/-
The query endpoint (`api.routers.search`).

Each request asks the engine for its own window of candidates, from offset zero, ranks
it, and cuts its page from the ranked pool.  `engine` is the order the engine lists the
matches of the query in; it hands out the first of them.

* `sameWindow_covers` — requests ranked from one window agree;
* `pages_cover_iff` — the pages of a query are disjoint and complete, whatever the index
  holds, exactly when the first window is all there is to rank;
* `promoted_repeats` — else some index puts one match on two pages.
-/
import MjlSearch.RankedPool

open Text FirstFit Ranking

/-- The settings the endpoint reads. -/
structure Settings where
  maxLimit : ℕ
  rankingEnabled : Bool
  maxPerDomain : ℕ
  candidateOverfetch : ℕ
  minCandidates : ℕ
  maxCandidates : ℕ
  onePerDomain : 1 ≤ maxPerDomain
  overfetches : 1 ≤ candidateOverfetch
  oneCandidate : 1 ≤ minCandidates ∧ 1 ≤ maxCandidates

namespace SearchApi

variable {σ : Type} (lower : Str → Str) (settings : Settings) (scoring : Scoring σ)
  (engine : List (SearchHit σ)) (query : Str) (limit offset : ℕ)

/-- How many candidates to pull from the engine for `needed` results. -/
def candidatesFor (needed : ℕ) : ℕ :=
  min (max (max (needed * settings.candidateOverfetch) needed) settings.minCandidates)
    settings.maxCandidates

/-- Whether the query names a site that one of the candidates belongs to. -/
def widens (raw : List (SearchHit σ)) : Bool :=
  match navigationalTarget (queryTerms lower query) with
  | none => false
  | some target => (raw.map fun hit => hostLabel lower hit.url).contains target

/-- Re-asks a navigational query with the widest window: the candidates, and the window
that was asked for. -/
def widenForNavigation (raw : List (SearchHit σ)) (candidates : ℕ) : List (SearchHit σ) × ℕ :=
  if settings.maxCandidates ≤ candidates then (raw, candidates)
  else if widens lower query raw then
    (engine.take settings.maxCandidates, settings.maxCandidates)
  else (raw, candidates)

/-- The ordered candidate pool for one engine response. -/
def poolOf [LinearOrder σ] (raw : List (SearchHit σ)) : List (SearchHit σ) :=
  if settings.rankingEnabled ∧ raw ≠ [] then orderedPool lower scoring raw else raw

/-- The requested page out of an ordered pool. -/
def pageOf (pool : List (SearchHit σ)) : Option (Except Str (Page σ)) :=
  if settings.rankingEnabled = false then
    some (.ok { results := (pool.drop offset).take limit, heldBack := 0,
                pages := if pool = [] then 0 else (pool.length + limit - 1) / limit })
  else takePage lower pool offset (some limit) settings.maxPerDomain

/-- What a response is made from. -/
structure Served (σ : Type) where
  pool : List (SearchHit σ)
  selection : Page σ
  totalMatches : ℕ

/-- The results on the page. -/
def Served.results (served : Served σ) : List (SearchHit σ) := served.selection.results

/-- How many pages the response reports. -/
def Served.pages (served : Served σ) : ℕ := served.selection.pages

/-- Runs a query against the index, then applies ranking policy to the page. -/
def serve [LinearOrder σ] : Option (Except Str (Served σ)) :=
  if settings.maxLimit < limit then
    some (.error ("limit must not exceed ".toList ++ Nat.toDigits 10 settings.maxLimit))
  else
    let candidates := candidatesFor settings (offset + limit)
    let (raw, window) := widenForNavigation lower settings engine query (engine.take candidates)
      candidates
    let pool := poolOf lower settings scoring raw
    match pageOf lower settings limit offset pool with
    | none => none
    | some (.error e) => some (.error e)
    | some (.ok selection) =>
      -- a short page while matches remain is asked for again
      if selection.results.length < limit ∧ window < settings.maxCandidates ∧
          window < engine.length then
        let widerPool := poolOf lower settings scoring (engine.take settings.maxCandidates)
        match pageOf lower settings limit offset widerPool with
        | none => none
        | some (.error e) => some (.error e)
        | some (.ok wider) =>
          if selection.results.length < wider.results.length then
            some (.ok { pool := widerPool, selection := wider, totalMatches := engine.length })
          else some (.ok { pool, selection, totalMatches := engine.length })
      else some (.ok { pool, selection, totalMatches := engine.length })

/-- The pages of a query: `serve k` answers the request for page `k`.  No result is on
two of them, and every candidate of the first page's pool is on one that it reports. -/
structure PagesCover (serve : ℕ → Option (Except Str (Served σ))) : Prop where
  served : ∀ k, ∃ s, serve k = some (.ok s)
  disjoint : ∀ j k a b, j ≠ k → serve j = some (.ok a) → serve k = some (.ok b) →
    ∀ x ∈ a.results, ∀ y ∈ b.results, x.url ≠ y.url
  complete : ∀ first, serve 0 = some (.ok first) → ∀ hit ∈ first.pool,
    ∃ k < first.pages, ∃ s, serve k = some (.ok s) ∧ ∃ y ∈ s.results, y.url = hit.url

variable {lower settings scoring engine query limit offset}

/-! ### Requests ranked from one window -/

theorem candidatesFor_mono {m n : ℕ} (h : m ≤ n) :
    candidatesFor settings m ≤ candidatesFor settings n := by
  have hmul : m * settings.candidateOverfetch ≤ n * settings.candidateOverfetch :=
    Nat.mul_le_mul_right _ h
  simp only [candidatesFor]
  omega

theorem candidatesFor_le (n : ℕ) : candidatesFor settings n ≤ settings.maxCandidates :=
  Nat.min_le_right _ _

theorem le_candidatesFor (n : ℕ) : min n settings.maxCandidates ≤ candidatesFor settings n := by
  simp only [candidatesFor]
  omega

/-- With ranking, a page of a pool always comes out. -/
theorem pageOf_placed (hranking : settings.rankingEnabled = true) (hlimit : 1 ≤ limit)
    (pool : List (SearchHit σ)) :
    ∃ placed pages, Placed limit settings.maxPerDomain (host lower) placed ∧
      placed.map Prod.fst = pool ∧ (∀ p ∈ placed, p.2 < pages) ∧
      ∀ k : ℕ, pageOf lower settings limit (k * limit) pool = some (.ok
        { results := bin placed k, heldBack := passedOver limit k placed, pages }) := by
  obtain ⟨placed, pages, hplaced, hpool, hbound, _, htake⟩ :=
    @takePage_placed σ lower pool limit settings.maxPerDomain hlimit settings.onePerDomain
  refine ⟨placed, pages, hplaced, hpool, hbound, fun k => ?_⟩
  rw [pageOf, if_neg (by simp [hranking])]
  exact_mod_cast htake k

/-- Where the first window is all there is to rank, every request ranks it. -/
theorem widenForNavigation_all {needed : ℕ} (hneeded : limit ≤ needed)
    (h : engine.length ≤ candidatesFor settings limit ∨
      candidatesFor settings limit = settings.maxCandidates ∨
      widens lower query (engine.take (candidatesFor settings limit)) = true) :
    (widenForNavigation lower settings engine query (engine.take (candidatesFor settings needed))
        (candidatesFor settings needed)).1 = engine.take settings.maxCandidates ∧
      ¬ ((widenForNavigation lower settings engine query
          (engine.take (candidatesFor settings needed)) (candidatesFor settings needed)).2
            < settings.maxCandidates ∧
        (widenForNavigation lower settings engine query
          (engine.take (candidatesFor settings needed)) (candidatesFor settings needed)).2
            < engine.length) := by
  have hmono : candidatesFor settings limit ≤ candidatesFor settings needed :=
    candidatesFor_mono hneeded
  have hle : candidatesFor settings needed ≤ settings.maxCandidates := candidatesFor_le needed
  rw [widenForNavigation]
  by_cases hmax : settings.maxCandidates ≤ candidatesFor settings needed
  · rw [if_pos hmax, Nat.le_antisymm hle hmax]
    exact ⟨rfl, by omega⟩
  · rw [if_neg hmax]
    by_cases hwidens : widens lower query (engine.take (candidatesFor settings needed)) = true
    · rw [if_pos hwidens]
      exact ⟨rfl, by omega⟩
    · rw [if_neg hwidens]
      have hall : engine.length ≤ candidatesFor settings limit := by
        rcases h with h | h | h
        · exact h
        · omega
        · -- what the first window names, a wider one does
          refine absurd ?_ hwidens
          rw [widens] at h ⊢
          split at h
          · cases h
          · have hsub : (engine.take (candidatesFor settings limit)).Sublist
                (engine.take (candidatesFor settings needed)) := List.take_sublist_take_left hmono
            rw [List.contains_iff_mem] at h ⊢
            exact (hsub.map _).mem h
      refine ⟨?_, by omega⟩
      rw [List.take_of_length_le (by omega), List.take_of_length_le (by omega)]

theorem widenForNavigation_eq (needed : ℕ) :
    ∃ window, candidatesFor settings needed ≤ window ∧ window ≤ settings.maxCandidates ∧
      widenForNavigation lower settings engine query (engine.take (candidatesFor settings needed))
        (candidatesFor settings needed) = (engine.take window, window) := by
  have hle : candidatesFor settings needed ≤ settings.maxCandidates := candidatesFor_le needed
  rw [widenForNavigation]
  split
  · exact ⟨_, Nat.le_refl _, hle, rfl⟩
  · split
    · exact ⟨_, hle, Nat.le_refl _, rfl⟩
    · exact ⟨_, Nat.le_refl _, hle, rfl⟩

/-- The hits of a slice of a window. -/
theorem mem_slice {window start : ℕ} {hit : SearchHit σ} :
    hit ∈ ((engine.take window).drop start).take limit ↔
      ∃ i, start ≤ i ∧ i < start + limit ∧ i < window ∧ engine[i]? = some hit := by
  rw [List.mem_iff_getElem?]
  constructor
  · rintro ⟨i, hi⟩
    rw [List.getElem?_take] at hi
    split at hi
    · rw [List.getElem?_drop, List.getElem?_take] at hi
      split at hi
      · exact ⟨start + i, by omega, by omega, by omega, hi⟩
      · cases hi
    · cases hi
  · rintro ⟨i, hfrom, hto, hwindow, hi⟩
    refine ⟨i - start, ?_⟩
    rw [List.getElem?_take, if_pos (by omega), List.getElem?_drop, Nat.add_sub_cancel' hfrom,
      List.getElem?_take, if_pos hwindow]
    exact hi

section

variable [LinearOrder σ]

/-- **Then every request cuts its page from one pool.** -/
theorem serve_all (hranking : settings.rankingEnabled = true) (hlimit : 1 ≤ limit)
    (hbound : limit ≤ settings.maxLimit)
    (h : engine.length ≤ candidatesFor settings limit ∨
      candidatesFor settings limit = settings.maxCandidates ∨
      widens lower query (engine.take (candidatesFor settings limit)) = true) :
    ∃ placed pages,
      placed.map Prod.fst = poolOf lower settings scoring (engine.take settings.maxCandidates) ∧
      (∀ p ∈ placed, p.2 < pages) ∧
      ∀ k, serve lower settings scoring engine query limit (k * limit) = some (.ok
        { pool := placed.map Prod.fst, totalMatches := engine.length,
          selection := { results := bin placed k, heldBack := passedOver limit k placed, pages } }) := by
  obtain ⟨placed, pages, _, hpool, hpages, hpage⟩ := @pageOf_placed σ lower settings limit hranking
    hlimit (poolOf lower settings scoring (engine.take settings.maxCandidates))
  refine ⟨placed, pages, hpool, hpages, fun k => ?_⟩
  obtain ⟨hraw, hwindow⟩ := widenForNavigation_all (Nat.le_add_left limit (k * limit)) h
  rw [serve, if_neg (by omega)]
  dsimp only
  generalize widenForNavigation lower settings engine query
    (engine.take (candidatesFor settings (k * limit + limit)))
    (candidatesFor settings (k * limit + limit)) = asked at hraw hwindow ⊢
  rw [hraw, hpage, hpool]
  dsimp only
  rw [if_neg fun hc => hwindow hc.2]

/-- The URLs of a pool are those of the candidates, none of them twice. -/
theorem poolOf_nodup {raw : List (SearchHit σ)} (h : (raw.map SearchHit.url).Nodup) :
    ((poolOf lower settings scoring raw).map SearchHit.url).Nodup := by
  rw [poolOf]
  split
  · obtain ⟨ranked, hsub, hperm⟩ := @orderedPool_urls σ lower _ scoring raw
    exact (hperm.nodup_iff.mpr h).sublist (hsub.map _)
  · exact h

/-- **Requests ranked from one window agree.** -/
theorem sameWindow_covers (hranking : settings.rankingEnabled = true) (hlimit : 1 ≤ limit)
    (hbound : limit ≤ settings.maxLimit) (hurls : (engine.map SearchHit.url).Nodup)
    (h : engine.length ≤ candidatesFor settings limit ∨
      candidatesFor settings limit = settings.maxCandidates ∨
      widens lower query (engine.take (candidatesFor settings limit)) = true) :
    PagesCover fun k => serve lower settings scoring engine query limit (k * limit) := by
  obtain ⟨placed, pages, hpool, hpages, hserve⟩ :=
    @serve_all σ lower settings scoring engine query limit _ hranking hlimit hbound h
  have hnodup : (placed.map fun p => p.1.url).Nodup := by
    have hraw : ((engine.take settings.maxCandidates).map SearchHit.url).Nodup :=
      hurls.sublist ((List.take_sublist _ _).map _)
    have hmap := @poolOf_nodup σ lower settings scoring _ _ hraw
    rw [← hpool, List.map_map] at hmap
    exact hmap
  refine ⟨fun k => ⟨_, hserve k⟩, ?_, ?_⟩
  · intro j k a b hjk ha hb x hx y hy heq
    rw [hserve] at ha hb
    cases ha
    cases hb
    -- one URL stands in the pool once, and is on one page
    have hsame := List.inj_on_of_nodup_map hnodup (mem_bin.mp hx) (mem_bin.mp hy) heq
    cases hsame
    exact hjk rfl
  · intro first hfirst hit hhit
    rw [hserve] at hfirst
    cases hfirst
    obtain ⟨p, hp, rfl⟩ := List.mem_map.mp hhit
    exact ⟨p.2, hpages p hp, _, hserve p.2, p.1, mem_bin.mpr hp, rfl⟩

/-! ### Requests without ranking -/

/-- Without ranking, a request cuts its page from some window that holds it. -/
theorem serve_slice (hranking : settings.rankingEnabled = false)
    (hbound : limit ≤ settings.maxLimit) (k : ℕ) :
    ∃ window, min (k * limit + limit) settings.maxCandidates ≤ window ∧
      window ≤ settings.maxCandidates ∧
      ∃ s, serve lower settings scoring engine query limit (k * limit) = some (.ok s) ∧
        s.pool = engine.take window ∧
        s.results = ((engine.take window).drop (k * limit)).take limit ∧
        s.pages = if engine.take window = [] then 0
          else ((engine.take window).length + limit - 1) / limit := by
  obtain ⟨window, hfrom, hto, hasked⟩ :=
    @widenForNavigation_eq σ lower settings engine query (k * limit + limit)
  have hneeded : min (k * limit + limit) settings.maxCandidates
      ≤ candidatesFor settings (k * limit + limit) := le_candidatesFor _
  have hpool : ∀ raw : List (SearchHit σ), poolOf lower settings scoring raw = raw := fun raw => by
    rw [poolOf, if_neg (by simp [hranking])]
  have hpage : ∀ pool : List (SearchHit σ), pageOf lower settings limit (k * limit) pool
      = some (.ok { results := (pool.drop (k * limit)).take limit, heldBack := 0,
                    pages := if pool = [] then 0 else (pool.length + limit - 1) / limit }) :=
    fun pool => by rw [pageOf, if_pos hranking]
  rw [serve, if_neg (by omega)]
  dsimp only
  rw [hasked]
  dsimp only
  rw [hpool, hpool, hpage, hpage]
  dsimp only
  split
  · split
    · exact ⟨settings.maxCandidates, by omega, Nat.le_refl _, _, rfl, rfl, rfl, rfl⟩
    · exact ⟨window, by omega, hto, _, rfl, rfl, rfl, rfl⟩
  · exact ⟨window, by omega, hto, _, rfl, rfl, rfl, rfl⟩

/-- **Without ranking, the pages are slices of the engine's order**, and agree. -/
theorem slices_cover (hranking : settings.rankingEnabled = false) (hlimit : 1 ≤ limit)
    (hbound : limit ≤ settings.maxLimit) (hurls : (engine.map SearchHit.url).Nodup) :
    PagesCover fun k => serve lower settings scoring engine query limit (k * limit) := by
  have hslice := @serve_slice σ lower settings scoring engine query limit _ hranking hbound
  refine ⟨fun k => ?_, ?_, ?_⟩
  · obtain ⟨_, _, _, s, hs, _⟩ := hslice k
    exact ⟨s, hs⟩
  · intro j k a b hjk ha hb x hx y hy heq
    obtain ⟨_, _, _, s, hs, _, hresults, _⟩ := hslice j
    rw [ha] at hs
    cases hs
    obtain ⟨_, _, _, s', hs', _, hresults', _⟩ := hslice k
    rw [hb] at hs'
    cases hs'
    rw [hresults] at hx
    rw [hresults'] at hy
    obtain ⟨i, hfrom, hto, _, hi⟩ := mem_slice.mp hx
    obtain ⟨i', hfrom', hto', _, hi'⟩ := mem_slice.mp hy
    -- one URL stands in the engine's order once, and so in one slice
    have hsame : i = i' := by
      have hlt : i < (engine.map SearchHit.url).length := by
        rw [List.length_map]
        exact (List.getElem?_eq_some_iff.mp hi).1
      refine (List.getElem?_inj hlt hurls).mp ?_
      rw [List.getElem?_map, List.getElem?_map, hi, hi', Option.map_some, Option.map_some, heq]
    subst hsame
    rcases Nat.lt_or_gt_of_ne hjk with hlt | hlt
    · have hmul : (j + 1) * limit ≤ k * limit := Nat.mul_le_mul_right _ hlt
      rw [Nat.succ_mul] at hmul
      omega
    · have hmul : (k + 1) * limit ≤ j * limit := Nat.mul_le_mul_right _ hlt
      rw [Nat.succ_mul] at hmul
      omega
  · intro first hfirst hit hhit
    obtain ⟨window, _, hwindow, s, hs, hpool, _, hpages⟩ := hslice 0
    rw [hfirst] at hs
    cases hs
    rw [hpool] at hhit
    obtain ⟨i, hi⟩ := List.mem_iff_getElem?.mp hhit
    have hlength : i < (engine.take window).length := (List.getElem?_eq_some_iff.mp hi).1
    have hne : engine.take window ≠ [] := List.ne_nil_of_length_pos (by omega)
    rw [List.getElem?_take] at hi
    split at hi
    · rename_i hiw
      have hdiv : limit * (i / limit) + i % limit = i := Nat.div_add_mod i limit
      have hmod : i % limit < limit := Nat.mod_lt _ hlimit
      have hcomm : i / limit * limit = limit * (i / limit) := Nat.mul_comm _ _
      obtain ⟨window', hneeded, _, s, hs, _, hresults, _⟩ := hslice (i / limit)
      refine ⟨i / limit, ?_, s, hs, hit, ?_, rfl⟩
      · rw [hpages, if_neg hne]
        refine (Nat.div_lt_iff_lt_mul hlimit).mpr ?_
        have hceil := Nat.div_add_mod ((engine.take window).length + limit - 1) limit
        have hrest := Nat.mod_lt ((engine.take window).length + limit - 1) hlimit
        rw [Nat.mul_comm]
        omega
      · rw [hresults, mem_slice]
        exact ⟨i, by omega, by omega, by omega, hi⟩
    · cases hi

/-! ### Windows that differ -/

/-- What a request is answered with when no window is widened for a navigation: a page
of its own window, or of the widest when that page came up short. -/
theorem serve_plain (hranking : settings.rankingEnabled = true) (hlimit : 1 ≤ limit)
    (hbound : limit ≤ settings.maxLimit)
    (hplain : ∀ raw : List (SearchHit σ), widens lower query raw = false) (k : ℕ) :
    ∃ window s, serve lower settings scoring engine query limit (k * limit) = some (.ok s) ∧
      pageOf lower settings limit (k * limit)
        (poolOf lower settings scoring (engine.take window)) = some (.ok s.selection) ∧
      (window = candidatesFor settings (k * limit + limit) ∨
        (window = settings.maxCandidates ∧ ∃ short,
          pageOf lower settings limit (k * limit) (poolOf lower settings scoring
            (engine.take (candidatesFor settings (k * limit + limit)))) = some (.ok short) ∧
          short.results.length < limit)) := by
  have hpage : ∀ pool : List (SearchHit σ), ∃ page,
      pageOf lower settings limit (k * limit) pool = some (.ok page) := by
    intro pool
    obtain ⟨_, _, _, _, _, hpage⟩ := @pageOf_placed σ lower settings limit hranking hlimit pool
    exact ⟨_, hpage k⟩
  rw [serve, if_neg (by omega)]
  dsimp only
  generalize candidatesFor settings (k * limit + limit) = candidates
  have hasked : widenForNavigation lower settings engine query (engine.take candidates) candidates
      = (engine.take candidates, candidates) := by
    rw [widenForNavigation, hplain]
    simp
  obtain ⟨first, hfirst⟩ := hpage (poolOf lower settings scoring (engine.take candidates))
  obtain ⟨wider, hwider⟩ := hpage (poolOf lower settings scoring
    (engine.take settings.maxCandidates))
  rw [hasked]
  dsimp only
  rw [hfirst]
  dsimp only
  split
  · rename_i hshort
    rw [hwider]
    dsimp only
    split
    · exact ⟨settings.maxCandidates, _, rfl, hwider, Or.inr ⟨rfl, first, rfl, hshort.1⟩⟩
    · exact ⟨candidates, _, rfl, hfirst, Or.inl rfl⟩
  · exact ⟨candidates, _, rfl, hfirst, Or.inl rfl⟩

end

/-! ### An engine order whose last candidate is the best -/

/-- The front pages of different sites. -/
def siteUrl (i : ℕ) : Str := "https://".toList ++ (List.replicate (i + 1) 'a' ++ "/".toList)

/-- The `i`-th match: the later it comes, the less it matches, but the promoted one has
authority. -/
def siteHit (total promoted i : ℕ) : SearchHit ℕ :=
  { url := siteUrl i, title := [], snippet := [], fetchedAt := 0, score := total - i,
    authority := if i = promoted then total + 1 else 0, hostAuthority := 0 }

/-- Authority is added on top of relevance. -/
def addAuthority : Scoring ℕ := fun hit => hit.score + hit.authority

/-- A match, rescored. -/
def rankedHit (total promoted i : ℕ) : SearchHit ℕ :=
  { siteHit total promoted i with score := addAuthority (siteHit total promoted i) }

/-- The matches, in the engine's order. -/
def sites (total promoted : ℕ) : List (SearchHit ℕ) :=
  (List.range total).map (siteHit total promoted)

theorem hostOf_siteUrl (i : ℕ) : hostOf asciiLower (siteUrl i) = List.replicate (i + 1) 'a' := by
  have hafter : afterFirst "://".toList (siteUrl i) = List.replicate (i + 1) 'a' ++ "/".toList := rfl
  rw [hostOf, hafter, List.takeWhile_append_of_pos]
  · simp [asciiLower]
  · intro c hc
    rw [List.eq_of_mem_replicate hc]
    rfl

theorem siteUrl_hosts {i j : ℕ} (h : hostOf asciiLower (siteUrl i) = hostOf asciiLower (siteUrl j)) :
    i = j := by
  rw [hostOf_siteUrl, hostOf_siteUrl] at h
  have hlength := congrArg List.length h
  rw [List.length_replicate, List.length_replicate] at hlength
  omega

/-- The matches have different URLs. -/
theorem sites_urls (total promoted : ℕ) : ((sites total promoted).map SearchHit.url).Nodup := by
  rw [sites, List.map_map]
  refine List.Nodup.map ?_ List.nodup_range
  intro i j hij
  have hurl : siteUrl i = siteUrl j := hij
  exact siteUrl_hosts (by rw [hurl])

/-- **Ranking orders the matches by their scores.** -/
theorem orderedPool_sites {total promoted : ℕ} {order hits : List ℕ} (hperm : order.Perm hits)
    (hsorted : order.Pairwise fun i j =>
      (rankedHit total promoted j).score < (rankedHit total promoted i).score) :
    orderedPool asciiLower addAuthority (hits.map (siteHit total promoted))
      = order.map (rankedHit total promoted) := by
  refine orderedPool_eq ?_ (List.pairwise_map.mpr hsorted) ?_
  · rw [rescore, List.map_map]
    exact hperm.map _
  · have hnodup : order.Nodup := hsorted.imp fun h hc => by
      rw [hc] at h
      exact lt_irrefl _ h
    rw [List.map_map]
    refine List.Nodup.map ?_ hnodup
    intro i j hij
    exact siteUrl_hosts (congrArg Prod.fst hij)

theorem score_rankedHit (total promoted i : ℕ) : (rankedHit total promoted i).score
    = total - i + if i = promoted then total + 1 else 0 := rfl

/-- Among the matches before the promoted one, the engine's order stands. -/
theorem poolOf_sites_before (hranking : settings.rankingEnabled = true) {total promoted : ℕ}
    (hpromoted : 0 < promoted ∧ promoted < total) :
    poolOf asciiLower settings addAuthority ((sites total promoted).take promoted)
      = (List.range promoted).map (rankedHit total promoted) := by
  have htake : (sites total promoted).take promoted
      = (List.range promoted).map (siteHit total promoted) := by
    rw [sites, ← List.map_take, List.take_range, Nat.min_eq_left (by omega)]
  rw [htake, poolOf, if_pos ⟨hranking, by simp; omega⟩]
  refine orderedPool_sites (List.Perm.refl _) ?_
  refine List.pairwise_lt_range.imp_of_mem fun hi hj hij => ?_
  have hi := List.mem_range.mp hi
  have hj := List.mem_range.mp hj
  rw [score_rankedHit, score_rankedHit, if_neg (by omega), if_neg (by omega)]
  omega

/-- Once it is a candidate, the promoted match comes first. -/
theorem poolOf_sites_after (hranking : settings.rankingEnabled = true) {total promoted window : ℕ}
    (hpromoted : promoted < total) (hwindow : promoted < window) :
    ∃ rest, (promoted :: (List.range promoted ++ rest)).Nodup ∧
      poolOf asciiLower settings addAuthority ((sites total promoted).take window)
        = (promoted :: (List.range promoted ++ rest)).map (rankedHit total promoted) := by
  obtain ⟨r, hr⟩ : ∃ r, min window total = promoted + (r + 1) :=
    ⟨min window total - promoted - 1, by omega⟩
  have hrange : List.range (promoted + (r + 1))
      = List.range promoted ++ promoted :: List.range' (promoted + 1) r := by
    rw [List.range_add, ← List.range'_eq_map_range, List.range'_succ]
  have htake : (sites total promoted).take window
      = (List.range (promoted + (r + 1))).map (siteHit total promoted) := by
    rw [sites, ← List.map_take, List.take_range, hr]
  have hperm : (promoted :: (List.range promoted ++ List.range' (promoted + 1) r)).Perm
      (List.range (promoted + (r + 1))) := by
    rw [hrange]
    exact List.perm_middle.symm
  refine ⟨List.range' (promoted + 1) r, hperm.nodup_iff.mpr List.nodup_range, ?_⟩
  rw [htake, poolOf, if_pos ⟨hranking, by simp⟩]
  refine orderedPool_sites hperm ?_
  rw [List.pairwise_cons]
  constructor
  · -- the promoted match scores more than the total
    intro i hi
    have hne : i ≠ promoted := by
      rintro rfl
      rcases List.mem_append.mp hi with hi | hi
      · exact Nat.lt_irrefl _ (List.mem_range.mp hi)
      · have hlow := (List.mem_range'_1.mp hi).1
        omega
    rw [score_rankedHit, score_rankedHit, if_neg hne, if_pos rfl]
    omega
  · have hsorted : (List.range promoted ++ List.range' (promoted + 1) r).Pairwise (· < ·) := by
      refine List.pairwise_append.mpr
        ⟨List.pairwise_lt_range, List.pairwise_lt_range', fun i hi j hj => ?_⟩
      have hi := List.mem_range.mp hi
      have hj := (List.mem_range'_1.mp hj).1
      omega
    refine hsorted.imp_of_mem fun {i j} hi hj hij => ?_
    have hbound : ∀ x ∈ List.range promoted ++ List.range' (promoted + 1) r,
        x ≠ promoted ∧ x < total := by
      intro x hx
      rcases List.mem_append.mp hx with hx | hx
      · have hx := List.mem_range.mp hx
        omega
      · have hx := List.mem_range'_1.mp hx
        omega
    have hi := hbound i hi
    have hj := hbound j hj
    rw [score_rankedHit, score_rankedHit, if_neg hi.1, if_neg hj.1]
    omega

/-- The pages of such a pool are its slices. -/
theorem pageOf_sites (hranking : settings.rankingEnabled = true) (hlimit : 1 ≤ limit)
    {total promoted k : ℕ} {order : List ℕ} (hnodup : order.Nodup) {page : Page ℕ}
    (hpage : pageOf asciiLower settings limit (k * limit)
      (order.map (rankedHit total promoted)) = some (.ok page)) :
    page.results.length = min limit (order.length - k * limit) ∧
      ∀ i x, order[i]? = some x → i / limit = k →
        rankedHit total promoted x ∈ page.results := by
  obtain ⟨placed, pages, hplaced, hpool, _, hpages⟩ :=
    @pageOf_placed ℕ asciiLower settings limit hranking hlimit (order.map (rankedHit total promoted))
  rw [hpages] at hpage
  cases hpage
  have hhosts : (placed.map fun p => host asciiLower p.1).Nodup := by
    have hmap : (placed.map fun p => host asciiLower p.1)
        = order.map fun i => host asciiLower (rankedHit total promoted i) := by
      have hpool' := congrArg (List.map (host asciiLower)) hpool
      rw [List.map_map, List.map_map] at hpool'
      exact hpool'
    rw [hmap]
    exact List.Nodup.map (fun i j hij => siteUrl_hosts hij) hnodup
  obtain ⟨hplace, hlength⟩ := hplaced.of_distinct hlimit settings.onePerDomain hhosts
  have hcount : placed.length = order.length := by
    have hlen := congrArg List.length hpool
    rwa [List.length_map, List.length_map] at hlen
  refine ⟨by rw [hlength, hcount], fun i x hx hk => ?_⟩
  have hi : (placed.map Prod.fst)[i]? = some (rankedHit total promoted x) := by
    rw [hpool, List.getElem?_map, hx]
    rfl
  rw [List.getElem?_map] at hi
  obtain ⟨p, hp, hfst⟩ := Option.map_eq_some_iff.mp hi
  have hat := hplace i p hp
  rw [hk] at hat
  rw [← hfst, mem_bin, ← hat]
  exact List.mem_of_getElem? hp

/-- A query that names no site. -/
def bang : Str := "!".toList

theorem widens_bang (raw : List (SearchHit σ)) : widens asciiLower bang raw = false := rfl

/-- **Where some page is ranked from a larger window than the first, an index may hold
matches of which one is on two pages.** -/
theorem promoted_repeats (hranking : settings.rankingEnabled = true) (hlimit : 1 ≤ limit)
    (hbound : limit ≤ settings.maxLimit) {total : ℕ}
    (hmax : candidatesFor settings limit < settings.maxCandidates)
    (htotal : candidatesFor settings limit < total) :
    ¬ PagesCover fun k => serve asciiLower settings addAuthority
      (sites total (candidatesFor settings limit)) bang limit (k * limit) := by
  intro hcover
  generalize hfirst : candidatesFor settings limit = promoted at hmax htotal hcover
  have hpositive : 0 < promoted := by
    have hone := settings.oneCandidate
    rw [← hfirst]
    simp only [candidatesFor]
    omega
  -- the first page that is ranked from a larger window
  have hexists : ∃ k, promoted < candidatesFor settings (k * limit + limit) := by
    refine ⟨settings.maxCandidates, ?_⟩
    have hmul : settings.maxCandidates * 1 ≤ settings.maxCandidates * limit :=
      Nat.mul_le_mul_left _ hlimit
    have hle := @le_candidatesFor settings (settings.maxCandidates * limit + limit)
    omega
  obtain ⟨k, hk, hleast⟩ : ∃ k, promoted < candidatesFor settings (k * limit + limit) ∧
      ∀ j < k, ¬ promoted < candidatesFor settings (j * limit + limit) :=
    ⟨Nat.find hexists, Nat.find_spec hexists, fun j hj => Nat.find_min hexists hj⟩
  obtain ⟨k, rfl⟩ : ∃ j, k = j + 1 := by
    rcases k with _ | k
    · rw [Nat.zero_mul, Nat.zero_add, hfirst] at hk
      exact absurd hk (Nat.lt_irrefl _)
    · exact ⟨k, rfl⟩
  have hsame : candidatesFor settings (k * limit + limit) = promoted := by
    have hmono := @candidatesFor_mono settings _ _ (Nat.le_add_left limit (k * limit))
    have hnot := hleast k (Nat.lt_succ_self k)
    omega
  have hfits : k * limit + limit ≤ promoted := by
    have hle := @le_candidatesFor settings (k * limit + limit)
    omega
  obtain ⟨last, hlast⟩ : ∃ last, k * limit + limit = last + 1 :=
    ⟨k * limit + limit - 1, by omega⟩
  -- page `k` is ranked from the first window, and ends with the match `last`
  obtain ⟨window, a, ha, hpage, hwindow⟩ := @serve_plain ℕ asciiLower settings addAuthority
    (sites total promoted) bang limit _ hranking hlimit hbound widens_bang k
  have hbefore := @poolOf_sites_before settings hranking total promoted ⟨hpositive, htotal⟩
  have hmemA : rankedHit total promoted last ∈ a.results := by
    rcases hwindow with rfl | ⟨_, short, hshort, hless⟩
    · rw [hsame, hbefore] at hpage
      refine (pageOf_sites hranking hlimit List.nodup_range hpage).2 last last ?_ ?_
      · rw [List.getElem?_range (by omega)]
      · refine Nat.div_eq_of_lt_le (by omega) ?_
        rw [Nat.succ_mul]
        omega
    · -- it is not short
      rw [hsame, hbefore] at hshort
      have hlength := (pageOf_sites hranking hlimit List.nodup_range hshort).1
      rw [List.length_range] at hlength
      omega
  -- the next page is ranked from a larger one, and begins with it
  obtain ⟨window', b, hb, hpage', hwindow'⟩ := @serve_plain ℕ asciiLower settings addAuthority
    (sites total promoted) bang limit _ hranking hlimit hbound widens_bang (k + 1)
  have hlarger : promoted < window' := by
    rcases hwindow' with rfl | ⟨rfl, _⟩
    · exact hk
    · exact hmax
  obtain ⟨rest, hnodup, hafter⟩ := poolOf_sites_after hranking htotal hlarger
  rw [hafter] at hpage'
  have hmemB : rankedHit total promoted last ∈ b.results := by
    refine (pageOf_sites hranking hlimit hnodup hpage').2 (last + 1) last ?_ ?_
    · rw [List.getElem?_cons_succ, List.getElem?_append_left (by rw [List.length_range]; omega),
        List.getElem?_range (by omega)]
    · rw [← hlast, ← Nat.succ_mul]
      exact Nat.mul_div_cancel _ hlimit
  exact hcover.disjoint k (k + 1) a b (by omega) ha hb _ hmemA _ hmemB rfl

/-! ### When paging works -/

/-- **The pages of a query are disjoint and complete, whatever the index holds, exactly
when the first window is all there is to rank**: ranking is off, the window holds every
match or is the widest there is, or the query is widened as a navigation. -/
theorem pages_cover_iff (settings : Settings) (limit total : ℕ) (widened : Bool)
    (hlimit : 1 ≤ limit) (hbound : limit ≤ settings.maxLimit) :
    (∀ (σ : Type) [LinearOrder σ] (lower : Str → Str) (scoring : Scoring σ)
        (engine : List (SearchHit σ)) (query : Str),
      (engine.map SearchHit.url).Nodup → engine.length = total →
      widens lower query (engine.take (candidatesFor settings limit)) = widened →
      PagesCover fun k => serve lower settings scoring engine query limit (k * limit)) ↔
    (settings.rankingEnabled = false ∨ total ≤ candidatesFor settings limit ∨
      candidatesFor settings limit = settings.maxCandidates ∨ widened = true) := by
  constructor
  · intro hall
    by_contra hnot
    rw [not_or, not_or, not_or, Bool.not_eq_false, Nat.not_le, Bool.not_eq_true] at hnot
    obtain ⟨hranking, htotal, hmax, rfl⟩ := hnot
    have hless : candidatesFor settings limit < settings.maxCandidates :=
      Nat.lt_of_le_of_ne (candidatesFor_le limit) hmax
    refine promoted_repeats hranking hlimit hbound hless htotal (hall ℕ asciiLower addAuthority
      (sites total (candidatesFor settings limit)) bang (sites_urls _ _) ?_ (widens_bang _))
    rw [sites, List.length_map, List.length_range]
  · intro h σ _ lower scoring engine query hurls hlength hwidens
    rcases hranking : settings.rankingEnabled with _ | _
    · exact slices_cover hranking hlimit hbound hurls
    · refine sameWindow_covers hranking hlimit hbound hurls ?_
      rcases h with h | h | h | h
      · rw [h] at hranking
        cases hranking
      · exact Or.inl (by omega)
      · exact Or.inr (Or.inl h)
      · exact Or.inr (Or.inr (by rw [hwidens, h]))

/-- The settings as they are unless an operator changes them. -/
def defaultSettings : Settings :=
  { maxLimit := 100, rankingEnabled := true, maxPerDomain := 2, candidateOverfetch := 4,
    minCandidates := 150, maxCandidates := 400, onePerDomain := by decide,
    overfetches := by decide, oneCandidate := by decide }

/-- By default the first page asks for 150 candidates: a query of a hundred matches is
paged from one window. -/
theorem pages_cover_iff_sample :
    (1 ≤ 10 ∧ 10 ≤ defaultSettings.maxLimit) ∧
    ∀ (σ : Type) [LinearOrder σ] (lower : Str → Str) (scoring : Scoring σ)
      (engine : List (SearchHit σ)) (query : Str),
      (engine.map SearchHit.url).Nodup → engine.length = 100 →
      widens lower query (engine.take (candidatesFor defaultSettings 10)) = false →
      PagesCover fun k => serve lower defaultSettings scoring engine query 10 (k * 10) :=
  ⟨by decide, (pages_cover_iff defaultSettings 10 100 false (by decide) (by decide)).mpr
    (Or.inr (Or.inl (by decide)))⟩

/-- Settings under which the second page is ranked from twice the candidates. -/
def narrowSettings : Settings :=
  { defaultSettings with
    candidateOverfetch := 2, minCandidates := 1, maxCandidates := 8, overfetches := by decide,
    oneCandidate := by decide }

/-- The first page is cut from a window of two matches, and the second from one of four,
where a match with more authority comes before them: it repeats the first page's. -/
theorem repeated_result :
    ∃ a b, serve asciiLower narrowSettings addAuthority (sites 4 2) bang 1 0 = some (.ok a) ∧
      serve asciiLower narrowSettings addAuthority (sites 4 2) bang 1 1 = some (.ok b) ∧
      a.results.map SearchHit.url = [siteUrl 0] ∧ b.results.map SearchHit.url = [siteUrl 0] :=
  ⟨_, _, rfl, rfl, by decide +kernel, by decide +kernel⟩

end SearchApi
