/-
The pages of a ranked list of results (`api.services.ranking`).

A page takes so many results, and so many of one host.  `takePage` goes through the
pool again and again, and what a pass does not accept is left for the next.  Seen from
the pool, each result is on the first page with room for it:

* `pass_placed` — a pass accepts what first fit puts on the first page, and carries
  what it puts on the later ones;
* `walk_placed` — the walk comes to an end, and its pages are those of first fit;
* `takePage_walk` — what follows for every page: none is empty, none is lost, and no
  result comes later than it has to.
-/
import MjlSearch.FirstFit
import MjlSearch.Text

open Text FirstFit

/-- One search result. -/
structure SearchHit (σ : Type) where
  url : Str
  title : Str
  snippet : Str
  fetchedAt : ℤ
  score : σ
  authority : σ
  hostAuthority : σ
  deriving DecidableEq, Repr

namespace Ranking

variable {σ : Type} (lower : Str → Str)

/-- What follows the first occurrence of a separator, or the whole string. -/
def afterFirst (separator s : Str) : Str :=
  (s.tails.filterMap fun rest => separator.isPrefixOf? rest).headD s

/-- The lowercased host of a URL, or the whole string if it cannot be taken apart. -/
def hostOf (url : Str) : Str :=
  lower (((afterFirst "://".toList url).takeWhile fun c => c != '/').takeWhile fun c => c != '?')

/-- The host of a hit. -/
def host (hit : SearchHit σ) : Str := hostOf lower hit.url

/-! ### Caps -/

/-- Counts for each host, and the hits kept so far. -/
structure Kept (σ : Type) where
  counts : Str → ℕ
  kept : List (SearchHit σ)

/-- Caps how many results from any one host appear in the output. -/
def enforceDomainDiversity (hits : List (SearchHit σ)) (maxPerDomain : ℤ) :
    Except Str (List (SearchHit σ)) :=
  if maxPerDomain < 1 then .error "max_per_domain must be at least 1".toList
  else
    let all := hits.foldl (fun (so : Kept σ) hit =>
      let host := host lower hit
      if maxPerDomain ≤ so.counts host then so
      else { counts := Function.update so.counts host (so.counts host + 1)
             kept := so.kept ++ [hit] })
      { counts := fun _ => 0, kept := [] }
    .ok all.kept

/-- One page of results, plus what the policy did to produce it. -/
structure Page (σ : Type) where
  results : List (SearchHit σ)
  heldBack : ℕ
  pages : ℕ
  deriving DecidableEq

/-- Where one pass over what is left of the pool stands.  `skipped` counts the hits
carried over while the page had room. -/
structure Pass (σ : Type) where
  counts : Str → ℕ
  kept : List (SearchHit σ)
  carried : List (SearchHit σ)
  skipped : ℕ

def Pass.start : Pass σ := { counts := fun _ => 0, kept := [], carried := [], skipped := 0 }

variable (limit maxPerDomain : ℕ)

/-- Accepts a hit, or carries it over. -/
def Pass.read (pass : Pass σ) (hit : SearchHit σ) : Pass σ :=
  let host := host lower hit
  if pass.kept.length < limit ∧ pass.counts host < maxPerDomain then
    { pass with
      counts := Function.update pass.counts host (pass.counts host + 1)
      kept := pass.kept ++ [hit] }
  else
    { pass with
      carried := pass.carried ++ [hit]
      skipped := if pass.kept.length < limit then pass.skipped + 1 else pass.skipped }

/-- A pass over what is left of the pool. -/
def runPass (remaining : List (SearchHit σ)) : Pass σ :=
  remaining.foldl (Pass.read lower limit maxPerDomain) Pass.start

/-- The loop of `take_page`; `none` means that `fuel` passes were not enough. -/
def walk (wanted : ℕ) :
    ℕ → ℕ → List (SearchHit σ) → List (SearchHit σ) → ℕ → Option (Page σ)
  | _, passes, [], page, heldBack => some { results := page, heldBack, pages := passes }
  | 0, _, _ :: _, _, _ => none
  | fuel + 1, passes, hit :: rest, page, heldBack =>
    let pass := runPass lower limit maxPerDomain (hit :: rest)
    -- what is held back is counted for the page being returned alone
    if passes = wanted then
      walk wanted fuel (passes + 1) pass.carried pass.kept (heldBack + pass.skipped)
    else walk wanted fuel (passes + 1) pass.carried page heldBack

/-- The `limit` results at `offset` from an ordered pool, capped per host and page. -/
def takePage (pool : List (SearchHit σ)) (offset : ℤ) (limit : Option ℤ) (maxPerDomain : ℤ) :
    Option (Except Str (Page σ)) :=
  if maxPerDomain < 1 then some (.error "max_per_domain must be at least 1".toList)
  else if offset < 0 then some (.error "offset must not be negative".toList)
  else
    match limit with
    | none =>
      match enforceDomainDiversity lower pool maxPerDomain with
      | .error e => some (.error e)
      | .ok whole =>
        some (.ok { results := whole, heldBack := pool.length - whole.length, pages := 1 })
    | some limit =>
      if limit < 1 then some (.error "limit must be at least 1".toList)
      else
        (walk lower limit.toNat maxPerDomain.toNat (offset / limit).toNat pool.length 0 pool [] 0).map
          .ok

/-! ### One pass -/

variable {lower limit maxPerDomain}

theorem runPass_snoc (l : List (SearchHit σ)) (hit : SearchHit σ) :
    runPass lower limit maxPerDomain (l ++ [hit])
      = Pass.read lower limit maxPerDomain (runPass lower limit maxPerDomain l) hit := by
  rw [runPass, List.foldl_append]
  rfl

/-- What a pass counts, and that it drops nothing. -/
theorem runPass_counts (l : List (SearchHit σ)) :
    (∀ a, (runPass lower limit maxPerDomain l).counts a
      = (runPass lower limit maxPerDomain l).kept.countP fun hit => host lower hit = a) ∧
    (runPass lower limit maxPerDomain l).kept.length
      + (runPass lower limit maxPerDomain l).carried.length = l.length := by
  induction l using List.reverseRecOn with
  | nil => exact ⟨fun _ => rfl, rfl⟩
  | append_singleton l hit ih =>
    obtain ⟨hcounts, hlength⟩ := ih
    rw [runPass_snoc, Pass.read]
    generalize runPass lower limit maxPerDomain l = pass at *
    split
    · refine ⟨fun a => ?_, ?_⟩
      · show Function.update pass.counts (host lower hit) (pass.counts (host lower hit) + 1) a = _
        rw [List.countP_append, List.countP_singleton, Function.update_apply, ← hcounts]
        by_cases ha : a = host lower hit
        · subst ha
          simp
        · have hne : ¬ host lower hit = a := fun hc => ha hc.symm
          simp [ha, hne]
      · simp only [List.length_append, List.length_singleton]
        omega
    · refine ⟨hcounts, ?_⟩
      simp only [List.length_append, List.length_singleton]
      omega

/-- A pass over something accepts something. -/
theorem runPass_kept_ne_nil (hlimit : 0 < limit) (hmax : 0 < maxPerDomain)
    {l : List (SearchHit σ)} (hl : l ≠ []) : (runPass lower limit maxPerDomain l).kept ≠ [] := by
  induction l using List.reverseRecOn with
  | nil => exact absurd rfl hl
  | append_singleton l hit ih =>
    rw [runPass_snoc, Pass.read]
    split
    · simp
    · rename_i hfull
      rcases l with _ | ⟨first, l⟩
      · exact absurd ⟨hlimit, hmax⟩ hfull
      · exact ih (by simp)

/-- **A pass accepts what first fit puts on the first page**, and carries what it puts
on the later ones. -/
theorem pass_placed (l : List (SearchHit σ)) {later : List (SearchHit σ × ℕ)}
    (h : Placed limit maxPerDomain (host lower) later)
    (hcarried : later.map Prod.fst = (runPass lower limit maxPerDomain l).carried) :
    ∃ placed, Placed limit maxPerDomain (host lower) placed ∧ placed.map Prod.fst = l ∧
      bin placed 0 = (runPass lower limit maxPerDomain l).kept ∧
      (∀ k, bin placed (k + 1) = bin later k) ∧
      passedOver limit 0 placed = (runPass lower limit maxPerDomain l).skipped ∧
      (∀ k, passedOver limit (k + 1) placed = passedOver limit k later) ∧
      ∀ n, (∀ p ∈ later, p.2 < n) → ∀ p ∈ placed, p.2 < n + 1 := by
  induction l using List.reverseRecOn generalizing later with
  | nil =>
    have hnil : later = [] := List.map_eq_nil_iff.mp hcarried
    subst hnil
    exact ⟨[], Placed.nil, rfl, rfl, fun _ => rfl, rfl, fun _ => rfl, fun _ _ _ hc => by cases hc⟩
  | append_singleton l hit ih =>
    have hcounts := (@runPass_counts σ lower limit maxPerDomain l).1
    rw [runPass_snoc, Pass.read] at hcarried ⊢
    by_cases hroom : (runPass lower limit maxPerDomain l).kept.length < limit ∧
        (runPass lower limit maxPerDomain l).counts (host lower hit) < maxPerDomain
    · rw [if_pos hroom] at hcarried ⊢
      obtain ⟨placed, hplaced, hmap, hfirst, hlater, hskipped, hpassed, hbound⟩ := ih h hcarried
      rw [hcounts, ← hfirst] at hroom
      refine ⟨placed ++ [(hit, 0)], hplaced.snoc hroom (fun j hj => by omega), ?_, ?_, fun k => ?_,
        ?_, fun k => ?_, fun n hn p hp => ?_⟩
      · rw [List.map_append, hmap]
        rfl
      · rw [bin_snoc, if_pos rfl, hfirst]
      · rw [bin_snoc, if_neg (by omega), hlater]
      · rw [passedOver_snoc, if_neg (by omega)]
        exact hskipped
      · rw [passedOver_snoc, if_neg (by omega)]
        exact hpassed k
      · rcases List.mem_append.mp hp with hp | hp
        · exact hbound n hn p hp
        · rw [List.mem_singleton.mp hp]
          exact Nat.succ_pos n
    · rw [if_neg hroom] at hcarried ⊢
      -- the hit is the last of those put on a later page
      obtain ⟨later, ⟨last, m⟩, rfl⟩ : ∃ later' last, later = later' ++ [last] := by
        rcases List.eq_nil_or_concat later with rfl | ⟨later', last, rfl⟩
        · simp at hcarried
        · exact ⟨later', last, List.concat_eq_append⟩
      rw [List.map_append] at hcarried
      obtain ⟨hbefore, hlast⟩ := List.append_inj' hcarried rfl
      cases hlast
      obtain ⟨hfits, hfull⟩ := h.last
      obtain ⟨placed, hplaced, hmap, hfirst, hlater, hskipped, hpassed, hbound⟩ :=
        ih h.of_append hbefore
      rw [hcounts, ← hfirst] at hroom
      have hsame : ∀ k, Fits limit maxPerDomain (host lower) placed (k + 1) last ↔
          Fits limit maxPerDomain (host lower) later k last := by
        intro k
        rw [Fits, Fits, hlater]
      refine ⟨placed ++ [(last, m + 1)], hplaced.snoc ((hsame m).mpr hfits) (fun j hj => ?_), ?_, ?_,
        fun k => ?_, ?_, fun k => ?_, fun n hn p hp => ?_⟩
      · rcases j with _ | j
        · exact hroom
        · exact fun hc => hfull j (by omega) ((hsame j).mp hc)
      · rw [List.map_append, hmap]
        rfl
      · rw [bin_snoc, if_neg (by omega), hfirst]
      · rw [bin_snoc, bin_snoc, hlater]
        by_cases hk : m = k
        · rw [if_pos hk, if_pos (by omega)]
        · rw [if_neg hk, if_neg (by omega)]
      · rw [passedOver_snoc, hskipped, hfirst]
        simp only [Nat.succ_pos, true_and]
        split <;> rfl
      · rw [passedOver_snoc, passedOver_snoc, hpassed, hlater]
        simp only [Nat.add_lt_add_iff_right]
      · rcases List.mem_append.mp hp with hp | hp
        · exact hbound n (fun q hq => hn q (List.mem_append_left _ hq)) p hp
        · rw [List.mem_singleton.mp hp]
          have hm := hn (last, m) (List.mem_append_right _ (List.mem_singleton_self _))
          omega

/-! ### The walk -/

/-- **The walk comes to an end**, and its pages are those of first fit. -/
theorem walk_placed (hlimit : 0 < limit) (hmax : 0 < maxPerDomain) (fuel : ℕ)
    (remaining : List (SearchHit σ)) (hfuel : remaining.length ≤ fuel) :
    ∃ placed pages, Placed limit maxPerDomain (host lower) placed ∧
      placed.map Prod.fst = remaining ∧ (∀ p ∈ placed, p.2 < pages) ∧
      (∀ k < pages, bin placed k ≠ []) ∧
      ∀ wanted passes page heldBack,
        walk lower limit maxPerDomain wanted fuel passes remaining page heldBack = some
          (if passes ≤ wanted ∧ wanted < passes + pages then
            { results := bin placed (wanted - passes)
              heldBack := heldBack + passedOver limit (wanted - passes) placed
              pages := passes + pages }
          else { results := page, heldBack, pages := passes + pages }) := by
  induction fuel generalizing remaining with
  | zero =>
    have hnil : remaining = [] := List.length_eq_zero_iff.mp (Nat.le_zero.mp hfuel)
    subst hnil
    refine ⟨[], 0, Placed.nil, rfl, fun _ hc => (by cases hc), fun k hk => (by omega), ?_⟩
    intro wanted passes page heldBack
    rw [if_neg (by omega)]
    rfl
  | succ fuel ih =>
    rcases remaining with _ | ⟨hit, rest⟩
    · refine ⟨[], 0, Placed.nil, rfl, fun _ hc => (by cases hc), fun k hk => (by omega), ?_⟩
      intro wanted passes page heldBack
      rw [if_neg (by omega)]
      rfl
    · have hne := @runPass_kept_ne_nil σ lower limit maxPerDomain hlimit hmax (hit :: rest) (by simp)
      have hlength := (@runPass_counts σ lower limit maxPerDomain (hit :: rest)).2
      have hpos := List.length_pos_of_ne_nil hne
      obtain ⟨later, pages, hlater, hmap, hbound, hfull, hwalk⟩ :=
        ih (runPass lower limit maxPerDomain (hit :: rest)).carried (by omega)
      obtain ⟨placed, hplaced, hpool, hfirst, hnext, hskipped, hpassed, hlast⟩ :=
        pass_placed (hit :: rest) hlater hmap
      refine ⟨placed, pages + 1, hplaced, hpool, hlast pages hbound, fun k hk => ?_, ?_⟩
      · rcases k with _ | k
        · rw [hfirst]
          exact hne
        · rw [hnext]
          exact hfull k (by omega)
      · intro wanted passes page heldBack
        rw [walk]
        by_cases hthis : passes = wanted
        · -- this page, and no later one, is the one asked for
          subst hthis
          rw [if_pos rfl, hwalk, if_neg (by omega), if_pos (by omega), Nat.sub_self, hfirst, hskipped,
            Nat.add_right_comm, Nat.add_assoc]
        · rw [if_neg hthis, hwalk]
          by_cases hlate : passes + 1 ≤ wanted ∧ wanted < passes + 1 + pages
          · obtain ⟨k, rfl⟩ : ∃ k, wanted = passes + (k + 1) := ⟨wanted - passes - 1, by omega⟩
            rw [if_pos hlate, if_pos (by omega), Nat.add_sub_cancel_left, hnext, hpassed]
            rw [show passes + (k + 1) - (passes + 1) = k by omega, Nat.add_right_comm passes 1 pages,
              Nat.add_assoc passes pages 1]
          · rw [if_neg hlate, if_neg (by omega), Nat.add_right_comm, Nat.add_assoc]

/-- The pages a pool is cut into are those of first fit. -/
theorem takePage_placed (lower : Str → Str) (pool : List (SearchHit σ)) {limit maxPerDomain : ℕ}
    (hlimit : 0 < limit) (hmax : 0 < maxPerDomain) :
    ∃ placed pages, Placed limit maxPerDomain (host lower) placed ∧ placed.map Prod.fst = pool ∧
      (∀ p ∈ placed, p.2 < pages) ∧ (∀ k < pages, bin placed k ≠ []) ∧
      ∀ k : ℕ, takePage lower pool (k * limit) (some limit) maxPerDomain = some (.ok
        { results := bin placed k, heldBack := passedOver limit k placed, pages }) := by
  obtain ⟨placed, pages, hplaced, hpool, hbound, hfull, hwalk⟩ :=
    @walk_placed σ lower limit maxPerDomain hlimit hmax pool.length pool (Nat.le_refl _)
  refine ⟨placed, pages, hplaced, hpool, hbound, hfull, fun k => ?_⟩
  have hpos : (0 : ℤ) ≤ k * limit := Int.mul_nonneg (Int.natCast_nonneg k) (by omega)
  rw [takePage, if_neg (by omega), if_neg (by omega)]
  show (if (limit : ℤ) < 1 then _ else _) = _
  rw [if_neg (by omega), Int.mul_ediv_cancel _ (by omega), Int.toNat_natCast, Int.toNat_natCast,
    Int.toNat_natCast, hwalk]
  by_cases hk : k < pages
  · rw [if_pos (by omega), Nat.sub_zero, Nat.zero_add, Nat.zero_add]
    rfl
  · have hnone : passedOver limit k placed = 0 := passedOver_eq_zero fun p hp => by
      have hlt := hbound p hp
      omega
    have hempty : bin placed k = [] := bin_eq_nil fun p hp =>
      Nat.ne_of_lt (Nat.lt_of_lt_of_le (hbound p hp) (Nat.not_lt.mp hk))
    rw [if_neg (by omega), hempty, hnone, Nat.zero_add]
    rfl

/-- **The pages of a pool.**  `placed` says for each result of the pool, in pool order,
which page it is on. -/
theorem takePage_walk (lower : Str → Str) (pool : List (SearchHit σ)) (limit maxPerDomain : ℤ)
    (hlimit : 1 ≤ limit) (hmax : 1 ≤ maxPerDomain) :
    ∃ (placed : List (SearchHit σ × ℕ)) (pages : ℕ),
      placed.map Prod.fst = pool ∧
      (∀ k : ℕ, takePage lower pool (k * limit) (some limit) maxPerDomain = some (.ok
        { results := bin placed k, heldBack := passedOver limit.toNat k placed, pages })) ∧
      (∀ k < pages, bin placed k ≠ []) ∧ (∀ k, pages ≤ k → bin placed k = []) ∧
      ((List.range pages).flatMap (bin placed)).Perm pool ∧
      (∀ k, (bin placed k).Sublist pool ∧ (bin placed k).length ≤ limit ∧
        ∀ a, (bin placed k).countP (fun hit => host lower hit = a) ≤ maxPerDomain) ∧
      ∀ before hit k after, placed = before ++ (hit, k) :: after → ∀ j < k,
        limit ≤ (bin before j).length ∨
          maxPerDomain ≤ (bin before j).countP fun b => host lower b = host lower hit := by
  obtain ⟨limit, rfl⟩ : ∃ n : ℕ, limit = n := ⟨limit.toNat, by omega⟩
  obtain ⟨maxPerDomain, rfl⟩ : ∃ n : ℕ, maxPerDomain = n := ⟨maxPerDomain.toNat, by omega⟩
  obtain ⟨placed, pages, hplaced, hpool, hbound, hfull, htake⟩ :=
    @takePage_placed σ lower pool limit maxPerDomain (by omega) (by omega)
  refine ⟨placed, pages, hpool, htake, hfull, fun k hk => ?_, ?_, fun k => ⟨?_, ?_, fun a => ?_⟩, ?_⟩
  · exact bin_eq_nil fun p hp => Nat.ne_of_lt (Nat.lt_of_lt_of_le (hbound p hp) hk)
  · rw [← hpool]
    exact bins_perm hbound
  · rw [← hpool]
    exact bin_sublist placed k
  · exact_mod_cast hplaced.bin_length_le k
  · exact_mod_cast hplaced.bin_countP_le k a
  · rintro before hit k after rfl j hj
    exact_mod_cast hplaced.greedy hj

/-- A hit on a page of a site. -/
def plainHit (url : Str) : SearchHit ℕ :=
  { url, title := [], snippet := [], fetchedAt := 0, score := 0, authority := 0, hostAuthority := 0 }

/-- Two results of one site and one of another, in pages of two with one of each site. -/
theorem takePage_walk_sample : ∃ (placed : List (SearchHit ℕ × ℕ)) (pages : ℕ),
    (∀ k : ℕ, takePage asciiLower
      (["https://a.c/1".toList, "https://a.c/2".toList, "https://b.c/1".toList].map plainHit)
      (k * 2) (some 2) 1 = some (.ok
        { results := bin placed k, heldBack := passedOver 2 k placed, pages })) ∧
    ((List.range pages).flatMap (bin placed)).Perm
      (["https://a.c/1".toList, "https://a.c/2".toList, "https://b.c/1".toList].map plainHit) := by
  obtain ⟨placed, pages, _, hpages, _, _, hperm, _⟩ := takePage_walk asciiLower
    (["https://a.c/1".toList, "https://a.c/2".toList, "https://b.c/1".toList].map plainHit) 2 1
    (by decide) (by decide)
  exact ⟨placed, pages, hpages, hperm⟩

end Ranking
