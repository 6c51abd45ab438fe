/-
The figures of a crawl's progress.

The loop counts what it queues, what it absorbs, and what became of each outcome.  These
figures are logged and written to a file while it runs, next to the frontier's own count.

* `settle_tally`, `absorb_tally` — an absorbed outcome is counted once, in one place;
* `Counted`, `Counted.step` — what the counters count, in every state of a crawl;
* `figures_add_up` — so the figures that the loop shows add up, at any time.
-/
import MjlSearch.Admission
import MjlSearch.Coverage

open Text Machine Policy Runs FrontierQueue CrawlDb

namespace Crawler

variable {lib : Libraries} {cli : Cli}

/-- The outcomes that the counters count: a redirect off the site is counted as well as the
page it led to, if that is kept. -/
def tally (cli : Cli) (stats : Stats) : ℕ :=
  stats.indexed + stats.sitemaps + stats.failed + stats.disallowed +
    if cli.dropOffsiteRedirects then stats.redirectedOffsite else 0

/-- The counters of what was absorbed are the same, and the archive is. -/
structure SameOutcomes (cli : Cli) (o o' : Owner lib) : Prop where
  tally : tally cli o'.stats = tally cli o.stats
  fetched : o'.stats.fetched = o.stats.fetched
  indexed : o'.stats.indexed = o.stats.indexed
  pages : o'.pages = o.pages

theorem SameOutcomes.refl (o : Owner lib) : SameOutcomes cli o o := ⟨rfl, rfl, rfl, rfl⟩

theorem SameOutcomes.trans {o o' o'' : Owner lib} (h : SameOutcomes cli o o')
    (h' : SameOutcomes cli o' o'') : SameOutcomes cli o o'' :=
  ⟨h'.tally.trans h.tally, h'.fetched.trans h.fetched, h'.indexed.trans h.indexed,
    h'.pages.trans h.pages⟩

theorem enqueue_outcomes (faults : Faults) (o : Owner lib) (job : CrawlJob) :
    SameOutcomes cli o (enqueue faults o job).2 := by
  rw [enqueue, checkAndInsert]
  split
  · exact ⟨rfl, rfl, rfl, rfl⟩
  · split <;> exact ⟨rfl, rfl, rfl, rfl⟩

/-- Scheduling links counts links only. -/
theorem schedule_outcomes (depth : ℕ) (faults : ℕ → Faults) (turn : ℕ) (links : List Str)
    (o : Owner lib) : SameOutcomes cli o (schedule cli depth faults turn links o).2 := by
  induction links generalizing turn o with
  | nil => exact .refl o
  | cons raw links ih =>
    rw [schedule]
    split
    · exact ih _ _
    · rename_i url hurl
      split
      · refine SameOutcomes.trans ?_ (ih _ _)
        exact ⟨rfl, rfl, rfl, rfl⟩
      · split
        · refine SameOutcomes.trans ?_ (ih _ _)
          exact ⟨rfl, rfl, rfl, rfl⟩
        · have hframe := @enqueue_outcomes lib cli (faults turn) o { url, depth }
          split
          · rename_i e failed hcall
            rwa [hcall] at hframe
          · rename_i queued hcall
            rw [hcall] at hframe
            exact hframe.trans (ih (turn + 1) queued)

theorem schedule_same {depth : ℕ} {faults : ℕ → Faults} {turn : ℕ} {links : List Str}
    {o : Owner lib} {called : Called lib} (h : schedule cli depth faults turn links o = called) :
    SameOutcomes cli o called.2 := by
  rw [← h]
  exact schedule_outcomes depth faults turn links o

theorem queueSeed_outcomes (faults : Faults) (o : Owner lib) (seed : Str) :
    SameOutcomes cli o (queueSeed faults o seed).2 := by
  rw [queueSeed]
  split
  · exact .refl o
  · exact enqueue_outcomes _ _ _

/-- One more outcome is counted, and if it is a page that is kept, archived. -/
structure OneMore (cli : Cli) (o o' : Owner lib) : Prop where
  tally : tally cli o'.stats = tally cli o.stats + 1
  fetched : o'.stats.fetched + o.stats.indexed = o.stats.fetched + o'.stats.indexed
  indexed : o'.stats.indexed + o.pages.length = o.stats.indexed + o'.pages.length

theorem OneMore.then {o o' o'' : Owner lib} (h : OneMore cli o o')
    (h' : SameOutcomes cli o' o'') : OneMore cli o o'' := by
  refine ⟨h'.tally.trans h.tally, ?_, ?_⟩
  · rw [h'.fetched, h'.indexed]
    exact h.fetched
  · rw [h'.indexed, h'.pages]
    exact h.indexed

theorem OneMore.after {o o' o'' : Owner lib} (h : SameOutcomes cli o o')
    (h' : OneMore cli o' o'') : OneMore cli o o'' := by
  refine ⟨by rw [h'.tally, h.tally], ?_, ?_⟩
  · rw [← h.fetched, ← h.indexed]
    exact h'.fetched
  · rw [← h.indexed, ← h.pages]
    exact h'.indexed

/-- **A page or sitemap is counted once**, dropped or not. -/
theorem settle_tally {faults : AbsorbFaults} {o o' : Owner lib} {nowMs : ℤ} {job : CrawlJob}
    {visited : Visited} (h : settle cli faults o nowMs job visited = (.ok (), o')) :
    OneMore cli o o' := by
  unfold settle at h
  dsimp only at h
  generalize hoffsite : ((scope lib cli).restricted &&
    !(scope lib cli).allows lib.urls visited.finalUrl) = offsite at h
  by_cases hdropped : offsite = true ∧ cli.dropOffsiteRedirects = true
  · rw [if_pos hdropped] at h
    cases h
    rw [if_pos hdropped.1]
    refine ⟨?_, rfl, rfl⟩
    simp only [tally, hdropped.2, if_true]
    rfl
  · rw [if_neg hdropped] at h
    -- a redirect that is only noted is not part of the tally
    have hnoted : SameOutcomes cli o (if offsite = true then { o with stats :=
        { o.stats with redirectedOffsite := o.stats.redirectedOffsite + 1 } } else o) := by
      by_cases hoff : offsite = true
      · have hkept : ¬ cli.dropOffsiteRedirects = true := fun hc => hdropped ⟨hoff, hc⟩
        rw [if_pos hoff]
        refine ⟨?_, rfl, rfl, rfl⟩
        simp only [tally, if_neg hkept]
      · rw [if_neg hoff]
        exact .refl o
    generalize (if offsite = true then { o with stats :=
      { o.stats with redirectedOffsite := o.stats.redirectedOffsite + 1 } } else o) = noted at h hnoted
    refine OneMore.after hnoted ?_
    cases visited with
    | sitemap url links =>
      have hread : OneMore cli noted
          { noted with stats := { noted.stats with sitemaps := noted.stats.sitemaps + 1 } } := by
        refine ⟨?_, rfl, rfl⟩
        simp only [tally]
        omega
      exact hread.then (schedule_same h)
    | page page parsed =>
      dsimp only at h
      split at h
      · cases h
      · have hpage : OneMore cli noted { noted with
            pages := noted.pages ++ [(page, documentOf lib nowMs page parsed)]
            stats := { noted.stats with
              fetched := noted.stats.fetched + 1
              indexed := noted.stats.indexed + 1 } } := by
          refine ⟨?_, ?_, ?_⟩
          · simp only [tally]
            omega
          · dsimp only
            omega
          · dsimp only
            rw [List.length_append, List.length_singleton]
            omega
        split at h
        · exact hpage.then (schedule_same h)
        · cases h
          exact hpage

/-- **An absorbed outcome is counted once**, whatever became of it. -/
theorem absorb_tally {faults : AbsorbFaults} {o o' : Owner lib} {nowMs : ℤ} {outcome : Outcome}
    (h : absorb cli faults o nowMs outcome = (.ok (), o')) : OneMore cli o o' := by
  rw [absorb] at h
  split at h
  · cases h
  · rename_i o₁ hcache
    rw [cacheRules_owner hcache] at h
    dsimp only at h
    split at h
    · cases h
    · rename_i F hdefer
      split at h
      · cases h
      · rename_i scheduled hcall
        have hsitemaps := schedule_same hcall
        have hsame : SameOutcomes cli o scheduled := ⟨hsitemaps.tally, hsitemaps.fetched,
          hsitemaps.indexed, hsitemaps.pages⟩
        refine OneMore.after hsame ?_
        split at h
        · exact settle_tally h
        · cases h
          refine ⟨?_, rfl, rfl⟩
          simp only [tally]
          omega
        · cases h
          refine ⟨?_, rfl, rfl⟩
          simp only [tally]
          omega

/-! ### In every state of a crawl -/

/-- What the counters of a running crawl count. -/
structure Counted (cli : Cli) (log : List Logged) (o : Owner lib) : Prop where
  tally : tally cli o.stats = (absorbedJobs log).length
  fetched : o.stats.fetched = o.stats.indexed
  indexed : o.stats.indexed = o.pages.length

variable {s t : System lib} {log : List Logged} {entry : Logged}

theorem Counted.same {o o' : Owner lib} (h : Counted cli log o) (hidle : entry.event.idle = true)
    (hsame : SameOutcomes cli o o') : Counted cli (log ++ [entry]) o' := by
  refine ⟨?_, ?_, ?_⟩
  · rw [absorbedJobs_snoc, (idle_jobs hidle).2, List.append_nil, hsame.tally, h.tally]
  · rw [hsame.fetched, hsame.indexed, h.fetched]
  · rw [hsame.indexed, hsame.pages, h.indexed]

/-- **Every step of a crawl keeps the counters right.** -/
theorem Counted.step {a b : System lib}
    (h : ∀ p, a.process = some p → Counted cli log p.owner) (hturn : Turn cli a entry.event b)
    (hne : entry.event ≠ .started) :
    ∀ p, b.process = some p → Counted cli (log ++ [entry]) p.owner := by
  obtain ⟨event, pushed, popped⟩ := entry
  dsimp only at hturn hne
  cases hturn with
  | notStarted hoff =>
    intro q hq
    exact absurd hq (by simp [hoff])
  | started => exact absurd rfl hne
  | killed => exact fun q hq => by cases hq
  | closed => exact fun q hq => by cases hq
  | popFailed => exact fun q hq => by cases hq
  | @seeded p seed rest faults hon hphase =>
    have hp := h p hon
    have hsame := @queueSeed_outcomes lib cli faults p.owner seed
    rcases hcall : queueSeed faults p.owner seed with ⟨_ | _, owner⟩
    · exact fun q hq => by cases hq
    · intro q hq
      cases hq
      rw [hcall] at hsame
      exact hp.same rfl hsame
  | moved hon =>
    have hp := h _ hon
    intro q hq
    cases hq
    exact hp.same rfl (.refl _)
  | @poppedNone p frontier nowMs pop hon =>
    have hp := h p hon
    intro q hq
    cases hq
    exact hp.same rfl ⟨rfl, rfl, rfl, rfl⟩
  | @passedOver p frontier nowMs pop job hon =>
    have hp := h p hon
    intro q hq
    cases hq
    exact hp.same rfl ⟨rfl, rfl, rfl, rfl⟩
  | @dispatched p frontier nowMs pop get job host cachedRules hon =>
    have hp := h p hon
    intro q hq
    cases hq
    refine ⟨?_, hp.fetched, hp.indexed⟩
    rw [absorbedJobs_snoc]
    exact hp.tally.trans (by simp [absorbedJobs])
  | @checked p i visit answer hon =>
    have hp := h p hon
    intro q hq
    cases hq
    refine hp.same ?_ (.refl _)
    dsimp only
    split <;> rfl
  | fetched hon =>
    have hp := h _ hon
    intro q hq
    cases hq
    exact hp.same rfl (.refl _)
  | sent hon =>
    have hp := h _ hon
    intro q hq
    cases hq
    exact hp.same rfl (.refl _)
  | @absorbed p nowMs faults outcome channel hon =>
    have hp := h p hon
    rcases hcall : absorb cli faults p.owner nowMs outcome with ⟨_ | _, owner⟩
    · exact fun q hq => by cases hq
    · intro q hq
      cases hq
      have hmore := absorb_tally hcall
      have hfetched := hmore.fetched
      have hindexed := hmore.indexed
      have hbefore := hp.fetched
      have hpages := hp.indexed
      refine ⟨?_, ?_, ?_⟩
      · rw [absorbedJobs_snoc, List.length_append, ← hp.tally]
        exact hmore.tally
      · show owner.stats.fetched = owner.stats.indexed
        omega
      · show owner.stats.indexed = owner.pages.length
        omega

theorem crawl_counted (hlaws : UrlLaws lib.urls) (h : Crawl cli s log t) :
    ∀ p, t.process = some p → Counted cli log p.owner := by
  refine h.invariant hlaws (I := fun log t => ∀ p, t.process = some p → Counted cli log p.owner)
    ?_ ?_
  · intro frontier reads _ p hp
    cases hp
    refine ⟨?_, rfl, rfl⟩
    simp [tally, absorbedJobs, begin]
  · intro log a entry b _ hcounted hturn hne _ _ _
    exact Counted.step hcounted hturn hne

/-- The counter of what was queued counts the pushes. -/
theorem crawl_admitting (hlaws : UrlLaws lib.urls) (hseen : SeenLaws lib.seen)
    (h : Crawl cli s log t) : Admitting lib log t := by
  refine h.invariant hlaws (I := fun log t => Admitting lib log t) ?_ ?_
  · intro frontier reads _
    refine ⟨List.nodup_nil, fun _ hc => (by cases hc), fun _ _ _ hc => (by cases hc),
      fun p hp => ?_⟩
    cases hp
    rfl
  · intro log a entry b hsound hadmitting hturn hne hpushed _ _
    exact hadmitting.step hlaws hseen hsound hturn hne hpushed

/-- Every entry of a sound queue is a job. -/
theorem length_queuedJobs {F : Frontier} (h : Wf lib.urls lib.codecs F) :
    (queuedJobs lib F.db).length = F.db.pending.entries.length := by
  rw [queuedJobs, List.filterMap_length_eq_length]
  intro e he
  obtain ⟨host, job, n, _, _, _, _, hdecode⟩ := h.entries e he
  rw [hdecode]
  rfl

/-- **The figures of a running crawl add up.** What was absorbed is what was indexed, was a
sitemap, failed, was disallowed, or was dropped for leaving the site; every page fetched is
indexed, and in the archive; and what was queued when the crawl started, with what it queued,
is what is pending, in flight or absorbed. -/
theorem figures_add_up (lib : Libraries) (cli : Cli) (hlaws : UrlLaws lib.urls)
    (hseen : SeenLaws lib.seen) (s t : System lib) (log : List Logged) (h : Crawl cli s log t)
    (p : Process lib) (hp : t.process = some p) :
    tally cli p.owner.stats = (absorbedJobs log).length ∧
    p.owner.stats.fetched = p.owner.stats.indexed ∧
    p.owner.stats.indexed = p.owner.pages.length ∧
    (queuedJobs lib s.db).length + p.owner.stats.queued =
      p.owner.frontier.pending + p.inFlightTotal + tally cli p.owner.stats := by
  have hcounted := crawl_counted hlaws h p hp
  have haccounts := crawl_accounts hlaws h p hp
  refine ⟨hcounted.tally, hcounted.fetched, hcounted.indexed, ?_⟩
  have hpending : p.owner.frontier.pending = (queuedJobs lib t.database).length := by
    rw [System.database, hp, crawl_pending hlaws h p hp]
    exact (length_queuedJobs ((h.sound hlaws).on p hp).wf).symm
  have hflights := haccounts.absorbed.length_eq
  rw [List.length_append, inFlightJobs, List.length_map, ← haccounts.total,
    ← hcounted.tally] at hflights
  have hbalance := (crawl_balance hlaws h).length_eq
  rw [List.length_append, List.length_append, haccounts.popped,
    ← (crawl_admitting hlaws hseen h).queued p hp] at hbalance
  omega

/-- Two seeds are queued, one is absorbed and was disallowed, and one is in flight. -/
theorem figures_add_up_sample : ∃ log, ∃ t : System plainLibraries, ∃ p,
    Crawl (plainCli ["http://b.c/".toList, "http://b.c/x".toList] 2) fresh log t ∧
    t.process = some p ∧ p.owner.stats.queued = 2 ∧ p.owner.stats.disallowed = 1 ∧
    (queuedJobs plainLibraries CrawlDb.empty).length + p.owner.stats.queued =
      p.owner.frontier.pending + p.inFlightTotal +
        tally (plainCli ["http://b.c/".toList, "http://b.c/x".toList] 2) p.owner.stats := by
  generalize hcli : plainCli ["http://b.c/".toList, "http://b.c/x".toList] 2 = cli
  have hcrawl : Crawl cli fresh
      (execLogged cli (startedFresh plainLibraries cli) oneAbsorbed).1
      (execLogged cli (startedFresh plainLibraries cli) oneAbsorbed).2 := by
    subst hcli
    exact crawl_exec (fun _ _ => trivial) rfl (by decide)
  subst hcli
  refine ⟨_, _, _, hcrawl, rfl, by decide, by decide, ?_⟩
  exact (figures_add_up plainLibraries _ plainUrls_laws plainSeen_laws _ _ _ hcrawl _ rfl).2.2.2

end Crawler
