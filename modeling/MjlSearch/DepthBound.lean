/-
The depth of what is queued.

Seeds, and the sitemaps a robots.txt names, are queued at depth zero, and the links of a
page only while it is above the greatest depth.  What a sitemap lists is queued at depth
one, whatever the greatest depth is.

* `pushes_within_depth` — no job is pushed below the greatest depth, as long as this is
  not zero or no sitemap lists a URL that is queued;
* `sitemap_too_deep` — else one is.
-/
import MjlSearch.Histories

open Text Machine Policy Runs FrontierQueue CrawlDb

namespace Crawler

variable {lib : Libraries} {cli : Cli}

/-- The greatest depth is not zero, or what is absorbed is no sitemap that lists a URL to
be queued: one that is in scope, plausibly a page, and unknown to the filter. -/
def Shallow (cli : Cli) (a : System lib) (e : Event) : Prop :=
  0 < cli.maxDepth ∨ ∀ p nowMs outcome url links, a.process = some p →
    e = .absorbed nowMs outcome → outcome.result = .ok (.sitemap url links) →
    ¬ Dropped lib cli (.sitemap url links) →
    ∀ job, Scheduled lib cli links sitemapDepth job →
      lib.seen.contains p.owner.seen job.url = true

/-- What a shallow step pushes is not too deep. -/
theorem Gains.depth (hseen : SeenLaws lib.seen) {a b : System lib} {e : Event}
    {jobs : List CrawlJob} {p : Process lib} (h : Gains cli a e b jobs p)
    (hp : a.process = some p) (hshallow : Shallow cli a e) :
    ∀ job ∈ jobs, job.depth ≤ cli.maxDepth := by
  intro job hjob
  obtain ⟨F, o, hadmits, _⟩ := h.admits
  obtain ⟨hsource, hnew, _⟩ := (hadmits.unseen hseen).2.1 job hjob
  rcases hsource with ⟨seed, hseeded⟩ | ⟨nowMs, outcome, rfl, hqueued⟩
  · rw [hseeded.depth]
    exact Nat.zero_le _
  · cases hqueued with
    | declared hscheduled =>
      rw [hscheduled.depth]
      exact Nat.zero_le _
    | @listed url links hresult hkept hscheduled =>
      rcases hshallow with hpositive | hnone
      · rw [hscheduled.depth]
        exact hpositive
      · -- the filter would know it
        have hknown := hnone p nowMs outcome url links hp rfl hresult hkept job hscheduled
        rw [show lib.seen.contains p.owner.seen job.url = false from hnew] at hknown
        cases hknown
    | linked hresult hkept hdepth hscheduled =>
      rw [hscheduled.depth]
      exact hdepth

/-- **No job of a crawl of shallow steps is pushed below the greatest depth.** -/
theorem pushes_within_depth (lib : Libraries) (cli : Cli) (hlaws : UrlLaws lib.urls)
    (hseen : SeenLaws lib.seen) (s t : System lib) (log : List Logged)
    (h : CrawlOf (Shallow cli) cli s log t) : ∀ job ∈ pushes log, job.depth ≤ cli.maxDepth := by
  refine h.invariant hlaws (I := fun log _ => ∀ job ∈ pushes log, job.depth ≤ cli.maxDepth) ?_ ?_
  · intro frontier reads _ job hjob
    cases hjob
  · intro log a entry b hsound hI hturn hne hpushed _ hshallow job hjob
    rw [pushes_snoc] at hjob
    rcases List.mem_append.mp hjob with hjob | hjob
    · exact hI job hjob
    · rw [hpushed] at hjob
      rcases hon : a.process with _ | p
      · rw [(hturn.idle hon hne).2] at hjob
        cases hjob
      · obtain ⟨jobs, hgains⟩ := hturn.gains hlaws hsound hon
        exact hgains.depth hseen hon hshallow job (hgains.perm.mem_iff.mp hjob)

/-! ### A sitemap -/

/-- A sitemap of one page. -/
def oneSitemap : Str := "<urlset><url><loc>http://b.c/x</loc></url></urlset>".toList

/-- The libraries, with a parser that can read it. -/
def sitemapLibraries : Libraries :=
  { plainLibraries with
    parseSitemap := fun body => if body = oneSitemap then ["http://b.c/x".toList] else [] }

theorem plainSeen_laws : SeenLaws plainLibraries.seen where
  insert_self _ _ := List.contains_iff_mem.mpr List.mem_cons_self
  insert_mono _ _ _ h :=
    List.contains_iff_mem.mpr (List.mem_cons_of_mem _ (List.contains_iff_mem.mp h))

/-- A crawl of the sitemap, at most to this depth. -/
def sitemapCli (maxDepth : ℕ) : Cli :=
  { plainCli ["http://b.c/sitemap.xml".toList] 2 with maxDepth }

/-- The seed is fetched, and turns out to be the sitemap. -/
def readSitemap : List Choice :=
  [.seed noFaults, .go, .go, .go] ++ dispatchOne 1000 ++
    [.check 0 (robotsPage []),
      .fetch 0 (.ok { blankPage "http://b.c/sitemap.xml".toList with body := oneSitemap })] ++
    absorbOne 2000

theorem pushes_within_depth_sample : ∃ log, ∃ t : System sitemapLibraries,
    CrawlOf (Shallow (sitemapCli 1)) (sitemapCli 1) fresh log t ∧
    pushes log = [⟨"http://b.c/sitemap.xml".toList, 0⟩, ⟨"http://b.c/x".toList, 1⟩] ∧
    ∀ job ∈ pushes log, job.depth ≤ (sitemapCli 1).maxDepth := by
  have hcrawl : CrawlOf (Shallow (sitemapCli 1)) (sitemapCli 1) fresh
      (execLogged (sitemapCli 1) (startedFresh sitemapLibraries (sitemapCli 1)) readSitemap).1
      (execLogged (sitemapCli 1) (startedFresh sitemapLibraries (sitemapCli 1)) readSitemap).2 :=
    crawl_exec (fun _ _ => Or.inl (Nat.succ_pos 0)) rfl (by decide)
  exact ⟨_, _, hcrawl, by decide, pushes_within_depth sitemapLibraries (sitemapCli 1)
    plainUrls_laws plainSeen_laws _ _ _ hcrawl⟩

/-- **With a greatest depth of zero, the page the sitemap lists is queued at depth one.** -/
theorem sitemap_too_deep : ∃ log, ∃ t : System sitemapLibraries,
    Crawl (sitemapCli 0) fresh log t ∧ (sitemapCli 0).maxDepth = 0 ∧
    pushes log = [⟨"http://b.c/sitemap.xml".toList, 0⟩, ⟨"http://b.c/x".toList, 1⟩] := by
  have hcrawl : Crawl (sitemapCli 0) fresh
      (execLogged (sitemapCli 0) (startedFresh sitemapLibraries (sitemapCli 0)) readSitemap).1
      (execLogged (sitemapCli 0) (startedFresh sitemapLibraries (sitemapCli 0)) readSitemap).2 :=
    crawl_exec (fun _ _ => trivial) rfl (by decide)
  exact ⟨_, _, hcrawl, rfl, by decide⟩

end Crawler
