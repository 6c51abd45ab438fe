/-
What a crawl lets into its queue and its archive.

Seeds, links, and the sitemaps a robots.txt names all pass the same gate: a URL is made
canonical, and then pushed if the seen-URL filter does not know it.

* `Admitting` — what is known of the queue in every state of a crawl: each URL was pushed
  once, the filter knows it, and the counter counts it;
* `Archiving` — what is known of the archive when off-site redirects are dropped;
* `pushes_admitted` — so no URL is pushed twice, each is its own canonical form, and what
  is absorbed adds pages in scope only, and nothing a dropped page links to.
-/
import MjlSearch.Histories

open Text Machine Policy Runs FrontierQueue CrawlDb

namespace Crawler

variable {lib : Libraries} {cli : Cli} {log : List Logged} {s t : System lib}

/-! ### The queue -/

/-- The pushes of a crawl: each URL once, and known to the filter from then on. -/
structure Admitting (lib : Libraries) (log : List Logged) (s : System lib) : Prop where
  unique : ((pushes log).map CrawlJob.url).Nodup
  canonical : ∀ job ∈ pushes log, ∃ raw, canonicalUrl lib.urls lib.forms raw = some job.url
  known : ∀ p, s.process = some p → ∀ job ∈ pushes log,
    lib.seen.contains p.owner.seen job.url = true
  queued : ∀ p, s.process = some p → p.owner.stats.queued = (pushes log).length

theorem Source.canonical {e : Event} {job : CrawlJob} (h : Source lib cli e job) :
    ∃ raw, canonicalUrl lib.urls lib.forms raw = some job.url := by
  rcases h with ⟨seed, hseeded⟩ | ⟨nowMs, outcome, rfl, hqueued⟩
  · exact ⟨seed, hseeded.link⟩
  · have hscheduled : ∃ links depth, Scheduled lib cli links depth job := by
      cases hqueued with
      | declared h => exact ⟨_, _, h⟩
      | listed hresult hkept h => exact ⟨_, _, h⟩
      | linked hresult hkept hdepth h => exact ⟨_, _, h⟩
    obtain ⟨links, depth, h⟩ := hscheduled
    obtain ⟨raw, _, hcanonical⟩ := h.link
    exact ⟨raw, hcanonical⟩

/-- What a step adds keeps the queue as it should be. -/
theorem Admitting.gains (hseen : SeenLaws lib.seen) {a b : System lib} {entry : Logged}
    {jobs : List CrawlJob} {p : Process lib} (h : Admitting lib log a)
    (hp : a.process = some p) (hpushed : entry.pushed.Perm jobs)
    (hgains : Gains cli a entry.event b jobs p) : Admitting lib (log ++ [entry]) b := by
  obtain ⟨F, o, hadmits, hafter⟩ := hgains.admits
  obtain ⟨hmono, hjobs, hnodup, hcount⟩ := hadmits.unseen hseen
  have hentry : ∀ job ∈ entry.pushed, Source lib cli entry.event job ∧
      lib.seen.contains p.owner.seen job.url = false ∧ lib.seen.contains o.seen job.url = true :=
    fun job hjob => hjobs job (hpushed.mem_iff.mp hjob)
  refine ⟨?_, ?_, ?_, ?_⟩
  · rw [pushes_snoc, List.map_append]
    refine h.unique.append ((hpushed.map _).nodup_iff.mpr hnodup) ?_
    -- the filter knew what was pushed before, and not what is pushed now
    intro url hbefore hnow
    obtain ⟨job, hjob, rfl⟩ := List.mem_map.mp hbefore
    obtain ⟨job', hjob', hurl⟩ := List.mem_map.mp hnow
    have hknown := h.known p hp job hjob
    rw [← hurl, (hentry job' hjob').2.1] at hknown
    cases hknown
  · intro job hjob
    rw [pushes_snoc] at hjob
    rcases List.mem_append.mp hjob with hjob | hjob
    · exact h.canonical job hjob
    · exact (hentry job hjob).1.canonical
  · intro q hq job hjob
    rw [(hafter q hq).1]
    rw [pushes_snoc] at hjob
    rcases List.mem_append.mp hjob with hjob | hjob
    · exact hmono _ (h.known p hp job hjob)
    · exact (hentry job hjob).2.2
  · intro q hq
    rw [(hafter q hq).2, hcount, pushes_snoc, List.length_append, hpushed.length_eq]
    show p.owner.stats.queued + jobs.length = _
    rw [h.queued p hp]

/-- **Every step keeps the queue as it should be.** -/
theorem Admitting.step (hlaws : UrlLaws lib.urls) (hseen : SeenLaws lib.seen) {a b : System lib}
    {entry : Logged} (hsound : SoundIn lib a) (h : Admitting lib log a)
    (hturn : Turn cli a entry.event b) (hne : entry.event ≠ .started)
    (hpushed : entry.pushed = pushedJobs lib a.database b.database) :
    Admitting lib (log ++ [entry]) b := by
  rcases hon : a.process with _ | p
  · obtain ⟨hoff, hnone⟩ := hturn.idle hon hne
    have hsame : pushes (log ++ [entry]) = pushes log := by
      rw [pushes_snoc, hpushed, hnone, List.append_nil]
    refine ⟨by rw [hsame]; exact h.unique, by rw [hsame]; exact h.canonical, ?_, ?_⟩
    · intro q hq
      rw [hoff] at hq
      cases hq
    · intro q hq
      rw [hoff] at hq
      cases hq
  · obtain ⟨jobs, hgains⟩ := hturn.gains hlaws hsound hon
    refine h.gains hseen hon ?_ hgains
    rw [hpushed]
    exact hgains.perm

/-! ### What is absorbed -/

/-- What absorbing an outcome pushes is in scope and plausibly a page, and where the
outcome is dropped, only its robots.txt names it. -/
structure Absorbs (lib : Libraries) (cli : Cli) (outcome : Outcome) (job : CrawlJob) : Prop where
  inScope : (scope lib cli).allows lib.urls job.url = true
  page : isProbablyPage lib.urls job.url = true
  dropped : ∀ visited, outcome.result = .ok visited → Dropped lib cli visited →
    Scheduled lib cli outcome.sitemaps 0 job

theorem Queued.absorbs {outcome : Outcome} {job : CrawlJob} (h : Queued lib cli outcome job) :
    Absorbs lib cli outcome job := by
  cases h with
  | declared h => exact ⟨h.inScope, h.page, fun _ _ _ => h⟩
  | @listed url links hresult hkept h =>
    refine ⟨h.inScope, h.page, fun visited hvisited hdropped => ?_⟩
    rw [hresult] at hvisited
    cases hvisited
    exact absurd hdropped hkept
  | @linked page parsed hresult hkept hdepth h =>
    refine ⟨h.inScope, h.page, fun visited hvisited hdropped => ?_⟩
    rw [hresult] at hvisited
    cases hvisited
    exact absurd hdropped hkept

/-- **What a step pushes while it absorbs an outcome.** -/
theorem absorbed_pushes (hlaws : UrlLaws lib.urls) (hseen : SeenLaws lib.seen) {a b : System lib}
    {nowMs : ℤ} {outcome : Outcome} (hsound : SoundIn lib a)
    (hturn : Turn cli a (.absorbed nowMs outcome) b) :
    ∀ job ∈ pushedJobs lib a.database b.database, Absorbs lib cli outcome job := by
  intro job hjob
  rcases hon : a.process with _ | p
  · rw [(hturn.idle hon fun hc => (by cases hc)).2] at hjob
    cases hjob
  · -- an outcome is absorbed in one place only, so its source is no seed
    generalize he : Event.absorbed nowMs outcome = e at hturn
    cases hturn with
    | @absorbed p' nowMs' faults outcome' channel hon' hnow hphase hchannel =>
      cases he
      rw [hon] at hon'
      cases hon'
      obtain ⟨F, jobs, hqueue, o, hadmits, hdb, _⟩ :=
        @absorb_admits lib cli faults p.owner nowMs outcome
      have hperm := (hadmits.perm hlaws (hqueue.wf (hsound.on p hon).wf)).2.2
      rw [database_proceed, hdb, System.database, hon] at hjob
      rw [pushedJobs, newEntries, hqueue.pending] at hperm
      have hmem : job ∈ jobs := hperm.mem_iff.mp hjob
      exact ((hadmits.unseen hseen).2.1 job hmem).1.absorbs
    | checked hon' hvisit hstage =>
      split at he <;> cases he
    | _ => cases he

/-! ### The archive -/

/-- The archived pages are in scope. -/
def Archiving (lib : Libraries) (cli : Cli) (pages : List (FetchedPage × Document)) : Prop :=
  ∀ page ∈ pages, (scope lib cli).allows lib.urls page.2.url = true

theorem archived_inScope (hrestricted : (scope lib cli).restricted = true)
    (hdrop : cli.dropOffsiteRedirects = true) (nowMs : ℤ) (outcome : Outcome) :
    Archiving lib cli (archived lib cli nowMs outcome) := by
  intro page hpage
  rw [archived] at hpage
  split at hpage
  · rename_i fetched parsed _
    split at hpage
    · cases hpage
    · rename_i hkept
      rw [List.mem_singleton.mp hpage]
      show (scope lib cli).allows lib.urls fetched.finalUrl = true
      by_contra hout
      rw [Bool.not_eq_true] at hout
      exact hkept ⟨hrestricted, hout, hdrop⟩
  · cases hpage

/-- Absorbing an outcome archives pages in scope only, also when it then fails. -/
theorem Archiving.absorbed (hrestricted : (scope lib cli).restricted = true)
    (hdrop : cli.dropOffsiteRedirects = true) {o : Owner lib} (h : Archiving lib cli o.pages)
    (faults : AbsorbFaults) (nowMs : ℤ) (outcome : Outcome) :
    Archiving lib cli (absorb cli faults o nowMs outcome).2.pages := by
  rcases absorb_archives (rfl : absorb cli faults o nowMs outcome = _) with
    ⟨_, hpages⟩ | ⟨hpages, _⟩
  · rw [hpages]
    exact h
  · rw [hpages]
    intro page hpage
    rcases List.mem_append.mp hpage with hpage | hpage
    · exact h page hpage
    · exact archived_inScope hrestricted hdrop nowMs outcome page hpage

theorem Archiving.step (hrestricted : (scope lib cli).restricted = true)
    (hdrop : cli.dropOffsiteRedirects = true) {a b : System lib} {e : Event}
    (h : ∀ p, a.process = some p → Archiving lib cli p.owner.pages) (hturn : Turn cli a e b)
    (hne : e ≠ .started) : ∀ p, b.process = some p → Archiving lib cli p.owner.pages := by
  cases hturn with
  | notStarted hoff =>
    intro q hq
    rw [show _ = none from hoff] at hq
    cases hq
  | started => exact absurd rfl hne
  | killed => exact fun q hq => by cases hq
  | closed => exact fun q hq => by cases hq
  | popFailed => exact fun q hq => by cases hq
  | @seeded p seed rest faults hon hphase =>
    have hpages : (queueSeed faults p.owner seed).2.pages = p.owner.pages := by
      rw [queueSeed]
      split
      · rfl
      · exact (enqueue_archive _ _ _).1
    rcases hcall : queueSeed faults p.owner seed with ⟨_ | _, owner⟩
    · exact fun q hq => by cases hq
    · intro q hq
      cases hq
      rw [hcall] at hpages
      show Archiving lib cli owner.pages
      rw [show owner.pages = p.owner.pages from hpages]
      exact h p hon
  | @absorbed p nowMs faults outcome channel hon hnow hphase hchannel =>
    have hpages := (h p hon).absorbed hrestricted hdrop faults nowMs outcome
    rcases hcall : absorb cli faults p.owner nowMs outcome with ⟨_ | _, owner⟩
    · exact fun q hq => by cases hq
    · intro q hq
      cases hq
      rw [hcall] at hpages
      exact hpages
  -- no other step touches the archive
  | @moved p _ _ hon => exact fun q hq => by cases hq; exact h p hon
  | @poppedNone p _ _ _ hon => exact fun q hq => by cases hq; exact h p hon
  | @passedOver p _ _ _ _ hon => exact fun q hq => by cases hq; exact h p hon
  | @dispatched p _ _ _ _ _ _ _ hon => exact fun q hq => by cases hq; exact h p hon
  | @checked p _ _ _ hon => exact fun q hq => by cases hq; exact h p hon
  | @fetched p _ _ _ _ hon => exact fun q hq => by cases hq; exact h p hon
  | @sent p _ _ _ hon => exact fun q hq => by cases hq; exact h p hon

/-! ### Both -/

/-- What a crawl lets in, once it has come to `t`. -/
structure LetIn (lib : Libraries) (cli : Cli) (log : List Logged) (t : System lib) : Prop where
  /-- No URL is pushed twice. -/
  unique : ((pushes log).map CrawlJob.url).Nodup
  /-- Every pushed URL is its own canonical form. -/
  canonical : ∀ job ∈ pushes log, canonicalUrl lib.urls lib.forms job.url = some job.url
  /-- What absorbing pushes is in scope and plausibly a page, and no link of a dropped page. -/
  absorbed : ∀ entry ∈ log, ∀ nowMs outcome, entry.event = .absorbed nowMs outcome →
    ∀ job ∈ entry.pushed, Absorbs lib cli outcome job
  /-- The counter counts the pushes. -/
  queued : ∀ p, t.process = some p → p.owner.stats.queued = (pushes log).length
  /-- The archive is in scope, also after a call that fails. -/
  archive : (scope lib cli).restricted = true → cli.dropOffsiteRedirects = true →
    ∀ p, t.process = some p → Archiving lib cli p.owner.pages ∧
      ∀ faults nowMs outcome,
        Archiving lib cli (absorb cli faults p.owner nowMs outcome).2.pages

/-- **Every crawl lets in each URL once, in its canonical form, and keeps to its scope.** -/
theorem pushes_admitted (lib : Libraries) (cli : Cli) (hlaws : UrlLaws lib.urls)
    (hserial : SerialLaws lib.urls lib.forms) (hseen : SeenLaws lib.seen) (s t : System lib)
    (log : List Logged) (h : Crawl cli s log t) : LetIn lib cli log t := by
  have hadmitting : Admitting lib log t := by
    refine h.invariant hlaws (I := fun log t => Admitting lib log t) ?_ ?_
    · intro frontier reads _
      refine ⟨List.nodup_nil, fun _ hc => (by cases hc), fun _ _ _ hc => (by cases hc), ?_⟩
      intro p hp
      cases hp
      rfl
    · intro log a entry b hsound hI hturn hne hpushed _ _
      exact hI.step hlaws hseen hsound hturn hne hpushed
  refine ⟨hadmitting.unique, ?_, ?_, hadmitting.queued, ?_⟩
  · intro job hjob
    obtain ⟨raw, hraw⟩ := hadmitting.canonical job hjob
    exact canonicalUrl_fixed hserial hraw
  · refine h.invariant hlaws (I := fun log _ => ∀ entry ∈ log, ∀ nowMs outcome,
      entry.event = .absorbed nowMs outcome →
      ∀ job ∈ entry.pushed, Absorbs lib cli outcome job) ?_ ?_
    · intro _ _ _ entry hentry
      cases hentry
    · intro log a entry b hsound hI hturn _ hpushed _ _ entry' hentry' nowMs outcome hevent
      rcases List.mem_append.mp hentry' with hentry' | hentry'
      · exact hI entry' hentry' nowMs outcome hevent
      · rw [List.mem_singleton] at hentry'
        subst hentry'
        rw [hevent] at hturn
        rw [hpushed]
        exact absorbed_pushes hlaws hseen hsound hturn
  · intro hrestricted hdrop p hp
    have harchive : Archiving lib cli p.owner.pages := by
      refine h.invariant hlaws
        (I := fun _ t => ∀ p, t.process = some p → Archiving lib cli p.owner.pages) ?_ ?_ p hp
      · intro frontier reads _ p hp
        cases hp
        exact fun _ hc => (by cases hc)
      · intro log a entry b hsound hI hturn hne _ _ _
        exact Archiving.step hrestricted hdrop hI hturn hne
    exact ⟨harchive, fun faults nowMs outcome => harchive.absorbed hrestricted hdrop _ _ _⟩

/-! ### A page that links about -/

/-- The libraries, where every page links to itself, to a page twice, to an image, to
another site and to something that is no URL. -/
def linkedLibraries : Libraries :=
  { plainLibraries with
    parsePage := fun _ base => .ok { title := [], text := [], links :=
      [base, "http://b.c/x".toList, "http://b.c/x".toList, "http://b.c/y.png".toList,
        "http://d.e/".toList, "mailto:x".toList] } }

/-- A crawl of one site that drops off-site redirects. -/
def siteCli : Cli :=
  { plainCli ["http://b.c/".toList] 2 with stayOnSite := true, dropOffsiteRedirects := true }

/-- The site's front page is fetched. -/
def readFront : List Choice :=
  [.seed noFaults, .go, .go, .go] ++ dispatchOne 1000 ++
    [.check 0 (robotsPage []), .fetch 0 (.ok (blankPage "http://b.c/".toList))] ++ absorbOne 2000

theorem pushes_admitted_sample : ∃ log, ∃ t : System linkedLibraries,
    Crawl siteCli fresh log t ∧
    (pushes log).map CrawlJob.url = ["http://b.c/".toList, "http://b.c/x".toList] ∧
    LetIn linkedLibraries siteCli log t := by
  have hcrawl : Crawl siteCli fresh
      (execLogged siteCli (startedFresh linkedLibraries siteCli) readFront).1
      (execLogged siteCli (startedFresh linkedLibraries siteCli) readFront).2 :=
    crawl_exec (fun _ _ => trivial) rfl (by decide)
  have hserial : SerialLaws linkedLibraries.urls linkedLibraries.forms := by
    refine plainUrls_serial _ fun query pairs hsub hne => ?_
    -- the one pair there is
    have hpairs : pairs = [(query, [])] := by
      rcases List.sublist_singleton.mp hsub with hnil | hone
      · exact absurd hnil hne
      · exact hone
    rw [hpairs]
    simp [linkedLibraries, plainLibraries]
  exact ⟨_, _, hcrawl, by decide, pushes_admitted linkedLibraries siteCli plainUrls_laws hserial
    ⟨fun _ _ => List.contains_iff_mem.mpr List.mem_cons_self, fun _ _ _ h =>
      List.contains_iff_mem.mpr (List.mem_cons_of_mem _ (List.contains_iff_mem.mp h))⟩ _ _ _ hcrawl⟩

end Crawler
