/-
What the owner lets into the frontier.

The queue is the pending column family, and a push is one new entry of it: the jobs
a step pushed are those queued after it and not before (`pushedJobs`).

* `Admits` — a call of the owner pushes jobs, one after the other, each unknown to the
  filter when it is;
* `schedule_admits`, `absorb_admits`, `queueSeed_admits` — which jobs these are, for
  each place that queues;
* `Admits.perm` — they are the jobs found by comparing the database before and after;
* `absorb_archives` — and which document goes to the archive.
-/
import MjlSearch.CrawlRuns

open Text Machine Policy Runs FrontierQueue CrawlDb

namespace Crawler

variable {lib : Libraries} {cli : Cli}

/-- The entries one database has queued and an earlier one has not. -/
def newEntries (before after : CrawlDb) : List (Key × Value) :=
  after.pending.entries.filter fun e => e ∉ before.pending.entries

/-- The jobs queued in between. -/
def pushedJobs (lib : Libraries) (before after : CrawlDb) : List CrawlJob :=
  (newEntries before after).filterMap fun e => lib.codecs.job.decode e.2

/-- The database: that of the process, or as the last process left it. -/
def System.database (s : System lib) : CrawlDb :=
  match s.process with
  | some p => p.owner.frontier.db
  | none => s.db

/-- Nothing new is queued. -/
theorem pushedJobs_eq_nil {before after : CrawlDb}
    (h : ∀ e ∈ after.pending.entries, e ∈ before.pending.entries) :
    pushedJobs lib before after = [] := by
  have hnone : newEntries before after = [] := by
    rw [newEntries, List.filter_eq_nil_iff]
    intro e he hnew
    exact of_decide_eq_true hnew (h e he)
  rw [pushedJobs, hnone]
  rfl

/-! ### The calls that push -/

/-- The owner goes on to push these jobs, one after the other, each unknown to the
filter.  `P` says which jobs. -/
inductive Admits (P : CrawlJob → Prop) (o : Owner lib) : List CrawlJob → Owner lib → Prop
  | refl : Admits P o [] o
  /-- The counters of what was skipped or archived, and the archive, do not matter. -/
  | keep {jobs : List CrawlJob} {o' : Owner lib} {pages : List (FetchedPage × Document)}
      {stats : Stats} (h : Admits P o jobs o') (hqueued : stats.queued = o'.stats.queued) :
      Admits P o jobs { o' with pages, stats }
  | push {jobs : List CrawlJob} {o' : Owner lib} {job : CrawlJob} {faults : Faults}
      {F : Frontier} (h : Admits P o jobs o') (hjob : P job)
      (hnew : lib.seen.contains o'.seen job.url = false)
      (hpush : Frontier.push lib.urls lib.codecs faults o'.frontier job = (.ok (), F)) :
      Admits P o (jobs ++ [job])
        { o' with
          seen := lib.seen.insert o'.seen job.url
          frontier := F
          stats := { o'.stats with queued := o'.stats.queued + 1 } }

variable {P Q : CrawlJob → Prop} {o o' o'' : Owner lib} {jobs jobs' : List CrawlJob}

theorem Admits.mono (hPQ : ∀ job, P job → Q job) (h : Admits P o jobs o') :
    Admits Q o jobs o' := by
  induction h with
  | refl => exact .refl
  | keep _ hqueued ih => exact ih.keep hqueued
  | push _ hjob hnew hpush ih => exact ih.push (hPQ _ hjob) hnew hpush

theorem Admits.trans (h : Admits P o jobs o') (h' : Admits P o' jobs' o'') :
    Admits P o (jobs ++ jobs') o'' := by
  induction h' with
  | refl => rwa [List.append_nil]
  | keep _ hqueued ih => exact ih.keep hqueued
  | push _ hjob hnew hpush ih =>
    rw [← List.append_assoc]
    exact ih.push hjob hnew hpush

/-- What a call that may only push leaves: the owner after some pushes, or after a
failure at least its database. -/
def Admitted (P : CrawlJob → Prop) (o : Owner lib) (jobs : List CrawlJob)
    (called : Called lib) : Prop :=
  ∃ o', Admits P o jobs o' ∧ called.2.frontier.db = o'.frontier.db ∧
    (called.1 = .ok () → called.2 = o')

theorem Admitted.ok (h : Admits P o jobs o') : Admitted P o jobs (.ok (), o') :=
  ⟨o', h, rfl, fun _ => rfl⟩

theorem Admitted.mono {called : Called lib} (hPQ : ∀ job, P job → Q job)
    (h : Admitted P o jobs called) : Admitted Q o jobs called := by
  obtain ⟨o', hadmits, hdb, hok⟩ := h
  exact ⟨o', hadmits.mono hPQ, hdb, hok⟩

/-- After some pushes, a call that may only push. -/
theorem Admitted.after {called : Called lib} (h : Admits P o jobs o')
    (h' : Admitted P o' jobs' called) : Admitted P o (jobs ++ jobs') called := by
  obtain ⟨o'', hadmits, hdb, hok⟩ := h'
  exact ⟨o'', h.trans hadmits, hdb, hok⟩

/-- A URL the filter has not seen is pushed, if the database takes it. -/
theorem enqueue_admits (faults : Faults) (o : Owner lib) {job : CrawlJob} (hjob : P job) :
    ∃ jobs, Admitted P o jobs (enqueue faults o job) := by
  rw [enqueue, checkAndInsert]
  by_cases hseen : lib.seen.contains o.seen job.url = true
  · rw [if_pos hseen]
    exact ⟨[], .ok .refl⟩
  · rw [if_neg hseen]
    dsimp only
    have hnew : lib.seen.contains o.seen job.url = false := by simpa using hseen
    split
    · rename_i e F hpush
      exact ⟨[], o, .refl, push_error hpush, fun hc => by cases hc⟩
    · rename_i F hpush
      exact ⟨[] ++ [job], .ok (Admits.refl.push hjob hnew hpush)⟩

/-- What `schedule` makes of a batch of links: their canonical forms, as far as they are
in scope and plausibly pages. -/
structure Scheduled (lib : Libraries) (cli : Cli) (links : List Str) (depth : ℕ)
    (job : CrawlJob) : Prop where
  depth : job.depth = depth
  link : ∃ raw ∈ links, canonicalUrl lib.urls lib.forms raw = some job.url
  inScope : (scope lib cli).allows lib.urls job.url = true
  page : isProbablyPage lib.urls job.url = true

theorem schedule_admits (depth : ℕ) (faults : ℕ → Faults) (turn : ℕ) (links : List Str)
    (o : Owner lib) : ∃ jobs, Admitted (Scheduled lib cli links depth) o jobs
      (schedule cli depth faults turn links o) := by
  induction links generalizing turn o with
  | nil => exact ⟨[], .ok .refl⟩
  | cons raw links ih =>
    have hrest : ∀ job, Scheduled lib cli links depth job →
        Scheduled lib cli (raw :: links) depth job := by
      intro job h
      obtain ⟨raw', hraw', hcanonical⟩ := h.link
      exact ⟨h.depth, ⟨raw', List.mem_cons_of_mem _ hraw', hcanonical⟩, h.inScope, h.page⟩
    -- a link that is not pushed changes the counters at most
    have hskip : ∀ o' : Owner lib, Admits (Scheduled lib cli (raw :: links) depth) o [] o' →
        ∃ jobs, Admitted (Scheduled lib cli (raw :: links) depth) o jobs
          (schedule cli depth faults (turn + 1) links o') := by
      intro o' ho'
      obtain ⟨jobs, hjobs⟩ := ih (turn + 1) o'
      exact ⟨_, (hjobs.mono hrest).after ho'⟩
    rw [schedule]
    split
    · exact hskip o .refl
    · rename_i url hurl
      by_cases hscope : (scope lib cli).allows lib.urls url = true
      · rw [if_neg (by simp [hscope])]
        by_cases hpage : isProbablyPage lib.urls url = true
        · rw [if_neg (by simp [hpage])]
          have hjob : Scheduled lib cli (raw :: links) depth { url, depth } :=
            ⟨rfl, ⟨raw, List.mem_cons_self, hurl⟩, hscope, hpage⟩
          obtain ⟨jobs, o', hadmits, hdb, hok⟩ := enqueue_admits (faults turn) o hjob
          split
          · rename_i e failed hcall
            rw [hcall] at hdb
            exact ⟨jobs, o', hadmits, hdb, fun hc => by cases hc⟩
          · rename_i queued hcall
            rw [hcall] at hok
            have hqueued : queued = o' := hok rfl
            obtain ⟨jobs', hjobs'⟩ := ih (turn + 1) queued
            rw [hqueued] at hjobs' ⊢
            exact ⟨_, (hjobs'.mono hrest).after hadmits⟩
        · rw [if_pos (by simp [hpage])]
          exact hskip _ (Admits.refl.keep rfl)
      · rw [if_pos (by simp [hscope])]
        exact hskip _ (Admits.refl.keep rfl)

/-- The page or sitemap lies out of scope, and is dropped for it. -/
def Dropped (lib : Libraries) (cli : Cli) (visited : Visited) : Prop :=
  (scope lib cli).restricted = true ∧ (scope lib cli).allows lib.urls visited.finalUrl = false ∧
    cli.dropOffsiteRedirects = true

instance (visited : Visited) : Decidable (Dropped lib cli visited) :=
  inferInstanceAs (Decidable (_ ∧ _ ∧ _))

theorem dropped_iff {visited : Visited} : Dropped lib cli visited ↔
    ((scope lib cli).restricted && !(scope lib cli).allows lib.urls visited.finalUrl) = true ∧
      cli.dropOffsiteRedirects = true := by
  rw [Dropped, Bool.and_eq_true, Bool.not_eq_true', and_assoc]

/-- What an outcome has pushed: the sitemaps its robots.txt names, and unless it is
dropped, what its sitemap lists or its page links to. -/
inductive Queued (lib : Libraries) (cli : Cli) (outcome : Outcome) (job : CrawlJob) : Prop
  | declared (h : Scheduled lib cli outcome.sitemaps 0 job)
  | listed {url : Str} {links : List Str} (hresult : outcome.result = .ok (.sitemap url links))
      (hkept : ¬ Dropped lib cli (.sitemap url links)) (h : Scheduled lib cli links sitemapDepth job)
  | linked {page : FetchedPage} {parsed : ParsedPage}
      (hresult : outcome.result = .ok (.page page parsed))
      (hkept : ¬ Dropped lib cli (.page page parsed)) (hdepth : outcome.job.depth < cli.maxDepth)
      (h : Scheduled lib cli parsed.links (outcome.job.depth + 1) job)

/-- The document a page is archived as. -/
def documentOf (lib : Libraries) (nowMs : ℤ) (page : FetchedPage) (parsed : ParsedPage) :
    Document :=
  { url := page.finalUrl, title := parsed.title, body := parsed.text, fetchedAt := nowMs / 1000,
    contentHash := lib.contentHash parsed.text, outlinks := parsed.links }

/-- What absorbing an outcome adds to the archive. -/
def archived (lib : Libraries) (cli : Cli) (nowMs : ℤ) (outcome : Outcome) :
    List (FetchedPage × Document) :=
  match outcome.result with
  | .ok (.page page parsed) =>
    if Dropped lib cli (.page page parsed) then [] else [(page, documentOf lib nowMs page parsed)]
  | _ => []

theorem settle_admits (faults : AbsorbFaults) (o : Owner lib) (nowMs : ℤ) (outcome : Outcome)
    {visited : Visited} (hresult : outcome.result = .ok visited) :
    ∃ jobs, Admitted (Queued lib cli outcome) o jobs
      (settle cli faults o nowMs outcome.job visited) := by
  unfold settle
  dsimp only
  generalize howner : (if ((scope lib cli).restricted &&
    !(scope lib cli).allows lib.urls visited.finalUrl) = true then
      { o with stats := { o.stats with redirectedOffsite := o.stats.redirectedOffsite + 1 } }
    else o) = counted
  have hcounted : Admits (Queued lib cli outcome) o [] counted := by
    rw [← howner]
    split
    · exact Admits.refl.keep rfl
    · exact .refl
  by_cases hdropped : Dropped lib cli visited
  · rw [if_pos (dropped_iff.mp hdropped)]
    exact ⟨[], .ok hcounted⟩
  · rw [if_neg fun hc => hdropped (dropped_iff.mpr hc)]
    split
    · rename_i url links
      have hread : Admits (Queued lib cli outcome) o []
          { counted with stats := { counted.stats with sitemaps := counted.stats.sitemaps + 1 } } :=
        hcounted.keep rfl
      obtain ⟨jobs, hjobs⟩ := @schedule_admits lib cli sitemapDepth faults.links 0 links
        { counted with stats := { counted.stats with sitemaps := counted.stats.sitemaps + 1 } }
      exact ⟨_, Admitted.after hread (hjobs.mono fun job h => Queued.listed hresult hdropped h)⟩
    · rename_i page parsed
      split
      · exact ⟨[], _, hcounted, rfl, fun hc => by cases hc⟩
      · split
        · rename_i hdepth
          obtain ⟨jobs, hjobs⟩ := @schedule_admits lib cli (outcome.job.depth + 1) faults.links 0
            parsed.links { counted with
              pages := counted.pages ++ [(page, documentOf lib nowMs page parsed)]
              stats := { counted.stats with
                fetched := counted.stats.fetched + 1
                indexed := counted.stats.indexed + 1 } }
          have hwritten : Admits (Queued lib cli outcome) o [] { counted with
              pages := counted.pages ++ [(page, documentOf lib nowMs page parsed)]
              stats := { counted.stats with
                fetched := counted.stats.fetched + 1
                indexed := counted.stats.indexed + 1 } } := hcounted.keep rfl
          exact ⟨_, Admitted.after hwritten
            (hjobs.mono fun job h => Queued.linked hresult hdropped hdepth h)⟩
        · exact ⟨[], .ok (hcounted.keep rfl)⟩

/-- The rules of an outcome are cached in the database, and nothing else happens. -/
theorem cacheRules_owner {faults : Faults} {o o₁ : Owner lib} {nowMs : ℤ} {outcome : Outcome}
    (h : cacheRules faults o nowMs outcome = .ok o₁) :
    o₁ = { o with frontier := o₁.frontier } := by
  rw [cacheRules] at h
  split at h
  · cases h
    rfl
  · obtain ⟨db, _, h⟩ := Frontier.bind_ok h
    cases h
    rfl

/-- The queue and its counter are the same. -/
structure SameQueue (F F' : Frontier) : Prop where
  pending : F'.db.pending = F.db.pending
  sequence : F'.sequence = F.sequence
  persisted : F'.db.readCounter metaFrontierSeq = F.db.readCounter metaFrontierSeq

theorem SameQueue.refl (F : Frontier) : SameQueue F F := ⟨rfl, rfl, rfl⟩

theorem SameQueue.wf {F F' : Frontier} (h : SameQueue F F')
    (hF : Wf lib.urls lib.codecs F) : Wf lib.urls lib.codecs F' :=
  hF.of_subset (fun e he => by rwa [h.pending] at he) h.sequence h.persisted

theorem SameQueue.cached {F F₁ : Frontier} {nowMs : ℤ} {outcome : Outcome}
    (h : Cached lib nowMs outcome F F₁) : SameQueue F F₁ := by
  rw [Cached] at h
  split at h
  · rw [h]
    exact .refl F
  · obtain ⟨bytes, _, rfl⟩ := h
    exact ⟨rfl, rfl, rfl⟩

theorem SameQueue.deferred {F F₁ F₂ : Frontier} {faults : Faults} {host : Str}
    {untilMs fetchedAtMs : ℤ} (h : SameQueue F F₁)
    (hdefer : F₁.deferHost lib.codecs faults host untilMs fetchedAtMs = .ok F₂) :
    SameQueue F F₂ := by
  obtain ⟨value, _, rfl⟩ := deferHost_ok hdefer
  exact ⟨h.pending, h.sequence, h.persisted⟩

/-- **What absorbing an outcome pushes.** -/
theorem absorb_admits (faults : AbsorbFaults) (o : Owner lib) (nowMs : ℤ) (outcome : Outcome) :
    ∃ F jobs, SameQueue o.frontier F ∧ Admitted (Queued lib cli outcome) { o with frontier := F }
      jobs (absorb cli faults o nowMs outcome) := by
  rw [absorb]
  split
  · exact ⟨o.frontier, [], .refl _, o, .refl, rfl, fun hc => by cases hc⟩
  · rename_i o₁ hcache
    have hcached : SameQueue o.frontier o₁.frontier := .cached (cacheRules_ok hcache)
    rw [cacheRules_owner hcache]
    dsimp only
    split
    · exact ⟨o₁.frontier, [], hcached, _, .refl, rfl, fun hc => by cases hc⟩
    · rename_i F₂ hdefer
      refine ⟨F₂, ?_⟩
      obtain ⟨jobs, o', hadmits, hdb, hok⟩ := @schedule_admits lib cli 0 faults.sitemaps 0
        outcome.sitemaps { o with frontier := F₂ }
      have hdeclared := hadmits.mono fun job h => Queued.declared h
      split
      · rename_i e failed hcall
        rw [hcall] at hdb
        exact ⟨jobs, hcached.deferred hdefer, o', hdeclared, hdb, fun hc => by cases hc⟩
      · rename_i scheduled hcall
        rw [hcall] at hok
        have hscheduled : scheduled = o' := hok rfl
        rw [hscheduled]
        split
        · rename_i visited hresult
          obtain ⟨jobs', hjobs'⟩ := @settle_admits lib cli faults o' nowMs outcome visited hresult
          exact ⟨_, hcached.deferred hdefer, hjobs'.after hdeclared⟩
        · exact ⟨jobs, hcached.deferred hdefer, .ok (hdeclared.keep rfl)⟩
        · exact ⟨jobs, hcached.deferred hdefer, .ok (hdeclared.keep rfl)⟩

/-- What a seed is queued as. -/
structure Seeded (lib : Libraries) (seed : Str) (job : CrawlJob) : Prop where
  depth : job.depth = 0
  link : canonicalUrl lib.urls lib.forms seed = some job.url

theorem queueSeed_admits (faults : Faults) (o : Owner lib) (seed : Str) :
    ∃ jobs, Admitted (Seeded lib seed) o jobs (queueSeed faults o seed) := by
  rw [queueSeed]
  split
  · exact ⟨[], .ok .refl⟩
  · rename_i url hseed
    refine enqueue_admits faults o ⟨rfl, ?_⟩
    rw [normalizeSeed] at hseed
    split at hseed
    · cases hseed
    · split at hseed
      · cases hseed
      · split at hseed
        · cases hseed
        · rename_i hcanonical
          cases hseed
          exact hcanonical

/-! ### The archive -/

theorem enqueue_archive (faults : Faults) (o : Owner lib) (job : CrawlJob) :
    (enqueue faults o job).2.pages = o.pages ∧
      (enqueue faults o job).2.stats.indexed = o.stats.indexed := by
  rw [enqueue, checkAndInsert]
  split
  · exact ⟨rfl, rfl⟩
  · split <;> exact ⟨rfl, rfl⟩

theorem schedule_archive (depth : ℕ) (faults : ℕ → Faults) (turn : ℕ) (links : List Str)
    (o : Owner lib) : (schedule cli depth faults turn links o).2.pages = o.pages ∧
      (schedule cli depth faults turn links o).2.stats.indexed = o.stats.indexed := by
  induction links generalizing turn o with
  | nil => exact ⟨rfl, rfl⟩
  | cons raw links ih =>
    rw [schedule]
    split
    · exact ih _ _
    · rename_i url hurl
      split
      · exact ih _ _
      · split
        · exact ih _ _
        · have hframe := enqueue_archive (faults turn) o { url, depth }
          split
          · rename_i e failed hcall
            rwa [hcall] at hframe
          · rename_i queued hcall
            rw [hcall] at hframe
            obtain ⟨hpages, hindexed⟩ := ih (turn + 1) queued
            exact ⟨hpages.trans hframe.1, hindexed.trans hframe.2⟩

/-- What the end of `absorb` does to the archive: nothing, if it fails early. -/
theorem settle_archive {faults : AbsorbFaults} {o : Owner lib} {nowMs : ℤ} {outcome : Outcome}
    {visited : Visited} (hresult : outcome.result = .ok visited) {called : Called lib}
    (h : settle cli faults o nowMs outcome.job visited = called) :
    (called.1 ≠ .ok () ∧ called.2.pages = o.pages) ∨
      (called.2.pages = o.pages ++ archived lib cli nowMs outcome ∧
        called.2.stats.indexed = o.stats.indexed + (archived lib cli nowMs outcome).length) := by
  unfold settle at h
  dsimp only at h
  generalize howner : (if ((scope lib cli).restricted &&
    !(scope lib cli).allows lib.urls visited.finalUrl) = true then
      { o with stats := { o.stats with redirectedOffsite := o.stats.redirectedOffsite + 1 } }
    else o) = counted at h
  -- the redirect counted before the page is kept changes neither pages nor the indexed count
  have hcounted : counted.pages = o.pages ∧ counted.stats.indexed = o.stats.indexed := by
    rw [← howner]
    split <;> exact ⟨rfl, rfl⟩
  rw [archived, hresult, ← hcounted.1, ← hcounted.2]
  by_cases hdropped : Dropped lib cli visited
  · rw [if_pos (dropped_iff.mp hdropped)] at h
    subst h
    cases visited with
    | sitemap url links => simp
    | page page parsed => simp [hdropped]
  · rw [if_neg fun hc => hdropped (dropped_iff.mpr hc)] at h
    cases visited with
    | sitemap url links =>
      dsimp only at h
      have hframe := @schedule_archive lib cli sitemapDepth faults.links 0 links
        { counted with stats := { counted.stats with sitemaps := counted.stats.sitemaps + 1 } }
      rw [h] at hframe
      exact Or.inr (by simpa using hframe)
    | page page parsed =>
      dsimp only at h ⊢
      rw [if_neg hdropped]
      split at h
      · subst h
        exact Or.inl ⟨fun hc => (by cases hc), rfl⟩
      · split at h
        · -- the page is archived before its links are scheduled, and scheduling archives nothing
          have hframe := @schedule_archive lib cli (outcome.job.depth + 1) faults.links 0
            parsed.links { counted with
              pages := counted.pages ++ [(page, documentOf lib nowMs page parsed)]
              stats := { counted.stats with
                fetched := counted.stats.fetched + 1
                indexed := counted.stats.indexed + 1 } }
          subst h
          exact Or.inr hframe
        · subst h
          exact Or.inr ⟨rfl, rfl⟩

/-- **What absorbing an outcome archives**: its document, unless it fails before. -/
theorem absorb_archives {faults : AbsorbFaults} {o : Owner lib} {nowMs : ℤ} {outcome : Outcome}
    {called : Called lib} (h : absorb cli faults o nowMs outcome = called) :
    (called.1 ≠ .ok () ∧ called.2.pages = o.pages) ∨
      (called.2.pages = o.pages ++ archived lib cli nowMs outcome ∧
        called.2.stats.indexed = o.stats.indexed + (archived lib cli nowMs outcome).length) := by
  rw [absorb] at h
  split at h
  · subst h
    exact Or.inl ⟨fun hc => (by cases hc), rfl⟩
  · rename_i o₁ hcache
    rw [cacheRules_owner hcache] at h
    dsimp only at h
    split at h
    · subst h
      exact Or.inl ⟨fun hc => (by cases hc), rfl⟩
    · rename_i F₂ hdefer
      have hframe := @schedule_archive lib cli 0 faults.sitemaps 0 outcome.sitemaps
        { o with frontier := F₂ }
      split at h
      · rename_i e failed hcall
        rw [hcall] at hframe
        subst h
        exact Or.inl ⟨fun hc => (by cases hc), hframe.1⟩
      · rename_i scheduled hcall
        rw [hcall] at hframe
        have hpages : scheduled.pages = o.pages := hframe.1
        have hindexed : scheduled.stats.indexed = o.stats.indexed := hframe.2
        rw [← hpages, ← hindexed]
        split at h
        · rename_i visited hresult
          exact settle_archive hresult h
        · rename_i hresult
          subst h
          exact Or.inr (by simp [archived, hresult])
        · rename_i e _ hresult
          subst h
          exact Or.inr (by simp [archived, hresult])

theorem absorb_archive {faults : AbsorbFaults} {o o' : Owner lib} {nowMs : ℤ} {outcome : Outcome}
    (h : absorb cli faults o nowMs outcome = (.ok (), o')) :
    o'.pages = o.pages ++ archived lib cli nowMs outcome ∧
      o'.stats.indexed = o.stats.indexed + (archived lib cli nowMs outcome).length := by
  rcases absorb_archives h with ⟨hc, _⟩ | hok
  · exact absurd rfl hc
  · exact hok

/-! ### Counting the pushes -/

/-- What the filter promises: it has no false negatives, also once more is inserted. -/
structure SeenLaws (seen : SeenFilter) : Prop where
  insert_self : ∀ filter url, seen.contains (seen.insert filter url) url = true
  insert_mono : ∀ filter url other, seen.contains filter other = true →
    seen.contains (seen.insert filter url) other = true

/-- **No URL is pushed that the filter knows**, and it knows each one that is. -/
theorem Admits.unseen (hseen : SeenLaws lib.seen) (h : Admits P o jobs o') :
    (∀ url, lib.seen.contains o.seen url = true → lib.seen.contains o'.seen url = true) ∧
    (∀ job ∈ jobs, P job ∧ lib.seen.contains o.seen job.url = false ∧
      lib.seen.contains o'.seen job.url = true) ∧
    (jobs.map CrawlJob.url).Nodup ∧
    o'.stats.queued = o.stats.queued + jobs.length := by
  induction h with
  | refl => exact ⟨fun _ hc => hc, fun _ hc => (by cases hc), List.nodup_nil, rfl⟩
  | keep _ hqueued ih =>
    obtain ⟨hmono, hjobs, hnodup, hcount⟩ := ih
    exact ⟨hmono, hjobs, hnodup, hqueued.trans hcount⟩
  | @push jobs o' job faults F _ hjob hnew _ ih =>
    obtain ⟨hmono, hjobs, hnodup, hcount⟩ := ih
    refine ⟨fun url hc => hseen.insert_mono _ _ _ (hmono url hc), fun j hj => ?_, ?_, ?_⟩
    · rcases List.mem_append.mp hj with hj | hj
      · obtain ⟨hP, hbefore, hafter⟩ := hjobs j hj
        exact ⟨hP, hbefore, hseen.insert_mono _ _ _ hafter⟩
      · rw [List.mem_singleton.mp hj]
        refine ⟨hjob, ?_, hseen.insert_self _ _⟩
        -- what the filter knew before, it would still know
        by_contra hknown
        rw [Bool.not_eq_false] at hknown
        rw [hmono _ hknown] at hnew
        cases hnew
    · rw [List.map_append, List.map_singleton]
      refine List.Nodup.append hnodup (List.nodup_singleton _) ?_
      intro url hurl hc
      obtain ⟨j, hj, rfl⟩ := List.mem_map.mp hurl
      have hknown := (hjobs j hj).2.2
      rw [List.mem_singleton.mp hc, hnew] at hknown
      cases hknown
    · rw [List.length_append, List.length_singleton]
      show o'.stats.queued + 1 = _
      rw [hcount, Nat.add_assoc]

/-- **The jobs pushed are the ones that are new**: pushes remove no entry, and each adds
one under a key that was not in use. -/
theorem Admits.perm (hlaws : UrlLaws lib.urls) (hwf : Wf lib.urls lib.codecs o.frontier)
    (h : Admits P o jobs o') :
    Wf lib.urls lib.codecs o'.frontier ∧
      (∀ e ∈ o.frontier.db.pending.entries, e ∈ o'.frontier.db.pending.entries) ∧
      (pushedJobs lib o.frontier.db o'.frontier.db).Perm jobs := by
  induction h with
  | refl =>
    refine ⟨hwf, fun _ he => he, ?_⟩
    rw [pushedJobs_eq_nil fun _ he => he]
  | keep _ _ ih => exact ih
  | @push jobs o' job faults F _ _ _ hpush ih =>
    obtain ⟨hwf', hkept, hperm⟩ := ih
    obtain ⟨host, value, hhost, hvalue, hfit, _, _, hpending⟩ := Frontier.push_ok hpush
    have hunused := hwf'.next_unused (hlaws.plainHost _ _ hhost) hfit
    refine ⟨(push_wf hlaws.plainHost hwf' hpush).1, ?_, ?_⟩
    · intro e he
      show e ∈ F.db.pending.entries
      rw [hpending, Store.mem_put]
      exact Or.inr ⟨hkept e he, hunused e (hkept e he)⟩
    · -- the new entry is not among those queued before
      have hentries := Store.put_perm value hunused
      have hnew : (newEntries o.frontier.db F.db).Perm
          ((frontierKey host (o'.frontier.sequence + 1), value) ::
            newEntries o.frontier.db o'.frontier.db) := by
        rw [newEntries, hpending]
        refine (hentries.filter _).trans ?_
        rw [List.filter_cons_of_pos]
        · exact List.Perm.refl _
        · exact decide_eq_true fun he => hunused _ (hkept _ he) rfl
      refine (hnew.filterMap _).trans ?_
      simp only [List.filterMap_cons, lib.codecs.job.decode_encode hvalue]
      exact (hperm.cons job).trans (List.perm_append_singleton job jobs).symm

end Crawler
