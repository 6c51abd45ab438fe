/-
What a crawl leaves unvisited.

The seeds, the links of the pages and the entries of the sitemaps are offered to the queue.
Whatever is kept of them is known to the filter once it was offered, and the filter learns a
URL only by queueing it.  So when the loop finds its queue empty and nothing in flight,
each of them has been visited, unless the filter took it for one that it had seen.

* `schedule_seen`, `absorb_seen`, `queueSeed_seen` — what is offered becomes known;
* `Admits.seen_eq` — and what becomes known is what is pushed;
* `crawl_balance` — what is pushed and not popped is still queued;
* `crawl_pending` — the counter of the loop's test counts the queue;
* `drained_crawl_visits_all` — so a crawl that has nothing left to do has left out nothing.
-/
import MjlSearch.Accounting
import MjlSearch.DepthBound
import MjlSearch.FrontierCounts

open Text Machine Policy Runs FrontierQueue FrontierCounts CrawlDb

namespace Crawler

variable {lib : Libraries} {cli : Cli}

/-! ### What is offered -/

/-- The URL a link is queued as: its canonical form, in scope and plausibly a page. -/
def keptUrl (lib : Libraries) (cli : Cli) (raw : Str) : Option Str :=
  (canonicalUrl lib.urls lib.forms raw).filter fun url =>
    (scope lib cli).allows lib.urls url && isProbablyPage lib.urls url

/-- The links of what a visit found, as far as they are followed. -/
def followed (cli : Cli) (job : CrawlJob) : Visited → List Str
  | .sitemap _ links => links
  | .page _ parsed => if job.depth < cli.maxDepth then parsed.links else []

/-- The links that an outcome offers. -/
def linksOf (lib : Libraries) (cli : Cli) (outcome : Outcome) : List Str :=
  outcome.sitemaps ++
    match outcome.result with
    | .error _ => []
    | .ok visited => if Dropped lib cli visited then [] else followed cli outcome.job visited

/-- What a crawl is offered: its seeds, and the links of the outcomes that it absorbed. -/
inductive Offered (lib : Libraries) (cli : Cli) (log : List Logged) (url : Str) : Prop
  | seed {seed : Str} (hseed : seed ∈ cli.seeds) (hurl : normalizeSeed lib seed = .ok url)
  | link {entry : Logged} {nowMs : ℤ} {outcome : Outcome} {raw : Str} (hentry : entry ∈ log)
      (hevent : entry.event = .absorbed nowMs outcome) (hraw : raw ∈ linksOf lib cli outcome)
      (hurl : keptUrl lib cli raw = some url)

/-! ### What is offered becomes known -/

variable {P : CrawlJob → Prop} {o o' : Owner lib} {jobs : List CrawlJob}

theorem Admitted.seen_mono (hseen : SeenLaws lib.seen) (h : Admitted P o jobs (.ok (), o')) :
    ∀ url, lib.seen.contains o.seen url = true → lib.seen.contains o'.seen url = true := by
  obtain ⟨o'', hadmits, _, hok⟩ := h
  have hsame : o' = o'' := hok rfl
  rw [hsame]
  exact (hadmits.unseen hseen).1

theorem enqueue_seen (hseen : SeenLaws lib.seen) {faults : Faults} {job : CrawlJob}
    (h : enqueue faults o job = (.ok (), o')) : lib.seen.contains o'.seen job.url = true := by
  rw [enqueue, checkAndInsert] at h
  by_cases hknown : lib.seen.contains o.seen job.url = true
  · rw [if_pos hknown] at h
    cases h
    exact hknown
  · rw [if_neg hknown] at h
    dsimp only at h
    split at h
    · cases h
    · cases h
      exact hseen.insert_self _ _

/-- **Once a batch of links is scheduled, all that is kept of it is known.** -/
theorem schedule_seen (hseen : SeenLaws lib.seen) (depth : ℕ) (faults : ℕ → Faults) (turn : ℕ)
    (links : List Str) (h : schedule cli depth faults turn links o = (.ok (), o')) :
    ∀ raw ∈ links, ∀ url, keptUrl lib cli raw = some url →
      lib.seen.contains o'.seen url = true := by
  induction links generalizing turn o with
  | nil => exact fun _ hc => by cases hc
  | cons raw links ih =>
    intro link hlink url hurl
    rw [schedule] at h
    rcases List.mem_cons.mp hlink with rfl | hlink
    · -- the link is kept, so that it is enqueued; scheduling the others forgets nothing
      obtain ⟨hcanonical, hkept⟩ := Option.filter_eq_some_iff.mp hurl
      rw [Bool.and_eq_true] at hkept
      rw [hcanonical] at h
      dsimp only at h
      rw [if_neg (by simp [hkept.1]), if_neg (by simp [hkept.2])] at h
      split at h
      · cases h
      · rename_i queued hcall
        obtain ⟨jobs, hjobs⟩ := @schedule_admits lib cli depth faults (turn + 1) links queued
        rw [h] at hjobs
        exact hjobs.seen_mono hseen url (enqueue_seen hseen hcall)
    · split at h
      · exact ih _ h link hlink url hurl
      · split at h
        · exact ih _ h link hlink url hurl
        · split at h
          · exact ih _ h link hlink url hurl
          · split at h
            · cases h
            · exact ih _ h link hlink url hurl

theorem settle_seen (hseen : SeenLaws lib.seen) {faults : AbsorbFaults} {nowMs : ℤ}
    {outcome : Outcome} {visited : Visited}
    (h : settle cli faults o nowMs outcome.job visited = (.ok (), o'))
    (hkept : ¬ Dropped lib cli visited) :
    ∀ raw ∈ followed cli outcome.job visited, ∀ url, keptUrl lib cli raw = some url →
      lib.seen.contains o'.seen url = true := by
  unfold settle at h
  dsimp only at h
  rw [if_neg fun hc => hkept (dropped_iff.mpr hc)] at h
  cases visited with
  | sitemap url links => exact schedule_seen hseen _ _ _ _ h
  | page page parsed =>
    dsimp only at h
    split at h
    · cases h
    · rw [followed]
      split at h
      · rename_i hdepth
        rw [if_pos hdepth]
        exact schedule_seen hseen _ _ _ _ h
      · rename_i hdepth
        rw [if_neg hdepth]
        exact fun _ hc => by cases hc

/-- **Once an outcome is absorbed, all that is kept of its links is known.** -/
theorem absorb_seen (hseen : SeenLaws lib.seen) {faults : AbsorbFaults} {nowMs : ℤ}
    {outcome : Outcome} (h : absorb cli faults o nowMs outcome = (.ok (), o')) :
    ∀ raw ∈ linksOf lib cli outcome, ∀ url, keptUrl lib cli raw = some url →
      lib.seen.contains o'.seen url = true := by
  rw [absorb] at h
  split at h
  · cases h
  · rename_i o₁ hcache
    dsimp only at h
    split at h
    · cases h
    · rename_i F hdefer
      split at h
      · cases h
      · rename_i scheduled hcall
        have hdeclared := schedule_seen hseen _ _ _ _ hcall
        intro raw hraw url hurl
        rcases List.mem_append.mp hraw with hraw | hraw
        · -- a declared sitemap stays known while the page is settled
          have hknown := hdeclared raw hraw url hurl
          split at h
          · rename_i visited hresult
            obtain ⟨jobs, hjobs⟩ := @settle_admits lib cli faults scheduled nowMs outcome visited
              hresult
            rw [h] at hjobs
            exact hjobs.seen_mono hseen url hknown
          · cases h
            exact hknown
          · cases h
            exact hknown
        · split at hraw
          · cases hraw
          · rename_i visited hresult
            rw [hresult] at h
            by_cases hdropped : Dropped lib cli visited
            · rw [if_pos hdropped] at hraw
              cases hraw
            · rw [if_neg hdropped] at hraw
              exact settle_seen hseen h hdropped raw hraw url hurl

theorem queueSeed_seen (hseen : SeenLaws lib.seen) {faults : Faults} {seed : Str}
    (h : queueSeed faults o seed = (.ok (), o')) :
    ∀ url, normalizeSeed lib seed = .ok url → lib.seen.contains o'.seen url = true := by
  intro url hurl
  rw [queueSeed, hurl] at h
  exact enqueue_seen hseen h

/-! ### What becomes known is pushed -/

/-- The filter, with more URLs in it. -/
def insertAll (seen : SeenFilter) (filter : seen.Filter) (urls : List Str) :
    seen.Filter :=
  urls.foldl seen.insert filter

theorem Admits.seen_eq (h : Admits P o jobs o') :
    o'.seen = insertAll lib.seen o.seen (jobs.map CrawlJob.url) := by
  induction h with
  | refl => rfl
  | keep _ _ ih => exact ih
  | push _ _ _ _ ih =>
    rw [List.map_append, insertAll, List.foldl_append]
    exact congrArg (lib.seen.insert · _) ih

/-! ### What is pushed and not popped is queued -/

/-- The jobs that are queued. -/
def queuedJobs (lib : Libraries) (db : CrawlDb) : List CrawlJob :=
  db.pending.entries.filterMap fun e => lib.codecs.job.decode e.2

/-- Between two databases, what is there goes from the one to the other by what is pushed
and what is popped. -/
theorem queuedJobs_balance (lib : Libraries) (before after : CrawlDb) :
    (queuedJobs lib before ++ pushedJobs lib before after).Perm
      (pushedJobs lib after before ++ queuedJobs lib after) := by
  rw [queuedJobs, queuedJobs, pushedJobs, pushedJobs, ← List.filterMap_append,
    ← List.filterMap_append]
  refine List.Perm.filterMap _ ?_
  have hnodup : ∀ a b : CrawlDb, (newEntries a b).Nodup :=
    fun a b => b.pending.entries_nodup.filter _
  have hnew : ∀ (a b : CrawlDb) (e : Key × Value), e ∈ newEntries a b ↔
      e ∈ b.pending.entries ∧ e ∉ a.pending.entries := by
    intro a b e
    rw [newEntries, List.mem_filter, decide_eq_true_eq]
  refine (List.perm_ext_iff_of_nodup ?_ ?_).mpr fun e => ?_
  · refine before.pending.entries_nodup.append (hnodup _ _) fun e he hc => ?_
    exact ((hnew _ _ e).mp hc).2 he
  · refine (hnodup _ _).append after.pending.entries_nodup fun e he hc => ?_
    exact ((hnew _ _ e).mp he).2 hc
  · rw [List.mem_append, List.mem_append, hnew, hnew]
    by_cases hbefore : e ∈ before.pending.entries
    · simp [hbefore, Classical.em, or_comm]
    · simp [hbefore]

variable {s t : System lib} {log : List Logged}

theorem open_pending {s s₁ : System lib} (hoff : s.process = none)
    (h : Step cli s .started s₁) :
    s₁.database.pending = s.db.pending ∧ ∀ p, s₁.process = some p →
      p.owner.frontier.pending = p.owner.frontier.db.pending.entries.length := by
  generalize he : Event.started = e at h
  cases step_turn h with
  | @started faults frontier reads _ hopen =>
    refine ⟨(open_ok hopen).1, fun p hp => ?_⟩
    cases hp
    show frontier.pending = frontier.db.pending.entries.length
    rw [Frontier.open] at hopen
    dsimp only at hopen
    split at hopen
    · cases hopen
    · split at hopen
      · cases hopen
      · cases hopen
        rfl
  | checked hon => rw [hoff] at hon; cases hon
  | _ => cases he

/-- **What is pushed and not popped is still queued**, in every state of a crawl. -/
theorem crawl_balance (hlaws : UrlLaws lib.urls) (h : Crawl cli s log t) :
    (queuedJobs lib s.db ++ pushes log).Perm (pops log ++ queuedJobs lib t.database) := by
  obtain ⟨s₁, hstart, hrun⟩ := h.run
  have hopened := (open_pending (h.directory.sound hlaws).1 hstart).1
  refine hrun.invariant_trace (I := fun log t => (queuedJobs lib s.db ++ pushes log).Perm
    (pops log ++ queuedJobs lib t.database)) ?_ ?_
  · rw [queuedJobs, ← hopened, pushes_nil, List.append_nil]
    exact List.Perm.refl _
  · rintro log a entry b ih ⟨⟨⟨_, hpushed, hpopped⟩, _⟩, _⟩
    have hstep := queuedJobs_balance lib a.database b.database
    rw [← hpushed, ← hpopped] at hstep
    rw [pushes_snoc, pops_snoc, ← List.append_assoc, List.append_assoc (pops log)]
    refine (ih.append_right _).trans ?_
    rw [List.append_assoc]
    exact hstep.append_left _

/-! ### The counter of the loop's test -/

/-- The counter in memory counts the queue. -/
def CountsPending (F : Frontier) : Prop := F.pending = F.db.pending.entries.length

theorem CountsPending.push (hlaws : UrlLaws lib.urls) {F F' : Frontier} {faults : Faults}
    {job : CrawlJob} (hwf : Wf lib.urls lib.codecs F) (h : CountsPending F)
    (hpush : Frontier.push lib.urls lib.codecs faults F job = (.ok (), F')) :
    CountsPending F' := by
  obtain ⟨host, known, db, hhost, _, _, _, _, hbatch, rfl⟩ := push_steps hpush
  obtain ⟨host', value, hhost', _, hfit, _, _, hput⟩ := Frontier.push_ok hpush
  have hunused := hwf.next_unused (hlaws.plainHost _ _ hhost') hfit
  have hlength : db.pending.entries.length = F.db.pending.entries.length + 1 := by
    rw [show db.pending = _ from hput]
    exact Store.length_put_new _ (Store.get_eq_none_iff.mpr hunused)
  show F.pending + 1 = db.pending.entries.length
  rw [hlength, h]

theorem CountsPending.pushes (hlaws : UrlLaws lib.urls) {F F' : Frontier} (hF : Sound lib F)
    (h : CountsPending F) (hpushes : Pushes lib F F') : CountsPending F' := by
  induction hpushes with
  | refl => exact h
  | push hrest _ hpush ih => exact ih.push hlaws (hF.pushes hlaws hrest).wf hpush

theorem CountsPending.popped {F F' : Frontier} {pop : Faults} {nowMs : ℤ} {skip : Str → Bool}
    {result : Option CrawlJob} (h : CountsPending F)
    (hpop : F.popReady lib.codecs pop nowMs 128 skip = some (.ok result, F')) :
    CountsPending F' := by
  refine Frontier.popReady_keeps (P := CountsPending) ?_ hpop h
  intro turn G G' e he hG hforget
  have hlength : (G.db.pending.delete e.1).entries.length + 1 = G.db.pending.entries.length :=
    Store.length_delete he
  rw [CountsPending] at hG
  rw [Frontier.forget_ok hforget]
  show G.pending - 1 = (G.db.pending.delete e.1).entries.length
  omega

theorem CountsPending.cached {F F₁ : Frontier} {nowMs : ℤ} {outcome : Outcome}
    (h : CountsPending F) (hcached : Cached lib nowMs outcome F F₁) : CountsPending F₁ := by
  rw [Cached] at hcached
  split at hcached
  · rw [hcached]
    exact h
  · obtain ⟨bytes, _, rfl⟩ := hcached
    exact h

theorem CountsPending.deferred {F F₁ : Frontier} {faults : Faults} {host : Str}
    {untilMs fetchedAtMs : ℤ} (h : CountsPending F)
    (hdefer : F.deferHost lib.codecs faults host untilMs fetchedAtMs = .ok F₁) :
    CountsPending F₁ := by
  obtain ⟨value, _, rfl⟩ := deferHost_ok hdefer
  exact h

/-- Every step of a crawl keeps the counter right. -/
theorem CountsPending.step (hlaws : UrlLaws lib.urls) {a b : System lib} {e : Event}
    (hsound : SoundIn lib a) (h : ∀ p, a.process = some p → CountsPending p.owner.frontier)
    (hturn : Turn cli a e b) (hne : e ≠ .started) :
    ∀ p, b.process = some p → CountsPending p.owner.frontier := by
  cases hturn with
  | notStarted hoff =>
    intro q hq
    exact absurd hq (by simp [hoff])
  | started => exact absurd rfl hne
  | killed => exact fun q hq => by cases hq
  | closed => exact fun q hq => by cases hq
  | popFailed => exact fun q hq => by cases hq
  | @seeded p seed rest faults hon hphase =>
    obtain ⟨G, hG, _, hok⟩ := queueSeed_leaves faults p.owner seed
    rcases hcall : queueSeed faults p.owner seed with ⟨_ | _, owner⟩
    · exact fun q hq => by cases hq
    · intro q hq
      cases hq
      rw [hcall] at hok
      show CountsPending owner.frontier
      rw [show owner.frontier = G from hok rfl]
      exact (h p hon).pushes hlaws (hsound.on p hon) hG
  | @poppedNone p frontier nowMs pop hon hnow hopen hpop =>
    intro q hq
    cases hq
    exact (h p hon).popped hpop
  | @passedOver p frontier nowMs pop job hon hnow hopen hpop hhost =>
    intro q hq
    cases hq
    exact (h p hon).popped hpop
  | @dispatched p frontier nowMs pop get job host cachedRules hon hnow hphase hroom hpop =>
    intro q hq
    cases hq
    exact (h p hon).popped hpop
  | @absorbed p nowMs faults outcome channel hon hnow hphase hchannel =>
    rcases hcall : absorb cli faults p.owner nowMs outcome with ⟨_ | _, owner⟩
    · exact fun q hq => by cases hq
    · intro q hq
      cases hq
      obtain ⟨F₁, F₂, hcached, hdefer, hpushes⟩ := absorb_ok hcall
      have hsound₁ := (hsound.on p hon).cached hcached
      exact (((h p hon).cached hcached).deferred hdefer).pushes hlaws
        (hsound₁.deferred hdefer) hpushes
  | moved hon =>
    have hp := h _ hon
    intro q hq
    cases hq
    exact hp
  | checked hon =>
    have hp := h _ hon
    intro q hq
    cases hq
    exact hp
  | fetched hon =>
    have hp := h _ hon
    intro q hq
    cases hq
    exact hp
  | sent hon =>
    have hp := h _ hon
    intro q hq
    cases hq
    exact hp

/-- **The counter of the loop's test counts the queue**, in every state of a crawl. -/
theorem crawl_pending (hlaws : UrlLaws lib.urls) (h : Crawl cli s log t) :
    ∀ p, t.process = some p → CountsPending p.owner.frontier := by
  obtain ⟨s₁, hstart, hrun⟩ := h.run
  obtain ⟨hoff, hsound⟩ := h.directory.sound hlaws
  refine (hrun.invariant (I := fun t => SoundIn lib t ∧
    ∀ p, t.process = some p → CountsPending p.owner.frontier)
    ⟨hsound.step hlaws (step_does hstart), (open_pending hoff hstart).2⟩ ?_).2
  rintro a entry b ⟨ha, hcounts⟩ ⟨⟨⟨hs, _, _⟩, hne⟩, _⟩
  exact ⟨ha.step hlaws (step_does hs),
    CountsPending.step hlaws ha hcounts (step_turn hs) hne⟩

/-! ### What a crawl has been offered -/

/-- The seed is still to be queued. -/
def Awaits (p : Process lib) (seed : Str) : Prop := ∃ rest, p.phase = .seeding rest ∧ seed ∈ rest

/-- What the filter of a running crawl knows: what it knew at the start and each URL that was
pushed, and so all that the crawl has been offered. -/
structure Covers (lib : Libraries) (cli : Cli) (start : lib.seen.Filter) (log : List Logged)
    (p : Process lib) : Prop where
  filter : ∃ urls : List Str, urls.Perm ((pushes log).map CrawlJob.url) ∧
    p.owner.seen = insertAll lib.seen start urls
  seeds : ∀ seed ∈ cli.seeds, ¬ Awaits p seed → ∀ url, normalizeSeed lib seed = .ok url →
    lib.seen.contains p.owner.seen url = true
  links : ∀ entry ∈ log, ∀ nowMs outcome, entry.event = .absorbed nowMs outcome →
    ∀ raw ∈ linksOf lib cli outcome, ∀ url, keptUrl lib cli raw = some url →
      lib.seen.contains p.owner.seen url = true

variable {start : lib.seen.Filter} {entry : Logged} {p q : Process lib}

/-- A step goes on, and the filter forgets nothing. -/
theorem Covers.go (h : Covers lib cli start log p)
    (hfilter : ∃ urls : List Str, urls.Perm (entry.pushed.map CrawlJob.url) ∧
      q.owner.seen = insertAll lib.seen p.owner.seen urls)
    (hmono : ∀ url, lib.seen.contains p.owner.seen url = true →
      lib.seen.contains q.owner.seen url = true)
    (hseeds : ∀ seed ∈ cli.seeds, ¬ Awaits q seed → Awaits p seed →
      ∀ url, normalizeSeed lib seed = .ok url → lib.seen.contains q.owner.seen url = true)
    (hlinks : ∀ nowMs outcome, entry.event = .absorbed nowMs outcome →
      ∀ raw ∈ linksOf lib cli outcome, ∀ url, keptUrl lib cli raw = some url →
        lib.seen.contains q.owner.seen url = true) :
    Covers lib cli start (log ++ [entry]) q where
  filter := by
    obtain ⟨urls, hurls, hseen⟩ := h.filter
    obtain ⟨more, hmore, hnext⟩ := hfilter
    refine ⟨urls ++ more, ?_, ?_⟩
    · rw [pushes_snoc, List.map_append]
      exact hurls.append hmore
    · rw [hnext, hseen, insertAll, insertAll, insertAll,
        List.foldl_append]
  seeds seed hseed hnot url hurl := by
    by_cases hawaits : Awaits p seed
    · exact hseeds seed hseed hnot hawaits url hurl
    · exact hmono url (h.seeds seed hseed hawaits url hurl)
  links e he nowMs outcome hevent raw hraw url hurl := by
    rcases List.mem_append.mp he with he | he
    · exact hmono url (h.links e he nowMs outcome hevent raw hraw url hurl)
    · rw [List.mem_singleton.mp he] at hevent
      exact hlinks nowMs outcome hevent raw hraw url hurl

/-- What a call of the owner pushes is what its filter learns. -/
theorem Gains.seen_eq {a b : System lib} {e : Event} {jobs : List CrawlJob}
    (h : Gains cli a e b jobs p) (hq : b.process = some q) :
    ∃ urls : List Str, urls.Perm ((pushedJobs lib a.database b.database).map CrawlJob.url) ∧
      q.owner.seen = insertAll lib.seen p.owner.seen urls := by
  obtain ⟨F, o, hadmits, hafter⟩ := h.admits
  refine ⟨jobs.map CrawlJob.url, (h.perm.map _).symm, ?_⟩
  rw [(hafter q hq).1, hadmits.seen_eq]

/-- The seeds are queued one after the other, before anything else is done. -/
theorem Step.seeding {a b : System lib} {e : Event} (h : Step cli a e b)
    (hon : a.process = some p) {rest : List Str} (hphase : p.phase = .seeding rest)
    (hq : b.process = some q) :
    q.phase = .seeding rest ∨ rest = [] ∨ ∃ seed rest' faults owner, rest = seed :: rest' ∧
      queueSeed faults p.owner seed = (.ok (), owner) ∧
      q = { p with phase := .seeding rest', owner } := by
  obtain ⟨choice, h⟩ := h
  cases choice with
  | start faults archive reads =>
    simp only [step, start, hon] at h
    cases h
  | seed faults =>
    simp only [step, hon, hphase] at h
    split at h
    · rename_i seed rest' hsame
      cases hsame
      rcases hcall : queueSeed faults p.owner seed with ⟨_ | _, owner⟩
      · rw [hcall] at h
        cases h
        cases hq
      · rw [hcall] at h
        cases h
        cases hq
        exact Or.inr (Or.inr ⟨seed, rest', faults, owner, rfl, hcall, rfl⟩)
    · cases h
  | go =>
    simp only [step, hon, go, hphase] at h
    split at h
    · rename_i hsame
      cases hsame
      exact Or.inr (Or.inl rfl)
    all_goals simp_all
  | receive nowMs faults =>
    simp only [step, hon, receive, hphase] at h
    simp at h
  | dispatch nowMs pop get =>
    simp only [step, hon, dispatch, hphase] at h
    simp at h
  | check i answer =>
    simp only [step, hon] at h
    split at h
    · cases h
    · split at h
      · cases h
        cases hq
        exact Or.inl hphase
      · cases h
  | fetch i answer =>
    simp only [step, hon] at h
    split at h
    · cases h
    · split at h
      · cases h
        cases hq
        exact Or.inl hphase
      · cases h
  | send i =>
    simp only [step, hon] at h
    split at h
    · cases h
    · split at h
      · cases h
        cases hq
        exact Or.inl hphase
      · cases h
  | interrupt =>
    simp only [step, hon, hphase] at h
    simp at h
  | close saves =>
    simp only [step, hon, hphase] at h
    simp at h
  | kill =>
    simp only [step, hon] at h
    cases h
    cases hq

/-- **Every step of a crawl keeps what it has been offered known.** -/
theorem Covers.step (hlaws : UrlLaws lib.urls) (hseen : SeenLaws lib.seen) {a b : System lib}
    (hsound : SoundIn lib a) (h : ∀ p, a.process = some p → Covers lib cli start log p)
    (hstep : LoggedStep cli a entry b) (hne : entry.event ≠ .started) :
    ∀ q, b.process = some q → Covers lib cli start (log ++ [entry]) q := by
  intro q hq
  obtain ⟨hs, hpushed, _⟩ := hstep
  have hturn := step_turn hs
  rcases hon : a.process with _ | p
  · rw [(hturn.idle hon hne).1] at hq
    cases hq
  obtain ⟨jobs, hgains⟩ := hturn.gains hlaws hsound hon
  have hfilter := hgains.seen_eq hq
  rw [← hpushed] at hfilter
  refine (h p hon).go hfilter ?_ ?_ ?_
  · obtain ⟨F, o, hadmits, hafter⟩ := hgains.admits
    rw [(hafter q hq).1]
    exact fun url hurl => (hadmits.unseen hseen).1 url hurl
  · -- a seed that is no longer awaited is the one that was just queued
    rintro seed - hnot ⟨rest, hrest, hmem⟩ url hurl
    rcases Step.seeding hs hon hrest hq with
      hsame | rfl | ⟨seed', rest', faults, owner, rfl, hcall, rfl⟩
    · exact absurd ⟨rest, hsame, hmem⟩ hnot
    · cases hmem
    · rcases List.mem_cons.mp hmem with rfl | hmem
      · exact queueSeed_seen hseen hcall url hurl
      · exact absurd ⟨rest', rfl, hmem⟩ hnot
  · intro nowMs outcome hevent
    rw [hevent] at hturn
    generalize he : Event.absorbed nowMs outcome = e at hturn
    cases hturn with
    | @absorbed p' nowMs' faults outcome' channel hon' hnow hphase hchannel =>
      cases he
      rcases hcall : absorb cli faults p'.owner nowMs outcome with ⟨_ | _, owner⟩
      · rw [hcall] at hq
        cases hq
      · rw [hcall] at hq
        cases hq
        exact absorb_seen hseen hcall
    | checked hon' hvisit hstage =>
      split at he <;> cases he
    | _ => cases he

/-- What the filter of a crawl starts from: nothing, or what an earlier crawl saved. -/
def StartsFrom (s : System lib) (start : lib.seen.Filter) : Prop :=
  start = lib.seen.fresh ∨ s.bloom = some start

/-- **What a crawl has been offered is known**, in every state of it. -/
theorem crawl_covers (hlaws : UrlLaws lib.urls) (hseen : SeenLaws lib.seen)
    (h : Crawl cli s log t) : ∃ start, StartsFrom s start ∧
      ∀ p, t.process = some p → Covers lib cli start log p := by
  obtain ⟨s₁, hstart, hrun⟩ := h.run
  obtain ⟨hoff, hsound⟩ := h.directory.sound hlaws
  have hbegin : ∃ start, StartsFrom s start ∧
      ∀ p, s₁.process = some p → Covers lib cli start [] p := by
    generalize he : Event.started = e at hstart
    cases step_turn hstart with
    | @started faults frontier reads _ hopen =>
      refine ⟨if reads then s.bloom.getD lib.seen.fresh else lib.seen.fresh, ?_, fun p hp => ?_⟩
      · cases hbloom : s.bloom with
        | none => exact Or.inl (by simp)
        | some saved =>
          cases reads
          · exact Or.inl rfl
          · exact Or.inr hbloom
      · cases hp
        refine ⟨⟨[], List.Perm.refl _, rfl⟩, fun seed hseed hnot => ?_, fun _ hc => by cases hc⟩
        exact absurd ⟨cli.seeds, rfl, hseed⟩ hnot
    | checked hon => rw [hoff] at hon; cases hon
    | _ => cases he
  obtain ⟨start, hfrom, hcovers⟩ := hbegin
  refine ⟨start, hfrom, ?_⟩
  refine (hrun.invariant_trace (I := fun log t => SoundIn lib t ∧
    ∀ p, t.process = some p → Covers lib cli start log p)
    ⟨hsound.step hlaws (step_does hstart), hcovers⟩ ?_).2
  rintro log a entry b ⟨ha, hcovered⟩ ⟨⟨hlogged, hne⟩, _⟩
  exact ⟨ha.step hlaws (step_does hlogged.1), Covers.step hlaws hseen ha hcovered hlogged hne⟩

/-! ### A crawl that has nothing left to do -/

/-- The loop's own test for its end: nothing is in flight, and nothing is queued. -/
def Drained (p : Process lib) : Prop :=
  p.phase = .waiting ∧ p.inFlightTotal = 0 ∧ p.shuttingDown = false ∧ p.owner.frontier.pending = 0

/-- The filter takes a URL for one that it has seen, and the crawl did not push it: the filter
knew it from the start, or is mistaken. -/
def TakenForSeen (lib : Libraries) (start : lib.seen.Filter) (pushed : List CrawlJob) (url : Str) :
    Prop :=
  url ∉ pushed.map CrawlJob.url ∧ ∃ urls : List Str, urls.Perm (pushed.map CrawlJob.url) ∧
    lib.seen.contains (insertAll lib.seen start urls) url = true

theorem Covers.offered (h : Covers lib cli start log p) (hphase : ∀ rest, p.phase ≠ .seeding rest)
    {url : Str} (hurl : Offered lib cli log url) : lib.seen.contains p.owner.seen url = true := by
  cases hurl with
  | @seed seed hseed hurl =>
    refine h.seeds seed hseed ?_ url hurl
    rintro ⟨rest, hrest, _⟩
    exact hphase rest hrest
  | link hentry hevent hraw hurl => exact h.links _ hentry _ _ hevent _ hraw url hurl

/-- **A crawl that drains has visited everything.** When the loop finds nothing in flight and
nothing queued, it has absorbed exactly the jobs that were queued when it started and those
that it pushed, once each; and each seed, each link of a page above the depth limit and each
entry of a sitemap that it was offered is among them, if it is kept at all, or was taken by the
filter for one that it had seen. -/
theorem drained_crawl_visits_all (lib : Libraries) (cli : Cli) (hlaws : UrlLaws lib.urls)
    (hseen : SeenLaws lib.seen) (s t : System lib) (log : List Logged) (h : Crawl cli s log t)
    (p : Process lib) (hp : t.process = some p) (hdrained : Drained p) :
    (absorbedJobs log).Perm (queuedJobs lib s.db ++ pushes log) ∧
    ∃ start, StartsFrom s start ∧ ∀ url, Offered lib cli log url →
      url ∈ (absorbedJobs log).map CrawlJob.url ∨ TakenForSeen lib start (pushes log) url := by
  obtain ⟨hphase, hidle, _, hpending⟩ := hdrained
  have haccounts := crawl_accounts hlaws h p hp
  have hempty : queuedJobs lib t.database = [] := by
    have hcounts := crawl_pending hlaws h p hp
    rw [CountsPending, hpending, eq_comm, List.length_eq_zero_iff] at hcounts
    rw [queuedJobs, System.database, hp, hcounts]
    rfl
  have hnone : inFlightJobs p = [] := by
    have htotal := haccounts.total
    rw [hidle, eq_comm, List.length_eq_zero_iff] at htotal
    rw [inFlightJobs, htotal]
    rfl
  have habsorbed : (pops log).Perm (absorbedJobs log) := by
    rw [haccounts.popped]
    have hflights := haccounts.absorbed
    rwa [hnone, List.append_nil] at hflights
  have hbalance := crawl_balance hlaws h
  rw [hempty, List.append_nil] at hbalance
  have hall := (hbalance.trans habsorbed).symm
  obtain ⟨start, hfrom, hcovers⟩ := crawl_covers hlaws hseen h
  refine ⟨hall, start, hfrom, fun url hurl => ?_⟩
  have hknown := (hcovers p hp).offered (fun rest hrest => by rw [hphase] at hrest; cases hrest)
    hurl
  obtain ⟨urls, hurls, hfilter⟩ := (hcovers p hp).filter
  by_cases hpushed : url ∈ (pushes log).map CrawlJob.url
  · left
    obtain ⟨job, hjob, rfl⟩ := List.mem_map.mp hpushed
    exact List.mem_map_of_mem (hall.mem_iff.mpr (List.mem_append_right _ hjob))
  · rw [hfilter] at hknown
    exact Or.inr ⟨hpushed, urls, hurls, hknown⟩

/-- Two seeds of one host are dispatched and absorbed, and the loop finds its queue empty. -/
def bothAbsorbed : List Choice :=
  List.replicate 2 (.seed noFaults) ++ [.go, .go, .go,
    .dispatch 1000 noFaults noFaults, .dispatch 1001 noFaults noFaults,
    .dispatch 1002 noFaults noFaults, .check 0 unavailable, .check 1 unavailable] ++
    [.send 0, .send 0, .receive 2000 noAbsorbFaults, .receive 2001 noAbsorbFaults, .go, .go,
      .dispatch 3000 noFaults noFaults]

theorem drained_crawl_visits_all_sample : ∃ log, ∃ t : System plainLibraries, ∃ p,
    Crawl (plainCli ["http://b.c/".toList, "http://b.c/x".toList] 2) fresh log t ∧
    t.process = some p ∧ Drained p ∧
    absorbedJobs log = [homeJob, { pageJob with depth := 0 }] ∧
    (absorbedJobs log).Perm (queuedJobs plainLibraries CrawlDb.empty ++ pushes log) := by
  generalize hcli : plainCli ["http://b.c/".toList, "http://b.c/x".toList] 2 = cli
  have hcrawl : Crawl cli fresh
      (execLogged cli (startedFresh plainLibraries cli) bothAbsorbed).1
      (execLogged cli (startedFresh plainLibraries cli) bothAbsorbed).2 := by
    subst hcli
    exact crawl_exec (fun _ _ => trivial) rfl (by decide)
  subst hcli
  refine ⟨_, _, _, hcrawl, rfl, ⟨by decide, by decide, by decide, by decide⟩, by decide, ?_⟩
  exact (drained_crawl_visits_all plainLibraries _ plainUrls_laws plainSeen_laws _ _ _ hcrawl _ rfl
    ⟨by decide, by decide, by decide, by decide⟩).1

end Crawler
