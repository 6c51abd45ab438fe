/-
What holds on every run of the crawler.

A run starts with an empty data directory and goes through any number of processes,
each with a command line of its own, and killed or ended at any point.  The invariant
`Good` says, of every rule in play, which answer to a robots.txt request of the run it
comes from:

* `Sound` — the frontier is well formed and holds fetchable URLs;
* `FetchedBy`, `Fetched` — rules that an answer to a visit of the host gave;
* `CacheOk`, `VisitOk`, `OutcomeOk` — the rules cached, those a visit goes by, and
  those it reports;
* `run_good` — all of it holds in every state of every run.
-/
import MjlSearch.CrawlSteps

open Text Machine Policy Runs FrontierQueue CrawlDb

namespace Crawler

variable {lib : Libraries} {cli : Cli}

/-! ### The frontier -/

/-- The frontier is well formed and holds fetchable URLs. -/
structure Sound (lib : Libraries) (F : Frontier) : Prop where
  wf : Wf lib.urls lib.codecs F
  fetchable : ∀ e ∈ F.db.pending.entries, ∀ job, lib.codecs.job.decode e.2 = some job →
    IsHttpUrl lib.urls job.url

/-- A database a sound frontier can be opened on. -/
def SoundDb (lib : Libraries) (db : CrawlDb) : Prop := ∃ F, F.db = db ∧ Sound lib F

/-- What the theorems below ask of the `url` crate: hosts are made of bytes greater
than `0x01`, and `http` URLs are as the URL standard says. -/
structure UrlLaws (urls : UrlCrate) : Prop where
  plainHost : ∀ url host, urls.hostOf url = some host → Frontier.PlainHost host
  http : HttpLaws urls

theorem plainUrls_laws : UrlLaws plainUrls :=
  ⟨fun _ _ => plainUrls_plainHost, plainUrls_http⟩

theorem Sound.popped {F F' : Frontier} (h : Sound lib F) (hpop : Popped F F') : Sound lib F' :=
  ⟨hpop.wf h.wf, fun e he => h.fetchable e (hpop.pending e he)⟩

/-- Nothing the frontier is judged by has changed. -/
theorem Sound.same {F F' : Frontier} (h : Sound lib F)
    (hpending : F'.db.pending = F.db.pending) (hsequence : F'.sequence = F.sequence)
    (hpersisted : F'.db.readCounter metaFrontierSeq = F.db.readCounter metaFrontierSeq) :
    Sound lib F' := by
  refine ⟨h.wf.of_subset (fun e he => by rwa [hpending] at he) hsequence hpersisted, ?_⟩
  rw [hpending]
  exact h.fetchable

theorem Sound.pushes (hlaws : UrlLaws lib.urls) {F F' : Frontier} (h : Sound lib F)
    (hpushes : Pushes lib F F') : Sound lib F' := by
  induction hpushes with
  | refl => exact h
  | @push G H job _ _ hurl hpush ih =>
    refine ⟨(push_wf hlaws.plainHost ih.wf hpush).1, ?_⟩
    obtain ⟨host, value, _, hvalue, _, _, _, hpending⟩ := Frontier.push_ok hpush
    obtain ⟨raw, hcanonical⟩ := hurl
    intro e he job' hdecode
    rw [hpending, Store.mem_put] at he
    rcases he with rfl | ⟨he, _⟩
    · have hjob : lib.codecs.job.decode value = some job := lib.codecs.job.decode_encode hvalue
      rw [show lib.codecs.job.decode value = some job' from hdecode] at hjob
      cases hjob
      exact canonicalUrl_http hlaws.http hcanonical
    · exact ih.fetchable e he job' hdecode

theorem Sound.cached {F F₁ : Frontier} {nowMs : ℤ} {outcome : Outcome} (h : Sound lib F)
    (hcached : Cached lib nowMs outcome F F₁) : Sound lib F₁ := by
  rw [Cached] at hcached
  split at hcached
  · rw [hcached]
    exact h
  · obtain ⟨bytes, _, rfl⟩ := hcached
    exact h.same rfl rfl rfl

theorem Sound.deferred {F F₁ : Frontier} {faults : Faults} {host : Str}
    {untilMs fetchedAtMs : ℤ} (h : Sound lib F)
    (hdefer : F.deferHost lib.codecs faults host untilMs fetchedAtMs = .ok F₁) :
    Sound lib F₁ := by
  obtain ⟨value, _, rfl⟩ := deferHost_ok hdefer
  exact h.same rfl rfl rfl

/-- Opening touches two counters, and nothing else. -/
theorem open_frame (faults : Faults) (db : CrawlDb) :
    (Frontier.open faults db).2.pending = db.pending ∧
      (Frontier.open faults db).2.robots = db.robots ∧
      (Frontier.open faults db).2.readCounter metaFrontierSeq
        = db.readCounter metaFrontierSeq ∧
      ∀ F, (Frontier.open faults db).1 = .ok F → F.db = (Frontier.open faults db).2 := by
  have hcount : ∀ n m : ℕ, ((db.writeCounter metaPendingCount n).writeCounter metaHostCount
      m).readCounter metaFrontierSeq = db.readCounter metaFrontierSeq := by
    intro n m
    rw [readCounter_writeCounter_of_ne _ _ metaFrontierSeq_ne_host,
      readCounter_writeCounter_of_ne _ _ metaFrontierSeq_ne_pending]
  rw [Frontier.open]
  dsimp only
  split
  · exact ⟨rfl, rfl, rfl, fun F hc => (by cases hc)⟩
  · split
    · exact ⟨rfl, rfl, readCounter_writeCounter_of_ne _ _ metaFrontierSeq_ne_pending,
        fun F hc => (by cases hc)⟩
    · refine ⟨rfl, rfl, hcount _ _, fun F hF => ?_⟩
      cases hF
      rfl

theorem SoundDb.opened {db : CrawlDb} (h : SoundDb lib db) (faults : Faults) :
    SoundDb lib (Frontier.open faults db).2 ∧
      ∀ F, (Frontier.open faults db).1 = .ok F → Sound lib F := by
  obtain ⟨G, rfl, hG⟩ := h
  obtain ⟨hpending, _, hpersisted, _⟩ := open_frame faults G.db
  refine ⟨⟨{ G with db := (Frontier.open faults G.db).2 }, rfl, hG.same hpending rfl hpersisted⟩,
    fun F hF => ?_⟩
  obtain ⟨hpending', hsequence, hpersisted'⟩ := open_ok hF
  exact hG.same hpending' (by rw [hsequence, hG.wf.persisted]) hpersisted'

theorem Sound.db {F : Frontier} (h : Sound lib F) : SoundDb lib F.db := ⟨F, rfl, h⟩

/-! ### Where rules come from -/

/-- An event, and the command line of the process it happened to. -/
structure Happened where
  cli : Cli
  event : Event

/-- A step of a process, whatever its command line is. -/
def Happens (s : System lib) (e : Happened) (t : System lib) : Prop := Step e.cli s e.event t

/-- What one command line did, it did as itself. -/
theorem happens_run {cli : Cli} {s t : System lib} {es : List Event}
    (h : Run (Step cli) s es t) : Run Happens s (es.map (Happened.mk cli)) t :=
  h.map (Happened.mk cli) fun _ _ _ hstep => hstep

/-- The answer is a robots.txt with these rules, or says that there is none. -/
def Answers (cli : Cli) (answer : Answer) (rules : RobotsRules) : Prop :=
  (∃ page, answer = .ok page ∧ rules = Robots.parse page.body cli.userAgent) ∨
    ∃ e : FetchError, answer = .error e ∧ e.val = .httpStatus 404 ∧ rules = Robots.allowAll

/-- The request failed, and not with a 404. -/
def Unreachable (answer : Answer) : Prop :=
  ∃ e : FetchError, answer = .error e ∧ e.val ≠ .httpStatus 404

/-- The visit asked for its robots.txt at `url`, and these are the rules it learned,
with their lifetime. -/
def FetchedBy (lib : Libraries) (es : List Happened) (visit : Visit) (url : Str)
    (rules : RobotsRules) (ttlMs : ℤ) : Prop :=
  ∃ cli answer, ⟨cli, .asked { visit with stage := .asking } url answer⟩ ∈ es ∧
    lib.urls.robotsUrl visit.job.url = some url ∧
    ((Answers cli answer rules ∧ ttlMs = Robots.cacheTtlMs) ∨
      (Unreachable answer ∧ rules = Robots.disallowAll ∧ ttlMs = Robots.unavailableTtlMs))

/-- A visit of the host did. -/
def Fetched (lib : Libraries) (es : List Happened) (host url : Str)
    (rules : RobotsRules) (ttlMs : ℤ) : Prop :=
  ∃ visit : Visit, lib.urls.hostOf visit.job.url = some host ∧
    FetchedBy lib es visit url rules ttlMs

/-- The rules were stored for the host, and are still fresh. -/
def Stored (lib : Libraries) (es : List Happened) (host : Str) (nowMs : ℤ)
    (rules : RobotsRules) : Prop :=
  ∃ cli storedAtMs outcome url ttlMs, ⟨cli, .absorbed storedAtMs outcome⟩ ∈ es ∧
    outcome.host = host ∧ outcome.rules = some rules ∧ Fetched lib es host url rules ttlMs ∧
    satSub nowMs storedAtMs ≤ ttlMs

/-- What a visit was dispatched with. -/
def Dispatched (lib : Libraries) (es : List Happened) (visit : Visit)
    (rules : RobotsRules) : Prop :=
  ∃ before cli nowMs after,
    es = before ++ ⟨cli, .dispatched nowMs { visit with stage := .asking }⟩ :: after ∧
    Stored lib before visit.host nowMs rules

/-- The rules a visit checks its URL against: newly fetched by the visit itself, or
those it was dispatched with. -/
structure LearnedOk (lib : Libraries) (es : List Happened) (visit : Visit)
    (learned : Learned) : Prop where
  origin : ∃ rules, learned.rules = some rules ∧
    ((∃ url ttlMs, learned.newlyFetched = some rules ∧ learned.rulesTtlMs = some ttlMs ∧
        FetchedBy lib es visit url rules ttlMs) ∨
      (learned.newlyFetched = none ∧ Dispatched lib es visit rules))

/-- What a visit reports. -/
structure OutcomeOk (lib : Libraries) (es : List Happened) (outcome : Outcome) :
    Prop where
  host : lib.urls.hostOf outcome.job.url = some outcome.host
  http : IsHttpUrl lib.urls outcome.job.url
  rules : ∀ rules, outcome.rules = some rules → ∃ url ttlMs,
    outcome.rulesTtlMs = some ttlMs ∧ Fetched lib es outcome.host url rules ttlMs
  disallowed : outcome.result = .error .disallowedByRobots → ∃ url rules ttlMs,
    Fetched lib es outcome.host url rules ttlMs ∧
    Robots.allows rules (lib.urls.requestPath outcome.job.url) = false

/-- What a visit goes by. -/
structure VisitOk (lib : Libraries) (es : List Happened) (visit : Visit) : Prop where
  host : lib.urls.hostOf visit.job.url = some visit.host
  http : IsHttpUrl lib.urls visit.job.url
  cached : ∀ rules, visit.cachedRules = some rules → Dispatched lib es visit rules
  fetching : ∀ learned, visit.stage = .fetching learned → LearnedOk lib es visit learned ∧
    ∀ rules, learned.rules = some rules →
      Robots.allows rules (lib.urls.requestPath visit.job.url) = true
  done : ∀ outcome, visit.stage = .done outcome →
    OutcomeOk lib es outcome ∧ outcome.host = visit.host

/-- What the cache holds for a host. -/
def CacheOk (lib : Libraries) (es : List Happened) (db : CrawlDb) : Prop :=
  ∀ host bytes entry, db.robots.get (utf8 host) = some bytes →
    lib.entry.decode bytes = some entry → ∃ cli outcome url,
      ⟨cli, .absorbed entry.fetchedAtMs outcome⟩ ∈ es ∧ outcome.host = host ∧
      outcome.rules = some entry.rules ∧ Fetched lib es host url entry.rules entry.ttlMs

/-! ### More of the run -/

variable {es : List Happened} {e : Happened}

theorem FetchedBy.append {visit : Visit} {url : Str} {rules : RobotsRules} {ttlMs : ℤ}
    (h : FetchedBy lib es visit url rules ttlMs) (fs : List Happened) :
    FetchedBy lib (es ++ fs) visit url rules ttlMs := by
  obtain ⟨cli, answer, hmem, hrest⟩ := h
  exact ⟨cli, answer, List.mem_append_left _ hmem, hrest⟩

theorem Fetched.append {host url : Str} {rules : RobotsRules} {ttlMs : ℤ}
    (h : Fetched lib es host url rules ttlMs) (fs : List Happened) :
    Fetched lib (es ++ fs) host url rules ttlMs := by
  obtain ⟨visit, hhost, hfetched⟩ := h
  exact ⟨visit, hhost, hfetched.append fs⟩

theorem Dispatched.snoc {visit : Visit} {rules : RobotsRules}
    (h : Dispatched lib es visit rules) : Dispatched lib (es ++ [e]) visit rules := by
  obtain ⟨before, cli, nowMs, after, rfl, hstored⟩ := h
  exact ⟨before, cli, nowMs, after ++ [e], by simp, hstored⟩

theorem LearnedOk.snoc {visit : Visit} {learned : Learned}
    (h : LearnedOk lib es visit learned) : LearnedOk lib (es ++ [e]) visit learned := by
  obtain ⟨rules, hrules, ⟨url, ttlMs, hnew, httl, hfetched⟩ | ⟨hnew, hdispatched⟩⟩ := h.origin
  · exact ⟨rules, hrules, Or.inl ⟨url, ttlMs, hnew, httl, hfetched.append _⟩⟩
  · exact ⟨rules, hrules, Or.inr ⟨hnew, hdispatched.snoc⟩⟩

theorem OutcomeOk.snoc {outcome : Outcome} (h : OutcomeOk lib es outcome) :
    OutcomeOk lib (es ++ [e]) outcome where
  host := h.host
  http := h.http
  rules rules hrules := by
    obtain ⟨url, ttlMs, httl, hfetched⟩ := h.rules rules hrules
    exact ⟨url, ttlMs, httl, hfetched.append _⟩
  disallowed hresult := by
    obtain ⟨url, rules, ttlMs, hfetched, hallows⟩ := h.disallowed hresult
    exact ⟨url, rules, ttlMs, hfetched.append _, hallows⟩

theorem VisitOk.snoc {visit : Visit} (h : VisitOk lib es visit) :
    VisitOk lib (es ++ [e]) visit where
  host := h.host
  http := h.http
  cached rules hrules := (h.cached rules hrules).snoc
  fetching learned hstage :=
    ⟨(h.fetching learned hstage).1.snoc, (h.fetching learned hstage).2⟩
  done outcome hstage := ⟨(h.done outcome hstage).1.snoc, (h.done outcome hstage).2⟩

theorem CacheOk.snoc {db : CrawlDb} (h : CacheOk lib es db) :
    CacheOk lib (es ++ [e]) db := by
  intro host bytes entry hget hdecode
  obtain ⟨cli, outcome, url, hmem, hhost, hrules, hfetched⟩ := h host bytes entry hget hdecode
  exact ⟨cli, outcome, url, List.mem_append_left _ hmem, hhost, hrules, hfetched.append _⟩

theorem CacheOk.of_robots {db db' : CrawlDb} (h : CacheOk lib es db)
    (hrobots : db'.robots = db.robots) : CacheOk lib es db' := by
  rw [CacheOk, hrobots]
  exact h

/-! ### One visit -/

/-- What a visit learns: its answer gives it new rules, or it goes by those it has. -/
theorem learn_ok {visit : Visit} {answer : Answer}
    (hhost : lib.urls.hostOf visit.job.url = some visit.host)
    (hcached : ∀ rules, visit.cachedRules = some rules → Dispatched lib es visit rules)
    (he : ∀ url, robotsWanted lib visit = some url →
      e = ⟨cli, .asked { visit with stage := .asking } url answer⟩) :
    LearnedOk lib (es ++ [e]) visit (learn lib cli visit answer) := by
  rw [learn]
  split
  · rename_i hwanted
    rw [robotsWanted] at hwanted
    split at hwanted
    · rename_i rules hrules
      exact ⟨rules, hrules, Or.inr ⟨rfl, (hcached rules hrules).snoc⟩⟩
    · -- a URL with a host has a robots.txt
      have hsome := lib.urls.robotsUrl_isSome hhost
      rw [hwanted] at hsome
      cases hsome
  · rename_i url hwanted
    have hurl : lib.urls.robotsUrl visit.job.url = some url := by
      rw [robotsWanted] at hwanted
      split at hwanted
      · cases hwanted
      · exact hwanted
    have hmem : ⟨cli, .asked { visit with stage := .asking } url answer⟩ ∈ es ++ [e] := by
      rw [he url hwanted]
      simp
    rcases answer with failure | page
    · by_cases hnotFound : failure.val = .httpStatus 404
      · rw [fetchRobots]
        rw [if_pos hnotFound]
        exact ⟨_, rfl, Or.inl ⟨url, _, rfl, rfl, _, _, hmem, hurl,
          Or.inl ⟨Or.inr ⟨failure, rfl, hnotFound, rfl⟩, rfl⟩⟩⟩
      · rw [fetchRobots]
        rw [if_neg hnotFound]
        exact ⟨_, rfl, Or.inl ⟨url, _, rfl, rfl, _, _, hmem, hurl,
          Or.inr ⟨⟨failure, rfl, hnotFound⟩, rfl, rfl⟩⟩⟩
    · exact ⟨_, rfl, Or.inl ⟨url, _, rfl, rfl, _, _, hmem, hurl,
        Or.inl ⟨Or.inl ⟨page, rfl, rfl⟩, rfl⟩⟩⟩

theorem LearnedOk.fetched {visit : Visit} {learned : Learned}
    (hhost : lib.urls.hostOf visit.job.url = some visit.host)
    (h : LearnedOk lib es visit learned) :
    ∃ url rules ttlMs, learned.rules = some rules ∧
      Fetched lib es visit.host url rules ttlMs := by
  obtain ⟨rules, hrules, ⟨url, ttlMs, _, _, hfetched⟩ |
    ⟨_, before, _, _, after, rfl, _, _, _, url, ttlMs, _, _, _, hfetched, _⟩⟩ := h.origin
  · exact ⟨url, rules, ttlMs, hrules, visit, hhost, hfetched⟩
  · exact ⟨url, rules, ttlMs, hrules, hfetched.append _⟩

/-- What a visit reports on the rules it learned. -/
theorem report_ok {visit : Visit} {learned : Learned} {result : Except CrawlError Visited}
    (hhost : lib.urls.hostOf visit.job.url = some visit.host)
    (hhttp : IsHttpUrl lib.urls visit.job.url) (h : LearnedOk lib es visit learned)
    (hresult : result = .error .disallowedByRobots → ∃ rules, learned.rules = some rules ∧
      Robots.allows rules (lib.urls.requestPath visit.job.url) = false) :
    OutcomeOk lib es (report visit learned result) where
  host := hhost
  http := hhttp
  rules rules hrules := by
    obtain ⟨rules', _, ⟨url, ttlMs, hnew, httl, hfetched⟩ | ⟨hnew, _⟩⟩ := h.origin
    · rw [show learned.newlyFetched = some rules from hrules] at hnew
      cases hnew
      exact ⟨url, ttlMs, httl, visit, hhost, hfetched⟩
    · rw [show learned.newlyFetched = some rules from hrules] at hnew
      cases hnew
  disallowed hc := by
    obtain ⟨rules, hrules, hallows⟩ := hresult hc
    obtain ⟨url, rules', ttlMs, hrules', hfetched⟩ := h.fetched hhost
    rw [hrules] at hrules'
    cases hrules'
    exact ⟨url, rules, ttlMs, hfetched, hallows⟩

/-- A visit never reports a URL as disallowed once it has fetched it. -/
theorem visited_ne_disallowed (answer : Answer) :
    visited lib answer ≠ .error .disallowedByRobots := by
  unfold visited
  split
  · rename_i failure
    intro hc
    exact failure.property (Except.error.inj hc)
  · dsimp only
    split
    · simp
    · split <;> simp

theorem VisitOk.checked {visit : Visit} {answer : Answer} (h : VisitOk lib es visit)
    (he : ∀ url, robotsWanted lib visit = some url →
      e = ⟨cli, .asked { visit with stage := .asking } url answer⟩) :
    VisitOk lib (es ++ [e])
      { visit with stage := check lib visit (learn lib cli visit answer) } := by
  have hlearned : LearnedOk lib (es ++ [e]) visit (learn lib cli visit answer) :=
    learn_ok h.host h.cached he
  generalize learn lib cli visit answer = learned at hlearned ⊢
  refine ⟨h.host, h.http, fun rules hrules => (h.cached rules hrules).snoc, ?_, ?_⟩
  · intro learned' hstage
    simp only [check] at hstage
    split at hstage
    · cases hstage
    · rename_i hallowed
      cases hstage
      refine ⟨⟨hlearned.origin⟩, fun rules hrules => ?_⟩
      rw [hrules] at hallowed
      simpa using hallowed
  · intro outcome hstage
    simp only [check] at hstage
    split at hstage
    · rename_i hforbidden
      cases hstage
      refine ⟨report_ok h.host h.http hlearned fun _ => ?_, rfl⟩
      obtain ⟨rules, hrules, hnot⟩ := Option.any_eq_true _ _ |>.mp hforbidden
      exact ⟨rules, hrules, by simpa using hnot⟩
    · cases hstage

theorem VisitOk.fetched {visit : Visit} {learned : Learned} {answer : Answer}
    (h : VisitOk lib es visit) (hstage : visit.stage = .fetching learned) :
    VisitOk lib es
      { visit with stage := .done (report visit learned (visited lib answer)) } where
  host := h.host
  http := h.http
  cached := h.cached
  fetching learned' hc := by cases hc
  done outcome hc := by
    cases hc
    exact ⟨report_ok h.host h.http (h.fetching learned hstage).1 fun hd =>
      absurd hd (visited_ne_disallowed answer), rfl⟩

/-! ### The invariant -/

/-- What holds while a process runs. -/
structure Running (lib : Libraries) (es : List Happened) (p : Process lib) : Prop where
  sound : Sound lib p.owner.frontier
  cache : CacheOk lib es p.owner.frontier.db
  visits : ∀ visit ∈ p.visits, VisitOk lib es visit
  channel : ∀ outcome ∈ p.channel, OutcomeOk lib es outcome

/-- What holds in every state of every run. -/
structure Good (lib : Libraries) (es : List Happened) (s : System lib) : Prop where
  off : s.process = none → SoundDb lib s.db ∧ CacheOk lib es s.db
  on : ∀ p, s.process = some p → Running lib es p

theorem Good.halt {s : System lib} {owner : Owner lib} {bloom : Option lib.seen.Filter}
    (hdb : SoundDb lib owner.frontier.db) (hcache : CacheOk lib es owner.frontier.db) :
    Good lib es { s.halt owner with bloom } :=
  ⟨fun _ => ⟨hdb, hcache⟩, fun _ hc => (by cases hc)⟩

theorem Good.resume {s : System lib} {p : Process lib} (h : Running lib es p) :
    Good lib es (s.resume p) :=
  ⟨fun hc => (by cases hc), fun q hq => by
    cases hq
    exact h⟩

/-- A call of the owner that left the database in order. -/
theorem Good.proceed {s : System lib} {p : Process lib} {called : Called lib} {G : Frontier}
    (hvisits : ∀ visit ∈ p.visits, VisitOk lib es visit)
    (hchannel : ∀ outcome ∈ p.channel, OutcomeOk lib es outcome) (hsound : Sound lib G)
    (hcache : CacheOk lib es G.db) (hdb : called.2.frontier.db = G.db)
    (hok : called.1 = .ok () → called.2.frontier = G) :
    Good lib es (s.proceed p called) := by
  rcases called with ⟨_ | _, owner⟩
  · refine @Good.halt _ _ s owner s.bloom ?_ ?_
    · rw [show owner.frontier.db = G.db from hdb]
      exact hsound.db
    · rw [show owner.frontier.db = G.db from hdb]
      exact hcache
  · refine Good.resume ⟨?_, ?_, hvisits, hchannel⟩
    · rw [show owner.frontier = G from hok rfl]
      exact hsound
    · rw [show owner.frontier = G from hok rfl]
      exact hcache

/-- Pushing leaves the cached rules alone. -/
theorem Pushes.robots {F F' : Frontier} (h : Pushes lib F F') : F'.db.robots = F.db.robots := by
  induction h with
  | refl => rfl
  | push _ _ hpush ih => rw [(push_frame hpush).1, ih]

/-- The rules an outcome is cached under come from its own visit's answer. -/
theorem CacheOk.cached {F F₁ : Frontier} {nowMs : ℤ} {outcome : Outcome}
    (h : CacheOk lib es F.db) (houtcome : OutcomeOk lib es outcome)
    (hmem : ⟨cli, .absorbed nowMs outcome⟩ ∈ es) (hcached : Cached lib nowMs outcome F F₁) :
    CacheOk lib es F₁.db := by
  rw [Cached] at hcached
  split at hcached
  · rw [hcached]
    exact h
  · rename_i rules hrules
    obtain ⟨bytes, hencode, rfl⟩ := hcached
    obtain ⟨url, ttlMs, httl, hfetched⟩ := houtcome.rules rules hrules
    intro host bytes' entry hget hdecode
    by_cases hhost : host = outcome.host
    · subst hhost
      simp only [Store.get_put_self, Option.some.injEq] at hget
      subst hget
      rw [lib.entry.decode_encode hencode, httl] at hdecode
      cases hdecode
      exact ⟨cli, outcome, url, hmem, rfl, hrules, hfetched⟩
    · have hne : utf8 host ≠ utf8 outcome.host := fun heq => hhost (utf8_injective heq)
      simp only [Store.get_put_of_ne _ _ hne] at hget
      exact h host bytes' entry hget hdecode

/-- **Every step keeps the invariant.** -/
theorem Good.step (hlaws : UrlLaws lib.urls) {s t : System lib} {event : Event}
    (h : Good lib es s) (hstep : Does cli s event t) : Good lib (es ++ [⟨cli, event⟩]) t := by
  cases hstep with
  | @notStarted faults hoff =>
    obtain ⟨hdb, hcache⟩ := h.off hoff
    refine ⟨fun _ => ⟨(hdb.opened faults).1, ?_⟩, fun p hp => ?_⟩
    · exact hcache.snoc.of_robots (open_frame faults s.db).2.1
    · exact absurd hp (by simp [hoff])
  | @started faults frontier reads hoff hopen =>
    obtain ⟨hdb, hcache⟩ := h.off hoff
    refine Good.resume ⟨(hdb.opened faults).2 frontier hopen, ?_, by simp [begin], by simp [begin]⟩
    refine hcache.snoc.of_robots ?_
    rw [show (begin cli s frontier reads).owner.frontier.db = frontier.db from rfl,
      (open_frame faults s.db).2.2.2 frontier hopen]
    exact (open_frame faults s.db).2.1
  | @ended p bloom hon =>
    have hp := h.on p hon
    exact Good.halt hp.sound.db hp.cache.snoc
  | @moved p phase shuttingDown hon =>
    have hp := h.on p hon
    exact Good.resume ⟨hp.sound, hp.cache.snoc, fun v hv => (hp.visits v hv).snoc,
      fun o ho => (hp.channel o ho).snoc⟩
  | @seeded p phase called hon hcall =>
    have hp := h.on p hon
    obtain ⟨G, hG, hdb, hok⟩ := hcall
    exact Good.proceed (fun v hv => (hp.visits v hv).snoc) (fun o ho => (hp.channel o ho).snoc)
      (hp.sound.pushes hlaws hG) (hp.cache.snoc.of_robots hG.robots) hdb hok
  | @popFailed p frontier nowMs hon hnow hpop =>
    have hp := h.on p hon
    have hcache : CacheOk lib (es ++ [⟨cli, .quiet⟩]) frontier.db :=
      hp.cache.snoc.of_robots hpop.robots
    exact @Good.halt _ _ (s.tick nowMs) { p.owner with frontier } s.bloom
      (hp.sound.popped hpop).db hcache
  | @poppedNone p frontier nowMs phase hon hnow hpop =>
    have hp := h.on p hon
    exact Good.resume ⟨hp.sound.popped hpop, hp.cache.snoc.of_robots hpop.robots,
      fun v hv => (hp.visits v hv).snoc, fun o ho => (hp.channel o ho).snoc⟩
  | @dispatched p frontier nowMs pop get job host cachedRules hon hnow hroom hpop hhost hget =>
    have hp := h.on p hon
    have hframe := popReady_frame hpop
    refine Good.resume ⟨hp.sound.popped hframe, hp.cache.snoc.of_robots hframe.robots, ?_,
      fun o ho => (hp.channel o ho).snoc⟩
    intro visit hvisit
    rcases List.mem_append.mp hvisit with hv | hv
    · exact (hp.visits visit hv).snoc
    · rw [List.mem_singleton.mp hv]
      refine ⟨hhost, ?_, ?_, fun _ hc => (by cases hc), fun _ hc => (by cases hc)⟩
      · -- the job was stored, and only fetchable URLs are
        rcases popReady_spec hp.sound.wf hpop with ⟨hc, _⟩ | ⟨_, e, job', hjob, htook⟩
        · cases hc
        · cases hjob
          exact hp.sound.fetchable e htook.mem _ htook.decoded
      · intro rules hrules
        rw [show cachedRules = some rules from hrules] at hget
        obtain ⟨bytes, entry, hbytes, hentry, hfresh, rfl⟩ := Robots.get_ok hget
        rw [hframe.robots] at hbytes
        obtain ⟨absorber, outcome, url, hmem, houtcome, hcached, hfetched⟩ :=
          hp.cache host bytes entry hbytes hentry
        exact ⟨es, cli, nowMs, [], rfl, absorber, entry.fetchedAtMs, outcome, url, entry.ttlMs, hmem,
          houtcome, hcached, hfetched, hfresh⟩
  | @checked p i visit answer hon hvisit hstage =>
    have hp := h.on p hon
    refine Good.resume ⟨hp.sound, hp.cache.snoc, ?_, fun o ho => (hp.channel o ho).snoc⟩
    intro v hv
    rcases List.mem_or_eq_of_mem_set hv with hv | rfl
    · exact (hp.visits v hv).snoc
    · refine (hp.visits visit (List.mem_of_getElem? hvisit)).checked fun url hwanted => ?_
      rw [hwanted, ← hstage]
  | @fetched p i visit learned answer hon hvisit hstage =>
    have hp := h.on p hon
    refine Good.resume ⟨hp.sound, hp.cache.snoc, ?_, fun o ho => (hp.channel o ho).snoc⟩
    intro v hv
    rcases List.mem_or_eq_of_mem_set hv with hv | rfl
    · exact (hp.visits v hv).snoc
    · exact ((hp.visits visit (List.mem_of_getElem? hvisit)).fetched hstage).snoc
  | @sent p i visit outcome hon hvisit hstage =>
    have hp := h.on p hon
    refine Good.resume ⟨hp.sound, hp.cache.snoc, ?_, ?_⟩
    · intro v hv
      exact (hp.visits v (List.mem_of_mem_eraseIdx hv)).snoc
    · intro o ho
      rcases List.mem_append.mp ho with ho | ho
      · exact (hp.channel o ho).snoc
      · rw [List.mem_singleton.mp ho]
        exact ((hp.visits visit (List.mem_of_getElem? hvisit)).done outcome hstage).1.snoc
  | @absorbed p nowMs faults outcome channel hon hnow hchannel =>
    have hp := h.on p hon
    have houtcome : OutcomeOk lib (es ++ [⟨cli, .absorbed nowMs outcome⟩]) outcome :=
      (hp.channel outcome (by rw [hchannel]; exact List.mem_cons_self)).snoc
    obtain ⟨G, ⟨hsound, hcache⟩, hdb, hok⟩ := absorb_rule
      (P := fun F => Sound lib F ∧
        CacheOk lib (es ++ [Happened.mk cli (.absorbed nowMs outcome)]) F.db)
      (fun F F₁ hF hcached => ⟨hF.1.cached hcached,
        hF.2.cached houtcome (List.mem_append_right _ (List.mem_singleton_self _)) hcached⟩)
      (fun F F₁ _ _ _ hF hdefer => ⟨hF.1.deferred hdefer, by
        obtain ⟨value, _, rfl⟩ := deferHost_ok hdefer
        exact hF.2⟩)
      (fun F F₁ hF hpushes => ⟨hF.1.pushes hlaws hpushes, hF.2.of_robots hpushes.robots⟩)
      ⟨hp.sound, hp.cache.snoc⟩ (rfl : absorb cli faults p.owner nowMs outcome = (_, _))
    refine Good.proceed (fun v hv => (hp.visits v hv).snoc) (fun o ho => ?_) hsound hcache hdb hok
    exact (hp.channel o (by rw [hchannel]; exact List.mem_cons_of_mem _ ho)).snoc

theorem Good.fresh : Good lib [] (fresh : System lib) := by
  refine ⟨fun _ => ⟨⟨{ db := CrawlDb.empty, sequence := 0, pending := 0, hosts := 0 }, rfl, ?_⟩, ?_⟩,
    fun p hp => (by cases hp)⟩
  · exact ⟨⟨fun e he => (by cases he), rfl, by decide⟩, fun e he => (by cases he)⟩
  · intro host bytes entry hget
    cases hget

/-- **The invariant holds in every state of every run.** -/
theorem run_good (hlaws : UrlLaws lib.urls) {t : System lib}
    (h : Run Happens (fresh : System lib) es t) : Good lib es t :=
  h.invariant_trace Good.fresh fun _ _ _ _ hgood hstep => hgood.step hlaws (step_does hstep)

end Crawler
