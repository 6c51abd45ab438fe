/-
The crawler (`crawler::main`): one owner of the frontier, the seen-URL filter and
the archive, and a pool of visits that do the network work.

`step` is the program between two points where it waits or where something
outside it decides: a `Choice` says what the clock, the network, the database and
the operator do, and the `Event` is what a reader of the log learns.  `Step`
forgets the choice, and a run of `Step` is one history of the data directory,
process after process.

* `exec_run` — executing choices is a run.
-/
import MjlSearch.Policy
import MjlSearch.Robots
import MjlSearch.Runs

open Text Machine Policy Runs

/-- A fetched response. -/
structure FetchedPage where
  finalUrl : Str
  status : ℕ
  contentType : Option Str
  body : Str
  deriving DecidableEq, Repr

/-- What the HTML parser takes from a page. -/
structure ParsedPage where
  title : Str
  text : Str
  links : List Str
  deriving DecidableEq, Repr

/-- Why a request failed.  Only a visit finds a URL disallowed, never a request. -/
abbrev FetchError := { e : CrawlError // e ≠ .disallowedByRobots }

/-- The answer to a request. -/
abbrev Answer := Except FetchError FetchedPage

/-- The bloom filter of the seen URLs. -/
structure SeenFilter where
  Filter : Type
  fresh : Filter
  contains : Filter → Str → Bool
  insert : Filter → Str → Filter

/-- What the crawler is built on. -/
structure Libraries where
  urls : UrlCrate
  forms : FormUrlencoded
  codecs : FrontierCodecs
  entry : Codec Robots.Entry
  seen : SeenFilter
  parsePage : Str → Str → Except Str ParsedPage
  parseSitemap : Str → List Str
  contentHash : Str → ℕ

/-- Command-line configuration for a crawl. -/
structure Cli where
  seeds : List Str
  maxDepth : ℕ
  workers : ℕ
  perHostConcurrency : ℕ
  politenessDelayMs : ℕ
  maxPages : ℕ
  userAgent : Str
  stayOnSite : Bool
  allowHost : List Str
  dropOffsiteRedirects : Bool

/-- Counters describing the run. -/
structure Stats where
  queued : ℕ := 0
  fetched : ℕ := 0
  indexed : ℕ := 0
  failed : ℕ := 0
  disallowed : ℕ := 0
  sitemaps : ℕ := 0
  skippedOffsite : ℕ := 0
  skippedAssets : ℕ := 0
  redirectedOffsite : ℕ := 0
  deriving DecidableEq, Repr

namespace Crawler

/-- What a fetched URL turned out to be. -/
inductive Visited
  | page (page : FetchedPage) (parsed : ParsedPage)
  | sitemap (url : Str) (links : List Str)
  deriving DecidableEq, Repr

/-- The URL a visit actually ended on. -/
def Visited.finalUrl : Visited → Str
  | .page fetched _ => fetched.finalUrl
  | .sitemap url _ => url

/-- What a worker task reports back. -/
structure Outcome where
  host : Str
  job : CrawlJob
  rules : Option RobotsRules
  rulesTtlMs : Option ℤ
  crawlDelayS : Option ℕ
  sitemaps : List Str
  result : Except CrawlError Visited

/-- The two things a URL can turn out to be. -/
inductive Kind
  | page
  | sitemap
  deriving DecidableEq, Repr

variable (lib : Libraries) (cli : Cli)

/-- Whether a response is a document or a sitemap. -/
def classify (finalUrl : Str) (contentType : Option Str) : Kind :=
  if contentType.any fun value => contains (asciiLower value) "html".toList then .page
  else if isXmlContentType contentType then .sitemap
  else if isSitemapUrl lib.urls finalUrl then .sitemap
  else .page

/-- The depth sitemap-listed URLs enter the frontier at. -/
def sitemapDepth : ℕ := 1

/-- The set of hosts the crawl is allowed to fetch from. -/
def scope : CrawlScope := CrawlScope.new lib.urls cli.stayOnSite cli.seeds cli.allowHost

/-! ### One visit -/

/-- What a visit knows about its host's robots.txt when it checks its URL. -/
structure Learned where
  rules : Option RobotsRules
  newlyFetched : Option RobotsRules
  rulesTtlMs : Option ℤ
  delay : Option ℕ

/-- Where a visit stands. -/
inductive Stage
  /-- The rules are not checked yet, and may still have to be fetched. -/
  | asking
  /-- The URL is passed to `Fetcher::fetch`. -/
  | fetching (learned : Learned)
  | done (outcome : Outcome)

/-- A spawned task. -/
structure Visit where
  job : CrawlJob
  host : Str
  cachedRules : Option RobotsRules
  crawlDelayS : Option ℕ
  stage : Stage

/-- The robots.txt a visit asks for: none when it has cached rules. -/
def robotsWanted (visit : Visit) : Option Str :=
  match visit.cachedRules with
  | some _ => none
  | none => lib.urls.robotsUrl visit.job.url

/-- Parses a fetched robots.txt; `ok none` means that the host has no rules. -/
def fetchRobots (answer : Answer) : Except CrawlError (Option RobotsRules) :=
  match answer with
  | .ok page => .ok (some (Robots.parse page.body cli.userAgent))
  | .error e => if e.val = .httpStatus 404 then .ok none else .error e.val

/-- The first part of a visit: the rules it goes by. -/
def learn (visit : Visit) (answer : Answer) : Learned :=
  match robotsWanted lib visit with
  | none =>
    { rules := visit.cachedRules, newlyFetched := none, rulesTtlMs := none,
      delay := visit.crawlDelayS }
  | some _ =>
    match fetchRobots cli answer with
    | .ok (some fetched) =>
      { rules := some fetched, newlyFetched := some fetched,
        rulesTtlMs := some Robots.cacheTtlMs, delay := fetched.crawlDelayS }
    | .ok none =>
      -- a 404 means the file does not exist, so nothing is disallowed
      { rules := some Robots.allowAll, newlyFetched := some Robots.allowAll,
        rulesTtlMs := some Robots.cacheTtlMs, delay := visit.crawlDelayS }
    | .error _ =>
      -- an unreachable robots.txt is treated as a full disallow
      { rules := some Robots.disallowAll, newlyFetched := some Robots.disallowAll,
        rulesTtlMs := some Robots.unavailableTtlMs, delay := visit.crawlDelayS }

/-- What a visit reports. -/
def report (visit : Visit) (learned : Learned) (result : Except CrawlError Visited) : Outcome :=
  { host := visit.host, job := visit.job, rules := learned.newlyFetched,
    rulesTtlMs := learned.rulesTtlMs, crawlDelayS := learned.delay,
    sitemaps := (learned.newlyFetched.map RobotsRules.sitemaps).getD [], result }

/-- The second part: the URL is fetched unless the rules forbid it. -/
def check (visit : Visit) (learned : Learned) : Stage :=
  if learned.rules.any fun rules => !Robots.allows rules (lib.urls.requestPath visit.job.url) then
    .done (report visit learned (.error .disallowedByRobots))
  else .fetching learned

/-- Replaces the URL a redirect landed on with its canonical form. -/
def canonicalFinalUrl (page : FetchedPage) : FetchedPage :=
  match canonicalUrl lib.urls lib.forms page.finalUrl with
  | some canonical => { page with finalUrl := canonical }
  | none => page

/-- The last part: what the answer turned out to be. -/
def visited (answer : Answer) : Except CrawlError Visited :=
  match answer with
  | .error e => .error e.val
  | .ok page =>
    let page := canonicalFinalUrl lib page
    match classify lib page.finalUrl page.contentType with
    | .sitemap => .ok (.sitemap page.finalUrl (lib.parseSitemap page.body))
    | .page =>
      match lib.parsePage page.body page.finalUrl with
      | .ok parsed => .ok (.page page parsed)
      | .error message => .error (.parse message)

/-! ### The owner -/

/-- What the owner task holds. -/
structure Owner where
  frontier : Frontier
  seen : lib.seen.Filter
  pages : List (FetchedPage × Document)
  stats : Stats

/-- The result of a call, and the owner as it is left. -/
abbrev Called := Except CrawlError Unit × Owner lib

variable {lib} in
/-- Records a URL and reports whether it was new. -/
def checkAndInsert (seen : lib.seen.Filter) (url : Str) : Bool × lib.seen.Filter :=
  if lib.seen.contains seen url then (false, seen) else (true, lib.seen.insert seen url)

variable {lib} in
/-- Enqueues a URL the filter has not seen. -/
def enqueue (faults : Faults) (owner : Owner lib) (job : CrawlJob) : Called lib :=
  match checkAndInsert owner.seen job.url with
  | (false, seen) => (.ok (), { owner with seen })
  | (true, seen) =>
    match owner.frontier.push lib.urls lib.codecs faults job with
    | (.error e, frontier) => (.error e, { owner with seen, frontier })
    | (.ok (), frontier) =>
      (.ok (), { owner with
        seen
        frontier
        stats := { owner.stats with queued := owner.stats.queued + 1 } })

variable {lib} in
/-- Canonicalises, filters and enqueues a batch of links.  `turn` counts them. -/
def schedule (depth : ℕ) (faults : ℕ → Faults) :
    ℕ → List Str → Owner lib → Called lib
  | _, [], owner => (.ok (), owner)
  | turn, raw :: links, owner =>
    match canonicalUrl lib.urls lib.forms raw with
    | none => schedule depth faults (turn + 1) links owner
    | some url =>
      if !(scope lib cli).allows lib.urls url then
        schedule depth faults (turn + 1) links
          { owner with stats :=
            { owner.stats with skippedOffsite := owner.stats.skippedOffsite + 1 } }
      else if !isProbablyPage lib.urls url then
        schedule depth faults (turn + 1) links
          { owner with stats :=
            { owner.stats with skippedAssets := owner.stats.skippedAssets + 1 } }
      else
        match enqueue (faults turn) owner { url, depth } with
        | (.error e, owner) => (.error e, owner)
        | (.ok (), owner) => schedule depth faults (turn + 1) links owner

/-- Which calls fail while an outcome is absorbed, and why `write_page` does, if it
does. -/
structure AbsorbFaults where
  cache : Faults
  postpone : Faults
  sitemaps : ℕ → Faults
  links : ℕ → Faults
  archive : Option CrawlError

variable {lib} in
/-- The end of `absorb`: the page is archived and its links are scheduled. -/
def settle (faults : AbsorbFaults) (owner : Owner lib) (nowMs : ℤ) (job : CrawlJob)
    (visited : Visited) : Called lib :=
  let offsite := (scope lib cli).restricted &&
    !(scope lib cli).allows lib.urls visited.finalUrl
  let owner := if offsite then
      { owner with stats :=
        { owner.stats with redirectedOffsite := owner.stats.redirectedOffsite + 1 } }
    else owner
  if offsite ∧ cli.dropOffsiteRedirects then (.ok (), owner)
  else
    match visited with
    | .sitemap _ links =>
      schedule cli sitemapDepth faults.links 0 links
        { owner with stats := { owner.stats with sitemaps := owner.stats.sitemaps + 1 } }
    | .page page parsed =>
      let owner := { owner with stats := { owner.stats with fetched := owner.stats.fetched + 1 } }
      let document : Document :=
        { url := page.finalUrl, title := parsed.title, body := parsed.text,
          fetchedAt := nowMs / 1000, contentHash := lib.contentHash parsed.text,
          outlinks := parsed.links }
      match faults.archive with
      | some e => (.error e, owner)
      | none =>
        let owner := { owner with
          pages := owner.pages ++ [(page, document)]
          stats := { owner.stats with indexed := owner.stats.indexed + 1 } }
        if job.depth < cli.maxDepth then
          schedule cli (job.depth + 1) faults.links 0 parsed.links owner
        else (.ok (), owner)

variable {lib} in
/-- Stores the rules a visit learned. -/
def cacheRules (faults : Faults) (owner : Owner lib) (nowMs : ℤ) (outcome : Outcome) :
    Except CrawlError (Owner lib) :=
  match outcome.rules with
  | none => .ok owner
  | some rules => do
    let ttl := outcome.rulesTtlMs.getD Robots.cacheTtlMs
    let db ← Robots.putFor lib.entry faults 0 owner.frontier.db outcome.host rules nowMs ttl
    .ok { owner with frontier := { owner.frontier with db } }

variable {lib} in
/-- Applies one finished visit: caches rules, defers the host, archives the page and
schedules any new links. -/
def absorb (faults : AbsorbFaults) (owner : Owner lib) (nowMs : ℤ) (outcome : Outcome) :
    Called lib :=
  match cacheRules faults.cache owner nowMs outcome with
  | .error e => (.error e, owner)
  | .ok owner =>
    -- deferred whether or not the fetch succeeded
    let delay := politenessDelayMs cli.politenessDelayMs outcome.crawlDelayS
    match owner.frontier.deferHost lib.codecs faults.postpone outcome.host
        (satAdd nowMs (toI64 delay)) nowMs with
    | .error e => (.error e, owner)
    | .ok frontier =>
      match schedule cli 0 faults.sitemaps 0 outcome.sitemaps { owner with frontier } with
      | (.error e, owner) => (.error e, owner)
      | (.ok (), owner) =>
        match outcome.result with
        | .ok visited => settle cli faults owner nowMs outcome.job visited
        | .error .disallowedByRobots =>
          (.ok (), { owner with stats :=
            { owner.stats with disallowed := owner.stats.disallowed + 1 } })
        | .error _ =>
          (.ok (), { owner with stats := { owner.stats with failed := owner.stats.failed + 1 } })

/-- Turns a seed into a canonical, fetchable URL. -/
def normalizeSeed (seed : Str) : Except CrawlError Str :=
  match lib.urls.parse seed with
  | none => .error (.invalidUrl seed "not an absolute URL".toList)
  | some parsed =>
    if !isHttp lib.urls parsed then
      .error (.invalidUrl seed "only http and https can be crawled".toList)
    else
      match canonicalUrl lib.urls lib.forms seed with
      | none => .error (.invalidUrl seed "not a fetchable absolute URL".toList)
      | some url => .ok url

variable {lib} in
/-- Queues a seed; a bad one is skipped. -/
def queueSeed (faults : Faults) (owner : Owner lib) (seed : Str) : Called lib :=
  match normalizeSeed lib seed with
  | .error _ => (.ok (), owner)
  | .ok url => enqueue faults owner { url, depth := 0 }

/-! ### The loop -/

/-- Where the owner stands in the loop. -/
inductive Phase
  | seeding (rest : List Str)
  | absorbing
  | deciding
  | dispatching
  | waiting
  | closing
  deriving DecidableEq, Repr

/-- A running crawler. -/
structure Process where
  owner : Owner lib
  visits : List Visit
  channel : List Outcome
  inFlight : Str → ℕ
  inFlightTotal : ℕ
  shuttingDown : Bool
  phase : Phase

/-- The data directory, the clock, and the crawler while there is one.  `db` is the
database as the last process left it. -/
structure System where
  db : CrawlDb
  bloom : Option lib.seen.Filter
  clock : ℤ
  process : Option (Process lib)

/-- What the clock, the network, the database and the operator do. -/
inductive Choice
  | start (faults : Faults) (archive reads : Bool)
  | seed (faults : Faults)
  | go
  | receive (nowMs : ℤ) (faults : AbsorbFaults)
  | dispatch (nowMs : ℤ) (pop get : Faults)
  | check (visit : ℕ) (answer : Answer)
  | fetch (visit : ℕ) (answer : Answer)
  | send (visit : ℕ)
  | interrupt
  | close (saves : Bool)
  | kill

/-- What a reader of the log learns. -/
inductive Event
  | started
  | dispatched (nowMs : ℤ) (visit : Visit)
  | asked (visit : Visit) (url : Str) (answer : Answer)
  | absorbed (nowMs : ℤ) (outcome : Outcome)
  | quiet

variable {lib}

/-- The hosts that have as many requests in flight as allowed. -/
def saturated (p : Process lib) (host : Str) : Bool :=
  p.inFlight host ≠ 0 ∧ cli.perHostConcurrency ≤ p.inFlight host

/-- Updates the in-flight accounting for a dispatched visit. -/
def Process.spawn (p : Process lib) (visit : Visit) : Process lib :=
  { p with
    visits := p.visits ++ [visit]
    inFlight := Function.update p.inFlight visit.host (p.inFlight visit.host + 1)
    inFlightTotal := p.inFlightTotal + 1 }

/-- Updates the in-flight accounting for a completed visit. -/
def Process.bookkeep (p : Process lib) (outcome : Outcome) : Process lib :=
  { p with
    inFlight := Function.update p.inFlight outcome.host (p.inFlight outcome.host - 1)
    inFlightTotal := p.inFlightTotal - 1 }

namespace System

/-- The process is gone; what it wrote to the database stays. -/
def halt (s : System lib) (owner : Owner lib) : System lib :=
  { s with db := owner.frontier.db, process := none }

def resume (s : System lib) (p : Process lib) : System lib := { s with process := some p }

/-- The run goes on, or ends with the error. -/
def proceed (s : System lib) (p : Process lib) : Called lib → System lib
  | (.ok (), owner) => s.resume { p with owner }
  | (.error _, owner) => s.halt owner

def tick (s : System lib) (nowMs : ℤ) : System lib := { s with clock := nowMs }

end System

/-- A new process. -/
def begin (s : System lib) (frontier : Frontier) (reads : Bool) : Process lib :=
  { owner :=
      { frontier
        seen := if reads then s.bloom.getD lib.seen.fresh else lib.seen.fresh
        pages := []
        stats := {} }
    visits := [], channel := [], inFlight := fun _ => 0, inFlightTotal := 0,
    shuttingDown := false, phase := .seeding cli.seeds }

/-- Starts the crawler: the frontier is opened and reconciled first. -/
def start (s : System lib) (faults : Faults) (archive reads : Bool) :
    Option (Event × System lib) :=
  match s.process with
  | some _ => none
  | none =>
    match Frontier.open faults s.db with
    | (.error _, db) => some (.quiet, { s with db })
    | (.ok frontier, db) =>
      if archive then some (.started, s.resume (begin cli s frontier reads))
      else some (.quiet, { s with db })

/-- The next stretch of the loop that only moves it on. -/
def go (s : System lib) (p : Process lib) : Option (Event × System lib) :=
  match p.phase with
  | .seeding [] => some (.quiet, s.resume { p with phase := .absorbing })
  | .absorbing =>
    if p.channel.isEmpty then some (.quiet, s.resume { p with phase := .deciding }) else none
  | .deciding =>
    let budget : Bool := 0 < cli.maxPages ∧ cli.maxPages ≤ p.owner.stats.indexed
    let p := { p with shuttingDown := p.shuttingDown || budget }
    some (.quiet, s.resume
      { p with phase := if p.shuttingDown ∧ p.inFlightTotal = 0 then .closing else .dispatching })
  | .dispatching =>
    if p.shuttingDown ∨ cli.workers ≤ p.inFlightTotal then
      some (.quiet, s.resume { p with phase := .waiting })
    else none
  | .waiting =>
    -- a tick, a timeout, or a frontier that is drained
    if p.inFlightTotal = 0 ∧ p.shuttingDown = false ∧ p.owner.frontier.pending = 0 then
      some (.quiet, s.resume { p with phase := .closing })
    else some (.quiet, s.resume { p with phase := .absorbing })
  | _ => none

/-- Absorbs the outcome at the head of the channel. -/
def receive (s : System lib) (p : Process lib) (nowMs : ℤ) (faults : AbsorbFaults) :
    Option (Event × System lib) :=
  if IsI64 nowMs ∧ (p.phase = .absorbing ∨
      (p.phase = .waiting ∧ ¬ (p.inFlightTotal = 0 ∧ p.shuttingDown = false))) then
    match p.channel with
    | [] => none
    | outcome :: channel =>
      let p := { p.bookkeep outcome with channel, phase := .absorbing }
      some (.absorbed nowMs outcome,
        (s.tick nowMs).proceed p (absorb cli faults p.owner nowMs outcome))
  else none

/-- Hands out one job, and spawns its visit. -/
def dispatch (s : System lib) (p : Process lib) (nowMs : ℤ) (pop get : Faults) :
    Option (Event × System lib) :=
  if IsI64 nowMs ∧ p.phase = .dispatching ∧ p.shuttingDown = false ∧
      p.inFlightTotal < cli.workers then
    let s := s.tick nowMs
    match p.owner.frontier.popReady lib.codecs pop nowMs 128 (saturated cli p) with
    | none => none
    | some (.error _, frontier) => some (.quiet, s.halt { p.owner with frontier })
    | some (.ok none, frontier) =>
      some (.quiet, s.resume { p with owner := { p.owner with frontier }, phase := .waiting })
    | some (.ok (some job), frontier) =>
      let p := { p with owner := { p.owner with frontier } }
      match lib.urls.hostOf job.url with
      | none => some (.quiet, s.resume p)
      | some host =>
        match Robots.get lib.entry get 0 frontier.db host nowMs with
        | .error _ => some (.quiet, s.halt p.owner)
        | .ok cachedRules =>
          let visit : Visit :=
            { job, host, cachedRules, crawlDelayS := cachedRules.bind RobotsRules.crawlDelayS,
              stage := .asking }
          some (.dispatched nowMs visit, s.resume (p.spawn visit))
  else none

/-- The visit at a place in the pool goes on to its next stage. -/
def moveVisit (p : Process lib) (i : ℕ) (visit : Visit) (stage : Stage) : Process lib :=
  { p with visits := p.visits.set i { visit with stage } }

/-- One step of the program. -/
def step (s : System lib) (choice : Choice) : Option (Event × System lib) :=
  match choice, s.process with
  | .start faults archive reads, _ => start cli s faults archive reads
  | _, none => none
  | .kill, some p => some (.quiet, s.halt p.owner)
  | .seed faults, some p =>
    match p.phase with
    | .seeding (seed :: rest) =>
      let p := { p with phase := .seeding rest }
      some (.quiet, s.proceed p (queueSeed faults p.owner seed))
    | _ => none
  | .go, some p => go cli s p
  | .receive nowMs faults, some p => receive cli s p nowMs faults
  | .dispatch nowMs pop get, some p => dispatch cli s p nowMs pop get
  | .check i answer, some p =>
    match p.visits[i]? with
    | none => none
    | some visit =>
      match visit.stage with
      | .asking =>
        let learned := learn lib cli visit answer
        let event := match robotsWanted lib visit with
          | some url => .asked visit url answer
          | none => .quiet
        some (event, s.resume (moveVisit p i visit (check lib visit learned)))
      | _ => none
  | .fetch i answer, some p =>
    match p.visits[i]? with
    | none => none
    | some visit =>
      match visit.stage with
      | .fetching learned =>
        let outcome := report visit learned (visited lib answer)
        some (.quiet, s.resume (moveVisit p i visit (.done outcome)))
      | _ => none
  | .send i, some p =>
    match p.visits[i]? with
    | none => none
    | some visit =>
      match visit.stage with
      | .done outcome =>
        some (.quiet, s.resume
          { p with visits := p.visits.eraseIdx i, channel := p.channel ++ [outcome] })
      | _ => none
  | .interrupt, some p =>
    if p.phase = .waiting ∧ p.shuttingDown = false ∧
        ¬ (p.inFlightTotal = 0 ∧ p.owner.frontier.pending = 0) then
      some (.quiet, s.resume { p with shuttingDown := true, phase := .absorbing })
    else none
  | .close saves, some p =>
    if p.phase = .closing then
      some (.quiet, { s.halt p.owner with bloom := if saves then some p.owner.seen else s.bloom })
    else none

/-- A step, for some choice. -/
def Step (s : System lib) (e : Event) (t : System lib) : Prop :=
  ∃ choice, step cli s choice = some (e, t)

/-- A data directory in which nothing was ever written. -/
def fresh : System lib :=
  { db := CrawlDb.empty, bloom := none, clock := 0, process := none }

/-- Executes choices; one that is not possible is passed over. -/
def exec (s : System lib) : List Choice → List Event × System lib
  | [] => ([], s)
  | choice :: choices =>
    match step cli s choice with
    | none => exec s choices
    | some (e, t) => ((e :: (exec t choices).1), (exec t choices).2)

theorem exec_run (s : System lib) (choices : List Choice) :
    Run (Step cli) s (exec cli s choices).1 (exec cli s choices).2 := by
  induction choices generalizing s with
  | nil => exact Run.refl
  | cons choice choices ih =>
    rw [exec]
    split
    · exact ih s
    · rename_i e t hstep
      exact Run.cons ⟨choice, hstep⟩ (ih t)

/-! ### The crawler on plain URLs -/

/-- Libraries that know URLs of the plainest form, real byte formats, and pages without
links. -/
def plainLibraries : Libraries where
  urls := plainUrls
  forms := { parse := fun query => [(query, [])], serialize := fun pairs => pairs.flatMap Prod.fst }
  codecs := Postcard.frontierCodecs
  entry := Postcard.entryFormat.toCodec
  seen := { Filter := List Str, fresh := [], contains := fun seen url => seen.contains url,
            insert := fun seen url => url :: seen }
  parsePage _ base := .ok { title := base, text := [], links := [] }
  parseSitemap _ := []
  contentHash _ := 0

/-- A page without content. -/
def blankPage (url : Str) : FetchedPage :=
  { finalUrl := url, status := 200, contentType := none, body := [] }

/-- A crawl of the seeds without a limit. -/
def plainCli (seeds : List Str) (perHostConcurrency : ℕ) : Cli :=
  { seeds, maxDepth := 3, workers := 32, perHostConcurrency, politenessDelayMs := 1000,
    maxPages := 0, userAgent := "MJLsearchBot".toList, stayOnSite := false, allowHost := [],
    dropOffsiteRedirects := false }

/-- No call fails while an outcome is absorbed. -/
def noAbsorbFaults : AbsorbFaults :=
  { cache := CrawlDb.noFaults, postpone := CrawlDb.noFaults, sitemaps := fun _ => CrawlDb.noFaults,
    links := fun _ => CrawlDb.noFaults, archive := none }

/-- The process starts, and queues its seeds. -/
def startAndSeed (seeds : ℕ) : List Choice :=
  .start CrawlDb.noFaults true true :: List.replicate seeds (.seed CrawlDb.noFaults) ++
    [.go, .go, .go]

/-- One job is handed out; then none is. -/
def dispatchOne (nowMs : ℤ) : List Choice :=
  [.dispatch nowMs CrawlDb.noFaults CrawlDb.noFaults,
    .dispatch nowMs CrawlDb.noFaults CrawlDb.noFaults]

/-- The first visit is over, and its outcome is absorbed. -/
def absorbOne (nowMs : ℤ) : List Choice := [.send 0, .receive nowMs noAbsorbFaults, .go, .go]

/-- The server fails. -/
def unavailable : Answer := .error ⟨.httpStatus 503, by decide⟩

/-- A robots.txt. -/
def robotsPage (body : Str) : Answer := .ok { blankPage [] with body }

/-- The jobs handed out, with the time and the host. -/
def dispatches (es : List Event) : List (ℤ × Str × CrawlJob) :=
  es.filterMap fun
    | .dispatched nowMs visit => some (nowMs, visit.host, visit.job)
    | _ => none

/-- The outcomes absorbed, with the time, the host and its `Crawl-delay`. -/
def absorbs (es : List Event) : List (ℤ × Str × Option ℕ) :=
  es.filterMap fun
    | .absorbed nowMs outcome => some (nowMs, outcome.host, outcome.crawlDelayS)
    | _ => none

/-- The robots.txt URLs asked for. -/
def askedUrls (es : List Event) : List Str :=
  es.filterMap fun
    | .asked _ url _ => some url
    | _ => none

/-- The robots.txt URLs a file was received from. -/
def receivedUrls (es : List Event) : List Str :=
  es.filterMap fun
    | .asked _ url (.ok _) => some url
    | _ => none

/-- The jobs finished as disallowed. -/
def disallowedJobs (es : List Event) : List CrawlJob :=
  es.filterMap fun
    | .absorbed _ outcome =>
      match outcome.result with
      | .error .disallowedByRobots => some outcome.job
      | _ => none
    | _ => none

/-- The URLs being fetched. -/
def fetchingUrls (s : System lib) : List Str :=
  match s.process with
  | none => []
  | some p =>
    p.visits.filterMap fun visit =>
      match visit.stage with
      | .fetching _ => some visit.job.url
      | _ => none

end Crawler
