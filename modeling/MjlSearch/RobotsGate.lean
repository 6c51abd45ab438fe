/-
What the robots.txt gate guarantees, and what it does not.

* `fetch_was_allowed` — a URL is fetched only under rules that allow it, which were
  received from a robots.txt of its host: by the visit itself, at its own origin, or
  by an earlier visit of the host and not more than a day before the dispatch;
* `other_origin` — the cache is keyed by the host alone, so the second may be the
  robots.txt of another scheme or port;
* `disallowed_was_received` — as long as every robots.txt request is answered or
  fails with a 404, a URL is finished as disallowed only by a robots.txt its host
  sent;
* `unreachable_drops` — one that fails otherwise costs the URL that asked for it.
-/
import MjlSearch.CrawlRuns

open Text Machine Policy Runs FrontierQueue

namespace Crawler

variable {lib : Libraries} {cli : Cli} {es : List Happened} {t : System lib} {p : Process lib}

/-! ### Fetching -/

/-- The rules of an unreachable robots.txt allow no fetchable URL. -/
theorem received_of_allows (hlaws : UrlLaws lib.urls) {answer : Answer} {rules : RobotsRules}
    {ttlMs : ℤ} {url : Str} (hhttp : IsHttpUrl lib.urls url)
    (hallows : Robots.allows rules (lib.urls.requestPath url) = true)
    (h : (Answers cli answer rules ∧ ttlMs = Robots.cacheTtlMs) ∨
      (Unreachable answer ∧ rules = Robots.disallowAll ∧ ttlMs = Robots.unavailableTtlMs)) :
    Answers cli answer rules ∧ ttlMs = Robots.cacheTtlMs := by
  rcases h with h | ⟨_, rfl, _⟩
  · exact h
  · rw [Robots.disallowAll_allows (requestPath_slash hlaws.http hhttp)] at hallows
    cases hallows

/-- **A URL is fetched only under rules that allow it**, received by the visit itself
from its own origin's robots.txt, or by an earlier visit of its host within a day
before its dispatch. -/
theorem fetch_was_allowed (lib : Libraries) (hlaws : UrlLaws lib.urls)
    (es : List Happened) (t : System lib) (p : Process lib) (visit : Visit) (learned : Learned)
    (h : Run Happens (fresh : System lib) es t) (hp : t.process = some p)
    (hvisit : visit ∈ p.visits) (hstage : visit.stage = .fetching learned) :
    ∃ rules, learned.rules = some rules ∧
      Robots.allows rules (lib.urls.requestPath visit.job.url) = true ∧
      lib.urls.hostOf visit.job.url = some visit.host ∧
      ((∃ cli url answer, lib.urls.robotsUrl visit.job.url = some url ∧
          ⟨cli, .asked { visit with stage := .asking } url answer⟩ ∈ es ∧
          Answers cli answer rules) ∨
        ∃ before cli dispatchedAtMs after storing storedAtMs outcome,
          es = before ++ ⟨cli, .dispatched dispatchedAtMs { visit with stage := .asking }⟩ :: after ∧
          ⟨storing, .absorbed storedAtMs outcome⟩ ∈ before ∧ outcome.host = visit.host ∧
          outcome.rules = some rules ∧ dispatchedAtMs - storedAtMs ≤ Robots.cacheTtlMs ∧
          ∃ asker asking url answer, ⟨asker, .asked asking url answer⟩ ∈ before ∧
            lib.urls.hostOf asking.job.url = some visit.host ∧
            lib.urls.robotsUrl asking.job.url = some url ∧ Answers asker answer rules) := by
  have hok := ((run_good hlaws h).on p hp).visits visit hvisit
  obtain ⟨hlearned, hallowed⟩ := hok.fetching learned hstage
  obtain ⟨rules, hrules, horigin⟩ := hlearned.origin
  have hallows := hallowed rules hrules
  refine ⟨rules, hrules, hallows, hok.host, ?_⟩
  rcases horigin with ⟨url, ttlMs, _, _, cli, answer, hmem, hurl, hanswer⟩ |
    ⟨_, before, cli, dispatchedAtMs, after, hes, hstored⟩
  · obtain ⟨hreceived, _⟩ := received_of_allows hlaws hok.http hallows hanswer
    exact Or.inl ⟨cli, url, answer, hurl, hmem, hreceived⟩
  · obtain ⟨storing, storedAtMs, outcome, url, ttlMs, hmem, hhost, hcached, hfetched, hfresh⟩ :=
      hstored
    obtain ⟨asking, hasking, asker, answer, hasked, hurl, hanswer⟩ := hfetched
    obtain ⟨hreceived, rfl⟩ := received_of_allows hlaws hok.http hallows hanswer
    refine Or.inr ⟨before, cli, dispatchedAtMs, after, storing, storedAtMs, outcome, hes, hmem,
      hhost, hcached, (satSub_le_iff (by decide) (by decide)).mp hfresh, ?_⟩
    exact ⟨asker, { asking with stage := .asking }, url, answer, hasked, hasking, hurl, hreceived⟩

/-- One visit each to the `http` and the `https` origin of a host. -/
def twoOrigins : List Choice :=
  startAndSeed 2 ++ dispatchOne 1000 ++ [.check 0 (robotsPage []), .fetch 0 (.ok (blankPage []))] ++
    absorbOne 2000 ++ dispatchOne 4000 ++ [.check 0 unavailable]

def twoOriginsCli : Cli := plainCli ["http://b.c/".toList, "https://b.c/".toList] 1

/-- The URL of the second origin is fetched although only the first origin's
robots.txt was ever asked for. -/
theorem other_origin : ∃ es, ∃ t : System plainLibraries,
    Run (Step twoOriginsCli) (fresh : System plainLibraries) es t ∧
    fetchingUrls t = ["https://b.c/".toList] ∧
    plainUrls.robotsUrl "https://b.c/".toList = some "https://b.c/robots.txt".toList ∧
    askedUrls es = ["http://b.c/robots.txt".toList] :=
  ⟨_, _, exec_run twoOriginsCli fresh twoOrigins, by decide, by decide, by decide⟩

theorem exists_fetching {url : Str} (h : url ∈ fetchingUrls t) :
    ∃ p visit learned, t.process = some p ∧ visit ∈ p.visits ∧ visit.stage = .fetching learned ∧
      visit.job.url = url := by
  rw [fetchingUrls] at h
  split at h
  · cases h
  · rename_i p hp
    obtain ⟨visit, hvisit, hurl⟩ := List.mem_filterMap.mp h
    split at hurl
    · rename_i learned hstage
      cases hurl
      exact ⟨p, visit, learned, hp, hvisit, hstage, rfl⟩
    · cases hurl

/-- Two processes on one data directory, each with its own command line. -/
def execTwice (first second : Cli) (s : System lib) (choices choices' : List Choice) :
    List Happened × System lib :=
  let (es, t) := exec first s choices
  let (es', u) := exec second t choices'
  (es.map (.mk first) ++ es'.map (.mk second), u)

theorem execTwice_run (first second : Cli) (s : System lib) (choices choices' : List Choice) :
    Run Happens s (execTwice first second s choices choices').1
      (execTwice first second s choices choices').2 :=
  (happens_run (exec_run first s choices)).append (happens_run (exec_run second _ choices'))

/-- A command line with another name for the crawler. -/
def renamedCli (seed : Str) : Cli := { plainCli [seed] 1 with userAgent := "Renamed".toList }

/-- A host's rules are received and stored, and the process is killed. -/
def storedAndKilled (rules : Str) : List Choice :=
  startAndSeed 1 ++ dispatchOne 1000 ++
    [.check 0 (robotsPage rules), .fetch 0 (.ok (blankPage []))] ++ absorbOne 2000 ++ [.kill]

/-- The next process visits another URL of the host. -/
def visitedAgain : List Choice := startAndSeed 1 ++ dispatchOne 4000 ++ [.check 0 unavailable]

/-- The second process fetches under the rules that the first received. -/
theorem fetch_was_allowed_sample : ∃ es, ∃ t : System plainLibraries, ∃ p visit learned rules,
    Run Happens (fresh : System plainLibraries) es t ∧ t.process = some p ∧
    visit ∈ p.visits ∧ visit.stage = .fetching learned ∧ learned.rules = some rules ∧
    Robots.allows rules (plainUrls.requestPath "http://b.c/x".toList) = true ∧
    askedUrls (es.map Happened.event) = ["http://b.c/robots.txt".toList] := by
  have hrun := execTwice_run (plainCli ["http://b.c/".toList] 1)
    (renamedCli "http://b.c/x".toList) (fresh : System plainLibraries)
    (storedAndKilled "User-agent: *\nDisallow: /y\n".toList) visitedAgain
  generalize hexec : execTwice (plainCli ["http://b.c/".toList] 1)
    (renamedCli "http://b.c/x".toList) (fresh : System plainLibraries)
    (storedAndKilled "User-agent: *\nDisallow: /y\n".toList) visitedAgain = result at hrun
  have hfetching : "http://b.c/x".toList ∈ fetchingUrls result.2 := by
    rw [← hexec]
    decide +kernel
  have hasked : askedUrls (result.1.map Happened.event) = ["http://b.c/robots.txt".toList] := by
    rw [← hexec]
    decide +kernel
  obtain ⟨p, visit, learned, hp, hvisit, hstage, hurl⟩ := exists_fetching hfetching
  obtain ⟨rules, hrules, hallows, _⟩ := fetch_was_allowed plainLibraries plainUrls_laws
    _ _ p visit learned hrun hp hvisit hstage
  rw [hurl] at hallows
  exact ⟨_, _, p, visit, learned, rules, hrun, hp, hvisit, hstage, hrules, hallows, hasked⟩

/-! ### Disallowed URLs -/

/-- A robots.txt request is answered, or fails with a 404. -/
def RobotsReachable (e : Happened) : Prop :=
  ∀ visit url answer, e.event = .asked visit url answer → ¬ Unreachable answer

/-- A run on which every robots.txt request is. -/
abbrev ReachableRun (es : List Happened) (t : System lib) : Prop :=
  Run (fun s e u => Happens s e u ∧ RobotsReachable e) (fresh : System lib) es t

theorem ReachableRun.reachable (h : ReachableRun es t) : ∀ e ∈ es, RobotsReachable e := by
  intro e he
  obtain ⟨_, _, _, _, _, _, hstep, _⟩ := h.exists_step_of_mem he
  exact hstep.2

/-- On such a run, rules were received. -/
theorem Fetched.received {host url : Str} {rules : RobotsRules} {ttlMs : ℤ}
    (h : Fetched lib es host url rules ttlMs) (hes : ∀ e ∈ es, RobotsReachable e) :
    ∃ cli asking answer, ⟨cli, .asked asking url answer⟩ ∈ es ∧
      lib.urls.hostOf asking.job.url = some host ∧
      lib.urls.robotsUrl asking.job.url = some url ∧ Answers cli answer rules := by
  obtain ⟨asking, hhost, cli, answer, hmem, hurl, hanswer⟩ := h
  rcases hanswer with ⟨hreceived, _⟩ | ⟨hfailed, _⟩
  · exact ⟨cli, _, answer, hmem, hhost, hurl, hreceived⟩
  · exact absurd hfailed (hes _ hmem _ _ _ rfl)

/-- The rules for a host without a robots.txt allow every path. -/
theorem allowAll_allows (path : Str) : Robots.allows Robots.allowAll path = true := rfl

/-- **While every robots.txt request is answered or fails with a 404**, a job is
finished as disallowed only if a robots.txt of its host was received whose rules
disallow its path, and no job is handed out under rules that were not received. -/
theorem disallowed_was_received (lib : Libraries) (hlaws : UrlLaws lib.urls)
    (es : List Happened) (t : System lib) (p : Process lib) (h : ReachableRun es t)
    (hp : t.process = some p) :
    (∀ outcome ∈ p.channel, outcome.result = .error .disallowedByRobots →
      lib.urls.hostOf outcome.job.url = some outcome.host ∧
      ∃ cli asking url page, ⟨cli, .asked asking url (.ok page)⟩ ∈ es ∧
        lib.urls.hostOf asking.job.url = some outcome.host ∧
        lib.urls.robotsUrl asking.job.url = some url ∧
        Robots.allows (Robots.parse page.body cli.userAgent)
          (lib.urls.requestPath outcome.job.url) = false) ∧
    ∀ visit ∈ p.visits, ∀ rules, visit.cachedRules = some rules →
      ∃ cli asking url answer, ⟨cli, .asked asking url answer⟩ ∈ es ∧
        lib.urls.hostOf asking.job.url = some visit.host ∧
        lib.urls.robotsUrl asking.job.url = some url ∧ Answers cli answer rules := by
  have hgood := (run_good hlaws h.unrestrict).on p hp
  refine ⟨fun outcome houtcome hresult => ?_, fun visit hvisit rules hrules => ?_⟩
  · have hok := hgood.channel outcome houtcome
    obtain ⟨url, rules, ttlMs, hfetched, hforbids⟩ := hok.disallowed hresult
    obtain ⟨cli, asking, answer, hmem, hhost, hurl, hreceived⟩ := hfetched.received h.reachable
    refine ⟨hok.host, ?_⟩
    rcases hreceived with ⟨page, rfl, rfl⟩ | ⟨_, _, _, rfl⟩
    · exact ⟨cli, asking, url, page, hmem, hhost, hurl, hforbids⟩
    · rw [allowAll_allows] at hforbids
      cases hforbids
  · obtain ⟨before, _, _, after, rfl, _, _, _, url, _, _, _, _, hfetched, _⟩ :=
      (hgood.visits visit hvisit).cached rules hrules
    obtain ⟨asker, asking, answer, hrest⟩ := (hfetched.append _).received h.reachable
    exact ⟨asker, asking, url, answer, hrest⟩

/-- A visit whose robots.txt request fails otherwise finishes its URL as disallowed. -/
theorem unreachable_disallows (hlaws : UrlLaws lib.urls) {visit : Visit} {url : Str}
    {answer : Answer} (hhttp : IsHttpUrl lib.urls visit.job.url)
    (hwanted : robotsWanted lib visit = some url) (h : Unreachable answer) :
    ∃ outcome, check lib visit (learn lib cli visit answer) = .done outcome ∧
      outcome.result = .error .disallowedByRobots := by
  obtain ⟨failure, rfl, hnot⟩ := h
  have hforbids := Robots.disallowAll_allows (requestPath_slash hlaws.http hhttp)
  refine ⟨report visit (learn lib cli visit (.error failure)) (.error .disallowedByRobots), ?_, rfl⟩
  have hrules : (learn lib cli visit (.error failure)).rules = some Robots.disallowAll := by
    rw [learn, hwanted]
    simp [fetchRobots, hnot]
  rw [check, hrules]
  simp [hforbids]

/-- One URL, whose host's robots.txt is unavailable while it is visited; long after, the
frontier is asked again. -/
def unavailableOnce : List Choice :=
  startAndSeed 1 ++ dispatchOne 1000 ++ [.check 0 unavailable] ++ absorbOne 2000 ++
    dispatchOne 1000000 ++ [.go, .close true]

/-- The URL is finished as disallowed, although no robots.txt was ever received, and is
neither stored nor handed out again. -/
theorem unreachable_drops : ∃ es, ∃ t : System plainLibraries,
    Run (Step (plainCli ["http://b.c/".toList] 1)) (fresh : System plainLibraries) es t ∧
    disallowedJobs es = [homeJob] ∧ receivedUrls es = [] ∧
    dispatches es = [(1000, "b.c".toList, homeJob)] ∧
    t.clock = 1000000 ∧ t.db.pending.entries = [] :=
  ⟨_, _, exec_run _ fresh unavailableOnce, by decide, by decide, by decide, by decide, by decide⟩

/-- The outcomes waiting to be absorbed that find their URL disallowed. -/
def disallowedWaiting (s : System lib) : List Str :=
  match s.process with
  | none => []
  | some p =>
    p.channel.filterMap fun outcome =>
      match outcome.result with
      | .error .disallowedByRobots => some outcome.host
      | _ => none

theorem exists_disallowed {host : Str} (h : host ∈ disallowedWaiting t) :
    ∃ p outcome, t.process = some p ∧ outcome ∈ p.channel ∧
      outcome.result = .error .disallowedByRobots ∧ outcome.host = host := by
  rw [disallowedWaiting] at h
  split at h
  · cases h
  · rename_i p hp
    obtain ⟨outcome, houtcome, hhost⟩ := List.mem_filterMap.mp h
    split at hhost
    · rename_i hresult
      cases hhost
      exact ⟨p, outcome, hp, houtcome, hresult, rfl⟩
    · cases hhost

/-- Whether an event is no failed robots.txt request. -/
def isReachable : Event → Bool
  | .asked _ _ (.error failure) => failure.val = .httpStatus 404
  | _ => true

theorem RobotsReachable.of_isReachable {e : Happened} (h : isReachable e.event = true) :
    RobotsReachable e := by
  rintro visit url answer he ⟨failure, rfl, hnot⟩
  rw [he] at h
  exact hnot (by simpa [isReachable] using h)

/-- The second process finds its URL disallowed by the rules that the first received. -/
theorem disallowed_was_received_sample : ∃ es, ∃ t : System plainLibraries,
    ReachableRun es t ∧ "b.c".toList ∈ disallowedWaiting t ∧
    ∃ cli asking url page, ⟨cli, .asked asking url (.ok page)⟩ ∈ es ∧
      plainUrls.hostOf asking.job.url = some "b.c".toList := by
  have hrun := execTwice_run (plainCli ["http://b.c/".toList] 1)
    (renamedCli "http://b.c/x".toList) (fresh : System plainLibraries)
    (storedAndKilled "User-agent: *\nDisallow: /x\n".toList) (visitedAgain ++ [.send 0])
  generalize hexec : execTwice (plainCli ["http://b.c/".toList] 1)
    (renamedCli "http://b.c/x".toList) (fresh : System plainLibraries)
    (storedAndKilled "User-agent: *\nDisallow: /x\n".toList) (visitedAgain ++ [.send 0])
    = result at hrun
  have hreachable : result.1.all (fun e => isReachable e.event) = true := by
    rw [← hexec]
    decide +kernel
  have hwaiting : "b.c".toList ∈ disallowedWaiting result.2 := by
    rw [← hexec]
    decide +kernel
  have hreached : ReachableRun result.1 result.2 := hrun.restrict fun e he =>
    RobotsReachable.of_isReachable (List.all_eq_true.mp hreachable e he)
  obtain ⟨p, outcome, hp, houtcome, hresult, hhost⟩ := exists_disallowed hwaiting
  obtain ⟨_, cli, asking, url, page, hmem, hasking, _⟩ := (disallowed_was_received plainLibraries
    plainUrls_laws _ _ p hreached hp).1 outcome houtcome hresult
  rw [hhost] at hasking
  exact ⟨_, _, hreached, hwaiting, cli, asking, url, page, hmem, hasking⟩

end Crawler
