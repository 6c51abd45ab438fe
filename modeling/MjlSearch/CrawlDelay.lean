/-
When a `Crawl-delay` is a floor.

The delay goes through a saturating product, a cast to `i64` and a saturating sum
before a pop compares it with the clock.

* `absorb_nextAllowed` — absorbing an outcome sets its host's time, and no other's;
* `popReady_finds` — without faults, a pop that can find a job does;
* `crawlDelay_floor_iff` — the delay is kept, whatever the clock says later, exactly
  when the time it ends at is one an `i64` can hold;
* `crawlDelay_wraps` — a delay of 10^16 seconds lets the host be contacted at once.
-/
import MjlSearch.CrawlRuns
import MjlSearch.ReadyHosts

open Text Machine Policy Runs FrontierQueue CrawlDb Frontier

namespace Crawler

variable {lib : Libraries} {cli : Cli}

/-! ### The host's time -/

theorem Pushes.wf (hplain : ∀ url host, lib.urls.hostOf url = some host → PlainHost host)
    {F F' : Frontier} (h : Pushes lib F F') (hF : Wf lib.urls lib.codecs F) :
    Wf lib.urls lib.codecs F' := by
  induction h with
  | refl => exact hF
  | push _ _ hpush ih => exact (push_wf hplain ih hpush).1

theorem Pushes.nextAllowed {F F' : Frontier} (h : Pushes lib F F') (host : Str) :
    nextAllowedAtMs lib.codecs F' host = nextAllowedAtMs lib.codecs F host := by
  induction h with
  | refl => rfl
  | push _ _ hpush ih => rw [(push_frame hpush).2, ih]

theorem Cached.frame {F F₁ : Frontier} {nowMs : ℤ} {outcome : Outcome}
    (h : Cached lib nowMs outcome F F₁) :
    F₁.db.pending = F.db.pending ∧ F₁.db.hosts = F.db.hosts ∧ F₁.sequence = F.sequence ∧
      F₁.db.readCounter metaFrontierSeq = F.db.readCounter metaFrontierSeq := by
  rw [Cached] at h
  split at h
  · rw [h]
    exact ⟨rfl, rfl, rfl, rfl⟩
  · obtain ⟨bytes, _, rfl⟩ := h
    exact ⟨rfl, rfl, rfl, rfl⟩

/-- **Absorbing an outcome sets its host's time**, and no other host's. -/
theorem absorb_nextAllowed {faults : AbsorbFaults} {owner owner' : Owner lib} {nowMs : ℤ}
    {outcome : Outcome} (h : absorb cli faults owner nowMs outcome = (.ok (), owner')) (host : Str) :
    nextAllowedAtMs lib.codecs owner'.frontier host =
      if host = outcome.host then nextContactMs cli nowMs outcome.crawlDelayS
      else nextAllowedAtMs lib.codecs owner.frontier host := by
  obtain ⟨F₁, F₂, hcached, hdefer, hpushes⟩ := absorb_ok h
  rw [hpushes.nextAllowed, deferHost_nextAllowed hdefer, nextAllowedAtMs, nextAllowedAtMs,
    hcached.frame.2.1]

theorem absorb_wf (hplain : ∀ url host, lib.urls.hostOf url = some host → PlainHost host)
    {faults : AbsorbFaults} {owner owner' : Owner lib} {nowMs : ℤ} {outcome : Outcome}
    (hF : Wf lib.urls lib.codecs owner.frontier)
    (h : absorb cli faults owner nowMs outcome = (.ok (), owner')) :
    Wf lib.urls lib.codecs owner'.frontier := by
  obtain ⟨F₁, F₂, hcached, hdefer, hpushes⟩ := absorb_ok h
  obtain ⟨hpending, _, hsequence, hpersisted⟩ := hcached.frame
  refine hpushes.wf hplain ?_
  obtain ⟨value, _, rfl⟩ := deferHost_ok hdefer
  exact hF.of_subset (fun e he => by rwa [hpending] at he) hsequence hpersisted

/-- Nothing saturates while the time the longer of the two delays ends at fits. -/
theorem nextContactMs_of_le {nowMs : ℤ} {crawlDelayS : Option ℕ} (hnow : 0 ≤ nowMs)
    (hfits : nowMs + max cli.politenessDelayMs (1000 * crawlDelayS.getD 0) ≤ i64Max) :
    nextContactMs cli nowMs crawlDelayS
      = nowMs + max cli.politenessDelayMs (1000 * crawlDelayS.getD 0) := by
  have hdelay : politenessDelayMs cli.politenessDelayMs crawlDelayS
      = max cli.politenessDelayMs (1000 * crawlDelayS.getD 0) := by
    cases crawlDelayS with
    | none => simp [politenessDelayMs]
    | some seconds =>
      simp only [i64Max, Option.getD_some] at hfits
      simp only [politenessDelayMs, Option.getD_some]
      omega
  rw [nextContactMs, hdelay]
  exact satAdd_toI64 hnow hfits

theorem nextContactMs_some {nowMs : ℤ} {seconds : ℕ} (hnow : 0 ≤ nowMs)
    (hfits : nowMs + max cli.politenessDelayMs (1000 * seconds) ≤ i64Max) :
    nextContactMs cli nowMs (some seconds)
      = nowMs + max cli.politenessDelayMs (1000 * seconds) := by
  have h := @nextContactMs_of_le cli nowMs (some seconds) hnow
  rw [Option.getD_some] at h
  exact h hfits

/-- Where it does not, the host is allowed at some time that a delay forbids. -/
theorem exists_early {nowMs : ℤ} {seconds : ℕ} (hnow : 0 ≤ nowMs) (hmax : nowMs ≤ i64Max)
    (hdefault : cli.politenessDelayMs < 2 ^ 64)
    (hlong : i64Max < nowMs + max cli.politenessDelayMs (1000 * seconds)) :
    ∃ atMs, IsI64 atMs ∧ nowMs ≤ atMs ∧ nextContactMs cli nowMs (some seconds) ≤ atMs ∧
      atMs < nowMs + max cli.politenessDelayMs (1000 * seconds) := by
  have hdelay : politenessDelayMs cli.politenessDelayMs (some seconds)
      = max (min (seconds * 1000) (2 ^ 64 - 1)) cli.politenessDelayMs := rfl
  generalize hd : politenessDelayMs cli.politenessDelayMs (some seconds) = delay at hdelay
  rw [nextContactMs, hd]
  simp only [IsI64, i64Min, i64Max] at *
  by_cases hwraps : delay < 2 ^ 63
  · -- the sum is cut off at the greatest `i64`
    refine ⟨2 ^ 63 - 1, ⟨by omega, by omega⟩, hmax, (clamp_isI64 _).2, by omega⟩
  · -- the cast is negative, and the host is allowed at once
    have hnext : satAdd nowMs (toI64 delay) = nowMs + (delay - 2 ^ 64) := by
      rw [toI64_of_ge (by omega), satAdd, clamp_of_isI64]
      exact ⟨by simp only [i64Min]; omega, by simp only [i64Max]; omega⟩
    exact ⟨nowMs, ⟨by omega, hmax⟩, Int.le_refl _, by omega, by omega⟩

/-! ### A pop that can find a job does -/

variable {urls : UrlCrate} {codecs : FrontierCodecs}

/-- Every pending host's state, if there is one, can be read. -/
def Readable (codecs : FrontierCodecs) (F : Frontier) : Prop :=
  ∀ host ∈ pendingHosts F, ∀ bytes, F.db.hosts.get (utf8 host) = some bytes →
    codecs.hostState.decode bytes ≠ none

theorem Readable.decodable {F : Frontier} (hreadable : Readable codecs F)
    (hF : Wf urls codecs F) : ReadyHosts.Decodable codecs F.db := by
  intro e he bytes hbytes
  obtain ⟨host, job, hp⟩ := hF.entries e he
  have hkey := hp.keyHost
  rw [hbytes, Option.some.injEq] at hkey
  subst hkey
  obtain ⟨_, _, _, _, _, hdecode⟩ := hp
  refine ⟨by rw [hdecode]; rfl, fun state hstate => ?_⟩
  rw [fromUtf8Lossy_utf8] at hstate
  have hpending : host ∈ pendingHosts F := (mem_pendingHosts hF).mpr ⟨e, he, hbytes⟩
  exact Option.isSome_iff_ne_none.mpr (hreadable host hpending state hstate)

/-- **Without faults, a pop that can find a job does.** -/
theorem popReady_finds {F : Frontier} (hF : Wf urls codecs F) (hreadable : Readable codecs F)
    {nowMs : ℤ} {maxHostsPerCall : ℕ} {skip : Str → Bool} {host : Str}
    (hhost : host ∈ (pendingHosts F).take maxHostsPerCall) (hready : Ready codecs F nowMs skip host) :
    ∃ job F', popReady codecs noFaults F nowMs maxHostsPerCall skip = some (.ok (some job), F') ∧
      ∃ host' ∈ pendingHosts F, urls.hostOf job.url = some host' := by
  obtain ⟨found, F', hpop⟩ : ∃ found F',
      popReady codecs noFaults F nowMs maxHostsPerCall skip = some (.ok found, F') :=
    ReadyHosts.popReady_ok (hreadable.decodable hF) maxHostsPerCall
  rcases popReady_spec hF hpop with ⟨rfl, _, hnone⟩ | ⟨host', e, job, rfl, htook⟩
  · exact absurd hready (hnone host hhost)
  · exact ⟨job, F', hpop, host', (mem_pendingHosts hF).mpr ⟨e, htook.mem, htook.keyHost⟩,
      (took_queue hF htook).2.1⟩

/-! ### When the delay is kept -/

/-- From a frontier that has just deferred the host, no pop at a time the two delays
forbid returns a job of it, and no smaller `Crawl-delay` would have ended later. -/
def CrawlDelayIsFloor (nowMs : ℤ) (defaultMs seconds : ℕ) : Prop :=
  (∀ (lib : Libraries) (cli : Cli) (faults : AbsorbFaults) (owner owner' : Owner lib)
      (outcome : Outcome),
    (∀ url host, lib.urls.hostOf url = some host → PlainHost host) →
    Wf lib.urls lib.codecs owner.frontier → cli.politenessDelayMs = defaultMs →
    outcome.crawlDelayS = some seconds →
    absorb cli faults owner nowMs outcome = (.ok (), owner') →
    ∀ atMs, IsI64 atMs →
      (nowMs ≤ atMs ∧ atMs < nowMs + defaultMs) ∨ atMs < nowMs + 1000 * seconds →
      ∀ pop maxHostsPerCall skip job F',
        popReady lib.codecs pop owner'.frontier atMs maxHostsPerCall skip
          = some (.ok (some job), F') → lib.urls.hostOf job.url ≠ some outcome.host) ∧
  ∀ cli : Cli, cli.politenessDelayMs = defaultMs → ∀ fewer ≤ seconds,
    nextContactMs cli nowMs (some fewer) ≤ nextContactMs cli nowMs (some seconds)

/-- A pop returns no job of a host before the host's time. -/
theorem popReady_host_allowed {F F' : Frontier} (hF : Wf urls codecs F) {faults : Faults}
    {nowMs : ℤ} {maxHostsPerCall : ℕ} {skip : Str → Bool} {job : CrawlJob} {host : Str}
    (hhost : urls.hostOf job.url = some host)
    (h : popReady codecs faults F nowMs maxHostsPerCall skip = some (.ok (some job), F')) :
    nextAllowedAtMs codecs F host ≤ nowMs := by
  rcases popReady_spec hF h with ⟨hc, _⟩ | ⟨host', e, job', hjob, htook⟩
  · cases hc
  · cases hjob
    have hsame := (took_queue hF htook).2.1
    rw [hhost] at hsame
    cases hsame
    exact htook.ready.2

/-- What a visit of the host reports that learned of the delay and failed. -/
def failedVisit (seconds : ℕ) : Outcome :=
  { host := "b.c".toList, job := homeJob, rules := none, rulesTtlMs := none,
    crawlDelayS := some seconds, sitemaps := [], result := .error .backend }

/-- The owner, with another URL of the host still to be visited. -/
def waitingOwner : Owner plainLibraries :=
  { frontier := pushedOnto newFrontier pageJob, seen := [], pages := [], stats := {} }

theorem waitingOwner_wf : Wf plainUrls Postcard.frontierCodecs waitingOwner.frontier :=
  (push_wf (fun _ _ => plainUrls_plainHost) newFrontier_fresh.wf.1
    (Prod.ext (by decide) rfl : Frontier.push plainUrls Postcard.frontierCodecs noFaults
      newFrontier pageJob = (.ok (), waitingOwner.frontier))).1

theorem waitingOwner_hosts : pendingHosts waitingOwner.frontier = ["b.c".toList] := by decide

/-- The times of an `i64` can be stored. -/
theorem hostState_encodes {next fetched : ℤ} (hnext : IsI64 next) (hfetched : IsI64 fetched) :
    ∃ bytes, Postcard.frontierCodecs.hostState.encode
      { nextAllowedAtMs := next, lastFetchedAtMs := fetched } = some bytes := by
  have hfits : ∀ {z : ℤ}, IsI64 z → Postcard.signed.fits z = true := by
    intro z hz
    show decide (Postcard.zigzag z < 2 ^ 64) = true
    simp only [IsI64, i64Min, i64Max] at hz
    rw [decide_eq_true_iff, Postcard.zigzag]
    split <;> omega
  refine ⟨_, if_pos ?_⟩
  show (Postcard.signed.fits next && Postcard.signed.fits fetched) = true
  rw [hfits hnext, hfits hfetched]
  rfl

/-- Without faults, a time that can be stored is. -/
theorem deferHost_noFaults {F : Frontier} {host : Str} {untilMs fetchedAtMs : ℤ} {bytes : Value}
    (h : codecs.hostState.encode { nextAllowedAtMs := untilMs, lastFetchedAtMs := fetchedAtMs }
      = some bytes) :
    deferHost codecs noFaults F host untilMs fetchedAtMs
      = .ok { F with db := { F.db with hosts := F.db.hosts.put (utf8 host) bytes } } := by
  rw [deferHost, setHostState, encode, h]
  rfl

/-- Absorbing the failed visit defers the host, and does no more. -/
theorem absorb_failedVisit {nowMs : ℤ} {seconds : ℕ} {frontier : Frontier}
    (h : deferHost plainLibraries.codecs noFaults waitingOwner.frontier "b.c".toList
      (nextContactMs cli nowMs (some seconds)) nowMs = .ok frontier) :
    absorb cli noAbsorbFaults waitingOwner nowMs (failedVisit seconds)
      = (.ok (), { waitingOwner with frontier, stats := { failed := 1 } }) := by
  rw [nextContactMs] at h
  rw [absorb]
  simp only [failedVisit, cacheRules, noAbsorbFaults, h, schedule]
  rfl

/-- Where some delay ends beyond the greatest `i64`, a job of the host is returned
early. -/
theorem early_pop {nowMs : ℤ} {defaultMs seconds : ℕ} (hnow : 0 ≤ nowMs) (hmax : nowMs ≤ i64Max)
    (hdefault : defaultMs < 2 ^ 64) (hlong : i64Max < nowMs + max defaultMs (1000 * seconds)) :
    ¬ CrawlDelayIsFloor nowMs defaultMs seconds := by
  intro hfloor
  obtain ⟨cli, rfl⟩ : ∃ cli : Cli, cli.politenessDelayMs = defaultMs :=
    ⟨{ plainCli [] 1 with politenessDelayMs := defaultMs }, rfl⟩
  obtain ⟨atMs, h64, hfrom, hnext, huntil⟩ := exists_early hnow hmax hdefault hlong
  -- the owner absorbs the failed visit
  obtain ⟨bytes, hbytes⟩ : ∃ bytes, Postcard.frontierCodecs.hostState.encode
      { nextAllowedAtMs := nextContactMs cli nowMs (some seconds), lastFetchedAtMs := nowMs }
        = some bytes :=
    hostState_encodes (clamp_isI64 _) ⟨by simp only [i64Min]; omega, hmax⟩
  have habsorb := absorb_failedVisit (deferHost_noFaults hbytes)
  generalize howner : ({ waitingOwner with frontier := _, stats := _ } : Owner plainLibraries) = owner'
    at habsorb
  have hwf : Wf plainUrls Postcard.frontierCodecs owner'.frontier :=
    absorb_wf (fun _ _ => plainUrls_plainHost) waitingOwner_wf habsorb
  have hhosts : pendingHosts owner'.frontier = ["b.c".toList] := by
    rw [← waitingOwner_hosts, ← howner]
    rfl
  have hreadable : Readable Postcard.frontierCodecs owner'.frontier := by
    intro host hhost bytes' hget
    rw [hhosts] at hhost
    rw [List.mem_singleton.mp hhost, ← howner, Store.get_put_self] at hget
    cases hget
    rw [Postcard.frontierCodecs.hostState.decode_encode hbytes]
    simp
  have hready : Ready Postcard.frontierCodecs owner'.frontier atMs (fun _ => false)
      "b.c".toList := by
    refine ⟨rfl, ?_⟩
    have hallowed := absorb_nextAllowed habsorb "b.c".toList
    rw [show nextAllowedAtMs Postcard.frontierCodecs owner'.frontier "b.c".toList
      = nextContactMs cli nowMs (some seconds) from hallowed]
    exact hnext
  -- and a pop at the early time finds its other URL
  have hfirst : "b.c".toList ∈ (pendingHosts owner'.frontier).take 1 := by
    rw [hhosts]
    exact List.mem_singleton_self _
  obtain ⟨job, F', hpop, host', hhost', hof⟩ := popReady_finds hwf hreadable hfirst hready
  rw [hhosts] at hhost'
  rw [List.mem_singleton.mp hhost'] at hof
  refine hfloor.1 plainLibraries cli noAbsorbFaults waitingOwner owner' (failedVisit seconds)
    (fun _ _ => plainUrls_plainHost) waitingOwner_wf rfl rfl habsorb atMs h64 ?_ noFaults 1
    (fun _ => false) job F' hpop hof
  omega

/-- **A `Crawl-delay` is a floor exactly when the time the longer of the two delays
ends at is one an `i64` can hold.** -/
theorem crawlDelay_floor_iff (nowMs : ℤ) (defaultMs seconds : ℕ)
    (hnow : 0 ≤ nowMs) (hmax : nowMs ≤ i64Max) (hdefault : defaultMs < 2 ^ 64) :
    CrawlDelayIsFloor nowMs defaultMs seconds ↔
      nowMs + max defaultMs (1000 * seconds) ≤ i64Max := by
  refine ⟨fun hfloor => ?_, fun hfits => ⟨?_, ?_⟩⟩
  · by_contra hlong
    exact early_pop hnow hmax hdefault (Int.not_le.mp hlong) hfloor
  · rintro lib cli faults owner owner' outcome hplain hwf rfl houtcome habsorb atMs _ hforbidden
      pop maxHostsPerCall skip job F' hpop hof
    have hallowed := popReady_host_allowed (absorb_wf hplain hwf habsorb) hof hpop
    rw [absorb_nextAllowed habsorb, if_pos rfl, houtcome, nextContactMs_some hnow hfits]
      at hallowed
    omega
  · rintro cli rfl fewer hfewer
    have hfits' : nowMs + max cli.politenessDelayMs (1000 * fewer) ≤ i64Max := by omega
    rw [nextContactMs_some hnow hfits', nextContactMs_some hnow hfits]
    omega

/-- Ten seconds. -/
theorem crawlDelay_floor_iff_sample : CrawlDelayIsFloor 2000 1000 10 :=
  (crawlDelay_floor_iff 2000 1000 10 (by decide) (by decide) (by decide)).mpr (by decide)

/-- A delay of 10^16 seconds. -/
def longDelay : Str := "User-agent: *\nCrawl-delay: 10000000000000000\n".toList

/-- The first of two URLs of a host learns of the delay; the second is dispatched the
moment the first is absorbed. -/
def delayedTwice : List Choice :=
  startAndSeed 2 ++ dispatchOne 1000 ++ [.check 0 (robotsPage longDelay), .fetch 0 unavailable] ++
    absorbOne 2000 ++ dispatchOne 2000

/-- **The delay wraps around**: a host that asks for 10^16 seconds is contacted again
at once, a second before even the default delay allows. -/
theorem crawlDelay_wraps :
    (Robots.parse longDelay "MJLsearchBot".toList).crawlDelayS = some (10 ^ 16) ∧
    ∃ es, ∃ t : System plainLibraries,
      Run (Step (plainCli ["http://b.c/".toList, "http://b.c/x".toList] 1))
        (fresh : System plainLibraries) es t ∧
      absorbs es = [(2000, "b.c".toList, some (10 ^ 16))] ∧
      dispatches es = [(1000, "b.c".toList, homeJob),
        (2000, "b.c".toList, { pageJob with depth := 0 })] :=
  ⟨by decide +kernel, _, _, exec_run _ fresh delayedTwice, by decide +kernel, by decide +kernel⟩

end Crawler
