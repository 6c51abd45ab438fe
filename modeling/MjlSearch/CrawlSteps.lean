/-
All a step of the crawler can do.

The owner's calls reach the database through three doors: rules are cached, a host
is deferred, and URLs are pushed.

* `schedule_leaves`, `queueSeed_leaves` — scheduling only pushes fetchable URLs, and
  where it fails the database is as some of the pushes left it;
* `absorb_ok`, `absorb_rule` — absorbing an outcome caches its rules, defers its
  host and pushes, in this order;
* `Turn`, `step_turn` — a step with its guards, one case for each way it can go;
* `Does`, `step_does` — what this does to the frontier, the visits and the channel.
-/
import MjlSearch.Crawler
import MjlSearch.FrontierFrame

open Text Machine Policy Runs FrontierQueue

namespace Crawler

variable {lib : Libraries} {cli : Cli}

/-! ### The owner's calls -/

/-- Successful pushes of fetchable URLs, one after the other. -/
inductive Pushes (lib : Libraries) (F : Frontier) : Frontier → Prop
  | refl : Pushes lib F F
  | push {G H : Frontier} {job : CrawlJob} {faults : Faults} (h : Pushes lib F G)
      (hurl : ∃ raw, canonicalUrl lib.urls lib.forms raw = some job.url)
      (hpush : Frontier.push lib.urls lib.codecs faults G job = (.ok (), H)) : Pushes lib F H

theorem Pushes.trans {F G H : Frontier} (h : Pushes lib F G) (h' : Pushes lib G H) :
    Pushes lib F H := by
  induction h' with
  | refl => exact h
  | push _ hurl hpush ih => exact ih.push hurl hpush

/-- What a call that may only push leaves: the frontier after some pushes, or after a
failure at least its database. -/
def Leaves (F : Frontier) (called : Called lib) : Prop :=
  ∃ G, Pushes lib F G ∧ called.2.frontier.db = G.db ∧ (called.1 = .ok () → called.2.frontier = G)

theorem Leaves.same {called : Called lib} {F : Frontier} (h : called.2.frontier = F) :
    Leaves F called :=
  ⟨F, Pushes.refl, by rw [h], fun _ => h⟩

theorem enqueue_leaves (faults : Faults) (owner : Owner lib) {job : CrawlJob}
    (hurl : ∃ raw, canonicalUrl lib.urls lib.forms raw = some job.url) :
    Leaves owner.frontier (enqueue faults owner job) := by
  rw [enqueue]
  split
  · exact Leaves.same rfl
  · split
    · rename_i e frontier hpush
      exact ⟨owner.frontier, Pushes.refl, push_error hpush, fun hc => by cases hc⟩
    · rename_i frontier hpush
      exact ⟨frontier, Pushes.refl.push hurl hpush, rfl, fun _ => rfl⟩

theorem schedule_leaves (depth : ℕ) (faults : ℕ → Faults) (turn : ℕ) (links : List Str)
    {owner : Owner lib} {F : Frontier} (hF : owner.frontier = F) :
    Leaves F (schedule cli depth faults turn links owner) := by
  induction links generalizing turn owner F with
  | nil => exact Leaves.same hF
  | cons raw links ih =>
    rw [schedule]
    split
    · exact ih _ hF
    · rename_i url hurl
      split
      · exact ih _ hF
      · split
        · exact ih _ hF
        · have hleaves : Leaves owner.frontier (enqueue (faults turn) owner { url, depth }) :=
            enqueue_leaves _ _ ⟨raw, hurl⟩
          rw [hF] at hleaves
          split
          · rename_i e owner' hcall
            rw [hcall] at hleaves
            exact hleaves
          · rename_i owner' hcall
            rw [hcall] at hleaves
            obtain ⟨G, hG, _, hsame⟩ := hleaves
            obtain ⟨H, hH, hdb, hok⟩ := ih (turn + 1) (hsame rfl)
            exact ⟨H, hG.trans hH, hdb, hok⟩

theorem settle_leaves (faults : AbsorbFaults) (owner : Owner lib) (nowMs : ℤ) (job : CrawlJob)
    (visited : Visited) : Leaves owner.frontier (settle cli faults owner nowMs job visited) := by
  unfold settle
  dsimp only
  -- counting a redirect touches the counters only
  generalize howner : (if ((scope lib cli).restricted &&
    !(scope lib cli).allows lib.urls visited.finalUrl) = true then
      { owner with stats :=
        { owner.stats with redirectedOffsite := owner.stats.redirectedOffsite + 1 } }
    else owner) = counted
  have hcounted : counted.frontier = owner.frontier := by
    rw [← howner]
    split <;> rfl
  rw [← hcounted]
  split
  · exact Leaves.same rfl
  · split
    · exact schedule_leaves _ _ _ _ rfl
    · split
      · exact Leaves.same rfl
      · split
        · exact schedule_leaves _ _ _ _ rfl
        · exact Leaves.same rfl

theorem queueSeed_leaves (faults : Faults) (owner : Owner lib) (seed : Str) :
    Leaves owner.frontier (queueSeed faults owner seed) := by
  rw [queueSeed]
  split
  · exact Leaves.same rfl
  · rename_i url hseed
    refine enqueue_leaves faults owner ⟨seed, ?_⟩
    rw [normalizeSeed] at hseed
    split at hseed
    · cases hseed
    · split at hseed
      · cases hseed
      · split at hseed
        · cases hseed
        · rename_i hcanonical
          cases hseed
          exact hcanonical

/-- The frontier once the rules of an outcome, if any, are cached. -/
def Cached (lib : Libraries) (nowMs : ℤ) (outcome : Outcome) (F F₁ : Frontier) : Prop :=
  match outcome.rules with
  | none => F₁ = F
  | some rules => ∃ bytes, lib.entry.encode
      { rules, fetchedAtMs := nowMs, ttlMs := outcome.rulesTtlMs.getD Robots.cacheTtlMs }
        = some bytes ∧
      F₁ = { F with db :=
        { F.db with robots := F.db.robots.put (utf8 outcome.host) bytes } }

theorem cacheRules_ok {faults : Faults} {owner owner₁ : Owner lib} {nowMs : ℤ}
    {outcome : Outcome} (h : cacheRules faults owner nowMs outcome = .ok owner₁) :
    Cached lib nowMs outcome owner.frontier owner₁.frontier := by
  rw [cacheRules] at h
  rw [Cached]
  cases hrules : outcome.rules with
  | none =>
    rw [hrules] at h
    cases h
    rfl
  | some rules =>
    rw [hrules] at h
    obtain ⟨db, hput, h⟩ := Frontier.bind_ok h
    cases h
    obtain ⟨bytes, hbytes, rfl⟩ := Robots.putFor_ok hput
    exact ⟨bytes, hbytes, rfl⟩

/-- The time a host may be contacted again once a visit is absorbed. -/
def nextContactMs (cli : Cli) (nowMs : ℤ) (crawlDelayS : Option ℕ) : ℤ :=
  satAdd nowMs (toI64 (politenessDelayMs cli.politenessDelayMs crawlDelayS))

/-- What absorbing an outcome does, as far as it gets. -/
theorem absorb_cases {faults : AbsorbFaults} {owner owner' : Owner lib} {nowMs : ℤ}
    {outcome : Outcome} {result : Except CrawlError Unit}
    (h : absorb cli faults owner nowMs outcome = (result, owner')) :
    (∃ e, result = .error e ∧ owner'.frontier = owner.frontier) ∨
    ∃ F₁, Cached lib nowMs outcome owner.frontier F₁ ∧
      ((∃ e, result = .error e ∧ owner'.frontier = F₁) ∨
        ∃ F₂, F₁.deferHost lib.codecs faults.postpone outcome.host
            (nextContactMs cli nowMs outcome.crawlDelayS) nowMs = .ok F₂ ∧
          Leaves F₂ (result, owner')) := by
  rw [absorb] at h
  split at h
  · rename_i e _
    cases h
    exact Or.inl ⟨e, rfl, rfl⟩
  · rename_i owner₁ hcache
    refine Or.inr ⟨owner₁.frontier, cacheRules_ok hcache, ?_⟩
    dsimp only at h
    split at h
    · rename_i e _
      cases h
      exact Or.inl ⟨e, rfl, rfl⟩
    · rename_i F₂ hdefer
      refine Or.inr ⟨F₂, hdefer, ?_⟩
      have hsitemaps : Leaves F₂ (schedule cli 0 faults.sitemaps 0 outcome.sitemaps
          { owner₁ with frontier := F₂ }) := schedule_leaves _ _ _ _ rfl
      split at h
      · rename_i e owner₃ hcall
        rw [hcall] at hsitemaps
        cases h
        exact hsitemaps
      · rename_i owner₃ hcall
        rw [hcall] at hsitemaps
        obtain ⟨G, hG, _, hsame⟩ := hsitemaps
        have hframe : owner₃.frontier = G := hsame rfl
        split at h
        · rename_i visited _
          have hsettle : Leaves owner₃.frontier
              (settle cli faults owner₃ nowMs outcome.job visited) := settle_leaves _ _ _ _ _
          rw [h, hframe] at hsettle
          obtain ⟨H, hH, hdb, hok⟩ := hsettle
          exact ⟨H, hG.trans hH, hdb, hok⟩
        · cases h
          exact ⟨G, hG, by rw [← hframe], fun _ => hframe⟩
        · cases h
          exact ⟨G, hG, by rw [← hframe], fun _ => hframe⟩

/-- **Absorbing an outcome** caches its rules, defers its host and pushes. -/
theorem absorb_ok {faults : AbsorbFaults} {owner owner' : Owner lib} {nowMs : ℤ}
    {outcome : Outcome} (h : absorb cli faults owner nowMs outcome = (.ok (), owner')) :
    ∃ F₁ F₂, Cached lib nowMs outcome owner.frontier F₁ ∧
      F₁.deferHost lib.codecs faults.postpone outcome.host
        (nextContactMs cli nowMs outcome.crawlDelayS) nowMs = .ok F₂ ∧
      Pushes lib F₂ owner'.frontier := by
  rcases absorb_cases h with ⟨e, hc, _⟩ | ⟨F₁, hcached, ⟨e, hc, _⟩ | ⟨F₂, hdefer, G, hG, _, hok⟩⟩
  · cases hc
  · cases hc
  · exact ⟨F₁, F₂, hcached, hdefer, by rw [show owner'.frontier = G from hok rfl]; exact hG⟩

/-- What caching the rules, deferring the host and pushing keep, absorbing keeps; where
it fails, the database is still that of a frontier that has it. -/
theorem absorb_rule {P : Frontier → Prop} {faults : AbsorbFaults} {owner owner' : Owner lib}
    {nowMs : ℤ} {outcome : Outcome} {result : Except CrawlError Unit}
    (hcache : ∀ F F₁, P F → Cached lib nowMs outcome F F₁ → P F₁)
    (hdefer : ∀ F F₁ faults untilMs fetchedAtMs, P F →
      Frontier.deferHost lib.codecs faults F outcome.host untilMs fetchedAtMs = .ok F₁ → P F₁)
    (hpush : ∀ F F₁, P F → Pushes lib F F₁ → P F₁) (h0 : P owner.frontier)
    (h : absorb cli faults owner nowMs outcome = (result, owner')) :
    ∃ G, P G ∧ owner'.frontier.db = G.db ∧ (result = .ok () → owner'.frontier = G) := by
  rcases absorb_cases h with
    ⟨e, rfl, hsame⟩ | ⟨F₁, hcached, ⟨e, rfl, hsame⟩ | ⟨F₂, hdeferred, G, hG, hdb, hok⟩⟩
  · exact ⟨owner.frontier, h0, by rw [hsame], fun _ => hsame⟩
  · exact ⟨F₁, hcache _ _ h0 hcached, by rw [hsame], fun _ => hsame⟩
  · exact ⟨G, hpush _ _ (hdefer _ _ _ _ _ (hcache _ _ h0 hcached) hdeferred) hG, hdb, hok⟩

/-! ### Steps -/

/-- How the loop moves on: the next phase, and whether it is shutting down. -/
inductive Moves (cli : Cli) (p : Process lib) : Phase → Bool → Prop
  | seeded (hphase : p.phase = .seeding []) : Moves cli p .absorbing p.shuttingDown
  | drained (hphase : p.phase = .absorbing) : Moves cli p .deciding p.shuttingDown
  | decided {shuttingDown : Bool} (hphase : p.phase = .deciding)
      (hbudget : shuttingDown = (p.shuttingDown ||
        decide (0 < cli.maxPages ∧ cli.maxPages ≤ p.owner.stats.indexed))) :
      Moves cli p (if shuttingDown ∧ p.inFlightTotal = 0 then .closing else .dispatching)
        shuttingDown
  | full (hphase : p.phase = .dispatching) : Moves cli p .waiting p.shuttingDown
  | finished (hphase : p.phase = .waiting) (hidle : p.inFlightTotal = 0) :
      Moves cli p .closing p.shuttingDown
  | waited (hphase : p.phase = .waiting) : Moves cli p .absorbing p.shuttingDown
  | interrupted (hphase : p.phase = .waiting) : Moves cli p .absorbing true

/-- A step, with what had to hold for it: one case for each way it can go. -/
inductive Turn (cli : Cli) (s : System lib) : Event → System lib → Prop
  | notStarted {faults : Faults} (hoff : s.process = none) :
      Turn cli s .quiet { s with db := (Frontier.open faults s.db).2 }
  | started {faults : Faults} {frontier : Frontier} {reads : Bool} (hoff : s.process = none)
      (hopen : (Frontier.open faults s.db).1 = .ok frontier) :
      Turn cli s .started (s.resume (begin cli s frontier reads))
  | killed {p : Process lib} (hon : s.process = some p) : Turn cli s .quiet (s.halt p.owner)
  | closed {p : Process lib} {saves : Bool} (hon : s.process = some p)
      (hphase : p.phase = .closing) :
      Turn cli s .quiet
        { s.halt p.owner with bloom := if saves then some p.owner.seen else s.bloom }
  | moved {p : Process lib} {phase : Phase} {shuttingDown : Bool} (hon : s.process = some p)
      (hmoves : Moves cli p phase shuttingDown) :
      Turn cli s .quiet (s.resume { p with phase, shuttingDown })
  | seeded {p : Process lib} {seed : Str} {rest : List Str} {faults : Faults}
      (hon : s.process = some p) (hphase : p.phase = .seeding (seed :: rest)) :
      Turn cli s .quiet
        (s.proceed { p with phase := .seeding rest } (queueSeed faults p.owner seed))
  | popFailed {p : Process lib} {frontier : Frontier} {nowMs : ℤ} (hon : s.process = some p)
      (hnow : IsI64 nowMs) (hopen : p.shuttingDown = false)
      (hpop : Popped p.owner.frontier frontier) :
      Turn cli s .quiet ((s.tick nowMs).halt { p.owner with frontier })
  | poppedNone {p : Process lib} {frontier : Frontier} {nowMs : ℤ} {pop : Faults}
      (hon : s.process = some p) (hnow : IsI64 nowMs) (hopen : p.shuttingDown = false)
      (hpop : p.owner.frontier.popReady lib.codecs pop nowMs 128 (saturated cli p)
        = some (.ok none, frontier)) :
      Turn cli s .quiet
        ((s.tick nowMs).resume { p with owner := { p.owner with frontier }, phase := .waiting })
  /-- A job without a host is passed over. -/
  | passedOver {p : Process lib} {frontier : Frontier} {nowMs : ℤ} {pop : Faults} {job : CrawlJob}
      (hon : s.process = some p) (hnow : IsI64 nowMs) (hopen : p.shuttingDown = false)
      (hpop : p.owner.frontier.popReady lib.codecs pop nowMs 128 (saturated cli p)
        = some (.ok (some job), frontier))
      (hhost : lib.urls.hostOf job.url = none) :
      Turn cli s .quiet ((s.tick nowMs).resume { p with owner := { p.owner with frontier } })
  | dispatched {p : Process lib} {frontier : Frontier} {nowMs : ℤ} {pop get : Faults}
      {job : CrawlJob} {host : Str} {cachedRules : Option RobotsRules}
      (hon : s.process = some p) (hnow : IsI64 nowMs) (hphase : p.phase = .dispatching)
      (hroom : p.shuttingDown = false ∧ p.inFlightTotal < cli.workers)
      (hpop : p.owner.frontier.popReady lib.codecs pop nowMs 128 (saturated cli p)
        = some (.ok (some job), frontier))
      (hhost : lib.urls.hostOf job.url = some host)
      (hget : Robots.get lib.entry get 0 frontier.db host nowMs = .ok cachedRules) :
      Turn cli s
        (.dispatched nowMs
          { job, host, cachedRules, crawlDelayS := cachedRules.bind RobotsRules.crawlDelayS,
            stage := .asking })
        ((s.tick nowMs).resume (Process.spawn { p with owner := { p.owner with frontier } }
          { job, host, cachedRules, crawlDelayS := cachedRules.bind RobotsRules.crawlDelayS,
            stage := .asking }))
  | checked {p : Process lib} {i : ℕ} {visit : Visit} {answer : Answer}
      (hon : s.process = some p) (hvisit : p.visits[i]? = some visit)
      (hstage : visit.stage = .asking) :
      Turn cli s
        (match robotsWanted lib visit with
          | some url => .asked visit url answer
          | none => .quiet)
        (s.resume (moveVisit p i visit (check lib visit (learn lib cli visit answer))))
  | fetched {p : Process lib} {i : ℕ} {visit : Visit} {learned : Learned} {answer : Answer}
      (hon : s.process = some p) (hvisit : p.visits[i]? = some visit)
      (hstage : visit.stage = .fetching learned) :
      Turn cli s .quiet
        (s.resume (moveVisit p i visit (.done (report visit learned (visited lib answer)))))
  | sent {p : Process lib} {i : ℕ} {visit : Visit} {outcome : Outcome}
      (hon : s.process = some p) (hvisit : p.visits[i]? = some visit)
      (hstage : visit.stage = .done outcome) :
      Turn cli s .quiet
        (s.resume { p with visits := p.visits.eraseIdx i, channel := p.channel ++ [outcome] })
  | absorbed {p : Process lib} {nowMs : ℤ} {faults : AbsorbFaults} {outcome : Outcome}
      {channel : List Outcome} (hon : s.process = some p) (hnow : IsI64 nowMs)
      (hphase : p.phase = .absorbing ∨ p.phase = .waiting)
      (hchannel : p.channel = outcome :: channel) :
      Turn cli s (.absorbed nowMs outcome)
        ((s.tick nowMs).proceed
          { p.bookkeep outcome with channel, phase := .absorbing }
          (absorb cli faults p.owner nowMs outcome))

theorem start_turn {s t : System lib} {faults : Faults} {archive reads : Bool} {e : Event}
    (h : start cli s faults archive reads = some (e, t)) : Turn cli s e t := by
  rw [start] at h
  split at h
  · cases h
  · rename_i hoff
    have hdb : Turn cli s .quiet { s with db := (Frontier.open faults s.db).2 } := .notStarted hoff
    split at h
    · rename_i hopen
      cases h
      rwa [hopen] at hdb
    · rename_i frontier db hopen
      split at h
      · cases h
        exact @Turn.started _ _ _ faults frontier reads hoff (by rw [hopen])
      · cases h
        rwa [hopen] at hdb

theorem go_turn {s t : System lib} {p : Process lib} {e : Event} (hon : s.process = some p)
    (h : go cli s p = some (e, t)) : Turn cli s e t := by
  rw [go] at h
  split at h
  · rename_i hphase
    cases h
    exact .moved hon (.seeded hphase)
  · rename_i hphase
    split at h
    · cases h
      exact .moved hon (.drained hphase)
    · cases h
  · rename_i hphase
    cases h
    exact @Turn.moved _ _ _ p _ _ hon (.decided hphase rfl)
  · rename_i hphase
    split at h
    · cases h
      exact .moved hon (.full hphase)
    · cases h
  · rename_i hphase
    split at h
    · rename_i hidle
      cases h
      exact .moved hon (.finished hphase hidle.1)
    · cases h
      exact .moved hon (.waited hphase)
  · cases h

theorem receive_turn {s t : System lib} {p : Process lib} {nowMs : ℤ} {faults : AbsorbFaults}
    {e : Event} (hon : s.process = some p) (h : receive cli s p nowMs faults = some (e, t)) :
    Turn cli s e t := by
  rw [receive] at h
  split at h
  · rename_i hguard
    obtain ⟨hnow, hphase⟩ := hguard
    split at h
    · cases h
    · rename_i outcome channel hchannel
      cases h
      refine .absorbed hon hnow ?_ hchannel
      rcases hphase with hphase | ⟨hphase, _⟩
      · exact Or.inl hphase
      · exact Or.inr hphase
  · cases h

theorem dispatch_turn {s t : System lib} {p : Process lib} {nowMs : ℤ} {pop get : Faults}
    {e : Event} (hon : s.process = some p) (h : dispatch cli s p nowMs pop get = some (e, t)) :
    Turn cli s e t := by
  rw [dispatch] at h
  split at h
  · rename_i hguard
    obtain ⟨hnow, hphase, hroom⟩ := hguard
    dsimp only at h
    split at h
    · cases h
    · rename_i hpop
      cases h
      exact .popFailed hon hnow hroom.1 (popReady_frame hpop)
    · rename_i hpop
      cases h
      exact .poppedNone hon hnow hroom.1 hpop
    · rename_i job frontier hpop
      split at h
      · rename_i hhost
        cases h
        exact .passedOver hon hnow hroom.1 hpop hhost
      · rename_i host hhost
        split at h
        · cases h
          exact .popFailed hon hnow hroom.1 (popReady_frame hpop)
        · rename_i cachedRules hget
          cases h
          exact .dispatched hon hnow hphase hroom hpop hhost hget
  · cases h

/-- **All a step can be.** -/
theorem step_turn {s t : System lib} {e : Event} (h : Step cli s e t) : Turn cli s e t := by
  obtain ⟨choice, h⟩ := h
  unfold step at h
  split at h
  · exact start_turn h
  · cases h
  · rename_i p hon
    cases h
    exact .killed hon
  · rename_i faults p hon
    split at h
    · rename_i hphase
      cases h
      exact .seeded hon hphase
    · cases h
  · rename_i p hon
    exact go_turn hon h
  · rename_i nowMs faults p hon
    exact receive_turn hon h
  · rename_i nowMs pop get p hon
    exact dispatch_turn hon h
  · rename_i i answer p hon
    split at h
    · cases h
    · rename_i visit hvisit
      split at h
      · rename_i hstage
        cases h
        exact .checked hon hvisit hstage
      · cases h
  · rename_i i answer p hon
    split at h
    · cases h
    · rename_i visit hvisit
      split at h
      · rename_i learned hstage
        cases h
        exact .fetched hon hvisit hstage
      · cases h
  · rename_i i p hon
    split at h
    · cases h
    · rename_i visit hvisit
      split at h
      · rename_i outcome hstage
        cases h
        exact .sent hon hvisit hstage
      · cases h
  · rename_i p hon
    split at h
    · rename_i hguard
      cases h
      exact .moved hon (.interrupted hguard.1)
    · cases h
  · rename_i saves p hon
    split at h
    · rename_i hphase
      cases h
      exact .closed hon hphase
    · cases h

/-- What a step does, as far as the frontier, the visits and the channel go. -/
inductive Does (cli : Cli) (s : System lib) : Event → System lib → Prop
  | notStarted {faults : Faults} (hoff : s.process = none) :
      Does cli s .quiet { s with db := (Frontier.open faults s.db).2 }
  | started {faults : Faults} {frontier : Frontier} {reads : Bool} (hoff : s.process = none)
      (hopen : (Frontier.open faults s.db).1 = .ok frontier) :
      Does cli s .started (s.resume (begin cli s frontier reads))
  /-- Killed, or closed after its work. -/
  | ended {p : Process lib} {bloom : Option lib.seen.Filter} (hon : s.process = some p) :
      Does cli s .quiet { s.halt p.owner with bloom }
  | moved {p : Process lib} {phase : Phase} {shuttingDown : Bool} (hon : s.process = some p) :
      Does cli s .quiet (s.resume { p with phase, shuttingDown })
  | seeded {p : Process lib} {phase : Phase} {called : Called lib} (hon : s.process = some p)
      (hcall : Leaves p.owner.frontier called) :
      Does cli s .quiet (s.proceed { p with phase } called)
  /-- A pop after which nothing is dispatched: the run ends, or goes on. -/
  | popFailed {p : Process lib} {frontier : Frontier} {nowMs : ℤ} (hon : s.process = some p)
      (hnow : IsI64 nowMs) (hpop : Popped p.owner.frontier frontier) :
      Does cli s .quiet ((s.tick nowMs).halt { p.owner with frontier })
  | poppedNone {p : Process lib} {frontier : Frontier} {nowMs : ℤ} {phase : Phase}
      (hon : s.process = some p) (hnow : IsI64 nowMs)
      (hpop : Popped p.owner.frontier frontier) :
      Does cli s .quiet
        ((s.tick nowMs).resume { p with owner := { p.owner with frontier }, phase })
  | dispatched {p : Process lib} {frontier : Frontier} {nowMs : ℤ} {pop get : Faults}
      {job : CrawlJob} {host : Str} {cachedRules : Option RobotsRules}
      (hon : s.process = some p) (hnow : IsI64 nowMs)
      (hroom : p.shuttingDown = false ∧ p.inFlightTotal < cli.workers)
      (hpop : p.owner.frontier.popReady lib.codecs pop nowMs 128 (saturated cli p)
        = some (.ok (some job), frontier))
      (hhost : lib.urls.hostOf job.url = some host)
      (hget : Robots.get lib.entry get 0 frontier.db host nowMs = .ok cachedRules) :
      Does cli s
        (.dispatched nowMs
          { job, host, cachedRules, crawlDelayS := cachedRules.bind RobotsRules.crawlDelayS,
            stage := .asking })
        ((s.tick nowMs).resume (Process.spawn { p with owner := { p.owner with frontier } }
          { job, host, cachedRules, crawlDelayS := cachedRules.bind RobotsRules.crawlDelayS,
            stage := .asking }))
  | checked {p : Process lib} {i : ℕ} {visit : Visit} {answer : Answer}
      (hon : s.process = some p) (hvisit : p.visits[i]? = some visit)
      (hstage : visit.stage = .asking) :
      Does cli s
        (match robotsWanted lib visit with
          | some url => .asked visit url answer
          | none => .quiet)
        (s.resume (moveVisit p i visit (check lib visit (learn lib cli visit answer))))
  | fetched {p : Process lib} {i : ℕ} {visit : Visit} {learned : Learned} {answer : Answer}
      (hon : s.process = some p) (hvisit : p.visits[i]? = some visit)
      (hstage : visit.stage = .fetching learned) :
      Does cli s .quiet
        (s.resume (moveVisit p i visit (.done (report visit learned (visited lib answer)))))
  | sent {p : Process lib} {i : ℕ} {visit : Visit} {outcome : Outcome}
      (hon : s.process = some p) (hvisit : p.visits[i]? = some visit)
      (hstage : visit.stage = .done outcome) :
      Does cli s .quiet
        (s.resume { p with visits := p.visits.eraseIdx i, channel := p.channel ++ [outcome] })
  | absorbed {p : Process lib} {nowMs : ℤ} {faults : AbsorbFaults} {outcome : Outcome}
      {channel : List Outcome} (hon : s.process = some p) (hnow : IsI64 nowMs)
      (hchannel : p.channel = outcome :: channel) :
      Does cli s (.absorbed nowMs outcome)
        ((s.tick nowMs).proceed
          { p.bookkeep outcome with channel, phase := .absorbing }
          (absorb cli faults p.owner nowMs outcome))

/-- **All a step can do.** -/
theorem step_does {s t : System lib} {e : Event} (h : Step cli s e t) : Does cli s e t := by
  cases step_turn h with
  | notStarted hoff => exact .notStarted hoff
  | started hoff hopen => exact .started hoff hopen
  | @killed p hon => exact @Does.ended _ _ _ p s.bloom hon
  | closed hon _ => exact .ended hon
  | moved hon _ => exact .moved hon
  | seeded hon _ => exact .seeded hon (queueSeed_leaves _ _ _)
  | popFailed hon hnow _ hpop => exact .popFailed hon hnow hpop
  | poppedNone hon hnow _ hpop => exact .poppedNone hon hnow (popReady_frame hpop)
  | passedOver hon hnow _ hpop _ => exact .poppedNone hon hnow (popReady_frame hpop)
  | dispatched hon hnow _ hroom hpop hhost hget =>
    exact .dispatched hon hnow hroom hpop hhost hget
  | checked hon hvisit hstage => exact .checked hon hvisit hstage
  | fetched hon hvisit hstage => exact .fetched hon hvisit hstage
  | sent hon hvisit hstage => exact .sent hon hvisit hstage
  | absorbed hon hnow _ hchannel => exact .absorbed hon hnow hchannel

/-- A dispatch popped its job, and the job's host was not saturated. -/
theorem Does.popped {s t : System lib} {nowMs : ℤ} {visit : Visit}
    (h : Does cli s (.dispatched nowMs visit) t) :
    ∃ p frontier pop, s.process = some p ∧
      p.owner.frontier.popReady lib.codecs pop nowMs 128 (saturated cli p)
        = some (.ok (some visit.job), frontier) ∧
      lib.urls.hostOf visit.job.url = some visit.host := by
  generalize he : Event.dispatched nowMs visit = e at h
  cases h with
  | @dispatched p frontier _ pop _ _ _ _ hon _ _ hpop hhost _ =>
    cases he
    exact ⟨p, frontier, pop, hon, hpop, hhost⟩
  | checked => split at he <;> cases he
  | _ => cases he

/-- What does not depend on its stage, a visit keeps when it goes on. -/
theorem map_moveVisit {α : Type} {f : Visit → α} {p : Process lib} {i : ℕ} {visit : Visit}
    {stage : Stage} (h : p.visits[i]? = some visit)
    (hf : f { visit with stage } = f visit) :
    (moveVisit p i visit stage).visits.map f = p.visits.map f := by
  obtain ⟨hi, hvisit⟩ := List.getElem?_eq_some_iff.mp h
  show (p.visits.set i { visit with stage }).map f = _
  rw [List.map_set, hf, ← hvisit, ← List.getElem_map f (h := by simpa using hi)]
  exact List.set_getElem_self _

end Crawler
