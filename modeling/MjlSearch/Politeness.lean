/-
The spacing of the visits to a host.

The time a host may be contacted again is written when a visit is absorbed, and read
when the next is dispatched.  As long as the clock does not go back, no job is handed
out for a host with a visit in flight, and no delay ends beyond the greatest `i64`,

* `Spaced` holds: every dispatch to a host without a visit in flight lies at least
  the host's delay before the time the host is allowed at;
* `dispatches_spaced` — the dispatches to a host keep the delay;
* `serial_calm` — one visit at a time for each host is enough for the first;
* `overlapping_dispatches` — with two, the second follows the first at once.
-/
import MjlSearch.CrawlDelay

open Text Machine Policy Runs FrontierQueue CrawlDb Frontier

namespace Crawler

variable {lib : Libraries} {cli : Cli}

/-! ### What a process has logged -/

/-- The events of the last process started. -/
def life (es : List Event) : List Event :=
  es.foldl (fun since e =>
    match e with
    | .started => []
    | e => since ++ [e]) []

/-- The rules last absorbed for a host. -/
def lastRules (host : Str) (L : List Event) : Option RobotsRules :=
  L.foldl (fun last e =>
    match e with
    | .absorbed _ outcome => if outcome.host = host then outcome.rules.or last else last
    | _ => last) none

/-- The delay between two visits of a host: the configured one, or the `Crawl-delay`
of the rules last absorbed for it. -/
def gapMs (cli : Cli) (L : List Event) (host : Str) : ℕ :=
  max cli.politenessDelayMs
    (1000 * ((lastRules host L).bind RobotsRules.crawlDelayS).getD 0)

/-- An event that says nothing about when a host may be contacted. -/
def Event.passes : Event → Bool
  | .quiet => true
  | .asked _ _ _ => true
  | _ => false

theorem life_snoc {es : List Event} {e : Event} (h : e ≠ .started) :
    life (es ++ [e]) = life es ++ [e] := by
  rw [life, List.foldl_append]
  cases e with
  | started => exact absurd rfl h
  | _ => rfl

theorem life_started (es : List Event) : life (es ++ [.started]) = [] := by
  rw [life, List.foldl_append]
  rfl

theorem mem_life {before between : List Event} {e : Event} (he : e ≠ .started)
    (h : .started ∉ between) : e ∈ life (before ++ e :: between) := by
  induction between using List.reverseRecOn with
  | nil =>
    rw [life_snoc he]
    exact List.mem_append_right _ (List.mem_singleton_self _)
  | append_singleton between e' ih =>
    have hne : e' ≠ .started := by
      rintro rfl
      exact h (List.mem_append_right _ (List.mem_singleton_self _))
    rw [← List.cons_append, ← List.append_assoc, life_snoc hne]
    exact List.mem_append_left _ (ih fun hc => h (List.mem_append_left _ hc))

theorem lastRules_absorbed (host : Str) (L : List Event) (nowMs : ℤ) (outcome : Outcome) :
    lastRules host (L ++ [.absorbed nowMs outcome])
      = if outcome.host = host then outcome.rules.or (lastRules host L)
        else lastRules host L := by
  rw [lastRules, List.foldl_append]
  rfl

theorem lastRules_snoc (host : Str) (L : List Event) {e : Event}
    (h : ∀ nowMs outcome, e ≠ .absorbed nowMs outcome) :
    lastRules host (L ++ [e]) = lastRules host L := by
  rw [lastRules, List.foldl_append]
  cases e with
  | absorbed nowMs outcome => exact absurd rfl (h nowMs outcome)
  | _ => rfl

/-! ### What a visit owes its host -/

/-- The delay an outcome with these rules asks for is, if any, that of the rules last
absorbed for the host once it is. -/
def Owes (L : List Event) (host : Str) (rules : Option RobotsRules) (delay : Option ℕ) : Prop :=
  ∀ seconds, (rules.or (lastRules host L)).bind RobotsRules.crawlDelayS = some seconds →
    delay = some seconds

/-- The same for a visit, wherever it stands. -/
structure VisitOwes (L : List Event) (visit : Visit) : Prop where
  asking : visit.stage = .asking → visit.cachedRules.isSome →
    Owes L visit.host none visit.crawlDelayS
  fetching : ∀ learned, visit.stage = .fetching learned →
    Owes L visit.host learned.newlyFetched learned.delay
  done : ∀ outcome, visit.stage = .done outcome →
    Owes L visit.host outcome.rules outcome.crawlDelayS

theorem Owes.congr {L L' : List Event} {host : Str} {rules : Option RobotsRules}
    {delay : Option ℕ} (h : Owes L host rules delay)
    (hsame : lastRules host L' = lastRules host L) : Owes L' host rules delay := by
  rw [Owes, hsame]
  exact h

theorem VisitOwes.congr {L L' : List Event} {visit : Visit} (h : VisitOwes L visit)
    (hsame : lastRules visit.host L' = lastRules visit.host L) : VisitOwes L' visit where
  asking hstage hcached := (h.asking hstage hcached).congr hsame
  fetching learned hstage := (h.fetching learned hstage).congr hsame
  done outcome hstage := (h.done outcome hstage).congr hsame

/-- What a visit learns: the delay of the rules it fetched, or the one it had. -/
theorem learn_owes {L : List Event} {visit : Visit} {answer : Answer}
    (hhost : lib.urls.hostOf visit.job.url = some visit.host)
    (h : visit.cachedRules.isSome → Owes L visit.host none visit.crawlDelayS) :
    Owes L visit.host (learn lib cli visit answer).newlyFetched
      (learn lib cli visit answer).delay := by
  rw [learn]
  split
  · rename_i hwanted
    refine h ?_
    rw [robotsWanted] at hwanted
    split at hwanted
    · rename_i rules hrules
      rw [hrules]
      rfl
    · -- a URL with a host has a robots.txt
      have hsome := lib.urls.robotsUrl_isSome hhost
      rw [hwanted] at hsome
      cases hsome
  · split
    · exact fun seconds hseconds => hseconds
    · -- rules that allow or disallow everything declare no delay
      intro seconds hseconds
      cases hseconds
    · intro seconds hseconds
      cases hseconds

theorem check_owes {L : List Event} {visit : Visit} {learned : Learned}
    (h : Owes L visit.host learned.newlyFetched learned.delay) :
    VisitOwes L { visit with stage := check lib visit learned } := by
  by_cases hforbidden : (learned.rules.any fun rules =>
      !Robots.allows rules (lib.urls.requestPath visit.job.url)) = true
  · rw [check, if_pos hforbidden]
    refine ⟨fun hc => (by cases hc), fun _ hc => (by cases hc), fun outcome hdone => ?_⟩
    cases hdone
    exact h
  · rw [check, if_neg hforbidden]
    refine ⟨fun hc => (by cases hc), fun learned' hfetching => ?_, fun _ hc => (by cases hc)⟩
    cases hfetching
    exact h

/-! ### The invariant -/

/-- The hosts of the visits in flight. -/
def flying (p : Process lib) : List Str := p.visits.map Visit.host ++ p.channel.map Outcome.host

/-- What holds while a process runs, given its log and the clock. -/
structure Spaced (lib : Libraries) (cli : Cli) (L : List Event) (clock : ℤ) (p : Process lib) :
    Prop where
  counted : ∀ host, p.inFlight host = (flying p).count host
  serial : ∀ host, p.inFlight host ≤ 1
  past : ∀ atMs visit, .dispatched atMs visit ∈ L → atMs ≤ clock
  cached : ∀ host rules, lastRules host L = some rules → ∃ bytes entry,
    p.owner.frontier.db.robots.get (utf8 host) = some bytes ∧
    lib.entry.decode bytes = some entry ∧ entry.rules = rules
  visits : ∀ visit ∈ p.visits, VisitOwes L visit
  channel : ∀ outcome ∈ p.channel, Owes L outcome.host outcome.rules outcome.crawlDelayS
  spaced : ∀ atMs visit, .dispatched atMs visit ∈ L → p.inFlight visit.host = 0 →
    atMs + gapMs cli L visit.host ≤ nextAllowedAtMs lib.codecs p.owner.frontier visit.host

/-- A step that passes leaves every time as it is. -/
theorem Spaced.pass {L : List Event} {e : Event} {clock clock' : ℤ} {p p' : Process lib}
    (h : Spaced lib cli L clock p) (he : e.passes = true) (hclock : clock ≤ clock')
    (hinFlight : p'.inFlight = p.inFlight)
    (hflying : ∀ host, (flying p').count host = (flying p).count host)
    (hrobots : p'.owner.frontier.db.robots = p.owner.frontier.db.robots)
    (hnext : ∀ host, nextAllowedAtMs lib.codecs p'.owner.frontier host
      = nextAllowedAtMs lib.codecs p.owner.frontier host)
    (hvisits : ∀ visit ∈ p'.visits, VisitOwes L visit)
    (hchannel : ∀ outcome ∈ p'.channel, Owes L outcome.host outcome.rules outcome.crawlDelayS) :
    Spaced lib cli (L ++ [e]) clock' p' := by
  have hlast : ∀ host, lastRules host (L ++ [e]) = lastRules host L := by
    intro host
    refine lastRules_snoc host L fun nowMs outcome hc => ?_
    rw [hc] at he
    cases he
  have hmem : ∀ atMs visit, .dispatched atMs visit ∈ L ++ [e] → .dispatched atMs visit ∈ L := by
    intro atMs visit hd
    rcases List.mem_append.mp hd with hd | hd
    · exact hd
    · rw [← List.mem_singleton.mp hd] at he
      cases he
  refine ⟨?_, ?_, ?_, ?_, ?_, ?_, ?_⟩
  · intro host
    rw [hinFlight, hflying, h.counted]
  · rw [hinFlight]
    exact h.serial
  · intro atMs visit hd
    exact Int.le_trans (h.past atMs visit (hmem atMs visit hd)) hclock
  · intro host rules hrules
    rw [hlast] at hrules
    rw [hrobots]
    exact h.cached host rules hrules
  · intro visit hvisit
    exact (hvisits visit hvisit).congr (hlast _)
  · intro outcome houtcome
    exact (hchannel outcome houtcome).congr (hlast _)
  · intro atMs visit hd hidle
    rw [hinFlight] at hidle
    rw [hnext, gapMs, hlast]
    exact h.spaced atMs visit (hmem atMs visit hd) hidle

/-- A visit that goes on to its next stage stays with its host. -/
theorem flying_moveVisit {p : Process lib} {i : ℕ} {visit : Visit} {stage : Stage}
    (h : p.visits[i]? = some visit) : flying (moveVisit p i visit stage) = flying p := by
  rw [flying, flying, @map_moveVisit _ _ Visit.host p i visit stage h rfl]
  rfl

/-- A finished visit moves from the pool to the channel. -/
theorem count_flying_sent {p : Process lib} {i : ℕ} {visit : Visit} {outcome : Outcome}
    (h : p.visits[i]? = some visit) (hhost : outcome.host = visit.host) (host : Str) :
    (flying { p with visits := p.visits.eraseIdx i, channel := p.channel ++ [outcome] }).count host
      = (flying p).count host := by
  obtain ⟨hi, hvisit⟩ := List.getElem?_eq_some_iff.mp h
  have hperm := (List.getElem_cons_eraseIdx_perm hi).map Visit.host
  have hcount := hperm.count_eq host
  rw [hvisit, List.map_cons, List.count_cons] at hcount
  simp only [flying, List.count_append, List.map_append, List.map_singleton, hhost,
    List.count_singleton]
  omega

/-! ### Calm steps -/

/-- The step hands out no job for a host with a visit in flight, and absorbs no visit
whose delay ends beyond the greatest `i64`. -/
def Calm (cli : Cli) (s : System lib) (e : Event) : Bool :=
  match e with
  | .dispatched _ visit => s.process.all fun p => p.inFlight visit.host = 0
  | .absorbed nowMs outcome =>
    nowMs + max cli.politenessDelayMs (1000 * outcome.crawlDelayS.getD 0) ≤ i64Max
  | _ => true

theorem Calm.idle {s : System lib} {nowMs : ℤ} {visit : Visit} {p : Process lib}
    (h : Calm cli s (.dispatched nowMs visit) = true) (hon : s.process = some p) :
    p.inFlight visit.host = 0 := by
  rw [Calm, hon] at h
  simpa using h

theorem Calm.fits {s : System lib} {nowMs : ℤ} {outcome : Outcome}
    (h : Calm cli s (.absorbed nowMs outcome) = true) :
    nowMs + max cli.politenessDelayMs (1000 * outcome.crawlDelayS.getD 0) ≤ i64Max := by
  rw [Calm] at h
  exact of_decide_eq_true h

/-- A run of calm steps, through which the clock does not go back. -/
abbrev CalmRun (cli : Cli) (es : List Event) (t : System lib) : Prop :=
  Run (fun s e u => Step cli s e u ∧ s.clock ≤ u.clock ∧ Calm cli s e = true)
    (fresh : System lib) es t

theorem System.clock_proceed (s : System lib) (p : Process lib) (called : Called lib) :
    (s.proceed p called).clock = s.clock := by
  rcases called with ⟨_ | _, owner⟩ <;> rfl

theorem Spaced.dispatched {L : List Event} {clock nowMs : ℤ} {p : Process lib}
    {frontier : Frontier} {visit : Visit} {get : Faults} (h : Spaced lib cli L clock p)
    (hclock : clock ≤ nowMs) (hpop : Popped p.owner.frontier frontier)
    (hidle : p.inFlight visit.host = 0)
    (hget : Robots.get lib.entry get 0 frontier.db visit.host nowMs = .ok visit.cachedRules)
    (hdelay : visit.crawlDelayS = visit.cachedRules.bind RobotsRules.crawlDelayS)
    (hstage : visit.stage = .asking) :
    Spaced lib cli (L ++ [.dispatched nowMs visit]) nowMs
      (Process.spawn { p with owner := { p.owner with frontier } } visit) := by
  have hlast : ∀ a, lastRules a (L ++ [.dispatched nowMs visit]) = lastRules a L :=
    fun a => lastRules_snoc a L fun _ _ hc => by cases hc
  have hupdate : ∀ a, (Process.spawn { p with owner := { p.owner with frontier } } visit).inFlight a
      = if a = visit.host then 1 else p.inFlight a := by
    intro a
    show Function.update p.inFlight visit.host (p.inFlight visit.host + 1) a = _
    rw [Function.update_apply, hidle]
  have hcached : ∀ a rules, lastRules a L = some rules → ∃ bytes entry,
      frontier.db.robots.get (utf8 a) = some bytes ∧ lib.entry.decode bytes = some entry ∧
      entry.rules = rules := by
    rw [hpop.robots]
    exact h.cached
  refine ⟨?_, ?_, ?_, ?_, ?_, ?_, ?_⟩
  · intro a
    rw [hupdate]
    have hcount := h.counted a
    simp only [flying, List.count_append] at hcount
    simp only [Process.spawn, flying, List.map_append, List.map_singleton, List.count_append,
      List.count_singleton]
    by_cases ha : a = visit.host
    · subst ha
      rw [if_pos rfl]
      simp only [BEq.rfl, if_true]
      omega
    · have hne : ¬ visit.host = a := fun hc => ha hc.symm
      rw [if_neg ha, hcount]
      simp [hne]
  · intro a
    rw [hupdate]
    split
    · exact Nat.le_refl 1
    · exact h.serial a
  · intro atMs v hv
    rcases List.mem_append.mp hv with hv | hv
    · exact Int.le_trans (h.past atMs v hv) hclock
    · cases List.mem_singleton.mp hv
      exact Int.le_refl _
  · intro a rules hrules
    rw [hlast] at hrules
    exact hcached a rules hrules
  · intro v hv
    rcases List.mem_append.mp hv with hv | hv
    · exact (h.visits v hv).congr (hlast _)
    · rw [List.mem_singleton.mp hv]
      refine ⟨fun _ hsome => ?_, fun _ hc => ?_, fun _ hc => ?_⟩
      · -- the visit has the delay of the rules in the cache
        obtain ⟨rules, hrules⟩ := Option.isSome_iff_exists.mp hsome
        intro seconds hseconds
        rw [hlast] at hseconds
        obtain ⟨last, hlastRules, hlastDelay⟩ := Option.bind_eq_some_iff.mp hseconds
        obtain ⟨bytes', entry', hbytes', hentry', rfl⟩ := hcached visit.host last hlastRules
        rw [hrules] at hget
        obtain ⟨bytes, entry, hbytes, hentry, _, rfl⟩ := Robots.get_ok hget
        rw [hbytes] at hbytes'
        cases hbytes'
        rw [hentry] at hentry'
        cases hentry'
        rw [hdelay, hrules]
        exact hlastDelay
      · rw [hstage] at hc
        cases hc
      · rw [hstage] at hc
        cases hc
  · intro outcome houtcome
    exact (h.channel outcome houtcome).congr (hlast _)
  · intro atMs v hv hfree
    rw [hupdate] at hfree
    by_cases hsame : v.host = visit.host
    · -- the host has a visit in flight now
      rw [if_pos hsame] at hfree
      cases hfree
    · rw [if_neg hsame] at hfree
      rcases List.mem_append.mp hv with hv | hv
      · rw [gapMs, hlast]
        show _ ≤ nextAllowedAtMs lib.codecs frontier v.host
        rw [hpop.nextAllowed]
        exact h.spaced atMs v hv hfree
      · cases List.mem_singleton.mp hv
        exact absurd rfl hsame

/-- The cache, once an outcome is absorbed: its rules, if it has any, are its host's. -/
theorem absorb_cached {faults : AbsorbFaults} {owner owner' : Owner lib} {nowMs : ℤ}
    {outcome : Outcome} (h : absorb cli faults owner nowMs outcome = (.ok (), owner')) :
    (outcome.rules = none ∧ owner'.frontier.db.robots = owner.frontier.db.robots) ∨
    ∃ rules bytes entry, outcome.rules = some rules ∧ lib.entry.decode bytes = some entry ∧
      entry.rules = rules ∧
      owner'.frontier.db.robots = owner.frontier.db.robots.put (utf8 outcome.host) bytes := by
  obtain ⟨F₁, F₂, hcached, hdefer, hpushes⟩ := absorb_ok h
  have hrobots : owner'.frontier.db.robots = F₁.db.robots := by
    obtain ⟨value, _, rfl⟩ := deferHost_ok hdefer
    rw [hpushes.robots]
  rw [hrobots]
  rw [Cached] at hcached
  split at hcached
  · rename_i hnone
    exact Or.inl ⟨hnone, by rw [hcached]⟩
  · rename_i rules hrules
    obtain ⟨bytes, hencode, rfl⟩ := hcached
    exact Or.inr ⟨rules, bytes, _, hrules, lib.entry.decode_encode hencode, rfl, rfl⟩

theorem Spaced.absorbed {L : List Event} {clock nowMs : ℤ} {p : Process lib}
    {outcome : Outcome} {channel : List Outcome} {faults : AbsorbFaults} {owner' : Owner lib}
    (h : Spaced lib cli L clock p) (hnow : 0 ≤ nowMs) (hclock : clock ≤ nowMs)
    (hchannel : p.channel = outcome :: channel)
    (hfits : nowMs + max cli.politenessDelayMs (1000 * outcome.crawlDelayS.getD 0) ≤ i64Max)
    (habsorb : absorb cli faults p.owner nowMs outcome = (.ok (), owner')) :
    Spaced lib cli (L ++ [.absorbed nowMs outcome]) nowMs
      { p.bookkeep outcome with channel, phase := .absorbing, owner := owner' } := by
  -- no other visit of the host is in flight
  have hcount : ∀ a, p.inFlight a = (p.visits.map Visit.host ++ channel.map Outcome.host).count a
      + if a = outcome.host then 1 else 0 := by
    intro a
    rw [h.counted, flying, hchannel, List.map_cons, List.count_append, List.count_cons,
      List.count_append]
    by_cases ha : a = outcome.host
    · subst ha
      simp [Nat.add_assoc]
    · have hne : ¬ outcome.host = a := fun hc => ha hc.symm
      simp [ha, hne]
  have halone : outcome.host ∉ p.visits.map Visit.host ++ channel.map Outcome.host := by
    have hone := h.serial outcome.host
    rw [hcount, if_pos rfl] at hone
    exact List.count_eq_zero.mp (by omega)
  have hupdate : ∀ a, (p.bookkeep outcome).inFlight a
      = (p.visits.map Visit.host ++ channel.map Outcome.host).count a := by
    intro a
    show Function.update p.inFlight outcome.host (p.inFlight outcome.host - 1) a = _
    rw [Function.update_apply]
    by_cases ha : a = outcome.host
    · rw [if_pos ha, hcount, if_pos rfl, ha]
      omega
    · rw [if_neg ha, hcount, if_neg ha]
      omega
  have hlast : ∀ a, a ≠ outcome.host →
      lastRules a (L ++ [.absorbed nowMs outcome]) = lastRules a L := by
    intro a ha
    rw [lastRules_absorbed, if_neg fun hc => ha hc.symm]
  refine ⟨?_, ?_, ?_, ?_, ?_, ?_, ?_⟩
  · intro a
    exact hupdate a
  · intro a
    show (p.bookkeep outcome).inFlight a ≤ 1
    have hone := h.serial a
    rw [hcount] at hone
    rw [hupdate]
    omega
  · intro atMs v hv
    rcases List.mem_append.mp hv with hv | hv
    · exact Int.le_trans (h.past atMs v hv) hclock
    · cases List.mem_singleton.mp hv
  · intro a rules hrules
    show ∃ bytes entry, owner'.frontier.db.robots.get (utf8 a) = some bytes ∧ _
    rcases absorb_cached habsorb with
      ⟨hnone, hrobots⟩ | ⟨new, bytes, entry, hnew, hentry, heq, hrobots⟩
    · rw [hrobots]
      rw [lastRules_absorbed, hnone, Option.none_or, ite_self] at hrules
      exact h.cached a rules hrules
    · rw [hrobots]
      by_cases ha : a = outcome.host
      · rw [lastRules_absorbed, if_pos ha.symm, hnew] at hrules
        cases hrules
        rw [ha, Store.get_put_self]
        exact ⟨bytes, entry, rfl, hentry, heq⟩
      · rw [hlast a ha] at hrules
        rw [Store.get_put_of_ne _ _ fun hc => ha (utf8_injective hc)]
        exact h.cached a rules hrules
  · intro v hv
    refine (h.visits v hv).congr (hlast _ fun hc => halone ?_)
    rw [← hc]
    exact List.mem_append_left _ (List.mem_map_of_mem hv)
  · intro o ho
    refine (h.channel o (by rw [hchannel]; exact List.mem_cons_of_mem _ ho)).congr
      (hlast _ fun hc => halone ?_)
    rw [← hc]
    exact List.mem_append_right _ (List.mem_map_of_mem ho)
  · intro atMs v hv hfree
    have hold : .dispatched atMs v ∈ L := by
      rcases List.mem_append.mp hv with hv | hv
      · exact hv
      · cases List.mem_singleton.mp hv
    show _ ≤ nextAllowedAtMs lib.codecs owner'.frontier v.host
    rw [absorb_nextAllowed habsorb]
    by_cases hsame : v.host = outcome.host
    · -- the visit is over, and its delay starts now
      have howes := h.channel outcome (by rw [hchannel]; exact List.mem_cons_self)
      have hpast := h.past atMs v hold
      rw [if_pos hsame, nextContactMs_of_le hnow hfits, gapMs, lastRules_absorbed,
        if_pos hsame.symm, hsame]
      rcases hdeclared : (outcome.rules.or (lastRules outcome.host L)).bind
          RobotsRules.crawlDelayS with _ | seconds
      · simp only [Option.getD_none]
        omega
      · rw [howes seconds hdeclared]
        omega
    · rw [if_neg hsame, gapMs, hlast v.host hsame]
      refine h.spaced atMs v hold ?_
      have hzero : (p.bookkeep outcome).inFlight v.host = 0 := hfree
      rw [hupdate] at hzero
      rw [hcount, hzero, if_neg hsame]

/-- What holds in every state of every calm run. -/
structure SpacedIn (cli : Cli) (es : List Event) (s : System lib) : Prop where
  clock : 0 ≤ s.clock
  on : ∀ p, s.process = some p → Spaced lib cli (life es) s.clock p

/-- **Every calm step keeps the invariant.** -/
theorem SpacedIn.step {es : List Event} {s t : System lib} {e : Event}
    (hgood : Good lib (es.map (Happened.mk cli)) s) (h : SpacedIn cli es s)
    (hmono : s.clock ≤ t.clock) (hcalm : Calm cli s e = true) (hstep : Does cli s e t) : SpacedIn cli (es ++ [e]) t := by
  -- a step goes one of three ways: it starts the life afresh, it leaves what the spacing reads
  -- alone (`pass`), or it is the dispatch or the absorption, which each have their own lemma
  cases hstep with
  | @notStarted faults hoff =>
    exact ⟨h.clock, fun p hp => absurd hp (by simp [hoff])⟩
  | @started faults frontier reads hoff hopen =>
    refine ⟨h.clock, fun p hp => ?_⟩
    cases hp
    rw [life_started]
    refine ⟨fun _ => rfl, fun _ => Nat.zero_le 1, ?_, ?_, ?_, ?_, ?_⟩
    · intro _ _ hc
      cases hc
    · intro _ _ hc
      cases hc
    · intro _ hc
      cases hc
    · intro _ hc
      cases hc
    · intro _ _ hc
      cases hc
  | @ended p bloom hon =>
    exact ⟨h.clock, fun p hp => by cases hp⟩
  | @moved p phase shuttingDown hon =>
    refine ⟨h.clock, fun q hq => ?_⟩
    cases hq
    have hp := h.on p hon
    rw [life_snoc fun hc => by cases hc]
    exact hp.pass rfl (Int.le_refl _) rfl (fun _ => rfl) rfl (fun _ => rfl) hp.visits hp.channel
  | @seeded p phase called hon hcall =>
    obtain ⟨G, hG, _, hok⟩ := hcall
    rcases called with ⟨_ | _, owner⟩
    · exact ⟨h.clock, fun q hq => by cases hq⟩
    · refine ⟨h.clock, fun q hq => ?_⟩
      cases hq
      have hp := h.on p hon
      have howner : owner.frontier = G := hok rfl
      rw [life_snoc fun hc => by cases hc]
      refine hp.pass rfl (Int.le_refl _) rfl (fun _ => rfl) ?_ (fun host => ?_) hp.visits hp.channel
      · rw [howner]
        exact hG.robots
      · rw [howner]
        exact hG.nextAllowed host
  | @popFailed p frontier nowMs hon hnow hpop =>
    exact ⟨Int.le_trans h.clock hmono, fun q hq => by cases hq⟩
  | @poppedNone p frontier nowMs phase hon hnow hpop =>
    refine ⟨Int.le_trans h.clock hmono, fun q hq => ?_⟩
    cases hq
    have hp := h.on p hon
    rw [life_snoc fun hc => by cases hc]
    exact hp.pass rfl hmono rfl (fun _ => rfl) hpop.robots hpop.nextAllowed hp.visits hp.channel
  | @dispatched p frontier nowMs pop get job host cachedRules hon hnow hroom hpop hhost hget =>
    refine ⟨Int.le_trans h.clock hmono, fun q hq => ?_⟩
    cases hq
    rw [life_snoc fun hc => by cases hc]
    exact (h.on p hon).dispatched hmono (popReady_frame hpop) (Calm.idle hcalm hon) hget rfl rfl
  | @checked p i visit answer hon hvisit hstage =>
    refine ⟨h.clock, fun q hq => ?_⟩
    cases hq
    have hp := h.on p hon
    have hmem := List.mem_of_getElem? hvisit
    -- the answer decides which event the check is recorded as, and neither spaces a host
    have hpass : ∀ e : Event, e.passes = true → Spaced lib cli (life (es ++ [e])) s.clock
        (moveVisit p i visit (check lib visit (learn lib cli visit answer))) := by
      intro e he
      rw [life_snoc fun hc => by rw [hc] at he; cases he]
      refine hp.pass he (Int.le_refl _) rfl (fun host => by rw [flying_moveVisit hvisit]) rfl
        (fun _ => rfl) (fun v hv => ?_) hp.channel
      rcases List.mem_or_eq_of_mem_set hv with hv | rfl
      · exact hp.visits v hv
      · exact check_owes (learn_owes ((hgood.on p hon).visits visit hmem).host
          ((hp.visits visit hmem).asking hstage))
    split <;> exact hpass _ rfl
  | @fetched p i visit learned answer hon hvisit hstage =>
    refine ⟨h.clock, fun q hq => ?_⟩
    cases hq
    have hp := h.on p hon
    rw [life_snoc fun hc => by cases hc]
    refine hp.pass rfl (Int.le_refl _) rfl (fun host => by rw [flying_moveVisit hvisit]) rfl
      (fun _ => rfl) (fun v hv => ?_) hp.channel
    rcases List.mem_or_eq_of_mem_set hv with hv | rfl
    · exact hp.visits v hv
    · refine ⟨fun hc => (by cases hc), fun _ hc => (by cases hc), fun outcome hdone => ?_⟩
      cases hdone
      exact (hp.visits visit (List.mem_of_getElem? hvisit)).fetching learned hstage
  | @sent p i visit outcome hon hvisit hstage =>
    refine ⟨h.clock, fun q hq => ?_⟩
    cases hq
    have hp := h.on p hon
    have hmem := List.mem_of_getElem? hvisit
    -- the report goes to the host the visit flew to, so no host's count of flights changes
    have hhost : outcome.host = visit.host :=
      (((hgood.on p hon).visits visit hmem).done outcome hstage).2
    rw [life_snoc fun hc => by cases hc]
    refine hp.pass rfl (Int.le_refl _) rfl (count_flying_sent hvisit hhost) rfl (fun _ => rfl)
      (fun v hv => hp.visits v (List.mem_of_mem_eraseIdx hv)) (fun o ho => ?_)
    rcases List.mem_append.mp ho with ho | ho
    · exact hp.channel o ho
    · rw [List.mem_singleton.mp ho, hhost]
      exact (hp.visits visit hmem).done outcome hstage
  | @absorbed p nowMs faults outcome channel hon hnow hchannel =>
    have hclock : s.clock ≤ nowMs := by
      rwa [System.clock_proceed] at hmono
    refine ⟨Int.le_trans h.clock hmono, fun q hq => ?_⟩
    rcases habsorb : absorb cli faults p.owner nowMs outcome with ⟨_ | _, owner⟩
    · rw [habsorb] at hq
      cases hq
    · rw [habsorb] at hq
      cases hq
      rw [life_snoc fun hc => by cases hc]
      exact (h.on p hon).absorbed (Int.le_trans h.clock hclock) hclock hchannel
        (Calm.fits hcalm) habsorb

/-- **The invariant holds in every state of every calm run.** -/
theorem run_spaced (hlaws : UrlLaws lib.urls) {es : List Event} {t : System lib}
    (h : CalmRun cli es t) :
    Good lib (es.map (Happened.mk cli)) t ∧ SpacedIn cli es t := by
  refine h.invariant_trace
    (I := fun es t => Good lib (es.map (Happened.mk cli)) t ∧ SpacedIn cli es t)
    ⟨Good.fresh, Int.le_refl 0, fun p hp => by cases hp⟩ ?_
  rintro es t e u ⟨hgood, hspaced⟩ ⟨hstep, hmono, hcalm⟩
  refine ⟨?_, hspaced.step hgood hmono hcalm (step_does hstep)⟩
  rw [List.map_append]
  exact hgood.step hlaws (step_does hstep)

/-! ### The spacing -/

/-- **On a calm run, the dispatches of a process to one host keep the configured
delay**, and the `Crawl-delay` of the rules last absorbed for the host. -/
theorem dispatches_spaced (lib : Libraries) (cli : Cli) (hlaws : UrlLaws lib.urls)
    (es : List Event) (t : System lib) (h : CalmRun cli es t) (before between after : List Event)
    (firstMs secondMs : ℤ) (first second : Visit)
    (hes : es = before ++ .dispatched firstMs first :: between ++
      .dispatched secondMs second :: after)
    (hsame : .started ∉ between) (hhost : first.host = second.host) :
    firstMs + cli.politenessDelayMs ≤ secondMs ∧
    ∀ rules seconds,
      lastRules second.host (life (before ++ .dispatched firstMs first :: between)) = some rules →
      rules.crawlDelayS = some seconds → firstMs + 1000 * seconds ≤ secondMs := by
  rw [hes] at h
  obtain ⟨s, u, hrun, ⟨hstep, _, hcalm⟩, _⟩ := h.split
  obtain ⟨hgood, hspaced⟩ := run_spaced hlaws hrun
  obtain ⟨p, frontier, pop, hon, hpop, hof⟩ := (step_does hstep).popped
  generalize hl : life (before ++ .dispatched firstMs first :: between) = L
  have hmem : .dispatched firstMs first ∈ L := by
    rw [← hl]
    exact mem_life (fun hc => by cases hc) hsame
  have hkept : firstMs + gapMs cli L second.host ≤ secondMs := by
    have hidle : p.inFlight first.host = 0 := by
      rw [hhost]
      exact Calm.idle hcalm hon
    have hp := hspaced.on p hon
    rw [hl] at hp
    have hbefore := hp.spaced firstMs first hmem hidle
    rw [hhost] at hbefore
    exact Int.le_trans hbefore (popReady_host_allowed (hgood.on p hon).sound.wf hof hpop)
  rw [gapMs] at hkept
  refine ⟨by omega, fun rules seconds hrules hseconds => ?_⟩
  rw [hrules, Option.bind_some, hseconds, Option.getD_some] at hkept
  omega

/-- **One visit at a time for each host is enough for a calm dispatch.** -/
theorem serial_calm (hlaws : UrlLaws lib.urls) {es : List Event} {s t : System lib} {nowMs : ℤ}
    {visit : Visit} (h : Run (Step cli) (fresh : System lib) es s)
    (hone : cli.perHostConcurrency ≤ 1) (hstep : Step cli s (.dispatched nowMs visit) t) :
    Calm cli s (.dispatched nowMs visit) = true := by
  obtain ⟨p, frontier, pop, hon, hpop, hof⟩ := (step_does hstep).popped
  have hwf := ((run_good hlaws (happens_run h)).on p hon).sound.wf
  rcases popReady_spec hwf hpop with ⟨hc, _⟩ | ⟨host, e, job, hjob, htook⟩
  · cases hc
  · cases hjob
    have hsame := (took_queue hwf htook).2.1
    rw [hof] at hsame
    cases hsame
    -- a host with a visit in flight is saturated, and skipped
    have hfree : saturated cli p visit.host = false := htook.ready.1
    simp only [saturated, decide_eq_false_iff_not, not_and, not_le] at hfree
    rw [Calm, hon]
    simp only [Option.all_some, decide_eq_true_eq]
    by_contra hbusy
    have hless := hfree hbusy
    omega

/-- Two URLs of one host, whose robots.txt asks for ten seconds, one after the other. -/
def spacedTwice : List Choice :=
  startAndSeed 2 ++ dispatchOne 1000 ++
    [.check 0 (robotsPage "User-agent: *\nCrawl-delay: 10\n".toList), .fetch 0 unavailable] ++
    absorbOne 2000 ++ dispatchOne 12000

/-- Whether every executed step is calm, and none sets the clock back. -/
def allCalm (cli : Cli) (s : System lib) : List Choice → Bool
  | [] => true
  | choice :: choices =>
    match step cli s choice with
    | none => allCalm cli s choices
    | some (e, t) => decide (s.clock ≤ t.clock) && (Calm cli s e && allCalm cli t choices)

theorem exec_calm {s : System lib} {choices : List Choice} (h : allCalm cli s choices = true) :
    Run (fun s e u => Step cli s e u ∧ s.clock ≤ u.clock ∧ Calm cli s e = true) s
      (exec cli s choices).1 (exec cli s choices).2 := by
  induction choices generalizing s with
  | nil => exact Run.refl
  | cons choice choices ih =>
    rw [allCalm] at h
    rw [exec]
    split
    · rename_i hstep
      rw [hstep] at h
      exact ih h
    · rename_i e t hstep
      rw [hstep] at h
      obtain ⟨hmono, h⟩ := Bool.and_eq_true_iff.mp h
      obtain ⟨hcalm, hrest⟩ := Bool.and_eq_true_iff.mp h
      exact Run.cons ⟨⟨choice, hstep⟩, of_decide_eq_true hmono, hcalm⟩ (ih hrest)

/-- Two dispatches in a log. -/
theorem exists_dispatches {es : List Event} {firstMs secondMs : ℤ} {firstHost secondHost : Str}
    {firstJob secondJob : CrawlJob}
    (h : dispatches es = [(firstMs, firstHost, firstJob), (secondMs, secondHost, secondJob)]) :
    ∃ before between after first second, es = before ++ .dispatched firstMs first :: between ++
      .dispatched secondMs second :: after ∧ first.host = firstHost ∧ second.host = secondHost := by
  obtain ⟨before, e, rest, rfl, _, he, hrest⟩ := List.filterMap_eq_cons_iff.mp h
  obtain ⟨between, e', after, rfl, _, he', _⟩ := List.filterMap_eq_cons_iff.mp hrest
  split at he
  · rename_i nowMs first
    cases he
    split at he'
    · rename_i nowMs' second
      cases he'
      exact ⟨before, between, after, first, second, by simp, rfl, rfl⟩
    · cases he'
  · cases he

/-- The processes started. -/
def starts (es : List Event) : ℕ :=
  es.countP fun
    | .started => true
    | _ => false

/-- In the log of one process, nothing is started after a dispatch. -/
theorem not_started_after {es before between after : List Event} {nowMs : ℤ} {visit : Visit}
    (hhead : es.head? = some .started) (hstarts : starts es ≤ 1)
    (hes : es = before ++ .dispatched nowMs visit :: between ++ after) : .started ∉ between := by
  intro hbetween
  have hbefore : 0 < starts before := by
    rcases before with _ | ⟨e, before⟩
    · rw [hes] at hhead
      cases hhead
    · rw [hes] at hhead
      cases hhead
      exact List.countP_pos_iff.mpr ⟨.started, List.mem_cons_self, rfl⟩
  have hagain : 0 < starts between := List.countP_pos_iff.mpr ⟨.started, hbetween, rfl⟩
  rw [hes] at hstarts
  simp only [starts, List.countP_append, List.countP_cons] at hstarts hbefore hagain
  omega

theorem dispatches_spaced_sample : ∃ es, ∃ t : System plainLibraries,
    CalmRun (plainCli ["http://b.c/".toList, "http://b.c/x".toList] 1) es t ∧
    absorbs es = [(2000, "b.c".toList, some 10)] ∧
    dispatches es = [(1000, "b.c".toList, homeJob),
      (12000, "b.c".toList, { pageJob with depth := 0 })] ∧
    (1000 : ℤ) + (plainCli ["http://b.c/".toList, "http://b.c/x".toList] 1).politenessDelayMs
      ≤ 12000 := by
  have hrun := exec_calm (show allCalm (plainCli ["http://b.c/".toList, "http://b.c/x".toList] 1)
    (fresh : System plainLibraries) spacedTwice = true by decide +kernel)
  have habsorbs : absorbs (exec (plainCli ["http://b.c/".toList, "http://b.c/x".toList] 1)
    (fresh : System plainLibraries) spacedTwice).1 = [(2000, "b.c".toList, some 10)] := by
    decide +kernel
  have hdispatches : dispatches (exec (plainCli ["http://b.c/".toList, "http://b.c/x".toList] 1)
    (fresh : System plainLibraries) spacedTwice).1 = [(1000, "b.c".toList, homeJob),
      (12000, "b.c".toList, { pageJob with depth := 0 })] := by
    decide +kernel
  have hstarts : starts (exec (plainCli ["http://b.c/".toList, "http://b.c/x".toList] 1)
    (fresh : System plainLibraries) spacedTwice).1 ≤ 1 := by
    decide +kernel
  obtain ⟨before, between, after, first, second, hes, hfirst, hsecond⟩ :=
    exists_dispatches hdispatches
  refine ⟨_, _, hrun, habsorbs, hdispatches, (dispatches_spaced plainLibraries _ plainUrls_laws _ _
    hrun before between after 1000 12000 first second hes ?_ (by rw [hfirst, hsecond])).1⟩
  exact not_started_after rfl hstarts hes

/-- Two URLs of one host; the second is handed out a millisecond after the first. -/
def overlapping : List Choice := startAndSeed 2 ++ [
  .dispatch 1000 CrawlDb.noFaults CrawlDb.noFaults,
  .dispatch 1001 CrawlDb.noFaults CrawlDb.noFaults]

/-- **With two visits at a time, the second follows the first at once**, although the
configured delay is a second. -/
theorem overlapping_dispatches : ∃ es, ∃ t : System plainLibraries,
    Run (Step (plainCli ["http://b.c/".toList, "http://b.c/x".toList] 2))
      (fresh : System plainLibraries) es t ∧
    (plainCli ["http://b.c/".toList, "http://b.c/x".toList] 2).politenessDelayMs = 1000 ∧
    dispatches es = [(1000, "b.c".toList, homeJob),
      (1001, "b.c".toList, { pageJob with depth := 0 })] :=
  ⟨_, _, exec_run _ fresh overlapping, rfl, by decide⟩

end Crawler
