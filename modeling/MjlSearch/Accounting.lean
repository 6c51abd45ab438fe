/-
The accounts of the crawl loop.

The loop counts its visits in flight twice, in total and by host, when it spawns one and
when it absorbs its outcome.  The subtraction is a saturating one, so a count that went
wrong would stay wrong unseen.  `Accounts` says that none does:

* `Accounts.dispatched`, `Accounts.finished` — spawning a visit, and absorbing one;
* `Accounts.step`, `crawl_accounts` — the accounts are right in every state of a crawl;
* `closed_pops` — once a crawl is shutting down, no job leaves the queue;
* `dispatch_accounting` — what the counts say about the jobs.
-/
import Mathlib.Algebra.BigOperators.Finprod
import MjlSearch.Histories

open Text Machine Policy Runs FrontierQueue CrawlDb

namespace Crawler

variable {lib : Libraries} {cli : Cli}

/-- The visits in flight, spawned or reported and not yet absorbed: host and job. -/
def flights (p : Process lib) : List (Str × CrawlJob) :=
  p.visits.map (fun visit => (visit.host, visit.job)) ++
    p.channel.map fun outcome => (outcome.host, outcome.job)

/-- The jobs in flight. -/
def inFlightJobs (p : Process lib) : List CrawlJob := (flights p).map Prod.snd

/-- The jobs a visit was spawned for. -/
def dispatchedJobs (log : List Logged) : List CrawlJob :=
  log.filterMap fun entry =>
    match entry.event with
    | .dispatched _ visit => some visit.job
    | _ => none

/-- The jobs an outcome was absorbed of. -/
def absorbedJobs (log : List Logged) : List CrawlJob :=
  log.filterMap fun entry =>
    match entry.event with
    | .absorbed _ outcome => some outcome.job
    | _ => none

/-- The accounts of a running crawl. -/
structure Accounts (lib : Libraries) (cli : Cli) (log : List Logged) (p : Process lib) : Prop where
  popped : pops log = dispatchedJobs log
  absorbed : (dispatchedJobs log).Perm (absorbedJobs log ++ inFlightJobs p)
  reports : ∀ visit ∈ p.visits, ∀ outcome, visit.stage = .done outcome →
    outcome.host = visit.host ∧ outcome.job = visit.job
  hosts : ∀ flight ∈ flights p, lib.urls.hostOf flight.2.url = some flight.1
  counted : ∀ host, p.inFlight host = ((flights p).map Prod.fst).count host
  total : p.inFlightTotal = (flights p).length
  workers : p.inFlightTotal ≤ cli.workers
  perHost : ∀ host, p.inFlight host ≤ max 1 cli.perHostConcurrency
  budget : 0 < cli.maxPages →
    p.owner.stats.indexed + p.inFlightTotal ≤ cli.maxPages - 1 + cli.workers
  dispatching : 0 < cli.maxPages → p.phase = .dispatching → p.shuttingDown = false →
    p.owner.stats.indexed < cli.maxPages
  closing : p.phase = .closing → p.inFlightTotal = 0

/-- The loop may be where it says: what the phase promises holds. -/
structure PhaseOk (cli : Cli) (p : Process lib) : Prop where
  dispatching : 0 < cli.maxPages → p.phase = .dispatching → p.shuttingDown = false →
    p.owner.stats.indexed < cli.maxPages
  closing : p.phase = .closing → p.inFlightTotal = 0

/-- An event that is no dispatch, and absorbs nothing. -/
def Event.idle : Event → Bool
  | .dispatched _ _ => false
  | .absorbed _ _ => false
  | _ => true

variable {log : List Logged} {entry : Logged} {p p' : Process lib}

theorem dispatchedJobs_snoc (log : List Logged) (entry : Logged) :
    dispatchedJobs (log ++ [entry]) = dispatchedJobs log ++ dispatchedJobs [entry] :=
  List.filterMap_append

theorem absorbedJobs_snoc (log : List Logged) (entry : Logged) :
    absorbedJobs (log ++ [entry]) = absorbedJobs log ++ absorbedJobs [entry] :=
  List.filterMap_append

theorem idle_jobs (h : entry.event.idle = true) :
    dispatchedJobs [entry] = [] ∧ absorbedJobs [entry] = [] := by
  obtain ⟨event, pushed, popped⟩ := entry
  cases event with
  | dispatched nowMs visit => cases h
  | absorbed nowMs outcome => cases h
  | _ => exact ⟨rfl, rfl⟩

/-- A step that neither dispatches nor absorbs leaves the accounts as they are. -/
theorem Accounts.pass (h : Accounts lib cli log p) (hidle : entry.event.idle = true)
    (hpopped : entry.popped = []) (hflights : (flights p').Perm (flights p))
    (hreports : ∀ visit ∈ p'.visits, ∀ outcome, visit.stage = .done outcome →
      outcome.host = visit.host ∧ outcome.job = visit.job)
    (hinFlight : p'.inFlight = p.inFlight) (htotal : p'.inFlightTotal = p.inFlightTotal)
    (hindexed : p'.owner.stats.indexed = p.owner.stats.indexed) (hphase : PhaseOk cli p') :
    Accounts lib cli (log ++ [entry]) p' := by
  obtain ⟨hdispatched, habsorbed⟩ := idle_jobs hidle
  refine ⟨?_, ?_, hreports, ?_, ?_, ?_, ?_, ?_, ?_, hphase.dispatching, hphase.closing⟩
  · rw [pops_snoc, dispatchedJobs_snoc, hpopped, hdispatched, h.popped]
  · rw [dispatchedJobs_snoc, absorbedJobs_snoc, hdispatched, habsorbed, List.append_nil,
      List.append_nil]
    exact h.absorbed.trans ((hflights.map Prod.snd).symm.append_left _)
  · intro flight hflight
    exact h.hosts flight (hflights.mem_iff.mp hflight)
  · intro host
    rw [hinFlight, h.counted host]
    exact ((hflights.map Prod.fst).count_eq host).symm
  · rw [htotal, h.total, hflights.length_eq]
  · rw [htotal]
    exact h.workers
  · intro host
    rw [hinFlight]
    exact h.perHost host
  · intro hmax
    rw [hindexed, htotal]
    exact h.budget hmax

/-- A visit that goes on is still the same flight. -/
theorem flights_moveVisit {i : ℕ} {visit : Visit} {stage : Stage}
    (h : p.visits[i]? = some visit) : flights (moveVisit p i visit stage) = flights p := by
  rw [flights, flights,
    @map_moveVisit _ _ (fun visit => (visit.host, visit.job)) p i visit stage h rfl]
  rfl

/-- **Spawning a visit.** -/
theorem Accounts.dispatched (h : Accounts lib cli log p) {owner : Owner lib} {visit : Visit}
    {nowMs : ℤ} (hevent : entry.event = .dispatched nowMs visit)
    (hpopped : entry.popped = [visit.job]) (hstage : visit.stage = .asking)
    (hhost : lib.urls.hostOf visit.job.url = some visit.host)
    (hroom : p.shuttingDown = false ∧ p.inFlightTotal < cli.workers)
    (hphase : p.phase = .dispatching) (hfree : saturated cli p visit.host = false)
    (hindexed : owner.stats.indexed = p.owner.stats.indexed) :
    Accounts lib cli (log ++ [entry]) (Process.spawn { p with owner } visit) := by
  have hflights : (flights (Process.spawn { p with owner } visit)).Perm
      ((visit.host, visit.job) :: flights p) := by
    show ((p.visits ++ [visit]).map _ ++ p.channel.map _).Perm _
    rw [List.map_append, List.append_assoc]
    exact List.perm_middle
  have hdispatched : dispatchedJobs [entry] = [visit.job] := by
    simp [dispatchedJobs, hevent]
  have habsorbed : absorbedJobs [entry] = [] := by
    simp [absorbedJobs, hevent]
  have hupdate : ∀ host, (Process.spawn { p with owner } visit).inFlight host
      = p.inFlight host + if visit.host = host then 1 else 0 := by
    intro host
    show Function.update p.inFlight visit.host (p.inFlight visit.host + 1) host = _
    rw [Function.update_apply]
    by_cases hsame : host = visit.host
    · rw [if_pos hsame, if_pos hsame.symm, hsame]
    · rw [if_neg hsame, if_neg fun hc => hsame hc.symm]
      rfl
  refine ⟨?_, ?_, ?_, ?_, ?_, ?_, ?_, ?_, ?_, ?_, ?_⟩
  · rw [pops_snoc, dispatchedJobs_snoc, hpopped, hdispatched, h.popped]
  · rw [dispatchedJobs_snoc, absorbedJobs_snoc, hdispatched, habsorbed, List.append_nil]
    have hmoved := (h.absorbed.append_right [visit.job]).trans
      ((List.perm_append_singleton _ _).trans List.perm_middle.symm)
    exact hmoved.trans ((hflights.map Prod.snd).symm.append_left _)
  · intro v hv outcome hdone
    rcases List.mem_append.mp hv with hv | hv
    · exact h.reports v hv outcome hdone
    · rw [List.mem_singleton.mp hv, hstage] at hdone
      cases hdone
  · intro flight hflight
    rcases List.mem_cons.mp (hflights.mem_iff.mp hflight) with rfl | hflight
    · exact hhost
    · exact h.hosts flight hflight
  · intro host
    rw [hupdate, h.counted, (hflights.map Prod.fst).count_eq, List.map_cons, List.count_cons]
    simp
  · show p.inFlightTotal + 1 = _
    rw [hflights.length_eq, List.length_cons, h.total]
  · exact hroom.2
  · intro host
    rw [hupdate]
    by_cases hsame : visit.host = host
    · -- the host had room for one more
      subst hsame
      simp only [saturated, decide_eq_false_iff_not, not_and, not_le] at hfree
      rw [if_pos rfl]
      by_cases hnone : p.inFlight visit.host = 0
      · omega
      · have hless := hfree hnone
        omega
    · rw [if_neg hsame]
      exact h.perHost host
  · intro hmax
    show owner.stats.indexed + (p.inFlightTotal + 1) ≤ _
    have hbelow := h.dispatching hmax hphase hroom.1
    rw [hindexed]
    omega
  · intro hmax _ _
    show owner.stats.indexed < _
    rw [hindexed]
    exact h.dispatching hmax hphase hroom.1
  · intro hc
    have hc' : p.phase = .closing := hc
    rw [hphase] at hc'
    cases hc'

/-- **Absorbing an outcome.** -/
theorem Accounts.finished (h : Accounts lib cli log p) {owner : Owner lib} {outcome : Outcome}
    {channel : List Outcome} {nowMs : ℤ} (hevent : entry.event = .absorbed nowMs outcome)
    (hpopped : entry.popped = []) (hchannel : p.channel = outcome :: channel)
    (hindexed : owner.stats.indexed ≤ p.owner.stats.indexed + 1) :
    Accounts lib cli (log ++ [entry])
      { p.bookkeep outcome with channel, phase := .absorbing, owner } := by
  generalize hp' : { p.bookkeep outcome with channel, phase := .absorbing, owner } = p'
  -- the one thing that happens: a flight leaves the channel, and all else is bookkeeping of it
  have hflights : (flights p).Perm ((outcome.host, outcome.job) :: flights p') := by
    rw [← hp', flights, hchannel, List.map_cons]
    exact List.perm_middle
  have hdispatched : dispatchedJobs [entry] = [] := by
    simp [dispatchedJobs, hevent]
  have habsorbed : absorbedJobs [entry] = [outcome.job] := by
    simp [absorbedJobs, hevent]
  have hcount : ∀ host, p.inFlight host
      = ((flights p').map Prod.fst).count host + if outcome.host = host then 1 else 0 := by
    intro host
    rw [h.counted, (hflights.map Prod.fst).count_eq, List.map_cons, List.count_cons]
    simp
  have htotal : p.inFlightTotal = (flights p').length + 1 := by
    rw [h.total, hflights.length_eq, List.length_cons]
  -- the host's count loses the flight the outcome reports, the other hosts' counts stay
  have hinFlight : ∀ host, p'.inFlight host = ((flights p').map Prod.fst).count host := by
    intro host
    have hcounted := hcount host
    have hupdate : p'.inFlight host
        = Function.update p.inFlight outcome.host (p.inFlight outcome.host - 1) host := by
      rw [← hp']
      rfl
    rw [hupdate, Function.update_apply]
    by_cases hsame : host = outcome.host
    · rw [if_pos hsame.symm] at hcounted
      rw [if_pos hsame, ← hsame, hcounted, Nat.add_sub_cancel]
    · rw [if_neg fun hc => hsame hc.symm] at hcounted
      rw [if_neg hsame, hcounted]
      rfl
  have hless : p'.inFlightTotal = (flights p').length := by
    have hminus : p'.inFlightTotal = p.inFlightTotal - 1 := by
      rw [← hp']
      rfl
    rw [hminus, htotal, Nat.add_sub_cancel]
  have howner : p'.owner = owner ∧ p'.phase = .absorbing := by
    rw [← hp']
    exact ⟨rfl, rfl⟩
  refine ⟨?_, ?_, ?_, ?_, hinFlight, hless, ?_, ?_, ?_, ?_, ?_⟩
  · rw [pops_snoc, dispatchedJobs_snoc, hpopped, hdispatched, h.popped]
  · rw [dispatchedJobs_snoc, absorbedJobs_snoc, hdispatched, habsorbed, List.append_nil,
      List.append_assoc]
    exact h.absorbed.trans ((hflights.map Prod.snd).append_left _)
  · intro visit hvisit
    rw [← hp'] at hvisit
    exact h.reports visit hvisit
  · intro flight hflight
    exact h.hosts flight (hflights.mem_iff.mpr (List.mem_cons_of_mem _ hflight))
  · have hworkers := h.workers
    omega
  · intro host
    have hper := h.perHost host
    have hcounted := hcount host
    rw [hinFlight]
    omega
  · intro hmax
    have hbudget := h.budget hmax
    rw [howner.1]
    omega
  · intro _ hc
    rw [howner.2] at hc
    cases hc
  · intro hc
    rw [howner.2] at hc
    cases hc

/-! ### Steps -/

/-- A call that only pushes takes no job off the queue. -/
theorem Admitted.keeps (hlaws : UrlLaws lib.urls) {P : CrawlJob → Prop} {o : Owner lib}
    {jobs : List CrawlJob} {called : Called lib} (h : Admitted P o jobs called)
    (hwf : Wf lib.urls lib.codecs o.frontier) :
    pushedJobs lib called.2.frontier.db o.frontier.db = [] := by
  obtain ⟨o', hadmits, hdb, _⟩ := h
  rw [hdb]
  exact pushedJobs_eq_nil (hadmits.perm hlaws hwf).2.1

theorem absorb_keeps (hlaws : UrlLaws lib.urls) (faults : AbsorbFaults) {o : Owner lib}
    (hwf : Wf lib.urls lib.codecs o.frontier) (nowMs : ℤ) (outcome : Outcome) :
    pushedJobs lib (absorb cli faults o nowMs outcome).2.frontier.db o.frontier.db = [] := by
  obtain ⟨F, jobs, hqueue, hjobs⟩ := @absorb_admits lib cli faults o nowMs outcome
  have hnone := hjobs.keeps hlaws (hqueue.wf hwf)
  rw [pushedJobs, newEntries, hqueue.pending] at hnone
  exact hnone

/-- The job a pop hands out is the one that leaves the queue, and has a host. -/
theorem popReady_pops {F F' : Frontier} (hwf : Wf lib.urls lib.codecs F) {pop : Faults}
    {nowMs : ℤ} {skip : Str → Bool} {job : CrawlJob}
    (h : F.popReady lib.codecs pop nowMs 128 skip = some (.ok (some job), F')) :
    pushedJobs lib F'.db F.db = [job] ∧
      ∃ host, lib.urls.hostOf job.url = some host ∧ skip host = false := by
  rcases popReady_spec hwf h with ⟨hc, _⟩ | ⟨host, e, job', hjob, htook⟩
  · cases hc
  · cases hjob
    refine ⟨?_, host, (took_queue hwf htook).2.1, htook.ready.1⟩
    rw [pushedJobs, newEntries, htook.after.1, Store.filter_deleted _ htook.mem]
    simp only [List.filterMap_cons, List.filterMap_nil, htook.decoded]

/-- What is true once the loop has moved on. -/
theorem Moves.phaseOk {phase : Phase} {shuttingDown : Bool} (h : Moves cli p phase shuttingDown) :
    PhaseOk cli { p with phase, shuttingDown } := by
  cases h with
  | decided hphase hbudget =>
    refine ⟨fun hmax hdispatching hopen => ?_, fun hclosing => ?_⟩
    · show p.owner.stats.indexed < cli.maxPages
      have hopen' : shuttingDown = false := hopen
      rw [hopen', eq_comm, Bool.or_eq_false_iff, decide_eq_false_iff_not] at hbudget
      omega
    · show p.inFlightTotal = 0
      by_cases hidle : shuttingDown = true ∧ p.inFlightTotal = 0
      · exact hidle.2
      · have hclosing' : (if shuttingDown ∧ p.inFlightTotal = 0 then Phase.closing
            else .dispatching) = .closing := hclosing
        rw [if_neg hidle] at hclosing'
        cases hclosing'
  | finished hphase hidle =>
    exact ⟨fun _ hc => (by cases hc), fun _ => hidle⟩
  | _ => exact ⟨fun _ hc => (by cases hc), fun hc => (by cases hc)⟩

/-- **Every step of a crawl keeps the accounts.** -/
theorem Accounts.step (hlaws : UrlLaws lib.urls) {a b : System lib} (hsound : SoundIn lib a)
    (h : ∀ p, a.process = some p → Accounts lib cli log p) (hturn : Turn cli a entry.event b)
    (hne : entry.event ≠ .started) (hpopped : entry.popped = pushedJobs lib b.database a.database) :
    ∀ p, b.process = some p → Accounts lib cli (log ++ [entry]) p := by
  obtain ⟨event, pushed, popped⟩ := entry
  dsimp only at hturn hne hpopped
  have hsame : ∀ p, a.process = some p → b.database = p.owner.frontier.db → popped = [] := by
    intro p hon hdb
    rw [hpopped, hdb, System.database, hon]
    exact pushedJobs_eq_nil fun _ he => he
  cases hturn with
  | notStarted hoff =>
    intro q hq
    exact absurd hq (by simp [hoff])
  | started => exact absurd rfl hne
  | killed hon => exact fun q hq => by cases hq
  | closed hon _ => exact fun q hq => by cases hq
  | @moved p phase shuttingDown hon hmoves =>
    intro q hq
    cases hq
    have hp := h p hon
    exact hp.pass rfl (hsame p hon rfl) (List.Perm.refl _) hp.reports rfl rfl rfl hmoves.phaseOk
  | @seeded p seed rest faults hon hphase =>
    have hp := h p hon
    obtain ⟨jobs, hjobs⟩ := queueSeed_admits faults p.owner seed
    have hkeeps := hjobs.keeps hlaws (hsound.on p hon).wf
    have hindexed : (queueSeed faults p.owner seed).2.stats.indexed = p.owner.stats.indexed := by
      rw [queueSeed]
      split
      · rfl
      · exact (enqueue_archive _ _ _).2
    rcases hcall : queueSeed faults p.owner seed with ⟨_ | _, owner⟩
    · exact fun q hq => by cases hq
    · intro q hq
      cases hq
      rw [hcall] at hkeeps hindexed hpopped
      refine hp.pass rfl ?_ (List.Perm.refl _) hp.reports rfl rfl hindexed
        ⟨fun _ hc => (by cases hc), fun hc => (by cases hc)⟩
      rw [hpopped, System.database, System.database, hon]
      exact hkeeps
  | popFailed hon => exact fun q hq => by cases hq
  | @poppedNone p frontier nowMs pop hon hnow hopen hpop =>
    intro q hq
    cases hq
    have hp := h p hon
    rcases popReady_spec (hsound.on p hon).wf hpop with ⟨_, hF, _⟩ | ⟨_, _, _, hc, _⟩
    · refine hp.pass rfl (hsame p hon ?_) (List.Perm.refl _) hp.reports rfl rfl rfl
        ⟨fun _ hc => (by cases hc), fun hc => (by cases hc)⟩
      show frontier.db = _
      rw [hF]
    · cases hc
  | @passedOver p frontier nowMs pop job hon hnow hopen hpop hhost =>
    -- only jobs with a host are in the queue
    obtain ⟨_, host, hsome, _⟩ := popReady_pops (hsound.on p hon).wf hpop
    rw [hhost] at hsome
    cases hsome
  | @dispatched p frontier nowMs pop get job host cachedRules hon hnow hphase hroom hpop
      hhost hget =>
    intro q hq
    cases hq
    obtain ⟨hjob, host', hhost', hfree⟩ := popReady_pops (hsound.on p hon).wf hpop
    rw [hhost] at hhost'
    cases hhost'
    refine (h p hon).dispatched rfl ?_ rfl hhost hroom hphase hfree rfl
    rw [hpopped, System.database, System.database, hon]
    exact hjob
  | @checked p i visit answer hon hvisit hstage =>
    intro q hq
    cases hq
    have hp := h p hon
    refine hp.pass ?_ (hsame p hon rfl) ?_ ?_ rfl rfl rfl ⟨hp.dispatching, hp.closing⟩
    · dsimp only
      split <;> rfl
    · rw [flights_moveVisit hvisit]
    · intro v hv outcome hdone
      rcases List.mem_or_eq_of_mem_set hv with hv | rfl
      · exact hp.reports v hv outcome hdone
      · have hdone' : check lib visit (learn lib cli visit answer) = .done outcome := hdone
        rw [check] at hdone'
        split at hdone'
        · cases hdone'
          exact ⟨rfl, rfl⟩
        · cases hdone'
  | @fetched p i visit learned answer hon hvisit hstage =>
    intro q hq
    cases hq
    have hp := h p hon
    refine hp.pass rfl (hsame p hon rfl) ?_ ?_ rfl rfl rfl ⟨hp.dispatching, hp.closing⟩
    · rw [flights_moveVisit hvisit]
    · intro v hv outcome hdone
      rcases List.mem_or_eq_of_mem_set hv with hv | rfl
      · exact hp.reports v hv outcome hdone
      · cases hdone
        exact ⟨rfl, rfl⟩
  | @sent p i visit outcome hon hvisit hstage =>
    intro q hq
    cases hq
    have hp := h p hon
    obtain ⟨hhost, hjob⟩ := hp.reports visit (List.mem_of_getElem? hvisit) outcome hstage
    refine hp.pass rfl (hsame p hon rfl) ?_
      (fun v hv => hp.reports v (List.mem_of_mem_eraseIdx hv)) rfl rfl rfl
      ⟨hp.dispatching, hp.closing⟩
    obtain ⟨hi, hget⟩ := List.getElem?_eq_some_iff.mp hvisit
    have hperm := (List.getElem_cons_eraseIdx_perm hi).map
      fun visit : Visit => (visit.host, visit.job)
    rw [hget, List.map_cons] at hperm
    show ((p.visits.eraseIdx i).map _ ++ (p.channel ++ [outcome]).map _).Perm
      (p.visits.map _ ++ p.channel.map _)
    rw [List.map_append, List.map_singleton, hhost, hjob, ← List.append_assoc]
    refine (List.perm_append_singleton _ _).trans ?_
    rw [← List.cons_append]
    exact hperm.append_right _
  | @absorbed p nowMs faults outcome channel hon hnow hphase hchannel =>
    have hp := h p hon
    have hkeeps := @absorb_keeps lib cli hlaws faults _ (hsound.on p hon).wf nowMs outcome
    rcases hcall : absorb cli faults p.owner nowMs outcome with ⟨_ | _, owner⟩
    · exact fun q hq => by cases hq
    · intro q hq
      cases hq
      rw [hcall] at hkeeps hpopped
      refine hp.finished rfl ?_ hchannel ?_
      · rw [hpopped, System.database, System.database, hon]
        exact hkeeps
      · rw [(absorb_archive hcall).2]
        refine Nat.add_le_add_left ?_ _
        rw [archived]
        split
        · split
          · exact Nat.zero_le 1
          · exact Nat.le_refl 1
        · exact Nat.zero_le 1

/-- **The accounts are right in every state of a crawl.** -/
theorem crawl_accounts (hlaws : UrlLaws lib.urls) {s t : System lib} (h : Crawl cli s log t) :
    ∀ p, t.process = some p → Accounts lib cli log p := by
  refine h.invariant hlaws (I := fun log t => ∀ p, t.process = some p → Accounts lib cli log p) ?_ ?_
  · intro frontier reads hsound p hp
    cases hp
    exact ⟨rfl, List.Perm.refl _, fun _ hc => (by cases hc), fun _ hc => (by cases hc), fun _ => rfl,
      rfl, Nat.zero_le _, fun _ => Nat.zero_le _, fun _ => Nat.zero_le _, fun _ hc => (by cases hc),
      fun _ => rfl⟩
  · intro log a entry b hsound haccounts hturn hne _ hpopped _
    exact Accounts.step hlaws hsound haccounts hturn hne hpopped

/-! ### Shutting down -/

/-- The crawl is shutting down, or over. -/
def Closed (s : System lib) : Prop := ∀ p, s.process = some p → p.shuttingDown = true

/-- A step of a crawl that is shutting down pops nothing, and does not reopen it. -/
theorem Closed.step (hlaws : UrlLaws lib.urls) {a b : System lib} {e : Event}
    (hsound : SoundIn lib a) (h : Closed a) (hturn : Turn cli a e b) (hne : e ≠ .started) :
    Closed b ∧ pushedJobs lib b.database a.database = [] := by
  -- most turns do not touch the database at all
  have hsame : ∀ p, a.process = some p → b.database = p.owner.frontier.db →
      pushedJobs lib b.database a.database = [] := by
    intro p hon hdb
    rw [hdb, System.database, hon]
    exact pushedJobs_eq_nil fun _ he => he
  cases hturn with
  | @notStarted faults hoff =>
    refine ⟨fun p hp => absurd hp (by simp [hoff]), pushedJobs_eq_nil ?_⟩
    show ∀ e ∈ (System.database a).pending.entries, e ∈ (System.database { a with
      db := (Frontier.open faults a.db).2 }).pending.entries
    simp only [System.database, hoff]
    rw [(open_frame faults a.db).1]
    exact fun _ he => he
  | started => exact absurd rfl hne
  | killed hon => exact ⟨fun q hq => (by cases hq), hsame _ hon rfl⟩
  | closed hon _ => exact ⟨fun q hq => (by cases hq), hsame _ hon rfl⟩
  | @moved p phase shuttingDown hon hmoves =>
    refine ⟨fun q hq => ?_, hsame p hon rfl⟩
    cases hq
    have hshut := h p hon
    show shuttingDown = true
    cases hmoves with
    | decided hphase hbudget => rw [hbudget, hshut, Bool.true_or]
    | interrupted => rfl
    | _ => exact hshut
  | @seeded p seed rest faults hon hphase =>
    -- a seed may fail half way, but what it did before that only adds entries
    obtain ⟨jobs, hjobs⟩ := queueSeed_admits faults p.owner seed
    have hkeeps := hjobs.keeps hlaws (hsound.on p hon).wf
    rcases hcall : queueSeed faults p.owner seed with ⟨_ | _, owner⟩
    · rw [hcall] at hkeeps
      refine ⟨fun q hq => (by cases hq), ?_⟩
      rw [System.database, System.database, hon]
      exact hkeeps
    · rw [hcall] at hkeeps
      refine ⟨fun q hq => ?_, ?_⟩
      · cases hq
        exact h p hon
      · rw [System.database, System.database, hon]
        exact hkeeps
  | @popFailed p frontier nowMs hon hnow hopen hpop =>
    -- pops are only made while the crawl is not shutting down
    rw [h p hon] at hopen
    cases hopen
  | @poppedNone p frontier nowMs pop hon hnow hopen hpop =>
    rw [h p hon] at hopen
    cases hopen
  | @passedOver p frontier nowMs pop job hon hnow hopen hpop hhost =>
    rw [h p hon] at hopen
    cases hopen
  | @dispatched p frontier nowMs pop get job host cachedRules hon hnow hphase hroom =>
    have hshut := h p hon
    rw [hroom.1] at hshut
    cases hshut
  | @checked p i visit answer hon hvisit hstage =>
    refine ⟨fun q hq => ?_, hsame p hon rfl⟩
    cases hq
    exact h p hon
  | @fetched p i visit learned answer hon hvisit hstage =>
    refine ⟨fun q hq => ?_, hsame p hon rfl⟩
    cases hq
    exact h p hon
  | @sent p i visit outcome hon hvisit hstage =>
    refine ⟨fun q hq => ?_, hsame p hon rfl⟩
    cases hq
    exact h p hon
  | @absorbed p nowMs faults outcome channel hon hnow hphase hchannel =>
    -- as with a seed, an absorption that fails keeps the entries that were there
    have hkeeps := @absorb_keeps lib cli hlaws faults _ (hsound.on p hon).wf nowMs outcome
    rcases hcall : absorb cli faults p.owner nowMs outcome with ⟨_ | _, owner⟩
    · rw [hcall] at hkeeps
      refine ⟨fun q hq => (by cases hq), ?_⟩
      rw [System.database, System.database, hon]
      exact hkeeps
    · rw [hcall] at hkeeps
      refine ⟨fun q hq => ?_, ?_⟩
      · cases hq
        exact h p hon
      · rw [System.database, System.database, hon]
        exact hkeeps

/-- **Once a crawl is shutting down, no job leaves the queue.** -/
theorem closed_pops (hlaws : UrlLaws lib.urls) {a b : System lib} (hsound : SoundIn lib a)
    (h : Closed a)
    (hrun : Run (fun a entry b => LoggedStep cli a entry b ∧ entry.event ≠ .started) a log b) :
    pops log = [] := by
  refine (hrun.invariant_trace (I := fun log b => SoundIn lib b ∧ Closed b ∧ pops log = [])
    ⟨hsound, h, rfl⟩ ?_).2.2
  rintro log c entry d ⟨hsound, hclosed, hpops⟩ ⟨⟨hs, _, hpopped⟩, hne⟩
  obtain ⟨hclosed', hnone⟩ := hclosed.step hlaws hsound (step_turn hs) hne
  refine ⟨hsound.step hlaws (step_does hs), hclosed', ?_⟩
  rw [pops_snoc, hpops, hpopped, hnone]
  rfl

/-! ### What the counts say -/

/-- What the counts of a running crawl say about its jobs. -/
structure Accounted (lib : Libraries) (cli : Cli) (log : List Logged) (p : Process lib) :
    Prop where
  /-- Every popped job is dispatched. -/
  popped : pops log = dispatchedJobs log
  /-- What is in flight was dispatched, and is not yet absorbed. -/
  inFlight : (dispatchedJobs log).Perm (absorbedJobs log ++ inFlightJobs p)
  total : p.inFlightTotal = (inFlightJobs p).length
  sum : finsum p.inFlight = p.inFlightTotal
  workers : p.inFlightTotal ≤ cli.workers
  perHost : ∀ host, (inFlightJobs p).countP (fun job => lib.urls.hostOf job.url = some host)
    ≤ max 1 cli.perHostConcurrency
  /-- The run ends with every popped job absorbed, once for each pop. -/
  finished : p.phase = .closing → (pops log).Perm (absorbedJobs log)
  budget : 0 < cli.maxPages → p.owner.stats.indexed ≤ cli.maxPages - 1 + cli.workers

theorem Accounts.sum (h : Accounts lib cli log p) : finsum p.inFlight = p.inFlightTotal := by
  have hsupport : Function.support p.inFlight ⊆ ((flights p).map Prod.fst).toFinset := by
    intro host hhost
    rw [Function.mem_support, h.counted] at hhost
    rw [Finset.mem_coe, List.mem_toFinset]
    exact List.count_pos_iff.mp (Nat.pos_of_ne_zero hhost)
  rw [finsum_eq_sum_of_support_subset _ hsupport, h.total,
    ← List.length_map (f := (Prod.fst : Str × CrawlJob → Str)),
    ← List.sum_toFinset_count_eq_length]
  refine Finset.sum_congr rfl fun host _ => ?_
  exact (h.counted host).trans (List.countP_congr fun a _ => by simp)

theorem Accounts.accounted (h : Accounts lib cli log p) : Accounted lib cli log p where
  popped := h.popped
  inFlight := h.absorbed
  total := by rw [h.total, inFlightJobs, List.length_map]
  sum := h.sum
  workers := h.workers
  perHost host := by
    have hcount : (inFlightJobs p).countP (fun job => lib.urls.hostOf job.url = some host)
        = p.inFlight host := by
      rw [h.counted, inFlightJobs, List.countP_map, List.count, List.countP_map]
      refine List.countP_congr fun flight hflight => ?_
      simp [h.hosts flight hflight]
    rw [hcount]
    exact h.perHost host
  finished hphase := by
    have hnone : inFlightJobs p = [] := by
      have htotal := h.total
      rw [h.closing hphase, eq_comm, List.length_eq_zero_iff] at htotal
      rw [inFlightJobs, htotal]
      rfl
    have habsorbed := h.absorbed
    rw [hnone, List.append_nil] at habsorbed
    rw [h.popped]
    exact habsorbed
  budget hmax := by
    have hbudget := h.budget hmax
    omega

/-- **In every state of every crawl the counts are those of the jobs in flight**, within
their limits; a crawl that is shutting down pops nothing, and one that ends has absorbed
what it popped. -/
theorem dispatch_accounting (lib : Libraries) (cli : Cli) (hlaws : UrlLaws lib.urls)
    (s t : System lib) (log : List Logged) (h : Crawl cli s log t) :
    (∀ p, t.process = some p → Accounted lib cli log p) ∧
    (∀ p, t.process = some p → p.shuttingDown = true → ∀ more u,
      Run (fun a entry b => LoggedStep cli a entry b ∧ entry.event ≠ .started) t more u →
      pops more = []) := by
  refine ⟨fun p hp => (crawl_accounts hlaws h p hp).accounted, fun p hp hshut more u hrun => ?_⟩
  refine closed_pops hlaws (h.sound hlaws) (fun q hq => ?_) hrun
  rw [hp] at hq
  cases hq
  exact hshut

/-- Two seeds of one host are dispatched, and the first is absorbed. -/
def oneAbsorbed : List Choice :=
  List.replicate 2 (.seed noFaults) ++ [.go, .go, .go,
    .dispatch 1000 noFaults noFaults, .dispatch 1001 noFaults noFaults,
    .dispatch 1002 noFaults noFaults, .check 0 unavailable] ++ absorbOne 2000

theorem dispatch_accounting_sample : ∃ log, ∃ t : System plainLibraries, ∃ p,
    Crawl (plainCli ["http://b.c/".toList, "http://b.c/x".toList] 2) fresh log t ∧
    t.process = some p ∧ pops log = [homeJob, { pageJob with depth := 0 }] ∧
    absorbedJobs log = [homeJob] ∧ p.inFlightTotal = 1 ∧
    Accounted plainLibraries (plainCli ["http://b.c/".toList, "http://b.c/x".toList] 2) log p := by
  generalize hcli : plainCli ["http://b.c/".toList, "http://b.c/x".toList] 2 = cli
  have hcrawl : Crawl cli fresh
      (execLogged cli (startedFresh plainLibraries cli) oneAbsorbed).1
      (execLogged cli (startedFresh plainLibraries cli) oneAbsorbed).2 := by
    subst hcli
    exact crawl_exec (fun _ _ => trivial) rfl (by decide)
  subst hcli
  refine ⟨_, _, _, hcrawl, rfl, by decide, by decide, by decide, ?_⟩
  exact (dispatch_accounting plainLibraries _ plainUrls_laws _ _ _ hcrawl).1 _ rfl

end Crawler
