/-
The frontier's counters are exact.

How many jobs are queued and how many hosts are known is kept three times: in
memory, as two entries of the metadata, and by the column families themselves.
Opening the frontier counts the column families, and every call that succeeds
keeps the three equal (`Exact`).  Nothing is assumed about the entries of the
database: a pop drops a key that no host has, and counts it out.

* `open_exact`, `push_exact`, `popReady_exact`, `deferHost_exact` — one lemma for
  each call;
* `push_keeps_entries` — a push overwrites no entry;
* `counters_exact` — along every run from any database whose sequence counter is
  not behind.
-/
import MjlSearch.FrontierQueue

open Text Bytes CrawlDb Frontier Runs

namespace FrontierCounts

open FrontierQueue

variable {urls : UrlCrate} {codecs : FrontierCodecs} {faults : Faults} {F F' : Frontier}

/-- The sequence counter is not behind the sequence number of any key. -/
def Ahead (db : CrawlDb) (sequence : ℕ) : Prop :=
  ∀ e ∈ db.pending.entries, ∀ host n, n < 2 ^ 64 → e.1 = frontierKey host n → n ≤ sequence

/-- A database whose entries can be counted by a `u64`. -/
def Countable (db : CrawlDb) : Prop :=
  db.pending.entries.length < 2 ^ 64 ∧ db.hosts.entries.length < 2 ^ 64

/-- Every count is what it counts, in memory and as it is stored. -/
structure Exact (F : Frontier) : Prop where
  pending : F.pending = F.db.pending.entries.length
  hosts : F.hosts = F.db.hosts.entries.length
  storedPending : F.db.readCounter metaPendingCount = F.pending
  storedHosts : F.db.readCounter metaHostCount = F.hosts
  storedSequence : F.db.readCounter metaFrontierSeq = F.sequence
  ahead : Ahead F.db F.sequence
  countable : Countable F.db

theorem metaPendingCount_ne_host : metaPendingCount ≠ metaHostCount := by decide

/-- A key determines its sequence number. -/
theorem frontierKey_sequence {host host' : Str} {m n : ℕ} (hm : m < 2 ^ 64) (hn : n < 2 ^ 64)
    (h : frontierKey host m = frontierKey host' n) : m = n := by
  have hlength : (toBeBytes 8 m).length = (toBeBytes 8 n).length := by
    rw [toBeBytes_length, toBeBytes_length]
  rw [frontierKey, frontierKey, List.append_cons, List.append_cons (utf8 host')] at h
  exact (toBeBytes_inj (by omega) (by omega)).mp (List.append_inj_right' h hlength)

/-! ### Opening -/

/-- **Opening the frontier makes the counters exact**, whatever they said before. -/
theorem open_exact {db : CrawlDb} (hcountable : Countable db)
    (hahead : Ahead db (db.readCounter metaFrontierSeq))
    (h : (Frontier.open faults db).1 = .ok F) : Exact F := by
  rw [Frontier.open] at h
  dsimp only at h
  split at h
  · cases h
  · split at h
    · cases h
    · cases h
      refine ⟨rfl, rfl, ?_, ?_, ?_, hahead, hcountable⟩
      · rw [readCounter_writeCounter_of_ne _ _ metaPendingCount_ne_host]
        exact readCounter_writeCounter _ _ hcountable.1
      · exact readCounter_writeCounter _ _ hcountable.2
      · rw [readCounter_writeCounter_of_ne _ _ metaFrontierSeq_ne_host,
          readCounter_writeCounter_of_ne _ _ metaFrontierSeq_ne_pending]

/-! ### Popping -/

theorem forget_exact {turn : ℕ} {e : Key × Value} (hF : Exact F)
    (he : e ∈ F.db.pending.entries) (h : forget faults turn F e.1 = (.ok (), F')) : Exact F' := by
  have hlength : (F.db.pending.delete e.1).entries.length + 1 = F.db.pending.entries.length :=
    Store.length_delete he
  have hpending := hF.pending
  have hcountable := hF.countable.1
  rw [forget_ok h]
  refine ⟨?_, hF.hosts, ?_, ?_, ?_, ?_, ?_⟩
  · show F.pending - 1 = (F.db.pending.delete e.1).entries.length
    omega
  · exact readCounter_writeCounter _ _ (by omega)
  · rw [readCounter_writeCounter_of_ne _ _ metaPendingCount_ne_host.symm]
    exact hF.storedHosts
  · rw [readCounter_writeCounter_of_ne _ _ metaFrontierSeq_ne_pending]
    exact hF.storedSequence
  · exact fun e' he' => hF.ahead e' (Store.mem_delete.mp he').1
  · refine ⟨?_, hF.countable.2⟩
    show (F.db.pending.delete e.1).entries.length < 2 ^ 64
    omega

/-- **A pop that succeeds keeps the counters exact**, whatever keys it drops on its way. -/
theorem popReady_exact {nowMs : ℤ} {maxHostsPerCall : ℕ} {skip : Str → Bool}
    {result : Option CrawlJob} (hF : Exact F)
    (h : popReady codecs faults F nowMs maxHostsPerCall skip = some (.ok result, F')) :
    Exact F' :=
  popReady_keeps (fun _ _ _ _ he hG hcall => forget_exact hG he hcall) h hF

/-! ### Pushing -/

/-- The steps of a push that succeeds. -/
theorem push_steps {job : CrawlJob} (h : Frontier.push urls codecs faults F job = (.ok (), F')) :
    ∃ host known db, urls.hostOf job.url = some host ∧
      hostState codecs faults 0 F.db host = .ok known ∧
      (F.advance known.isNone).sequence < 2 ^ 64 ∧ (F.advance known.isNone).pending < 2 ^ 64 ∧
      (F.advance known.isNone).hosts < 2 ^ 64 ∧
      pushBatch codecs faults (F.advance known.isNone) host known.isNone job = .ok db ∧
      F' = { F.advance known.isNone with db } := by
  rw [push] at h
  rcases hhost : urls.hostOf job.url with _ | host
  · rw [hhost] at h
    cases h
  · rw [hhost] at h
    dsimp only at h
    rcases hknown : hostState codecs faults 0 F.db host with e | known
    · rw [hknown] at h
      cases h
    · rw [hknown] at h
      dsimp only at h
      split at h
      · rename_i hfits
        rcases hbatch : pushBatch codecs faults (F.advance known.isNone) host known.isNone job
          with e | db
        · rw [hbatch] at h
          cases h
        · rw [hbatch] at h
          cases h
          exact ⟨host, known, db, rfl, hknown, hfits.1, hfits.2.1, hfits.2.2, hbatch, rfl⟩
      · cases h

/-- A host is new iff nothing is stored under its name. -/
theorem hostState_known {turn : ℕ} {db : CrawlDb} {host : Str} {known : Option HostState}
    (h : hostState codecs faults turn db host = .ok known) :
    known.isNone = true ↔ db.hosts.get (utf8 host) = none := by
  rw [hostState] at h
  obtain ⟨_, _, h⟩ := bind_ok h
  obtain ⟨_, _, h⟩ := bind_ok h
  rcases hget : db.hosts.get (utf8 host) with _ | bytes
  · rw [hget] at h
    cases h
    simp
  · rw [hget] at h
    dsimp only at h
    rcases hdecode : codecs.hostState.decode bytes with _ | state
    · rw [hdecode] at h
      cases h
    · rw [hdecode] at h
      cases h
      simp

/-- The counts a push's batch stores. -/
theorem pushBatch_counts {host : Str} {isNewHost : Bool} {job : CrawlJob} {db : CrawlDb}
    (hpending : F.pending < 2 ^ 64) (hhosts : F.hosts < 2 ^ 64)
    (h : pushBatch codecs faults F host isNewHost job = .ok db) :
    db.readCounter metaPendingCount = F.pending ∧
      db.readCounter metaHostCount
        = if isNewHost then F.hosts else F.db.readCounter metaHostCount := by
  rw [pushBatch] at h
  obtain ⟨value, _, h⟩ := bind_ok h
  obtain ⟨_, _, h⟩ := bind_ok h
  obtain ⟨_, _, h⟩ := bind_ok h
  obtain ⟨db', hdb, h⟩ := bind_ok h
  obtain ⟨_, _, h⟩ := bind_ok h
  cases h
  rw [pushHost] at hdb
  rcases isNewHost with _ | _
  · cases hdb
    refine ⟨readCounter_writeCounter _ _ hpending, ?_⟩
    rw [readCounter_writeCounter_of_ne _ _ metaPendingCount_ne_host.symm,
      readCounter_writeCounter_of_ne _ _ metaFrontierSeq_ne_host.symm]
    rfl
  · rw [if_pos rfl] at hdb
    obtain ⟨state, _, hdb⟩ := bind_ok hdb
    obtain ⟨_, _, hdb⟩ := bind_ok hdb
    cases hdb
    refine ⟨?_, readCounter_writeCounter _ _ hhosts⟩
    rw [readCounter_writeCounter_of_ne _ _ metaPendingCount_ne_host]
    exact readCounter_writeCounter _ _ hpending

/-- The next key is not in use. -/
theorem Exact.next_unused (hF : Exact F) (hfit : F.sequence + 1 < 2 ^ 64) (host : Str) :
    ∀ e ∈ F.db.pending.entries, e.1 ≠ frontierKey host (F.sequence + 1) := by
  intro e he hkey
  have hle := hF.ahead e he host (F.sequence + 1) hfit hkey
  omega

/-- **A push that succeeds keeps the counters exact.** -/
theorem push_exact {job : CrawlJob} (hF : Exact F)
    (h : Frontier.push urls codecs faults F job = (.ok (), F')) : Exact F' := by
  obtain ⟨host, known, db, _, hknown, hsequence, hpending, hhosts, hbatch, rfl⟩ := push_steps h
  obtain ⟨value, _, hput, _, hseq, hnew⟩ := pushBatch_ok hbatch
  obtain ⟨hstoredPending, hstoredHosts⟩ := pushBatch_counts hpending hhosts hbatch
  have hfit : F.sequence + 1 < 2 ^ 64 := hsequence
  have hlength : db.pending.entries.length = F.db.pending.entries.length + 1 := by
    rw [hput]
    exact Store.length_put_new _ (Store.get_eq_none_iff.mpr (hF.next_unused hfit host))
  have hhostsLength : (F.advance known.isNone).hosts = db.hosts.entries.length ∧
      db.readCounter metaHostCount = (F.advance known.isNone).hosts := by
    rcases hisNew : known.isNone with _ | _
    · -- the host is known: neither its entry nor its count changes
      rw [hisNew] at hnew hstoredHosts
      rw [show db.hosts = F.db.hosts from hnew]
      exact ⟨hF.hosts, hstoredHosts.trans hF.storedHosts⟩
    · rw [hisNew] at hnew hstoredHosts
      obtain ⟨state, _, hstate⟩ := hnew
      have hnone : F.db.hosts.get (utf8 host) = none := (hostState_known hknown).mp hisNew
      refine ⟨?_, hstoredHosts⟩
      rw [show db.hosts = F.db.hosts.put (utf8 host) state from hstate,
        Store.length_put_new _ hnone, ← hF.hosts]
      rfl
  refine ⟨?_, hhostsLength.1, hstoredPending, hhostsLength.2, hseq hsequence, ?_, ?_⟩
  · show F.pending + 1 = db.pending.entries.length
    rw [hlength, hF.pending]
  · intro e he host' n hn hkey
    rw [show db.pending = F.db.pending.put (frontierKey host (F.sequence + 1)) value from hput,
      Store.mem_put] at he
    rcases he with rfl | ⟨he, _⟩
    · exact (frontierKey_sequence hn hfit hkey.symm).le
    · exact Nat.le_succ_of_le (hF.ahead e he host' n hn hkey)
  · refine ⟨?_, ?_⟩
    · show db.pending.entries.length < 2 ^ 64
      rw [hlength, ← hF.pending]
      exact hpending
    · show db.hosts.entries.length < 2 ^ 64
      rw [← hhostsLength.1]
      exact hhosts

/-- **A push overwrites no entry.** -/
theorem push_keeps_entries {job : CrawlJob} (hF : Exact F)
    (h : Frontier.push urls codecs faults F job = (.ok (), F')) :
    ∀ e ∈ F.db.pending.entries, e ∈ F'.db.pending.entries := by
  obtain ⟨host, value, _, _, hfit, _, _, hput⟩ := push_ok h
  intro e he
  rw [hput, Store.mem_put]
  exact Or.inr ⟨he, hF.next_unused hfit host e he⟩

/-! ### Deferring -/

/-- The hosts of jobs pushed earlier are known. -/
def KnowsHosts (urls : UrlCrate) (ops : List Op) (F : Frontier) : Prop :=
  ∀ job ∈ pushed ops, ∀ host, urls.hostOf job.url = some host →
    F.db.hosts.get (utf8 host) ≠ none

/-- Only hosts of jobs that were pushed before are deferred. -/
def DefersPushed (urls : UrlCrate) (ops : List Op) : Prop :=
  ∀ before host untilMs fetchedAtMs after, ops = before ++ .defer host untilMs fetchedAtMs :: after →
    ∃ job ∈ pushed before, urls.hostOf job.url = some host

/-- **Deferring a known host keeps the counters exact.** -/
theorem deferHost_exact {host : Str} {untilMs fetchedAtMs : ℤ} (hF : Exact F)
    (hhost : F.db.hosts.get (utf8 host) ≠ none)
    (h : deferHost codecs faults F host untilMs fetchedAtMs = .ok F') : Exact F' := by
  obtain ⟨value, _, rfl⟩ := deferHost_ok h
  obtain ⟨old, hold⟩ := Option.ne_none_iff_exists'.mp hhost
  have hlength : (F.db.hosts.put (utf8 host) value).entries.length
      = F.db.hosts.entries.length := Store.length_put_known _ hold
  refine ⟨hF.pending, ?_, hF.storedPending, hF.storedHosts, hF.storedSequence, hF.ahead,
    hF.countable.1, ?_⟩
  · rw [hF.hosts, ← hlength]
  · show (F.db.hosts.put (utf8 host) value).entries.length < 2 ^ 64
    rw [hlength]
    exact hF.countable.2

/-! ### Runs -/

theorem open_hosts {db : CrawlDb} (h : (Frontier.open faults db).1 = .ok F) :
    F.db.hosts = db.hosts := by
  rw [Frontier.open] at h
  dsimp only at h
  split at h
  · cases h
  · split at h
    · cases h
    · cases h
      rfl

theorem popReady_hosts {nowMs : ℤ} {maxHostsPerCall : ℕ} {skip : Str → Bool}
    {result : Option CrawlJob}
    (h : popReady codecs faults F nowMs maxHostsPerCall skip = some (.ok result, F')) :
    F'.db.hosts = F.db.hosts := by
  refine popReady_keeps (P := fun G => G.db.hosts = F.db.hosts) ?_ h rfl
  intro turn G G' e _ hG hcall
  rw [forget_ok hcall]
  exact hG

theorem pushed_concat (ops : List Op) (op : Op) : pushed (ops ++ [op]) = pushed ops ++ pushed [op] :=
  List.filterMap_append

/-- A host that is known stays known, and the host of a pushed job becomes known. -/
theorem KnowsHosts.step {ops : List Op} {op : Op} (hF : KnowsHosts urls ops F)
    (h : Step urls codecs F op F') : KnowsHosts urls (ops ++ [op]) F' := by
  intro job hjob host hhost
  rw [pushed_concat, List.mem_append] at hjob
  have hput : ∀ {key : Key} (value : Value), F.db.hosts.get (utf8 host) ≠ none →
      (F.db.hosts.put key value).get (utf8 host) ≠ none := by
    intro key value hsome
    by_cases hkey : utf8 host = key
    · rw [hkey, Store.get_put_self]
      simp
    · rwa [Store.get_put_of_ne _ _ hkey]
  cases h with
  | @push _ job' _ hpush =>
    obtain ⟨host', known, db, hhost', hknown, _, _, _, hbatch, rfl⟩ := push_steps hpush
    obtain ⟨_, _, _, _, _, hnew⟩ := pushBatch_ok hbatch
    show db.hosts.get (utf8 host) ≠ none
    rcases hisNew : known.isNone with _ | _
    · -- the host was known before
      rw [hisNew] at hnew
      rw [show db.hosts = F.db.hosts from hnew]
      rcases hjob with hjob | hjob
      · exact hF job hjob host hhost
      · obtain rfl : job = job' := by simpa [pushed] using hjob
        obtain rfl : host' = host := Option.some.inj (hhost'.symm.trans hhost)
        intro hnone
        rw [(hostState_known hknown).mpr hnone] at hisNew
        cases hisNew
    · rw [hisNew] at hnew
      obtain ⟨state, _, hstate⟩ := hnew
      rw [show db.hosts = F.db.hosts.put (utf8 host') state from hstate]
      rcases hjob with hjob | hjob
      · exact hput state (hF job hjob host hhost)
      · obtain rfl : job = job' := by simpa [pushed] using hjob
        obtain rfl : host' = host := Option.some.inj (hhost'.symm.trans hhost)
        rw [Store.get_put_self]
        simp
  | pop hpop =>
    rw [popReady_hosts hpop]
    exact hF job (hjob.resolve_right (by simp [pushed])) host hhost
  | defer hdefer =>
    obtain ⟨value, _, rfl⟩ := deferHost_ok hdefer
    exact hput value (hF job (hjob.resolve_right (by simp [pushed])) host hhost)
  | reopen hopen =>
    rw [open_hosts hopen]
    exact hF job (hjob.resolve_right (by simp [pushed])) host hhost

/-- **One successful call keeps the counters exact.** -/
theorem step_exact {op : Op} (hF : Exact F) (h : Step urls codecs F op F')
    (hknown : ∀ host untilMs fetchedAtMs, op = .defer host untilMs fetchedAtMs →
      F.db.hosts.get (utf8 host) ≠ none) : Exact F' := by
  cases h with
  | push hpush => exact push_exact hF hpush
  | pop hpop => exact popReady_exact hF hpop
  | defer hdefer => exact deferHost_exact hF (hknown _ _ _ rfl) hdefer
  | reopen hopen =>
    refine open_exact hF.countable ?_ hopen
    rw [hF.storedSequence]
    exact hF.ahead

theorem run_exact {F₀ : Frontier} {ops : List Op} (h₀ : Exact F₀)
    (h : Run (Step urls codecs) F₀ ops F) :
    DefersPushed urls ops → Exact F ∧ KnowsHosts urls ops F := by
  refine h.invariant_trace
    (I := fun ops F => DefersPushed urls ops → Exact F ∧ KnowsHosts urls ops F) ?_ ?_
  · intro _
    exact ⟨h₀, by simp [KnowsHosts, pushed]⟩
  · intro ops G op G' ih hstep hdefers
    obtain ⟨hG, hknows⟩ := ih fun before host untilMs fetchedAtMs after hsplit =>
      hdefers before host untilMs fetchedAtMs (after ++ [op]) (by rw [hsplit]; simp)
    refine ⟨step_exact hG hstep ?_, hknows.step hstep⟩
    rintro host untilMs fetchedAtMs rfl
    obtain ⟨job, hjob, hhost⟩ := hdefers ops host untilMs fetchedAtMs [] rfl
    exact hknows job hjob host hhost

/-- **The counters are exact after every call.**  From any database whose sequence counter
is not behind its keys, whatever its two counts say, along every run of successful calls
that defers only hosts of pushed jobs; and no push overwrites an entry. -/
theorem counters_exact (urls : UrlCrate) (codecs : FrontierCodecs) (db : CrawlDb)
    (hcountable : Countable db) (hahead : Ahead db (db.readCounter metaFrontierSeq))
    (faults : Faults) (F₀ : Frontier) (hopen : (Frontier.open faults db).1 = .ok F₀)
    (ops : List Op) (F : Frontier) (hrun : Run (Step urls codecs) F₀ ops F)
    (hdefers : DefersPushed urls ops) :
    Exact F ∧ ∀ faults job F', Frontier.push urls codecs faults F job = (.ok (), F') →
      ∀ e ∈ F.db.pending.entries, e ∈ F'.db.pending.entries := by
  have hexact := (run_exact (open_exact hcountable hahead hopen) hrun hdefers).1
  exact ⟨hexact, fun faults job F' hpush => push_keeps_entries hexact hpush⟩

/-- A database with a key that no host has, and with counts that have drifted. -/
def driftedDb : CrawlDb :=
  ({ CrawlDb.empty with pending := Store.empty.put [7] [0] }.writeCounter metaPendingCount
    9999).writeCounter metaHostCount 9999

/-- The frontier that opening it gives. -/
def driftedFrontier : Frontier :=
  { db := (driftedDb.writeCounter metaPendingCount 1).writeCounter metaHostCount 0
    sequence := 0, pending := 1, hosts := 0 }

/-- A push, a pop that drops the key on its way, a deferral and a reopening. -/
def driftedOps : List Op :=
  [.push homeJob, .pop 0 128 (fun _ => false) (some homeJob), .defer "b.c".toList 1000 0, .reopen]

theorem driftedOps_run :
    ∃ F, Run (Step plainUrls Postcard.frontierCodecs) driftedFrontier driftedOps F := by
  have hcall : (Frontier.push plainUrls Postcard.frontierCodecs noFaults driftedFrontier
      homeJob).1 = .ok () := by
    decide
  have hpush : Step plainUrls Postcard.frontierCodecs driftedFrontier (.push homeJob)
      (pushedOnto driftedFrontier homeJob) := Step.push (Prod.ext hcall rfl)
  have hpop : (popReady Postcard.frontierCodecs noFaults (pushedOnto driftedFrontier homeJob) 0 128
      fun _ => false).map Prod.fst = some (.ok (some homeJob)) := by
    decide
  obtain ⟨⟨_, F⟩, hpop, rfl⟩ := Option.map_eq_some_iff.mp hpop
  have hdefer : deferHost Postcard.frontierCodecs noFaults F "b.c".toList 1000 0 = .ok _ := rfl
  have hreopen : ∀ db, (Frontier.open noFaults db).1 = .ok _ := fun _ => rfl
  exact ⟨_, Run.cons hpush (Run.cons (Step.pop hpop) (Run.cons (Step.defer hdefer)
    (Run.single (Step.reopen (hreopen _)))))⟩

/-- A run on that database ends with exact counters. -/
theorem counters_exact_sample : ∃ F : Frontier,
    Run (Step plainUrls Postcard.frontierCodecs) driftedFrontier driftedOps F ∧ Exact F := by
  obtain ⟨F, hrun⟩ := driftedOps_run
  refine ⟨F, hrun, (counters_exact plainUrls Postcard.frontierCodecs driftedDb ⟨by decide, by decide⟩ ?_
    noFaults driftedFrontier rfl driftedOps F hrun ?_).1⟩
  · intro e he host n hn hkey
    obtain rfl : e = ([7], [0]) := List.mem_singleton.mp he
    have hlength := congrArg List.length hkey
    simp [frontierKey, toBeBytes_length] at hlength
  · -- the one host deferred is that of the job pushed first
    intro before host untilMs fetchedAtMs after hsplit
    have hmem : Op.defer host untilMs fetchedAtMs ∈ driftedOps := by
      rw [hsplit]
      simp
    have hhost : host = "b.c".toList := by
      simp only [driftedOps, List.mem_cons, reduceCtorEq, Op.defer.injEq, List.not_mem_nil,
        or_false, false_or] at hmem
      exact hmem.1
    rcases before with _ | ⟨first, before⟩
    · cases hsplit
    · obtain rfl : Op.push homeJob = first := (List.cons.inj hsplit).1
      refine ⟨homeJob, List.mem_cons_self, ?_⟩
      rw [hhost]
      decide

end FrontierCounts
