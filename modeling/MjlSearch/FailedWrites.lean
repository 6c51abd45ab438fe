/-
What a failed call leaves of the frontier.

A push advances the counts in memory before it encodes and writes its batch, and a removal
takes one off before it writes.  When one of these fails the database is as it was, and
the counts in memory are not taken back.

* `push_failed` — a push that fails: before its counts advance, or after;
* `scan_failed` — a pop that fails has removed keys without a host, in batches, and nothing
  else;
* `failed_calls_iff` — the counters are exact after a failure iff what failed was not a
  batch;
* `failed_write_counts` — a failed write counts a job that is not stored.
-/
import MjlSearch.FrontierCounts

open Text Bytes CrawlDb Frontier

namespace FailedWrites

open FrontierCounts FrontierQueue

/-- The push stops before its counts advance: the job has no host, or the state of its host
cannot be read. -/
def StopsBeforeCounting (urls : UrlCrate) (codecs : FrontierCodecs) (faults : Faults)
    (F : Frontier) (job : CrawlJob) : Prop :=
  ∀ host, urls.hostOf job.url = some host →
    ∃ e, hostState codecs faults 0 F.db host = .error e

/-- The turns of a pop in which it removes an entry of `queued`, if the removals before are
written.  The hosts are those of `db`. -/
def removals (codecs : FrontierCodecs) (faults : Faults) (nowMs : ℤ) (maxHostsPerCall : ℕ)
    (skip : Str → Bool) (db : CrawlDb) :
    ℕ → ℕ → Option Key → ℕ → Store Key Value → List ℕ
  | 0, _, _, _, _ => []
  | fuel + 1, turn, cursor, examined, queued =>
    if maxHostsPerCall ≤ examined then []
    else if faults.iterate turn then []
    else
      match queued.seek (cursor.getD []) with
      | none => []
      | some (key, value) =>
        match frontierKeyHost key with
        | none =>
          turn :: removals codecs faults nowMs maxHostsPerCall skip db fuel (turn + 1) cursor
            examined (queued.delete key)
        | some hostBytes =>
          let host := fromUtf8Lossy hostBytes
          if skip host then
            removals codecs faults nowMs maxHostsPerCall skip db fuel (turn + 1)
              (some (cursorAfter hostBytes)) (examined + 1) queued
          else
            match hostState codecs faults turn db host with
            | .error _ => []
            | .ok state =>
              if nowMs < (state.getD default).nextAllowedAtMs then
                removals codecs faults nowMs maxHostsPerCall skip db fuel (turn + 1)
                  (some (cursorAfter hostBytes)) (examined + 1) queued
              else
                match codecs.job.decode value with
                | none => []
                | some _ => [turn]

/-- The batch of a removal can be written. -/
def Written (faults : Faults) (turn : ℕ) : Prop :=
  faults.missing .metadata = false ∧ faults.write turn = false

/-- Every removal that the pop comes to is written. -/
def RemovalsWritten (codecs : FrontierCodecs) (faults : Faults) (F : Frontier) (nowMs : ℤ)
    (maxHostsPerCall : ℕ) (skip : Str → Bool) : Prop :=
  faults.missing .frontierPending = false →
    ∀ t ∈ removals codecs faults nowMs maxHostsPerCall skip F.db
      (maxHostsPerCall + F.db.pending.entries.length + 1) 0 none 0 F.db.pending,
      Written faults t

/-- Only keys without a host are gone, and the counters are as they were but for the count
of the entries, which was written with each of them. -/
structure OnlyDropped (db db' : CrawlDb) : Prop where
  kept : ∀ e ∈ db'.pending.entries, e ∈ db.pending.entries
  gone : ∀ e ∈ db.pending.entries, e ∉ db'.pending.entries → frontierKeyHost e.1 = none
  hosts : db'.hosts = db.hosts
  robots : db'.robots = db.robots
  sequence : db'.readCounter metaFrontierSeq = db.readCounter metaFrontierSeq
  hostCount : db'.readCounter metaHostCount = db.readCounter metaHostCount
  pendingCount : db'.readCounter metaPendingCount = db'.pending.entries.length

variable {urls : UrlCrate} {codecs : FrontierCodecs} {faults : Faults} {F F' : Frontier}

/-! ### Pushing -/

/-- **A push that fails.** -/
theorem push_failed {job : CrawlJob} {e : CrawlError}
    (h : Frontier.push urls codecs faults F job = (.error e, F')) :
    (F' = F ∧ StopsBeforeCounting urls codecs faults F job) ∨
      ∃ isNewHost, F' = F.advance isNewHost ∧ ¬ StopsBeforeCounting urls codecs faults F job := by
  rw [Frontier.push] at h
  rcases hhost : urls.hostOf job.url with _ | host
  · rw [hhost] at h
    cases h
    refine .inl ⟨rfl, fun host hc => ?_⟩
    rw [hhost] at hc
    cases hc
  · rw [hhost] at h
    dsimp only at h
    rcases hknown : hostState codecs faults 0 F.db host with e' | known
    · rw [hknown] at h
      cases h
      refine .inl ⟨rfl, fun host' hc => ?_⟩
      rw [hhost] at hc
      cases hc
      exact ⟨_, hknown⟩
    · -- the counters are ahead from here on, whatever becomes of the batch
      have hcounts : ¬ StopsBeforeCounting urls codecs faults F job := by
        intro hstops
        obtain ⟨e', herror⟩ := hstops host hhost
        rw [hknown] at herror
        cases herror
      rw [hknown] at h
      dsimp only at h
      split at h
      · split at h
        · cases h
          exact .inr ⟨_, rfl, hcounts⟩
        · cases h
      · cases h
        exact .inr ⟨_, rfl, hcounts⟩

/-- A job that is counted and not stored leaves the sequence number ahead of the stored one. -/
theorem advance_not_exact (hF : Exact F) (isNewHost : Bool) : ¬ Exact (F.advance isNewHost) := by
  intro hc
  have hstored : F.db.readCounter metaFrontierSeq = F.sequence + 1 := hc.storedSequence
  rw [hF.storedSequence] at hstored
  omega

/-! ### Popping -/

/-- A removal is written, or fails and has only counted. -/
theorem forget_cases (turn : ℕ) (F : Frontier) (key : Key)
    (hpending : faults.missing .frontierPending = false) :
    (Written faults turn ∧ ∃ F', forget faults turn F key = (.ok (), F')) ∨
      (¬ Written faults turn ∧
        ∃ e, forget faults turn F key = (.error e, { F with pending := F.pending - 1 })) := by
  rcases hmeta : faults.missing .metadata with _ | _
  · rcases hwrite : faults.write turn with _ | _
    · refine .inl ⟨⟨hmeta, hwrite⟩, ?_⟩
      simp [forget, resolve, call, hpending, hmeta, hwrite, bind, Except.bind]
    · refine .inr ⟨fun hc => ?_, ?_⟩
      · rw [hc.2] at hwrite
        cases hwrite
      · simp [forget, resolve, call, hpending, hmeta, hwrite, bind, Except.bind]
  · refine .inr ⟨fun hc => ?_, ?_⟩
    · rw [hc.1] at hmeta
      cases hmeta
    · simp [forget, resolve, hpending, hmeta, bind, Except.bind]

/-- An entry that is counted out and still stored. -/
theorem counted_out_not_exact (hF : Exact F) {e : Key × Value}
    (he : e ∈ F.db.pending.entries) : ¬ Exact { F with pending := F.pending - 1 } := by
  intro hc
  have hcount : F.pending - 1 = F.db.pending.entries.length := hc.pending
  have hbefore := hF.pending
  have hsome := List.length_pos_of_mem he
  omega

theorem OnlyDropped.refl (hF : Exact F) : OnlyDropped F.db F.db :=
  ⟨fun _ he => he, fun _ he hc => absurd he hc, rfl, rfl, rfl, rfl,
    hF.storedPending.trans hF.pending⟩

theorem OnlyDropped.trans {db db' db'' : CrawlDb} (h : OnlyDropped db db')
    (h' : OnlyDropped db' db'') : OnlyDropped db db'' := by
  refine ⟨fun e he => h.kept e (h'.kept e he), fun e he hgone => ?_, h'.hosts.trans h.hosts,
    h'.robots.trans h.robots, h'.sequence.trans h.sequence, h'.hostCount.trans h.hostCount,
    h'.pendingCount⟩
  by_cases hthere : e ∈ db'.pending.entries
  · exact h'.gone e hthere hgone
  · exact h.gone e he hthere

/-- Removing a key without a host. -/
theorem OnlyDropped.forget {turn : ℕ} {e : Key × Value} (hF : Exact F)
    (he : e ∈ F.db.pending.entries) (hkey : frontierKeyHost e.1 = none)
    (h : forget faults turn F e.1 = (.ok (), F')) : OnlyDropped F.db F'.db := by
  have hexact := forget_exact hF he h
  have hcount := hexact.storedPending.trans hexact.pending
  rw [forget_ok h] at hcount ⊢
  refine ⟨fun a ha => (Store.mem_delete.mp ha).1, fun a ha hgone => ?_, rfl, rfl, ?_, ?_, hcount⟩
  · have hsame : a.1 = e.1 := by
      by_contra hne
      exact hgone (Store.mem_delete.mpr ⟨ha, hne⟩)
    rw [hsame]
    exact hkey
  · exact readCounter_writeCounter_of_ne _ _ metaFrontierSeq_ne_pending
  · exact readCounter_writeCounter_of_ne _ _ metaPendingCount_ne_host.symm

theorem hostState_congr {db db' : CrawlDb} (h : db'.hosts = db.hosts) (turn : ℕ) (host : Str) :
    hostState codecs faults turn db' host = hostState codecs faults turn db host := by
  rw [hostState, hostState, h]

/-- **A pop that fails** has only dropped keys without a host, and the counters are exact iff
every removal it came to was written. -/
theorem scan_failed (hpending : faults.missing .frontierPending = false) (hF : Exact F)
    {db : CrawlDb} (hhosts : F.db.hosts = db.hosts) {nowMs : ℤ} {maxHostsPerCall : ℕ}
    {skip : Str → Bool} {fuel turn : ℕ} {cursor : Option Key} {examined : ℕ} {e : CrawlError}
    (h : scan codecs faults nowMs maxHostsPerCall skip fuel turn cursor examined F
      = some (.error e, F')) :
    OnlyDropped F.db F'.db ∧
      (Exact F' ↔ ∀ t ∈ removals codecs faults nowMs maxHostsPerCall skip db fuel turn cursor
        examined F.db.pending, Written faults t) := by
  induction fuel generalizing turn cursor examined F with
  | zero => cases h
  | succ fuel ih =>
    rw [scan] at h
    rw [removals]
    by_cases hmax : maxHostsPerCall ≤ examined
    · rw [if_pos hmax] at h
      cases h
    · rw [if_neg hmax] at h ⊢
      by_cases hiterate : faults.iterate turn = true
      · rw [if_pos hiterate] at h
        cases h
        rw [if_pos hiterate]
        exact ⟨.refl hF, iff_of_true hF (by simp)⟩
      · rw [if_neg hiterate] at h ⊢
        rcases hseek : F.db.pending.seek (cursor.getD []) with _ | ⟨key, value⟩
        · rw [hseek] at h
          cases h
        · have hmem : (key, value) ∈ F.db.pending.entries := (Store.seek_spec hseek).1
          rw [hseek] at h
          dsimp only at h ⊢
          rcases hkey : frontierKeyHost key with _ | host
          · -- a key without a host is dropped, or the call fails in dropping it
            rw [hkey] at h
            dsimp only at h ⊢
            rcases forget_cases turn F key hpending with ⟨hwritten, G, hG⟩ | ⟨hnot, e', hG⟩
            · rw [hG] at h
              have hdropped : OnlyDropped F.db G.db := .forget hF hmem hkey hG
              have hdelete : G.db.pending = F.db.pending.delete key := by
                rw [forget_ok hG]
                rfl
              obtain ⟨hrest, hiff⟩ := ih (forget_exact hF hmem hG) (hdropped.hosts.trans hhosts) h
              refine ⟨hdropped.trans hrest, ?_⟩
              rw [hiff, hdelete, List.forall_mem_cons]
              exact (and_iff_right hwritten).symm
            · rw [hG] at h
              cases h
              refine ⟨.refl hF, iff_of_false (counted_out_not_exact hF hmem) fun hc => ?_⟩
              exact hnot (hc turn List.mem_cons_self)
          · rw [hkey] at h
            dsimp only at h ⊢
            by_cases hskip : skip (fromUtf8Lossy host) = true
            · -- the walk goes on behind the host, and nothing is written
              rw [if_pos hskip] at h ⊢
              exact ih hF hhosts h
            · rw [if_neg hskip] at h ⊢
              rw [← hostState_congr hhosts]
              rcases hstate : hostState codecs faults turn F.db (fromUtf8Lossy host) with e' | state
              · rw [hstate] at h
                cases h
                exact ⟨.refl hF, iff_of_true hF (by simp)⟩
              · rw [hstate] at h
                dsimp only at h ⊢
                by_cases hwait : nowMs < (state.getD default).nextAllowedAtMs
                · rw [if_pos hwait] at h ⊢
                  exact ih hF hhosts h
                · rw [if_neg hwait] at h ⊢
                  rcases hjob : codecs.job.decode value with _ | job
                  · rw [hjob] at h
                    cases h
                    exact ⟨.refl hF, iff_of_true hF (by simp)⟩
                  · -- a written removal returns the job, so the one that fails was not written
                    rw [hjob] at h
                    dsimp only at h ⊢
                    rcases forget_cases turn F key hpending with ⟨_, G, hG⟩ | ⟨hnot, e', hG⟩
                    · rw [hG] at h
                      cases h
                    · rw [hG] at h
                      cases h
                      refine ⟨.refl hF, iff_of_false (counted_out_not_exact hF hmem) fun hc => ?_⟩
                      exact hnot (hc turn List.mem_cons_self)

theorem popReady_failed (hF : Exact F) {nowMs : ℤ} {maxHostsPerCall : ℕ} {skip : Str → Bool}
    {e : CrawlError}
    (h : popReady codecs faults F nowMs maxHostsPerCall skip = some (.error e, F')) :
    OnlyDropped F.db F'.db ∧
      (Exact F' ↔ RemovalsWritten codecs faults F nowMs maxHostsPerCall skip) := by
  rw [popReady] at h
  by_cases hpending : faults.missing .frontierPending = true
  · rw [if_pos hpending] at h
    cases h
    refine ⟨.refl hF, iff_of_true hF fun hc => ?_⟩
    rw [hpending] at hc
    cases hc
  · rw [if_neg hpending] at h
    rw [Bool.not_eq_true] at hpending
    obtain ⟨hdropped, hiff⟩ := scan_failed hpending hF rfl h
    exact ⟨hdropped, hiff.trans ⟨fun hall _ => hall, fun hall => hall hpending⟩⟩

/-- **What a failed call leaves.**  A failed push stores nothing; a failed pop has only dropped
keys without a host, each in a complete batch.  The counters in memory and those stored are
still exact iff the push stopped before its counts advanced, and the pop wrote every removal
it came to. -/
theorem failed_calls_iff (urls : UrlCrate) (codecs : FrontierCodecs) (F : Frontier)
    (hF : Exact F) :
    (∀ faults job e F', Frontier.push urls codecs faults F job = (.error e, F') →
      F'.db = F.db ∧ (Exact F' ↔ StopsBeforeCounting urls codecs faults F job)) ∧
    ∀ faults nowMs maxHostsPerCall skip e F',
      popReady codecs faults F nowMs maxHostsPerCall skip = some (.error e, F') →
      OnlyDropped F.db F'.db ∧
        (Exact F' ↔ RemovalsWritten codecs faults F nowMs maxHostsPerCall skip) := by
  refine ⟨fun faults job e F' h => ?_, fun _ _ _ _ _ _ h => popReady_failed hF h⟩
  rcases push_failed h with ⟨rfl, hstops⟩ | ⟨isNewHost, rfl, hcounts⟩
  · exact ⟨rfl, iff_of_true hF hstops⟩
  · exact ⟨rfl, iff_of_false (advance_not_exact hF isNewHost) hcounts⟩

theorem newFrontier_exact : Exact newFrontier := by
  have hempty : Ahead CrawlDb.empty (CrawlDb.empty.readCounter metaFrontierSeq) := by
    intro e he
    cases he
  have hopen : (Frontier.open noFaults CrawlDb.empty).1 = .ok newFrontier := rfl
  exact open_exact ⟨by decide, by decide⟩ hempty hopen

/-- A push that cannot read the state of its host leaves the counters exact. -/
theorem failed_calls_iff_sample : ∃ F',
    Frontier.push plainUrls Postcard.frontierCodecs { noFaults with read := fun _ => true }
      newFrontier homeJob = (.error .backend, F') ∧ Exact F' := by
  have hpush : Frontier.push plainUrls Postcard.frontierCodecs
      { noFaults with read := fun _ => true } newFrontier homeJob
        = (.error .backend, newFrontier) := rfl
  refine ⟨newFrontier, hpush, ?_⟩
  refine (((failed_calls_iff plainUrls Postcard.frontierCodecs newFrontier newFrontier_exact).1 _ _ _ _
    hpush).2).mpr fun host _ => ?_
  exact ⟨.backend, rfl⟩

/-- **A failed write counts a job that is not stored**: one job is counted as queued, and
nothing is. -/
theorem failed_write_counts : Exact newFrontier ∧ ∃ F',
    Frontier.push plainUrls Postcard.frontierCodecs { noFaults with write := fun _ => true }
      newFrontier homeJob = (.error .backend, F') ∧
    F'.pending = 1 ∧ F'.db.pending.entries = [] ∧ ¬ Exact F' := by
  refine ⟨newFrontier_exact, newFrontier.advance true, rfl, rfl, rfl, ?_⟩
  exact advance_not_exact newFrontier_exact true

end FailedWrites
