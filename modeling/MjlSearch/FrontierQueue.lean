/-
The frontier is a set of per-host queues.

What the pending column family holds is seen as one queue for each host
(`queue`), in push order.  Along every run of successful calls, reopenings
included,

* `Wf` holds: every entry is one that `push` wrote, and the sequence counter is
  not behind any of them;
* `step_queue` — a push appends to its host's queue, a pop takes the front of
  one, and nothing else changes any of them;
* `scan_spec` — a pop returns the front of the first ready host, or finds none
  among the first hosts;
* `frontier_fifo` — what was pushed is what was popped and what is stored, host
  by host in the same order.
-/
import Mathlib.Data.List.Dedup
import Mathlib.Data.List.Perm.Subperm
import MjlSearch.Frontier
import MjlSearch.Runs

open Text Bytes CrawlDb Frontier Runs

namespace FrontierQueue

variable (urls : UrlCrate) (codecs : FrontierCodecs)

/-- The jobs stored, by increasing key. -/
def stored (F : Frontier) : List CrawlJob :=
  F.db.pending.entries.filterMap fun e => codecs.job.decode e.2

/-- Whether the job is one of the host's. -/
def ofHost (host : Str) (job : CrawlJob) : Bool := decide (urls.hostOf job.url = some host)

/-- The queue of a host. -/
def queue (F : Frontier) (host : Str) : List CrawlJob :=
  (stored codecs F).filter (ofHost urls host)

/-- The distinct hosts of the stored entries, in byte order. -/
def pendingHosts (F : Frontier) : List Str :=
  ((F.db.pending.entries.filterMap fun e => frontierKeyHost e.1).map fromUtf8Lossy).dedup

/-- Earliest time at which the host may be contacted: an unknown host may be at
once. -/
def nextAllowedAtMs (F : Frontier) (host : Str) : ℤ :=
  (((F.db.hosts.get (utf8 host)).bind codecs.hostState.decode).getD default).nextAllowedAtMs

/-- The host is not skipped, and allowed at `nowMs`. -/
def Ready (F : Frontier) (nowMs : ℤ) (skip : Str → Bool) (host : Str) : Prop :=
  skip host = false ∧ nextAllowedAtMs codecs F host ≤ nowMs

/-- An entry as `push` writes it. -/
def Pushed (F : Frontier) (e : Key × Value) (host : Str) (job : CrawlJob) : Prop :=
  ∃ n, e.1 = frontierKey host n ∧ PlainHost host ∧ n ≤ F.sequence ∧
    urls.hostOf job.url = some host ∧ codecs.job.decode e.2 = some job

/-- Every entry was pushed, and the sequence counter, in memory and stored, is not
behind any of them. -/
structure Wf (F : Frontier) : Prop where
  entries : ∀ e ∈ F.db.pending.entries, ∃ host job, Pushed urls codecs F e host job
  persisted : F.db.readCounter metaFrontierSeq = F.sequence
  fits : F.sequence < 2 ^ 64

/-- A call of the frontier, with what a pop returned. -/
inductive Op
  | push (job : CrawlJob)
  | pop (nowMs : ℤ) (maxHostsPerCall : ℕ) (skip : Str → Bool) (result : Option CrawlJob)
  | defer (host : Str) (untilMs fetchedAtMs : ℤ)
  | reopen

/-- One successful call. -/
inductive Step : Frontier → Op → Frontier → Prop
  | push {F F' : Frontier} {job : CrawlJob} {faults : Faults}
      (h : Frontier.push urls codecs faults F job = (.ok (), F')) : Step F (.push job) F'
  | pop {F F' : Frontier} {nowMs : ℤ} {maxHostsPerCall : ℕ} {skip : Str → Bool}
      {result : Option CrawlJob} {faults : Faults}
      (h : popReady codecs faults F nowMs maxHostsPerCall skip = some (.ok result, F')) :
      Step F (.pop nowMs maxHostsPerCall skip result) F'
  | defer {F F' : Frontier} {host : Str} {untilMs fetchedAtMs : ℤ} {faults : Faults}
      (h : deferHost codecs faults F host untilMs fetchedAtMs = .ok F') :
      Step F (.defer host untilMs fetchedAtMs) F'
  /-- The frontier is dropped and opened again. -/
  | reopen {F F' : Frontier} {faults : Faults}
      (h : (Frontier.open faults F.db).1 = .ok F') : Step F .reopen F'

/-- The jobs pushed, in order. -/
def pushed : List Op → List CrawlJob :=
  List.filterMap fun
    | .push job => some job
    | _ => none

/-- The jobs popped, in order. -/
def popped : List Op → List CrawlJob :=
  List.filterMap fun
    | .pop _ _ _ result => result
    | _ => none

variable {urls codecs}

/-! ### Entries, hosts and queues -/

theorem Pushed.keyHost {F : Frontier} {e : Key × Value} {host : Str} {job : CrawlJob}
    (h : Pushed urls codecs F e host job) : frontierKeyHost e.1 = some (utf8 host) := by
  obtain ⟨n, hkey, hplain, _⟩ := h
  rw [hkey, frontierKeyHost_frontierKey hplain]

theorem mem_pendingHosts {F : Frontier} (hF : Wf urls codecs F) {host : Str} :
    host ∈ pendingHosts F ↔
      ∃ e ∈ F.db.pending.entries, frontierKeyHost e.1 = some (utf8 host) := by
  rw [pendingHosts, List.mem_dedup, List.mem_map]
  constructor
  · rintro ⟨bytes, hbytes, rfl⟩
    obtain ⟨e, he, hkey⟩ := List.mem_filterMap.mp hbytes
    obtain ⟨host, job, hpushed⟩ := hF.entries e he
    have hhost := hpushed.keyHost
    rw [hkey] at hhost
    cases hhost
    exact ⟨e, he, by rw [hkey, fromUtf8Lossy_utf8]⟩
  · rintro ⟨e, he, hkey⟩
    exact ⟨utf8 host, List.mem_filterMap.mpr ⟨e, he, hkey⟩, fromUtf8Lossy_utf8 host⟩

/-- Entries with smaller keys have hosts that are not larger. -/
theorem host_le_of_key_le {F : Frontier} {e e' : Key × Value} {host host' : Str}
    {job job' : CrawlJob} (h : Pushed urls codecs F e host job)
    (h' : Pushed urls codecs F e' host' job') (hle : e.1 ≤ e'.1) :
    utf8 host ≤ utf8 host' := by
  obtain ⟨n, hkey, hplain, _⟩ := h
  obtain ⟨n', hkey', _⟩ := h'
  rw [hkey, hkey'] at hle
  by_contra hlt
  exact absurd (below_of_host_lt hplain (not_le.mp hlt) n' n).1 (not_lt.mpr hle)

theorem pendingHosts_sorted {F : Frontier} (hF : Wf urls codecs F) :
    (pendingHosts F).Pairwise fun a b => utf8 a < utf8 b := by
  have hle : ((F.db.pending.entries.filterMap fun e => frontierKeyHost e.1).map
      fromUtf8Lossy).Pairwise fun a b => utf8 a ≤ utf8 b := by
    rw [List.pairwise_map, List.pairwise_filterMap]
    refine F.db.pending.sorted.imp_of_mem ?_
    intro e e' he he' hlt bytes hbytes bytes' hbytes'
    obtain ⟨host, job, hp⟩ := hF.entries e he
    obtain ⟨host', job', hp'⟩ := hF.entries e' he'
    rw [hp.keyHost] at hbytes
    rw [hp'.keyHost] at hbytes'
    cases hbytes
    cases hbytes'
    rw [fromUtf8Lossy_utf8, fromUtf8Lossy_utf8]
    exact host_le_of_key_le hp hp' (le_of_lt hlt)
  rw [pendingHosts]
  refine List.Pairwise.imp₂ ?_ (hle.sublist (List.dedup_sublist _)) (List.nodup_dedup _)
  exact fun a b hab hne => lt_of_le_of_ne hab fun heq => hne (utf8_injective heq)

/-- Of the first `n` elements of a sorted list, each has fewer than `n` below it. -/
theorem length_lt_of_mem_take {α β : Type*} [LinearOrder β] {f : α → β} {l p : List α}
    {n : ℕ} {x : α} (hl : l.Pairwise fun a b => f a < f b) (hx : x ∈ l.take n)
    (hp : p.Nodup) (hbelow : ∀ y ∈ p, y ∈ l ∧ f y < f x) : p.length < n := by
  obtain ⟨i, hi, rfl⟩ := List.getElem_of_mem hx
  rw [List.length_take, Nat.lt_min] at hi
  rw [List.getElem_take] at hbelow
  have hsub : p ⊆ l.take i := by
    intro y hy
    obtain ⟨hmem, hlt⟩ := hbelow y hy
    obtain ⟨j, hj, rfl⟩ := List.getElem_of_mem hmem
    have hji : j < i := by
      by_contra hge
      rcases Nat.lt_or_eq_of_le (Nat.not_lt.mp hge) with hij | rfl
      · exact lt_asymm hlt (List.pairwise_iff_getElem.mp hl i j hi.2 hj hij)
      · exact lt_irrefl _ hlt
    exact List.mem_take_iff_getElem.mpr ⟨j, by omega, rfl⟩
  have hle := (List.subperm_of_subset hp hsub).length_le
  rw [List.length_take] at hle
  omega

/-- The queue of a host is its part of the entries. -/
theorem queue_eq {F : Frontier} (hF : Wf urls codecs F) (host : Str) :
    queue urls codecs F host
      = (F.db.pending.entries.filter fun e =>
          decide (frontierKeyHost e.1 = some (utf8 host))).filterMap
        fun e => codecs.job.decode e.2 := by
  rw [queue, stored, List.filter_filterMap, List.filterMap_filter]
  refine List.filterMap_congr fun e he => ?_
  obtain ⟨host', job, hp⟩ := hF.entries e he
  obtain ⟨n, _, _, _, hjob, hdecode⟩ := hp
  have hiff : urls.hostOf job.url = some host ↔ frontierKeyHost e.1 = some (utf8 host) := by
    rw [hjob, Pushed.keyHost ⟨n, ‹_›, ‹_›, ‹_›, hjob, hdecode⟩, Option.some.injEq,
      Option.some.injEq]
    exact ⟨fun h => by rw [h], fun h => utf8_injective h⟩
  rw [hdecode]
  by_cases h : urls.hostOf job.url = some host
  · simp [ofHost, h, hiff.mp h]
  · have h' : ¬ frontierKeyHost e.1 = some (utf8 host) := fun hc => h (hiff.mpr hc)
    simp [ofHost, h, h']

/-! ### The scan -/

theorem hostState_ok {faults : Faults} {turn : ℕ} {F : Frontier} {host : Str}
    {state : Option HostState} (h : hostState codecs faults turn F.db host = .ok state) :
    (state.getD default).nextAllowedAtMs = nextAllowedAtMs codecs F host := by
  rw [hostState] at h
  obtain ⟨_, _, h⟩ := bind_ok h
  obtain ⟨_, _, h⟩ := bind_ok h
  rw [nextAllowedAtMs]
  split at h
  · rename_i hget
    cases h
    rw [hget]
    rfl
  · rename_i bytes hget
    split at h
    · cases h
    · rename_i state' hdecode
      cases h
      rw [hget, Option.bind_some, hdecode]

/-- Where a scan stands: the hosts it has passed are not ready, and their entries
are exactly those before the cursor. -/
structure Passed (codecs : FrontierCodecs) (F : Frontier) (nowMs : ℤ) (skip : Str → Bool) (cursor : Key)
    (passed : List Str) : Prop where
  nodup : passed.Nodup
  notReady : ∀ host ∈ passed, ¬ Ready codecs F nowMs skip host
  pending : ∀ host ∈ passed, host ∈ pendingHosts F
  before : ∀ e ∈ F.db.pending.entries, ∀ host, frontierKeyHost e.1 = some (utf8 host) →
    (host ∈ passed ↔ e.1 < cursor)

/-- A host that was not passed comes after all those that were. -/
theorem Passed.host_lt {F : Frontier} (hF : Wf urls codecs F) {nowMs : ℤ}
    {skip : Str → Bool} {cursor : Key} {passed : List Str}
    (h : Passed codecs F nowMs skip cursor passed) {host host' : Str}
    (hhost : host ∈ passed) (hhost' : host' ∈ pendingHosts F) (hnot : host' ∉ passed) :
    utf8 host < utf8 host' := by
  obtain ⟨e, he, hkey⟩ := (mem_pendingHosts hF).mp (h.pending host hhost)
  obtain ⟨e', he', hkey'⟩ := (mem_pendingHosts hF).mp hhost'
  have hlt : e.1 < cursor := (h.before e he host hkey).mp hhost
  have hge : ¬ e'.1 < cursor := fun hc => hnot ((h.before e' he' host' hkey').mpr hc)
  obtain ⟨a, job, hp⟩ := hF.entries e he
  obtain ⟨a', job', hp'⟩ := hF.entries e' he'
  have ha : a = host := utf8_injective (Option.some.inj (hp.keyHost.symm.trans hkey))
  have ha' : a' = host' := utf8_injective (Option.some.inj (hp'.keyHost.symm.trans hkey'))
  subst ha
  subst ha'
  have hle := host_le_of_key_le hp hp' (le_of_lt (lt_of_lt_of_le hlt (not_lt.mp hge)))
  refine lt_of_le_of_ne hle fun heq => hnot ?_
  rwa [← utf8_injective heq]

/-- With `n` hosts passed, none of the first `n` hosts is ready. -/
theorem Passed.not_ready {F : Frontier} (hF : Wf urls codecs F) {nowMs : ℤ}
    {skip : Str → Bool} {cursor : Key} {passed : List Str}
    (h : Passed codecs F nowMs skip cursor passed) {n : ℕ}
    (hn : n ≤ passed.length) :
    ∀ host ∈ (pendingHosts F).take n, ¬ Ready codecs F nowMs skip host := by
  intro host hhost
  by_cases hmem : host ∈ passed
  · exact h.notReady host hmem
  · have hpending := List.mem_of_mem_take hhost
    have hlt := length_lt_of_mem_take (pendingHosts_sorted hF) hhost h.nodup
      fun y hy => ⟨h.pending y hy, h.host_lt hF hy hpending hmem⟩
    omega

/-- The first entry from the cursor on belongs to the next host, and passing that
host keeps the scan's position. -/
theorem Passed.next {F : Frontier} (hF : Wf urls codecs F) {nowMs : ℤ}
    {skip : Str → Bool} {cursor : Key} {passed : List Str}
    (h : Passed codecs F nowMs skip cursor passed) {e : Key × Value}
    (hseek : F.db.pending.seek cursor = some e) {host : Str}
    (hkey : frontierKeyHost e.1 = some (utf8 host))
    (hready : ¬ Ready codecs F nowMs skip host) :
    Passed codecs F nowMs skip (cursorAfter (utf8 host)) (host :: passed) := by
  obtain ⟨he, hge, hfirst⟩ := Store.seek_spec hseek
  have hnot : host ∉ passed := by
    intro hmem
    exact absurd ((h.before e he host hkey).mp hmem) (not_lt.mpr hge)
  have hpending : host ∈ pendingHosts F := (mem_pendingHosts hF).mpr ⟨e, he, hkey⟩
  refine ⟨List.nodup_cons.mpr ⟨hnot, h.nodup⟩, ?_, ?_, ?_⟩
  · intro a ha
    rcases List.mem_cons.mp ha with rfl | ha
    · exact hready
    · exact h.notReady a ha
  · intro a ha
    rcases List.mem_cons.mp ha with rfl | ha
    · exact hpending
    · exact h.pending a ha
  · intro e' he' host' hkey'
    obtain ⟨a, job, n, hk, hplain, _⟩ := hF.entries e he
    obtain ⟨a', job', hp'⟩ := hF.entries e' he'
    have ha : a = host := by
      rw [hk, frontierKeyHost_frontierKey hplain] at hkey
      exact utf8_injective (Option.some.inj hkey)
    have ha' : a' = host' := utf8_injective (Option.some.inj (hp'.keyHost.symm.trans hkey'))
    subst ha
    subst ha'
    have hp'' := hp'
    obtain ⟨n', hk', hplain', _⟩ := hp'
    rw [List.mem_cons]
    constructor
    · rintro (rfl | hmem)
      · rw [hk']
        exact frontierKey_lt_cursorAfter _ _
      · have hlt := (h.before e' he' a' hkey').mp hmem
        refine lt_trans (lt_of_lt_of_le hlt hge) ?_
        rw [hk]
        exact frontierKey_lt_cursorAfter _ _
    · -- an entry of a later host is not before the cursor
      intro hlt
      by_contra hout
      rw [not_or] at hout
      have hge' : ¬ e'.1 < cursor := fun hc => hout.2 ((h.before e' he' a' hkey').mpr hc)
      have hle : utf8 a ≤ utf8 a' := by
        refine host_le_of_key_le ⟨n, hk, hplain, ‹_›⟩ hp'' (hfirst e' he' (not_lt.mp hge'))
      have hne : utf8 a ≠ utf8 a' := fun heq => hout.1 (utf8_injective heq.symm)
      rw [hk'] at hlt
      exact lt_asymm hlt (below_of_host_lt hplain' (lt_of_le_of_ne hle hne) 0 n').2

/-- What a pop that found a job has done: it took the first entry of a ready
host. -/
structure Took (codecs : FrontierCodecs) (F F' : Frontier) (nowMs : ℤ) (skip : Str → Bool) (host : Str)
    (e : Key × Value) (job : CrawlJob) : Prop where
  mem : e ∈ F.db.pending.entries
  keyHost : frontierKeyHost e.1 = some (utf8 host)
  decoded : codecs.job.decode e.2 = some job
  first : ∀ e' ∈ F.db.pending.entries, frontierKeyHost e'.1 = some (utf8 host) → e.1 ≤ e'.1
  ready : Ready codecs F nowMs skip host
  after : F'.db.pending = F.db.pending.delete e.1 ∧ F'.sequence = F.sequence ∧
    F'.db.readCounter metaFrontierSeq = F.db.readCounter metaFrontierSeq

/-- **What a successful pop does.** -/
theorem scan_spec {F : Frontier} (hF : Wf urls codecs F) {faults : Faults} {nowMs : ℤ}
    {maxHostsPerCall : ℕ} {skip : Str → Bool} {fuel turn examined : ℕ} {cursor : Option Key}
    {passed : List Str} (hpassed : Passed codecs F nowMs skip (cursor.getD []) passed)
    (hlen : passed.length = examined) {result : Option CrawlJob} {F' : Frontier}
    (h : scan codecs faults nowMs maxHostsPerCall skip fuel turn cursor examined F
      = some (.ok result, F')) :
    (result = none ∧ F' = F ∧
      ∀ host ∈ (pendingHosts F).take maxHostsPerCall, ¬ Ready codecs F nowMs skip host) ∨
    ∃ host e job, result = some job ∧ Took codecs F F' nowMs skip host e job := by
  induction fuel generalizing turn cursor examined passed with
  | zero => cases h
  | succ fuel ih =>
    rw [scan] at h
    split at h
    · -- enough hosts have been looked at
      rename_i hmax
      cases h
      exact Or.inl ⟨rfl, rfl, hpassed.not_ready hF (by omega)⟩
    · split at h
      · cases h
      · split at h
        · -- nothing from the cursor on: every host was passed
          rename_i hnone
          cases h
          refine Or.inl ⟨rfl, rfl, fun host hhost => ?_⟩
          obtain ⟨e, he, hkey⟩ := (mem_pendingHosts hF).mp (List.mem_of_mem_take hhost)
          exact hpassed.notReady host
            ((hpassed.before e he host hkey).mpr (Store.seek_eq_none hnone e he))
        · rename_i key value hseek
          obtain ⟨he, hge, hfirst⟩ := Store.seek_spec hseek
          obtain ⟨host, job, hp⟩ := hF.entries _ he
          have hkey : frontierKeyHost key = some (utf8 host) := hp.keyHost
          rw [hkey] at h
          simp only [fromUtf8Lossy_utf8] at h
          split at h
          · rename_i hskip
            have hready : ¬ Ready codecs F nowMs skip host := by
              intro hc
              rw [hc.1] at hskip
              cases hskip
            have hnew : Passed codecs F nowMs skip
                ((some (cursorAfter (utf8 host))).getD []) (host :: passed) :=
              hpassed.next hF hseek hkey hready
            exact ih hnew (by rw [List.length_cons, hlen]) h
          · rename_i hskip
            split at h
            · cases h
            · rename_i state hstate
              have hnext := hostState_ok hstate
              split at h
              · rename_i hwait
                have hready : ¬ Ready codecs F nowMs skip host := by
                  intro hc
                  rw [hnext] at hwait
                  exact absurd hc.2 (Int.not_le.mpr hwait)
                have hnew : Passed codecs F nowMs skip
                    ((some (cursorAfter (utf8 host))).getD []) (host :: passed) :=
                  hpassed.next hF hseek hkey hready
                exact ih hnew (by rw [List.length_cons, hlen]) h
              · rename_i hwait
                split at h
                · cases h
                · rename_i job' hdecode
                  split at h
                  · cases h
                  · rename_i F'' hforget
                    cases h
                    refine Or.inr ⟨host, (key, value), job', rfl, he, hkey, hdecode, ?_, ?_, ?_⟩
                    · -- no entry of this host stands before the cursor
                      intro e' he' hkey'
                      refine hfirst e' he' (not_lt.mp fun hlt => ?_)
                      have hmem := (hpassed.before e' he' host hkey').mpr hlt
                      exact absurd ((hpassed.before _ he host hkey).mp hmem) (not_lt.mpr hge)
                    · rw [hnext] at hwait
                      exact ⟨by simpa using hskip, Int.not_lt.mp hwait⟩
                    · rw [forget_ok hforget]
                      exact ⟨rfl, rfl, readCounter_writeCounter_of_ne _ _
                        metaFrontierSeq_ne_pending⟩

theorem popReady_spec {F : Frontier} (hF : Wf urls codecs F) {faults : Faults} {nowMs : ℤ}
    {maxHostsPerCall : ℕ} {skip : Str → Bool} {result : Option CrawlJob} {F' : Frontier}
    (h : popReady codecs faults F nowMs maxHostsPerCall skip = some (.ok result, F')) :
    (result = none ∧ F' = F ∧
      ∀ host ∈ (pendingHosts F).take maxHostsPerCall, ¬ Ready codecs F nowMs skip host) ∨
    ∃ host e job, result = some job ∧ Took codecs F F' nowMs skip host e job := by
  rw [popReady] at h
  split at h
  · cases h
  · have hnone : Passed codecs F nowMs skip ((none : Option Key).getD []) [] :=
      ⟨List.nodup_nil, by simp, by simp, fun e he host hkey => by simp [List.not_lt_nil]⟩
    exact scan_spec hF hnone rfl h

/-! ### Steps and runs -/

theorem deferHost_ok {faults : Faults} {F F' : Frontier} {host : Str} {untilMs fetchedAtMs : ℤ}
    (h : deferHost codecs faults F host untilMs fetchedAtMs = .ok F') :
    ∃ value, codecs.hostState.encode
        { nextAllowedAtMs := untilMs, lastFetchedAtMs := fetchedAtMs } = some value ∧
      F' = { F with db := { F.db with hosts := F.db.hosts.put (utf8 host) value } } := by
  rw [deferHost, setHostState] at h
  obtain ⟨value, hvalue, h⟩ := bind_ok h
  obtain ⟨_, _, h⟩ := bind_ok h
  obtain ⟨_, _, h⟩ := bind_ok h
  cases h
  exact ⟨value, encode_ok hvalue, rfl⟩

theorem open_ok {faults : Faults} {db : CrawlDb} {F : Frontier}
    (h : (Frontier.open faults db).1 = .ok F) :
    F.db.pending = db.pending ∧ F.sequence = db.readCounter metaFrontierSeq ∧
      F.db.readCounter metaFrontierSeq = db.readCounter metaFrontierSeq := by
  rw [Frontier.open] at h
  dsimp only at h
  split at h
  · cases h
  · split at h
    · cases h
    · cases h
      refine ⟨rfl, rfl, ?_⟩
      rw [readCounter_writeCounter_of_ne _ _ metaFrontierSeq_ne_host,
        readCounter_writeCounter_of_ne _ _ metaFrontierSeq_ne_pending]

/-- Entries that stay are still entries as pushed. -/
theorem Wf.of_subset {F F' : Frontier} (hF : Wf urls codecs F)
    (hsub : ∀ e ∈ F'.db.pending.entries, e ∈ F.db.pending.entries)
    (hseq : F'.sequence = F.sequence)
    (hpersisted : F'.db.readCounter metaFrontierSeq = F.db.readCounter metaFrontierSeq) :
    Wf urls codecs F' where
  entries e he := by
    obtain ⟨host, job, n, hkey, hplain, hn, hrest⟩ := hF.entries e (hsub e he)
    exact ⟨host, job, n, hkey, hplain, hseq ▸ hn, hrest⟩
  persisted := by rw [hpersisted, hF.persisted, hseq]
  fits := hseq ▸ hF.fits

/-- What a step appends to a host's queue. -/
def arriving (urls : UrlCrate) (host : Str) : Op → List CrawlJob
  | .push job => [job].filter (ofHost urls host)
  | _ => []

/-- What a step takes off a host's queue. -/
def leaving (urls : UrlCrate) (host : Str) : Op → List CrawlJob
  | .pop _ _ _ (some job) => [job].filter (ofHost urls host)
  | _ => []

/-- An entry of any host is below the host's next key, or of another host. -/
theorem Wf.below_next {F : Frontier} (hF : Wf urls codecs F) {host : Str}
    (hfit : F.sequence + 1 < 2 ^ 64) :
    ∀ e ∈ F.db.pending.entries, frontierKeyHost e.1 = some (utf8 host) →
      e.1 < frontierKey host (F.sequence + 1) := by
  intro e he hkey
  obtain ⟨a, job', n, hk, ha, hn, _⟩ := hF.entries e he
  rw [hk, frontierKeyHost_frontierKey ha] at hkey
  have heq := utf8_injective (Option.some.inj hkey)
  subst heq
  rw [hk]
  have := hF.fits
  exact (frontierKey_lt_same (by omega) hfit).mpr (by omega)

/-- The next key of a host is not in use. -/
theorem Wf.next_unused {F : Frontier} (hF : Wf urls codecs F) {host : Str}
    (hhost : PlainHost host) (hfit : F.sequence + 1 < 2 ^ 64) :
    ∀ e ∈ F.db.pending.entries, e.1 ≠ frontierKey host (F.sequence + 1) := by
  intro e he heq
  refine ne_of_lt (hF.below_next hfit e he ?_) heq
  rw [heq, frontierKeyHost_frontierKey hhost]

variable (hplain : ∀ url host, urls.hostOf url = some host → PlainHost host)

include hplain in
/-- A push appends to its host's queue. -/
theorem push_wf {F F' : Frontier} (hF : Wf urls codecs F) {job : CrawlJob} {faults : Faults}
    (h : Frontier.push urls codecs faults F job = (.ok (), F')) :
    Wf urls codecs F' ∧ ∀ host, queue urls codecs F' host
      = queue urls codecs F host ++ [job].filter (ofHost urls host) := by
  obtain ⟨host, value, hhost, hvalue, hfit, hseq, hpersisted, hpending⟩ := push_ok h
  have hdecode := codecs.job.decode_encode hvalue
  have hkeyHost : frontierKeyHost (frontierKey host (F.sequence + 1)) = some (utf8 host) :=
    frontierKeyHost_frontierKey (hplain _ _ hhost) _
  have hbelow := @Wf.below_next _ _ _ hF host hfit
  have hnew := hF.next_unused (hplain _ _ hhost) hfit
  have hF' : Wf urls codecs F' := by
    refine ⟨fun e he => ?_, by rw [hpersisted, hseq], by rw [hseq]; exact hfit⟩
    rw [hpending, Store.mem_put] at he
    rcases he with rfl | ⟨he, _⟩
    · exact ⟨host, job, F.sequence + 1, rfl, hplain _ _ hhost, le_of_eq hseq.symm, hhost, hdecode⟩
    · obtain ⟨a, job', n, hk, ha, hn, hrest⟩ := hF.entries e he
      exact ⟨a, job', n, hk, ha, by omega, hrest⟩
  refine ⟨hF', fun a => ?_⟩
  rw [queue_eq hF', queue_eq hF, hpending]
  by_cases ha : a = host
  · subst ha
    rw [Store.filter_put_last _ (by simpa using hkeyHost)
      (fun e he hk => hbelow e he (by simpa using hk)), List.filterMap_append]
    simp [hdecode, ofHost, hhost]
  · have hne : utf8 host ≠ utf8 a := fun heq => ha (utf8_injective heq).symm
    have hjob : [job].filter (ofHost urls a) = [] := by
      simp [ofHost, hhost, Ne.symm ha]
    rw [Store.filter_put_other _ (by simp [hkeyHost, hne]) hnew, hjob, List.append_nil]

/-- A pop takes the front of its host's queue. -/
theorem took_queue {F F' : Frontier} (hF : Wf urls codecs F) {nowMs : ℤ} {skip : Str → Bool}
    {host : Str} {e : Key × Value} {job : CrawlJob}
    (h : Took codecs F F' nowMs skip host e job) :
    Wf urls codecs F' ∧ urls.hostOf job.url = some host ∧
      ∀ a, queue urls codecs F a = [job].filter (ofHost urls a) ++ queue urls codecs F' a := by
  obtain ⟨hpending, hseq, hpersisted⟩ := h.after
  have hF' : Wf urls codecs F' := by
    refine hF.of_subset (fun e' he' => ?_) hseq hpersisted
    rw [hpending, Store.mem_delete] at he'
    exact he'.1
  have hhost : urls.hostOf job.url = some host := by
    obtain ⟨a, job', hp⟩ := hF.entries e h.mem
    have ha : a = host := utf8_injective (Option.some.inj (hp.keyHost.symm.trans h.keyHost))
    obtain ⟨_, _, _, _, hjob, hdecode⟩ := hp
    rw [h.decoded] at hdecode
    cases hdecode
    rwa [ha] at hjob
  refine ⟨hF', hhost, fun a => ?_⟩
  rw [queue_eq hF, queue_eq hF', hpending]
  by_cases ha : a = host
  · subst ha
    rw [Store.filter_delete_first F.db.pending h.mem (by simpa using h.keyHost)
      fun e' he' hk => h.first e' he' (by simpa using hk)]
    simp [h.decoded, ofHost, hhost]
  · have hne : utf8 host ≠ utf8 a := fun heq => ha (utf8_injective heq).symm
    have hjob : [job].filter (ofHost urls a) = [] := by
      simp [ofHost, hhost, Ne.symm ha]
    rw [Store.filter_delete_other F.db.pending h.mem (by simp [h.keyHost, hne]), hjob,
      List.nil_append]

include hplain in
/-- **One successful call.**  A push appends to its host's queue, a pop takes the
front of its host's queue, and no other queue changes. -/
theorem step_queue {F F' : Frontier} {op : Op} (h : Step urls codecs F op F')
    (hF : Wf urls codecs F) :
    Wf urls codecs F' ∧ ∀ host, queue urls codecs F host ++ arriving urls host op
      = leaving urls host op ++ queue urls codecs F' host := by
  cases h with
  | push h =>
    obtain ⟨hF', hqueue⟩ := push_wf hplain hF h
    exact ⟨hF', fun host => (hqueue host).symm⟩
  | @pop _ nowMs maxHostsPerCall skip result _ h =>
    rcases popReady_spec hF h with ⟨rfl, rfl, _⟩ | ⟨host, e, job, rfl, htook⟩
    · exact ⟨hF, fun host => List.append_nil _⟩
    · obtain ⟨hF', _, hqueue⟩ := took_queue hF htook
      refine ⟨hF', fun a => ?_⟩
      rw [hqueue a]
      exact List.append_nil _
  | @defer _ host untilMs fetchedAtMs _ h =>
    obtain ⟨value, _, rfl⟩ := deferHost_ok h
    exact ⟨hF.of_subset (fun _ he => he) rfl rfl, fun host => List.append_nil _⟩
  | reopen h =>
    obtain ⟨hpending, hseq, hpersisted⟩ := open_ok h
    have hsub : ∀ e ∈ F'.db.pending.entries, e ∈ F.db.pending.entries := fun e he => by
      rwa [hpending] at he
    refine ⟨hF.of_subset hsub (by rw [hseq, hF.persisted]) hpersisted, fun host => ?_⟩
    rw [queue, queue, stored, stored, hpending]
    exact List.append_nil _

/-- The frontier of a database in which nothing was ever written. -/
def Fresh (F : Frontier) : Prop := ∃ faults, (Frontier.open faults CrawlDb.empty).1 = .ok F

theorem Fresh.wf {F : Frontier} (h : Fresh F) :
    Wf urls codecs F ∧ ∀ host, queue urls codecs F host = [] := by
  obtain ⟨faults, h⟩ := h
  obtain ⟨hpending, hseq, hpersisted⟩ := open_ok h
  have hnone : F.db.pending.entries = [] := by
    rw [hpending]
    rfl
  have hzero : F.sequence = 0 := hseq
  refine ⟨⟨by simp [hnone], by rw [hpersisted, hseq], by rw [hzero]; decide⟩, fun host => ?_⟩
  simp [queue, stored, hnone]

/-- A run keeps every host's queue: what arrived is what left and what is there. -/
theorem run_queue (hplain : ∀ url host, urls.hostOf url = some host → PlainHost host)
    {F₀ F : Frontier} {ops : List Op} (h₀ : Fresh F₀)
    (h : Run (Step urls codecs) F₀ ops F) :
    Wf urls codecs F ∧ ∀ host, ops.flatMap (arriving urls host)
      = ops.flatMap (leaving urls host) ++ queue urls codecs F host := by
  refine h.invariant_trace
    (I := fun ops F => Wf urls codecs F ∧ ∀ host, ops.flatMap (arriving urls host)
      = ops.flatMap (leaving urls host) ++ queue urls codecs F host) ?_ ?_
  · have hwf : Wf urls codecs F₀ ∧ ∀ host, queue urls codecs F₀ host = [] := h₀.wf
    exact ⟨hwf.1, fun host => by simp [hwf.2 host]⟩
  · rintro ops T op U ⟨hT, hqueue⟩ hstep
    obtain ⟨hU, hnext⟩ := step_queue hplain hstep hT
    refine ⟨hU, fun host => ?_⟩
    rw [List.flatMap_append, List.flatMap_append, hqueue host, List.append_assoc,
      List.flatMap_singleton, List.flatMap_singleton, hnext host, List.append_assoc]

theorem flatMap_arriving (ops : List Op) (host : Str) :
    ops.flatMap (arriving urls host) = (pushed ops).filter (ofHost urls host) := by
  induction ops with
  | nil => rfl
  | cons op ops ih =>
    rw [List.flatMap_cons, ih]
    cases op with
    | push job => simp [arriving, pushed, List.filter_cons]; split <;> rfl
    | pop | defer | reopen => rfl

theorem flatMap_leaving (ops : List Op) (host : Str) :
    ops.flatMap (leaving urls host) = (popped ops).filter (ofHost urls host) := by
  induction ops with
  | nil => rfl
  | cons op ops ih =>
    rw [List.flatMap_cons, ih]
    cases op with
    | pop nowMs maxHostsPerCall skip result =>
      cases result with
      | none => rfl
      | some job => simp [leaving, popped, List.filter_cons]; split <;> rfl
    | push | defer | reopen => rfl

/-- Lists of jobs with hosts that agree host by host are permutations. -/
theorem perm_of_filter_ofHost {l l' : List CrawlJob}
    (hl : ∀ job ∈ l, ∃ host, urls.hostOf job.url = some host)
    (hl' : ∀ job ∈ l', ∃ host, urls.hostOf job.url = some host)
    (h : ∀ host, l.filter (ofHost urls host) = l'.filter (ofHost urls host)) : l.Perm l' := by
  rw [List.perm_iff_count]
  intro job
  by_cases hjob : ∃ host, urls.hostOf job.url = some host
  · obtain ⟨host, hhost⟩ := hjob
    have hof : ofHost urls host job = true := by simp [ofHost, hhost]
    rw [← List.count_filter hof, h host, List.count_filter hof]
  · rw [List.count_eq_zero_of_not_mem fun hmem => hjob (hl job hmem),
      List.count_eq_zero_of_not_mem fun hmem => hjob (hl' job hmem)]

/-- Only jobs with a host are pushed. -/
theorem host_of_mem_pushed {F₀ F : Frontier} {ops : List Op}
    (h : Run (Step urls codecs) F₀ ops F) {job : CrawlJob} (hjob : job ∈ pushed ops) :
    ∃ host, urls.hostOf job.url = some host := by
  obtain ⟨op, hop, heq⟩ := List.mem_filterMap.mp hjob
  obtain ⟨_, _, a, b, _, _, hstep, _⟩ := h.exists_step_of_mem hop
  cases hstep with
  | push h =>
    cases heq
    obtain ⟨host, _, hhost, _⟩ := push_ok h
    exact ⟨host, hhost⟩
  | pop | defer | reopen => cases heq

/-- Only jobs with a host are popped. -/
theorem host_of_mem_popped (hplain : ∀ url host, urls.hostOf url = some host → PlainHost host)
    {F₀ F : Frontier} {ops : List Op} (h₀ : Fresh F₀) (h : Run (Step urls codecs) F₀ ops F)
    {job : CrawlJob} (hjob : job ∈ popped ops) : ∃ host, urls.hostOf job.url = some host := by
  obtain ⟨op, hop, heq⟩ := List.mem_filterMap.mp hjob
  obtain ⟨_, _, a, b, _, hrun, hstep, _⟩ := h.exists_step_of_mem hop
  cases hstep with
  | pop h =>
    simp only at heq
    rcases popReady_spec (run_queue hplain h₀ hrun).1 h with ⟨rfl, _⟩ | ⟨host, e, job', rfl, htook⟩
    · cases heq
    · cases heq
      exact ⟨host, (took_queue (run_queue hplain h₀ hrun).1 htook).2.1⟩
  | push | defer | reopen => cases heq

/-- Only jobs with a host are stored. -/
theorem host_of_mem_stored {F : Frontier} (hF : Wf urls codecs F) {job : CrawlJob}
    (hjob : job ∈ stored codecs F) : ∃ host, urls.hostOf job.url = some host := by
  obtain ⟨e, he, hdecode⟩ := List.mem_filterMap.mp hjob
  obtain ⟨host, job', _, _, _, _, hhost, hdecode'⟩ := hF.entries e he
  rw [hdecode] at hdecode'
  cases hdecode'
  exact ⟨host, hhost⟩

/-- **The frontier is a set of per-host FIFO queues.**  After every run of
successful calls on a new database, with hosts made of bytes greater than `0x01`:
the jobs pushed are those popped and those stored; host by host, they were popped
in the order they were pushed, and those stored come next; and every further pop
comes to an end, returns a job of a ready host only, and returns none only when
none of the first `maxHostsPerCall` pending hosts is ready. -/
theorem frontier_fifo (urls : UrlCrate) (codecs : FrontierCodecs)
    (hplain : ∀ url host, urls.hostOf url = some host → PlainHost host)
    (F₀ F : Frontier) (ops : List Op) (h₀ : Fresh F₀) (h : Run (Step urls codecs) F₀ ops F) :
    (pushed ops).Perm (popped ops ++ stored codecs F) ∧
    (∀ host, (pushed ops).filter (ofHost urls host)
      = (popped ops).filter (ofHost urls host) ++ queue urls codecs F host) ∧
    ∀ faults nowMs maxHostsPerCall skip,
      (popReady codecs faults F nowMs maxHostsPerCall skip).isSome ∧
      ∀ result F',
        popReady codecs faults F nowMs maxHostsPerCall skip = some (.ok result, F') →
        (∀ job, result = some job →
          ∃ host, urls.hostOf job.url = some host ∧ Ready codecs F nowMs skip host) ∧
        (result = none →
          ∀ host ∈ (pendingHosts F).take maxHostsPerCall, ¬ Ready codecs F nowMs skip host) := by
  obtain ⟨hF, hqueue⟩ := run_queue hplain h₀ h
  have hfifo : ∀ host, (pushed ops).filter (ofHost urls host)
      = (popped ops).filter (ofHost urls host) ++ queue urls codecs F host := by
    intro host
    rw [← flatMap_arriving, ← flatMap_leaving, hqueue host]
  refine ⟨?_, hfifo, fun faults nowMs maxHostsPerCall skip =>
    ⟨popReady_isSome F nowMs maxHostsPerCall skip, fun result F' hpop => ?_⟩⟩
  · refine perm_of_filter_ofHost (fun job hjob => host_of_mem_pushed h hjob) ?_ ?_
    · intro job hjob
      rcases List.mem_append.mp hjob with hjob | hjob
      · exact host_of_mem_popped hplain h₀ h hjob
      · exact host_of_mem_stored hF hjob
    · intro host
      rw [List.filter_append, hfifo host, queue]
  · rcases popReady_spec hF hpop with ⟨rfl, _, hnone⟩ | ⟨host, e, job, rfl, htook⟩
    · exact ⟨fun job hjob => (by cases hjob), fun _ => hnone⟩
    · refine ⟨fun job' hjob' => ?_, fun hc => (by cases hc)⟩
      cases hjob'
      exact ⟨host, (took_queue hF htook).2.1, htook.ready⟩

/-! ### A run on a new database -/

def homeJob : CrawlJob := { url := "http://b.c/".toList, depth := 0 }

def pageJob : CrawlJob := { url := "http://b.c/x".toList, depth := 1 }

def otherJob : CrawlJob := { url := "http://a.c/".toList, depth := 0 }

/-- A new database's frontier. -/
def newFrontier : Frontier :=
  { db := (CrawlDb.empty.writeCounter metaPendingCount 0).writeCounter metaHostCount 0
    sequence := 0, pending := 0, hosts := 0 }

theorem newFrontier_fresh : Fresh newFrontier := ⟨noFaults, rfl⟩

/-- Three pushes, a pop with the first host skipped, and a reopening. -/
def sampleOps : List Op :=
  [.push homeJob, .push otherJob, .push pageJob,
    .pop 0 128 (fun host => host == "a.c".toList) (some homeJob), .reopen]

/-- The frontier a push leaves. -/
def pushedOnto (F : Frontier) (job : CrawlJob) : Frontier :=
  (Frontier.push plainUrls Postcard.frontierCodecs noFaults F job).2

/-- The frontier after the three pushes. -/
def filledFrontier : Frontier :=
  pushedOnto (pushedOnto (pushedOnto newFrontier homeJob) otherJob) pageJob

theorem sampleOps_run :
    ∃ F, Run (Step plainUrls Postcard.frontierCodecs) newFrontier sampleOps F := by
  have hpush : ∀ {F : Frontier} {job : CrawlJob},
      (Frontier.push plainUrls Postcard.frontierCodecs noFaults F job).1 = .ok () →
      Step plainUrls Postcard.frontierCodecs F (.push job) (pushedOnto F job) :=
    fun h => Step.push (Prod.ext h rfl)
  have hpop : (popReady Postcard.frontierCodecs noFaults filledFrontier 0 128
      fun host => host == "a.c".toList).map Prod.fst = some (.ok (some homeJob)) := by
    decide
  obtain ⟨⟨_, F⟩, hpop, rfl⟩ := Option.map_eq_some_iff.mp hpop
  have hreopen : (Frontier.open noFaults F.db).1 = .ok _ := rfl
  exact ⟨_, Run.cons (hpush (by decide)) (Run.cons (hpush (by decide))
    (Run.cons (hpush (by decide)) (Run.cons (Step.pop hpop) (Run.single (Step.reopen hreopen)))))⟩

theorem plainUrls_plainHost {url host : Str} (h : plainUrls.hostOf url = some host) :
    PlainHost host := by
  intro b hb
  obtain ⟨c, hc, hb⟩ := List.mem_flatMap.mp hb
  exact one_lt_of_mem_encodeChar (plainUrls_hostOf h c hc) hb

/-- What a run on a real database leaves: the jobs not popped, and no other. -/
theorem frontier_fifo_sample : ∃ F : Frontier,
    Run (Step plainUrls Postcard.frontierCodecs) newFrontier sampleOps F ∧
    [homeJob, otherJob, pageJob].Perm (homeJob :: stored Postcard.frontierCodecs F) := by
  obtain ⟨F, hrun⟩ := sampleOps_run
  exact ⟨F, hrun, (frontier_fifo plainUrls Postcard.frontierCodecs
    (fun _ _ => plainUrls_plainHost) newFrontier F sampleOps newFrontier_fresh hrun).1⟩

end FrontierQueue
