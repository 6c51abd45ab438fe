/-
The query log (`api.services.analytics`): the newest queries behind a lock.

A call of `record` makes its entry first, and takes the lock to append it afterwards, so that
entries of other threads, and a `clear`, may come in between.

* `Kept` — the log has the last of what was appended since it was cleared;
* `Step.kept` — every step keeps it so;
* `snapshot_records` — what a snapshot says of the records that it copies;
* `snapshot_describes` — they are those, whichever way the calls of all threads interleave.
-/
import MjlSearch.Analytics
import MjlSearch.Leading
import MjlSearch.Runs
import MjlSearch.Text

open Text Runs Leading

namespace QueryLog

variable {K : Type*}

/-! ### The source -/

/-- Reported in full, but only the head is worth displaying. -/
def topQueries : ℕ := 10

def recentQueries : ℕ := 20

def slowestQueries : ℕ := 5

/-- One served query. -/
structure QueryRecord (K : Type*) extends Analytics.QueryRecord K where
  query : Str
  totalMatches : ℕ
  returned : ℕ
  cached : Bool

/-- The last elements of a list: `l[-n:]`. -/
def last {α : Type*} (n : ℕ) (l : List α) : List α := l.drop (l.length - n)

/-- `deque.append`, which drops from the left what is beyond the length that is kept. -/
def push {α : Type*} (maxlen : ℕ) (records : List α) (entry : α) : List α :=
  last maxlen (records ++ [entry])

/-- A fixed-size record of recent queries. -/
structure Log (K : Type*) where
  capacity : ℕ
  records : List (QueryRecord K)
  startedAt : K
  total : ℕ

/-- `QueryLog.__init__` -/
def Log.new (capacity : ℤ) (now : K) : Except Str (Log K) :=
  if capacity < 0 then .error "capacity must not be negative".toList
  else .ok { capacity := capacity.toNat, records := [], startedAt := now, total := 0 }

/-- What `record` does under the lock. -/
def Log.append (log : Log K) (entry : QueryRecord K) : Log K :=
  { log with
    records := push (max 1 log.capacity) log.records entry
    total := log.total + 1 }

/-- Drops every record. -/
def Log.clear (log : Log K) (now : K) : Log K :=
  { log with records := [], startedAt := now, total := 0 }

structure SlowQuery (K : Type*) where
  query : Str
  tookMs : K
  totalMatches : ℕ

structure RecentQuery (K : Type*) where
  record : QueryRecord K
  ageSeconds : K

/-- The shape the dashboard renders. -/
structure Snapshot (K : Type*) where
  capacity : ℕ
  retained : ℕ
  totalRecorded : ℕ
  uptimeSeconds : K
  cached : ℕ
  cacheHitRate : K
  failed : ℕ
  matched : ℕ
  returned : ℕ
  latencyMs : Analytics.LatencyMs K
  queriesPerSecond : K
  series : List (Analytics.Point K)
  topQueries : List (Str × ℕ)
  slowest : List (SlowQuery K)
  recent : List (RecentQuery K)

section

variable [Field K] [LinearOrder K] [FloorRing K]

/-- `QueryLog.snapshot`: what is copied under the lock, aggregated. -/
def Log.snapshot (log : Log K) (now : K) : Snapshot K :=
  let records := log.records
  let uptime := max (now - log.startedAt) 0
  let cached := (records.filter fun record => record.cached).length
  { capacity := log.capacity
    retained := records.length
    totalRecorded := log.total
    uptimeSeconds := uptime
    cached
    cacheHitRate := if records.isEmpty then 0 else (cached : K) / records.length
    failed := (records.filter fun record => record.failed).length
    matched := (records.map QueryRecord.totalMatches).sum
    returned := (records.map QueryRecord.returned).sum
    latencyMs := Analytics.latencyMs (records.map QueryRecord.toQueryRecord)
    queriesPerSecond := if 0 < uptime then (records.length : K) / uptime else 0
    series := Analytics.bucketSeries (records.map QueryRecord.toQueryRecord) now
    topQueries := mostCommon topQueries (records.map QueryRecord.query)
    slowest := (leading (fun record => record.tookMs) slowestQueries records).map fun record =>
      { query := record.query, tookMs := record.tookMs, totalMatches := record.totalMatches }
    recent := (last recentQueries records).reverse.map fun record =>
      { record, ageSeconds := max (now - record.at_) 0 } }

end

/-! ### The threads -/

/-- The log, and the entries that are made and wait for the lock. -/
structure System (K : Type*) where
  log : Log K
  entries : List (QueryRecord K)

inductive Event (K : Type*)
  | made (entry : QueryRecord K)
  | appended (entry : QueryRecord K)
  | cleared (now : K)

/-- One step of any thread.  A log that is disabled takes no entries. -/
inductive Step : System K → Event K → System K → Prop
  | made {s : System K} (entry : QueryRecord K) (h : s.log.capacity ≠ 0) :
      Step s (.made entry) { s with entries := s.entries ++ [entry] }
  | appended {s : System K} {entry : QueryRecord K} {before after : List (QueryRecord K)}
      (h : s.entries = before ++ entry :: after) :
      Step s (.appended entry) { log := s.log.append entry, entries := before ++ after }
  | cleared {s : System K} (now : K) :
      Step s (.cleared now) { s with log := s.log.clear now }

def madeBy : Event K → Option (QueryRecord K)
  | .made entry => some entry
  | _ => none

def appendedBy : Event K → Option (QueryRecord K)
  | .appended entry => some entry
  | _ => none

/-- What is appended, as an event leaves it. -/
def note (kept : List (QueryRecord K)) : Event K → List (QueryRecord K)
  | .made _ => kept
  | .appended entry => kept ++ [entry]
  | .cleared _ => []

/-- What was appended since the log was cleared, the oldest first. -/
def since (events : List (Event K)) : List (QueryRecord K) := events.foldl note []

/-! ### The last of a list -/

theorem last_eq {α : Type*} (n : ℕ) (l : List α) : last n l = (l.reverse.take n).reverse := by
  rw [List.reverse_take, List.reverse_reverse, List.length_reverse, last]

@[simp] theorem last_nil {α : Type*} (n : ℕ) : last n ([] : List α) = [] := List.drop_nil

theorem length_last {α : Type*} (n : ℕ) (l : List α) : (last n l).length = min n l.length := by
  rw [last, List.length_drop]
  omega

/-- What is dropped stays dropped. -/
theorem push_last {α : Type*} (n : ℕ) (l : List α) (a : α) :
    push (max 1 n) (last (max 1 n) l) a = last (max 1 n) (l ++ [a]) := by
  rw [push, last_eq, last_eq (max 1 n) l, last_eq, List.reverse_append, List.reverse_append,
    List.reverse_reverse, List.reverse_singleton, List.singleton_append, List.singleton_append,
    show max 1 n = (max 1 n - 1) + 1 by omega, List.take_succ_cons, List.take_succ_cons,
    List.take_take, Nat.min_eq_left (by omega)]

/-! ### Step by step -/

/-- What holds in every state: nothing is lost on the way to the lock, and the log has the last
of what was appended since it was cleared. -/
structure Kept (capacity : ℕ) (events : List (Event K)) (s : System K) : Prop where
  bound : s.log.capacity = capacity
  entries : (events.filterMap madeBy).Perm (events.filterMap appendedBy ++ s.entries)
  records : s.log.records = last (max 1 capacity) (since events)
  total : s.log.total = (since events).length
  disabled : capacity = 0 → events.filterMap madeBy = []

theorem since_snoc (events : List (Event K)) (e : Event K) :
    since (events ++ [e]) = note (since events) e := by
  rw [since, List.foldl_append]
  rfl

/-- **Every step keeps the last that was appended.** -/
theorem Step.kept {capacity : ℕ} {events : List (Event K)} {s t : System K} {e : Event K}
    (hs : Kept capacity events s) (h : Step s e t) : Kept capacity (events ++ [e]) t := by
  cases h with
  | made entry henabled =>
    refine ⟨hs.bound, ?_, ?_, ?_, ?_⟩
    · rw [List.filterMap_append, List.filterMap_append]
      show (events.filterMap madeBy ++ [entry]).Perm
        ((events.filterMap appendedBy ++ []) ++ (s.entries ++ [entry]))
      rw [List.append_nil, ← List.append_assoc]
      exact hs.entries.append_right _
    · rw [since_snoc]
      exact hs.records
    · rw [since_snoc]
      exact hs.total
    · intro hzero
      exact absurd (hs.bound.trans hzero) henabled
  | @appended entry before after hentries =>
    refine ⟨hs.bound, ?_, ?_, ?_, ?_⟩
    · have hperm := hs.entries
      rw [hentries] at hperm
      rw [List.filterMap_append, List.filterMap_append]
      show (events.filterMap madeBy ++ []).Perm
        ((events.filterMap appendedBy ++ [entry]) ++ (before ++ after))
      rw [List.append_nil, List.append_assoc]
      exact hperm.trans (List.Perm.append_left _ List.perm_middle)
    · rw [since_snoc]
      show push (max 1 s.log.capacity) s.log.records entry = _
      rw [hs.bound, hs.records]
      exact push_last capacity _ entry
    · rw [since_snoc]
      show s.log.total + 1 = (since events ++ [entry]).length
      rw [hs.total, List.length_append]
      rfl
    · intro hzero
      rw [List.filterMap_append, hs.disabled hzero]
      rfl
  | cleared now =>
    refine ⟨hs.bound, ?_, ?_, ?_, ?_⟩
    · rw [List.filterMap_append, List.filterMap_append]
      show (events.filterMap madeBy ++ []).Perm ((events.filterMap appendedBy ++ []) ++ s.entries)
      rw [List.append_nil, List.append_nil]
      exact hs.entries
    · rw [since_snoc]
      exact (last_nil _).symm
    · rw [since_snoc]
      rfl
    · intro hzero
      rw [List.filterMap_append, hs.disabled hzero]
      rfl

theorem run_kept {capacity : ℤ} {start : K} {log : Log K}
    (hnew : Log.new capacity start = .ok log) {events : List (Event K)} {s : System K}
    (h : Run Step { log, entries := [] } events s) : Kept capacity.toNat events s := by
  rw [Log.new] at hnew
  split at hnew
  · cases hnew
  · cases hnew
    exact h.invariant_trace (I := Kept capacity.toNat)
      ⟨rfl, List.Perm.refl _, (last_nil _).symm, rfl, fun _ => rfl⟩
      fun _ _ _ _ hs hstep => hstep.kept hs

/-- What was appended since the log was cleared was appended. -/
theorem since_suffix (events : List (Event K)) : since events <:+ events.filterMap appendedBy := by
  induction events using List.reverseRecOn with
  | nil => exact List.suffix_refl _
  | append_singleton events e ih =>
    rw [since_snoc, List.filterMap_append]
    cases e with
    | made entry =>
      rw [List.filterMap_cons_none rfl, List.filterMap_nil, List.append_nil]
      exact ih
    | appended entry =>
      obtain ⟨front, hfront⟩ := ih
      exact ⟨front, by rw [← hfront, List.append_assoc]; rfl⟩
    | cleared now => exact List.nil_suffix

/-- The log has as much of that as it has room for; a disabled one has none. -/
theorem Kept.records_eq {capacity : ℕ} {events : List (Event K)} {s : System K}
    (h : Kept capacity events s) : s.log.records = last capacity (since events) := by
  rcases Nat.eq_zero_or_pos capacity with hzero | hpos
  · have hmade := h.entries
    rw [h.disabled hzero] at hmade
    have happended : events.filterMap appendedBy = [] :=
      (List.append_eq_nil_iff.mp hmade.nil_eq.symm).1
    have hnone : since events = [] := List.suffix_nil.mp (happended ▸ since_suffix events)
    rw [h.records, hnone, last_nil, last_nil]
  · rw [h.records, Nat.max_eq_right hpos]

/-! ### The figures -/

/-- A share of some records is no more than all of them. -/
theorem share_mem {K : Type*} [Field K] [LinearOrder K] [IsStrictOrderedRing K] {α : Type*}
    (p : α → Bool) (l : List α) :
    0 ≤ (if l.isEmpty then 0 else ((l.filter p).length : K) / l.length) ∧
      (if l.isEmpty then 0 else ((l.filter p).length : K) / l.length) ≤ 1 := by
  split
  · exact ⟨le_refl 0, zero_le_one⟩
  · refine ⟨div_nonneg (Nat.cast_nonneg _) (Nat.cast_nonneg _), ?_⟩
    exact div_le_one_of_le₀ (Nat.cast_le.mpr (List.length_filter_le p l)) (Nat.cast_nonneg _)

variable [Field K] [LinearOrder K] [FloorRing K]

/-- The points of a series count no more records than there are. -/
theorem series_counts_le (records : List (Analytics.QueryRecord K)) (now : K) :
    ((Analytics.bucketSeries records now).map Analytics.Point.count).sum ≤ records.length := by
  rw [Analytics.bucketSeries, List.map_map]
  show ((List.range Analytics.seriesBuckets).map fun index =>
    (records.foldl (Analytics.accumulate _) _).counts.getD index 0).sum ≤ _
  rw [Analytics.foldl_accumulate]
  exact Binned.sum_getD_sweep_le _ records

/-- What a snapshot says of the records that are retained, the oldest first: the last twenty, the
newest first and each with its age; the queries that were asked most often, with their numbers;
the slowest, those that took as long as each other in their order; the share of those from the
cache; and the points that a scan for each bucket gives, which count no record twice. -/
structure Describes (newest : List (QueryRecord K)) (now : K) (snapshot : Snapshot K) : Prop where
  recent : snapshot.recent = (newest.reverse.take recentQueries).map fun record =>
    { record, ageSeconds := max (now - record.at_) 0 }
  top : Counts topQueries (newest.map QueryRecord.query) snapshot.topQueries
  slowest : ∃ slow, Leads (fun record => record.tookMs) slowestQueries newest slow ∧
    snapshot.slowest = slow.map fun record =>
      { query := record.query, tookMs := record.tookMs, totalMatches := record.totalMatches }
  rate : snapshot.cacheHitRate = if newest = [] then 0
    else ((newest.filter QueryRecord.cached).length : K) / newest.length
  rate_mem : 0 ≤ snapshot.cacheHitRate ∧ snapshot.cacheHitRate ≤ 1
  series : (∀ record ∈ newest, 0 ≤ record.tookMs) →
    snapshot.series = Analytics.bucketScan (newest.map QueryRecord.toQueryRecord) now
  counts : (snapshot.series.map Analytics.Point.count).sum ≤ newest.length

theorem snapshot_records [IsStrictOrderedRing K] (log : Log K) (now : K) :
    Describes log.records now (log.snapshot now) where
  recent := by
    show (last recentQueries log.records).reverse.map _ = _
    rw [last_eq, List.reverse_reverse]
  top := mostCommon_counts _ _
  slowest := ⟨_, leading_leads _ _ _, rfl⟩
  rate := by
    show (if log.records.isEmpty then 0 else _) = _
    simp only [List.isEmpty_iff]
  rate_mem := share_mem _ _
  series hnonneg := by
    refine Analytics.bucketSeries_eq (fun record hrecord => ?_) now
    obtain ⟨kept, hkept, rfl⟩ := List.mem_map.mp hrecord
    exact hnonneg kept hkept
  counts := by
    have hle := series_counts_le (log.records.map QueryRecord.toQueryRecord) now
    rwa [List.length_map] at hle

/-- **What a snapshot says of the calls of all threads**, in whatever order they take the lock.
Each entry that was made was appended, once, or waits.  The snapshot counts those appended since
the last clear, and describes the newest of them, as many as there is room for. -/
theorem snapshot_describes [IsStrictOrderedRing K] (capacity : ℤ) (start : K) (log : Log K)
    (hnew : Log.new capacity start = .ok log) (events : List (Event K)) (s : System K)
    (h : Run Step { log, entries := [] } events s) (now : K) :
    (events.filterMap madeBy).Perm (events.filterMap appendedBy ++ s.entries) ∧
    (s.log.snapshot now).totalRecorded = (since events).length ∧
    (s.log.snapshot now).retained = min capacity.toNat (since events).length ∧
    Describes (last capacity.toNat (since events)) now (s.log.snapshot now) := by
  have hkept := run_kept hnew h
  have hrecords := hkept.records_eq
  refine ⟨hkept.entries, hkept.total, ?_, hrecords ▸ snapshot_records s.log now⟩
  show s.log.records.length = _
  rw [hrecords, length_last]

/-! ### Two threads and a clear -/

def asked (query : Str) (tookMs : ℚ) (cached : Bool) : QueryRecord ℚ :=
  { tookMs, failed := false, at_ := 6, query, totalMatches := 1, returned := 1, cached }

/-- The second entry is made before the log is cleared, and appended after the third. -/
def sampleEvents : List (Event ℚ) :=
  [.made (asked "a".toList 1 false), .appended (asked "a".toList 1 false),
    .made (asked "b".toList 2 false), .cleared 5, .made (asked "c".toList 3 false),
    .appended (asked "c".toList 3 false), .appended (asked "b".toList 2 false),
    .made (asked "d".toList 4 true), .appended (asked "d".toList 4 true)]

theorem snapshot_describes_sample : ∃ s : System ℚ,
    (s.log.snapshot 10).totalRecorded = 3 ∧ (s.log.snapshot 10).retained = 2 ∧
    (s.log.snapshot 10).recent = [⟨asked "d".toList 4 true, 4⟩, ⟨asked "b".toList 2 false, 4⟩] ∧
    (s.log.snapshot 10).cacheHitRate = 1 / 2 := by
  let log : Log ℚ := { capacity := 2, records := [], startedAt := 0, total := 0 }
  have hrun : ∃ s, Run Step { log, entries := [] } sampleEvents s :=
    ⟨_, Run.cons (.made _ (by decide)) <| Run.cons (@Step.appended _ _ _ [] [] rfl) <|
      Run.cons (.made _ (by decide)) <| Run.cons (.cleared 5) <|
      Run.cons (.made _ (by decide)) <| Run.cons (@Step.appended _ _ _ [_] [] rfl) <|
      Run.cons (@Step.appended _ _ _ [] [] rfl) <| Run.cons (.made _ (by decide)) <|
      Run.single (@Step.appended _ _ _ [] [] rfl)⟩
  obtain ⟨s, hrun⟩ := hrun
  obtain ⟨-, htotal, hretained, hdescribes⟩ :=
    snapshot_describes 2 0 log rfl sampleEvents s hrun 10
  have hnewest : last 2 (since sampleEvents)
      = [asked "b".toList 2 false, asked "d".toList 4 true] := rfl
  rw [show (2 : ℤ).toNat = 2 from rfl, hnewest] at hdescribes
  refine ⟨s, htotal, hretained, hdescribes.recent.trans ?_, hdescribes.rate.trans ?_⟩
  · norm_num [asked, recentQueries]
  · rw [if_neg (List.cons_ne_nil _ _)]
    norm_num [asked, List.filter]

end QueryLog
