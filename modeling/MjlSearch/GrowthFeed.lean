/-
The growth feed from end to end: what the indexer records of its commits, and what the pages
show of it.

The timeline is a file between two programs: the indexer writes it with `serde`, which enters as
a codec that writes compact JSON, and the service reads it with `json.loads`.  The limits of
`json.loads` on the digits of a number and on the depth of a value, which no timeline comes near,
are left out.

* `contents_timeline` — the file's text is read as the timeline it was;
* `readIndexHistory_timeline` — the figures that are derived from it;
* `recorded_eq` — the file after the calls of a run;
* `growth_feed_exact` — each minute of the chart shows what was gained in it.
-/
import MjlSearch.CachedReads
import MjlSearch.DoubleBounds
import MjlSearch.GrowthChart
import MjlSearch.HistoryJson
import MjlSearch.HistoryWindows

open Text Machine
open JsonText hiding Value
open IndexState (Json Loaded StateFile Report readText contents readIndexHistory universalNewlines)

open IndexHistory (Fits WritesCompact bucketValue timelineValue isWhole_timelineValue)

namespace GrowthFeed

/-! ### Reading a value -/

/-- `items[key] = value` -/
def put (items : List (Str × Json)) (key : Str) (value : Json) : List (Str × Json) :=
  if items.any fun item => item.1 = key then
    items.map fun item => if item.1 = key then (key, value) else item
  else items ++ [(key, value)]

mutual

/-- A value, in Python's types. -/
def jsonOf : JsonText.Value → Json
  | .null => .null
  | .bool b => .bool b
  | .int z => .int z
  | .real token => .float ((Double.parse token).getD .nan)
  | .str s => .str s
  | .list values => .list (jsonsOf values)
  | .dict items => .dict (itemsOf [] items)

def jsonsOf : List JsonText.Value → List Json
  | [] => []
  | v :: values => jsonOf v :: jsonsOf values

def itemsOf (read : List (Str × Json)) : List (Str × JsonText.Value) → List (Str × Json)
  | [] => read
  | (key, v) :: items => itemsOf (put read key (jsonOf v)) items

end

/-- What `json.loads` knows beyond the words of the format. -/
def constants : List (Str × JsonText.Value) :=
  [("NaN".toList, .real "nan".toList), ("Infinity".toList, .real "inf".toList),
    ("-Infinity".toList, .real "-inf".toList)]

/-- `json.loads` -/
def loads (s : Str) : Loaded :=
  match JsonText.loads constants s with
  | some v => .value (jsonOf v)
  | none => .decodeError

/-! ### The timeline's file -/

def bucketJson (bucket : Bucket) : Json :=
  .dict [("at".toList, .int bucket.at_), ("documents".toList, .int bucket.documents)]

/-- A timeline as the reader has it. -/
def timelineItems (history : IndexHistory) : List (Str × Json) :=
  [("updated_at".toList, .int history.updatedAt),
    ("total_documents".toList, .int history.totalDocuments),
    ("buckets".toList, .list (history.buckets.map bucketJson))]

theorem jsonOf_timeline (history : IndexHistory) :
    jsonOf (timelineValue history) = .dict (timelineItems history) := by
  have hbuckets : ∀ buckets : List Bucket,
      jsonsOf (buckets.map bucketValue) = buckets.map bucketJson := by
    intro buckets
    induction buckets with
    | nil => rfl
    | cons bucket buckets ih =>
      rw [List.map_cons, jsonsOf, ih, List.map_cons]
      rfl
  rw [timelineValue, jsonOf, itemsOf, itemsOf, itemsOf, itemsOf, jsonOf, jsonOf, jsonOf, hbuckets]
  rfl

/-- **The text is read as the timeline.** -/
theorem loads_timeline (history : IndexHistory) :
    loads (write (timelineValue history)) = .value (.dict (timelineItems history)) := by
  rw [loads, loads_write _ _ (isWhole_timelineValue history), ← jsonOf_timeline]

/-! ### The bytes -/

theorem universalNewlines_eq {s : Str} (h : '\r' ∉ s) : universalNewlines s = s := by
  induction s with
  | nil => rfl
  | cons c s ih =>
    rw [List.mem_cons, not_or] at h
    have hc : c ≠ '\r' := fun hc => h.1 hc.symm
    rw [universalNewlines, ih h.2, if_neg hc]
    intro rest hreturn
    exact absurd hreturn hc

/-- **What the file says**, to the reader. -/
theorem contents_timeline {history : IndexHistory} {file : StateFile}
    (h : file.content = utf8 (write (timelineValue history))) :
    contents loads (some file) = some (.dict (timelineItems history)) := by
  -- the text has no return in it, which `read_text` would have made a new line
  have hreturn : '\r' ∉ write (timelineValue history) := fun hmem =>
    absurd (write_printable _ (isWhole_timelineValue history) '\r' hmem) (by decide)
  have htext : readText file.content = some (write (timelineValue history)) := by
    rw [readText, h, fromUtf8_utf8, Option.map_some, universalNewlines_eq hreturn]
  rw [contents, htext]
  dsimp only
  rw [loads_timeline]

/-! ### The report -/

/-- A bucket, as the reader keeps it. -/
def kept (bucket : Bucket) : IndexState.Bucket := ⟨bucket.at_, bucket.documents⟩

theorem mapM_readEntry (buckets : List Bucket) :
    (buckets.map bucketJson).mapM IndexState.readEntry
      = some (buckets.map fun bucket => some (kept bucket)) := by
  induction buckets with
  | nil => rfl
  | cons bucket buckets ih =>
    rw [List.map_cons, List.mapM_cons, ih]
    rfl

theorem readBuckets_timeline {history : IndexHistory}
    (hordered : (IndexHistory.minutes history.buckets).Pairwise (· < ·)) :
    IndexState.readBuckets (timelineItems history) = some (history.buckets.map kept) := by
  have hentries : ((Json.get (timelineItems history) "buckets".toList).orElse (.list [])).iterate
      = some (history.buckets.map bucketJson) := by
    show (Json.orElse (.list (history.buckets.map bucketJson)) (.list [])).iterate = _
    cases history.buckets with
    | nil => rfl
    | cons bucket buckets => rfl
  have hsorted : (history.buckets.map kept).Pairwise fun a b => a.at_ ≤ b.at_ := by
    rw [List.pairwise_map]
    exact (List.pairwise_map.mp hordered).imp fun hlt => Int.le_of_lt hlt
  have hreduce : (history.buckets.map fun bucket => some (kept bucket)).reduceOption
      = history.buckets.map kept := by
    show (history.buckets.map fun bucket => some (kept bucket)).filterMap id = _
    rw [List.filterMap_map]
    exact congrFun List.filterMap_eq_map' history.buckets
  rw [IndexState.readBuckets, hentries]
  simp only [Option.bind_eq_bind, Option.bind_some, Option.pure_def]
  rw [mapM_readEntry]
  simp only [Option.bind_some]
  rw [hreduce, List.Pairwise.insertionSort_eq hsorted]

/-- The documents in the buckets from a time on. -/
def countedFrom (buckets : List Bucket) (cutoff : ℤ) : ℕ :=
  ((buckets.filter fun bucket => cutoff ≤ bucket.at_).map Bucket.documents).sum

theorem documentsSince_kept (buckets : List Bucket) (reference : ℤ) (seconds : ℕ) :
    IndexState.documentsSince (buckets.map kept) reference seconds
      = countedFrom buckets (reference - seconds) := by
  rw [IndexState.documentsSince, List.filter_map, List.map_map, countedFrom, Nat.cast_list_sum,
    List.map_map]
  rfl

/-- The timelines that are kept are short enough for their sums to be small. -/
theorem countedFrom_le {history : IndexHistory} (h : Fits history)
    (hkept : history.buckets.length ≤ IndexHistory.retention) (cutoff : ℤ) :
    countedFrom history.buckets cutoff ≤ 2 ^ 72 := by
  have hsum : ∀ buckets : List Bucket, (∀ bucket ∈ buckets, bucket.documents < 2 ^ 64) →
      (buckets.map Bucket.documents).sum ≤ buckets.length * 2 ^ 64 := by
    intro buckets hbuckets
    induction buckets with
    | nil => exact Nat.zero_le _
    | cons bucket buckets ih =>
      have hfirst := hbuckets bucket List.mem_cons_self
      have hrest := ih fun b hb => hbuckets b (List.mem_cons_of_mem _ hb)
      rw [List.map_cons, List.sum_cons, List.length_cons, Nat.succ_mul]
      omega
  have hfilter := hsum (history.buckets.filter fun bucket => cutoff ≤ bucket.at_)
    fun bucket hbucket => h.documents bucket (List.mem_of_mem_filter hbucket)
  have hlength : (history.buckets.filter fun bucket => cutoff ≤ bucket.at_).length ≤ 180 :=
    Nat.le_trans (List.length_filter_le _ _) hkept
  calc countedFrom history.buckets cutoff
      ≤ (history.buckets.filter fun bucket => cutoff ≤ bucket.at_).length * 2 ^ 64 := hfilter
    _ ≤ 180 * 2 ^ 64 := Nat.mul_le_mul_right _ hlength
    _ ≤ 2 ^ 72 := by decide

variable {history : IndexHistory} {parse : Str → Option ℤ} {path : Str} {now : Option Double}
  {time : Double}

/-- What a report says of a timeline. -/
structure ReportsTimeline (history : IndexHistory) (report : Report) : Prop where
  updatedAt : report.updatedAt = some history.updatedAt
  totalDocuments : report.totalDocuments = history.totalDocuments
  lastHour : report.documentsLastHour = countedFrom history.buckets (history.updatedAt - 3600)
  lastQuarter :
    report.documentsLastQuarter = countedFrom history.buckets (history.updatedAt - 900)
  buckets : report.buckets = (history.buckets.drop (history.buckets.length - 60)).map kept

/-- The rate of a window is a number, and what it projects onto the next hour is one. -/
theorem projects {history : IndexHistory} (h : Fits history)
    (hkept : history.buckets.length ≤ IndexHistory.retention) (cutoff : ℤ) :
    ∃ counted projected, Double.ofInt (countedFrom history.buckets cutoff : ℕ) = some counted ∧
      ((counted.divNat (IndexState.rateWindowSeconds / 60)).mulNat 60).toInt = some projected := by
  -- the bounds of the operations stay far below the largest double
  obtain ⟨counted, hcounted, hbelow⟩ := Double.ofInt_below (k := 72)
    (z := (countedFrom history.buckets cutoff : ℕ))
    (by rw [Int.natAbs_natCast]; exact countedFrom_le h hkept _) (by decide)
  have hrate := Double.divNat_below (n := 15) hbelow (by decide) (by decide)
  have hproduct := Double.mulNat_below (n := 60) (j := 6) hrate (by decide) (by decide)
  obtain ⟨projected, hprojected⟩ := Double.toInt_below hproduct
  exact ⟨counted, projected, hcounted, hprojected⟩

/-- The age of a timeline is a number. -/
theorem aged {history : IndexHistory} (h : Fits history) (now : Option Double)
    (time : Double) :
    ∃ age, IndexState.ageSecondsOf now time (some history.updatedAt) = some (some age) := by
  have hsize : history.updatedAt.natAbs ≤ 2 ^ 63 := by
    obtain ⟨hlow, hhigh⟩ := h.updatedAt
    simp only [i64Min, i64Max] at hlow hhigh
    omega
  obtain ⟨updated, hupdated, -⟩ := Double.ofInt_below hsize (by decide)
  rw [IndexState.ageSecondsOf, IndexState.ageOf, hupdated]
  exact ⟨_, rfl⟩

/-- The total is read as it was written. -/
theorem toInt_total (history : IndexHistory) (parse : Str → Option ℤ) :
    ((Json.get (timelineItems history) "total_documents".toList).orElse (.int 0)).toInt parse
      = some (history.totalDocuments : ℤ) := by
  show (Json.orElse (.int history.totalDocuments) (.int 0)).toInt parse = _
  -- a zero is not kept by `or`, which puts a zero in its place
  by_cases hzero : (history.totalDocuments : ℤ) = 0
  · rw [hzero]
    rfl
  · rw [Json.orElse, if_pos (by simpa [Json.truthy] using hzero)]
    rfl

/-- **A timeline is reported**: nothing of it raises, and the figures are its own. -/
theorem readIndexHistory_timeline (hfits : Fits history)
    (hkept : history.buckets.length ≤ IndexHistory.retention)
    (hordered : (IndexHistory.minutes history.buckets).Pairwise (· < ·))
    (parse : Str → Option ℤ) (path : Str) (now : Option Double) (time : Double) :
    ∃ report, readIndexHistory parse path (some (.dict (timelineItems history))) now time
      = some (some report) ∧ ReportsTimeline history report := by
  obtain ⟨quarter, projected, hquarter, hprojected⟩ :=
    projects hfits hkept (history.updatedAt - IndexState.rateWindowSeconds)
  obtain ⟨age, hage⟩ := aged hfits now time
  have hupdatedAt : IndexState.readUpdatedAt (timelineItems history)
      = some (some history.updatedAt) := rfl
  rw [← documentsSince_kept] at hquarter
  unfold readIndexHistory
  dsimp only
  rw [readBuckets_timeline hordered, hupdatedAt]
  simp only [Option.bind_eq_bind, Option.bind_some, IndexState.referenceOf]
  rw [hquarter, hage, toInt_total]
  simp only [Option.map_some, Option.bind_some]
  rw [hprojected]
  refine ⟨_, rfl, ⟨rfl, rfl, documentsSince_kept .., documentsSince_kept .., ?_⟩⟩
  rw [List.map_drop, List.length_map]
  rfl

/-! ### The file of a run -/

open IndexHistory (Call File load merge merged minutes minuteOf reached retention addedBy
  laterMinutes)

/-- What holds of every bucket, of a new one and of one that gains documents. -/
theorem forall_mem_merge {P : Bucket → Prop} {buckets : List Bucket} {minute : ℤ} {documents : ℕ}
    (h : ∀ bucket ∈ buckets, P bucket) (hnew : P { at_ := minute, documents })
    (hgain : ∀ last, buckets.getLast? = some last → last.at_ = minute →
      P { last with documents := last.documents + documents }) :
    ∀ bucket ∈ merge minute documents buckets, P bucket := by
  intro bucket hbucket
  rw [merge] at hbucket
  split at hbucket
  · rename_i last hlast
    split at hbucket
    · rename_i hsame
      rw [List.mem_append, List.mem_singleton] at hbucket
      obtain hbefore | rfl := hbucket
      · exact h bucket (List.mem_of_mem_dropLast hbefore)
      · exact hgain last hlast hsame
    · rw [List.mem_append, List.mem_singleton] at hbucket
      obtain hbefore | rfl := hbucket
      · exact h bucket hbefore
      · exact hnew
  · rw [List.mem_singleton] at hbucket
    subst hbucket
    exact hnew

/-- The timelines of a run fit the indexer's types. -/
theorem reached_fits {calls : List Call} (h : reached calls = some history) : Fits history := by
  induction calls using List.reverseRecOn generalizing history with
  | nil =>
    cases h
    exact IndexHistory.fits_default
  | append_singleton calls call ih =>
    obtain ⟨before, hbefore, hcall⟩ := IndexHistory.reached_snoc h
    obtain ⟨hminute, hroom, rfl⟩ := IndexHistory.addChecked_eq_some hcall
    have hfits := ih hbefore
    have hbuckets : ∀ bucket ∈ merge call.minute call.documents before.buckets,
        IsI64 bucket.at_ ∧ bucket.documents < 2 ^ 64 := by
      refine forall_mem_merge (fun b hb => ⟨hfits.minutes b hb, hfits.documents b hb⟩)
        ⟨hminute, call.documents_lt⟩ fun last hlast hsame => ?_
      rw [IndexHistory.overflows, hlast, Option.any_some, decide_eq_false_iff_not, not_and,
        not_le] at hroom
      exact ⟨hfits.minutes last (List.mem_of_getLast? hlast), hroom hsame⟩
    refine ⟨call.isI64, call.total_lt, fun bucket hbucket => ?_, fun bucket hbucket => ?_⟩
    · rw [IndexHistory.add_buckets] at hbucket
      exact (hbuckets bucket (List.mem_of_mem_drop hbucket)).1
    · rw [IndexHistory.add_buckets] at hbucket
      exact (hbuckets bucket (List.mem_of_mem_drop hbucket)).2

theorem reached_length {calls : List Call} (h : reached calls = some history) :
    history.buckets.length ≤ retention := by
  rw [IndexHistory.reached_buckets h]
  exact IndexHistory.trim_length _

/-- The file after the calls of `record`, where there was none. -/
def recorded (json : Codec IndexHistory) (calls : List Call) : File :=
  calls.foldl
    (fun file call => IndexHistory.record json file call.now call.documents call.totalDocuments)
    none

theorem recorded_snoc (json : Codec IndexHistory) (calls : List Call) (call : Call) :
    recorded json (calls ++ [call]) = IndexHistory.record json (recorded json calls) call.now
      call.documents call.totalDocuments := by
  rw [recorded, List.foldl_append]
  rfl

/-- **The file after a run** is the text of the timeline that the run comes to. -/
theorem recorded_eq {json : Codec IndexHistory} (hjson : WritesCompact json) {calls : List Call}
    (h : reached calls = some history) : load json (recorded json calls) = history ∧
      (calls ≠ [] → recorded json calls = some (utf8 (write (timelineValue history)))) := by
  induction calls using List.reverseRecOn generalizing history with
  | nil =>
    cases h
    exact ⟨rfl, fun hne => absurd rfl hne⟩
  | append_singleton calls call ih =>
    have hwritten := hjson history (reached_fits h)
    obtain ⟨before, hbefore, hcall⟩ := IndexHistory.reached_snoc h
    obtain ⟨-, -, rfl⟩ := IndexHistory.addChecked_eq_some hcall
    rw [← (ih hbefore).1] at hwritten ⊢
    rw [recorded_snoc]
    refine ⟨IndexHistory.load_record (hwritten ▸ Option.some_ne_none _), fun _ => ?_⟩
    rw [IndexHistory.record, hwritten, Option.getD_some]

/-! ### What the minutes hold -/

open GrowthChart (Point documentsAt seriesPoints window)

/-- A minute that has a bucket is drawn with what the bucket holds. -/
theorem documentsAt_kept {buckets : List Bucket} (h : (minutes buckets).Pairwise (· < ·))
    (minute : ℤ) : documentsAt (buckets.map kept) minute =
      (((buckets.filter fun bucket => bucket.at_ = minute).map Bucket.documents).sum : ℕ) := by
  induction buckets with
  | nil => rfl
  | cons bucket buckets ih =>
    obtain ⟨hfirst, hrest⟩ := List.pairwise_cons.mp h
    rw [documentsAt, List.map_cons, List.reverse_cons, List.find?_append]
    by_cases hminute : bucket.at_ = minute
    · -- the other buckets are of later minutes
      have hlater : ∀ other ∈ buckets, other.at_ ≠ minute := by
        intro other hother hsame
        have hlt := hfirst other.at_ (List.mem_map_of_mem hother)
        omega
      have hnone : (buckets.map kept).reverse.find? (fun b => b.at_ = minute) = none := by
        rw [List.find?_eq_none]
        intro b hb
        obtain ⟨other, hother, rfl⟩ := List.mem_map.mp (List.mem_reverse.mp hb)
        exact fun hsame => hlater other hother (of_decide_eq_true hsame)
      have hempty : buckets.filter (fun bucket => bucket.at_ = minute) = [] := by
        rw [List.filter_eq_nil_iff]
        exact fun other hother hsame => hlater other hother (of_decide_eq_true hsame)
      have hat : ([kept bucket].find? fun b => b.at_ = minute) = some (kept bucket) :=
        List.find?_cons_of_pos (decide_eq_true hminute)
      rw [hnone, Option.none_or, hat, List.filter_cons_of_pos (by rwa [decide_eq_true_iff]),
        hempty]
      rfl
    · have hnot : ([kept bucket].find? fun b => b.at_ = minute) = none :=
        List.find?_cons_of_neg fun hsame => hminute (of_decide_eq_true hsame)
      rw [hnot, Option.or_none, List.filter_cons_of_neg (by rwa [decide_eq_true_iff]), ← ih hrest,
        documentsAt]

/-- Few minutes follow one that is not far from the last. -/
theorem laterMinutes_length_lt {calls : List Call} {minute stop : ℤ} {k : ℕ}
    (hstop : ∀ call ∈ calls, call.minute ≤ stop) (hminute : IndexHistory.bucketSeconds ∣ minute)
    (hk : 0 < k) (hnear : stop < minute + 60 * k) : (laterMinutes calls minute).length < k := by
  -- they are minutes of the clock, each once
  have hsubset : laterMinutes calls minute ⊆
      (List.range (k - 1)).map fun i : ℕ => minute + 60 * (i + 1) := by
    intro time htime
    rw [laterMinutes, List.mem_dedup, List.mem_filter, List.mem_map, decide_eq_true_iff] at htime
    obtain ⟨⟨call, hcall, rfl⟩, hlater⟩ := htime
    have hle := hstop call hcall
    have hdvd : IndexHistory.bucketSeconds ∣ call.minute := IndexHistory.dvd_minuteOf call.now
    rw [IndexHistory.bucketSeconds] at hdvd hminute
    rw [List.mem_map]
    refine ⟨((call.minute - minute) / 60 - 1).toNat, ?_, ?_⟩
    · rw [List.mem_range]
      omega
    · omega
  have hlength := ((List.nodup_dedup _).subperm hsubset).length_le
  rw [List.length_map, List.length_range] at hlength
  exact Nat.lt_of_le_of_lt hlength (Nat.sub_lt hk one_pos)

theorem drop_trim (buckets : List Bucket) :
    (IndexHistory.trim buckets).drop ((IndexHistory.trim buckets).length - 60)
      = buckets.drop (buckets.length - 60) := by
  rw [IndexHistory.trim, List.drop_drop, List.length_drop, retention]
  exact congrArg (List.drop · buckets) (by omega)

/-- Minutes that do not step back are none of them after the last. -/
theorem minute_le_last {calls : List Call} {last : Call} (hlast : calls.getLast? = some last)
    (hsteady : (calls.map Call.minute).IsChain (· ≤ ·)) :
    ∀ call ∈ calls, call.minute ≤ last.minute := by
  obtain ⟨before, rfl⟩ := List.getLast?_eq_some_iff.mp hlast
  intro call hcall
  rw [List.map_append, List.map_singleton] at hsteady
  have hpairwise := List.pairwise_append.mp (List.isChain_iff_pairwise.mp hsteady)
  rw [List.mem_append, List.mem_singleton] at hcall
  obtain hbefore | rfl := hcall
  · exact hpairwise.2.2 _ (List.mem_map_of_mem hbefore) _ (List.mem_singleton_self _)
  · exact Int.le_refl _

/-- The minutes of the last hour on a clock have all their documents in the newest buckets. -/
theorem documentsAt_newest {calls : List Call} {minute clock : ℤ}
    (hreached : reached calls = some history)
    (hsteady : (calls.map Call.minute).IsChain (· ≤ ·)) (hclock : ∀ call ∈ calls, call.now ≤ clock)
    (hwindow : minute ∈ window clock) :
    documentsAt ((history.buckets.drop (history.buckets.length - 60)).map kept) minute =
      addedBy (fun call => call.minute = minute) calls := by
  obtain ⟨index, hindex, hminute⟩ := List.mem_map.mp hwindow
  rw [List.mem_range, GrowthChart.chartMinutes] at hindex
  have hascending := IndexHistory.merged_ascending hsteady
  have hsublist := List.drop_sublist ((merged calls).length - 60) (merged calls)
  -- fewer than sixty minutes follow one of the window, so that its bucket is among the newest
  have hfew : (laterMinutes calls minute).length < 60 := by
    have hstop : ∀ call ∈ calls, call.minute ≤ minuteOf clock :=
      fun call hcall => IndexHistory.minuteOf_mono (hclock call hcall)
    refine laterMinutes_length_lt hstop ?_ (by decide) ?_
    · rw [← hminute, IndexHistory.bucketSeconds, GrowthChart.chartMinutes]
      omega
    · rw [← hminute, minuteOf, IndexHistory.bucketSeconds, GrowthChart.chartMinutes]
      omega
  have hsame : ∀ bucket ∈ merged calls,
      (decide (bucket.at_ = minute) && decide ((minutes (merged calls)).countP (bucket.at_ < ·) < 60))
        = decide (bucket.at_ = minute) := by
    intro bucket _
    by_cases hat : bucket.at_ = minute
    · rw [IndexHistory.countP_merged hsteady, hat, decide_eq_true hfew, Bool.and_true]
    · rw [decide_eq_false hat, Bool.false_and]
  rw [IndexHistory.reached_buckets hreached, drop_trim,
    documentsAt_kept (hascending.sublist (hsublist.map _)),
    IndexHistory.drop_eq_filter 60 hascending, List.filter_filter, List.filter_congr hsame,
    IndexHistory.merged_sum fun other => decide (other = minute)]

/-- A window before the last call, of no more than the minutes that are kept, counts all of it. -/
theorem countedFrom_eq {calls : List Call} {last : Call} (hreached : reached calls = some history)
    (hlast : calls.getLast? = some last) (hsteady : (calls.map Call.minute).IsChain (· ≤ ·))
    (seconds : ℕ) (hseconds : seconds ≤ 3600) :
    countedFrom history.buckets (last.now - seconds) =
      addedBy (fun call => last.now - seconds ≤ call.minute) calls := by
  have hcounted := IndexHistory.counted_in hreached hsteady (last.now - seconds)
  rw [countedFrom, hcounted, addedBy, addedBy]
  congr 2
  refine List.filter_congr fun call hcall => ?_
  -- a bucket of the window is not among those that the retention has dropped
  have hfew : last.now - seconds ≤ call.minute →
      (laterMinutes calls call.minute).length < retention := by
    intro hstart
    refine laterMinutes_length_lt (minute_le_last hlast hsteady)
      (IndexHistory.dvd_minuteOf call.now) (by decide) ?_
    have hle := (IndexHistory.minuteOf_le last.now).1
    rw [← Call.minute] at hle
    simp only [retention]
    omega
  rw [IndexHistory.countsIn]
  by_cases hstart : last.now - seconds ≤ call.minute
  · rw [decide_eq_true hstart, decide_eq_true ⟨hstart, hfew hstart⟩]
  · rw [decide_eq_false hstart, decide_eq_false fun hboth => hstart hboth.1]

/-! ### From the commits to the chart -/

/-- What the pages show of a run, at the reader's `clock`. -/
structure ShowsGrowth (K : Type*) [Field K] [LinearOrder K] [FloorRing K] (calls : List Call)
    (last : Call) (clock : ℤ) (report : Report) : Prop where
  updatedAt : report.updatedAt = some last.now
  totalDocuments : report.totalDocuments = last.totalDocuments
  lastHour : report.documentsLastHour = addedBy (fun call => last.now - 3600 ≤ call.minute) calls
  lastQuarter :
    report.documentsLastQuarter = addedBy (fun call => last.now - 900 ≤ call.minute) calls
  minutes : ∀ point ∈ (seriesPoints (K := K) report.buckets clock).1,
    point.documents = addedBy (fun call => call.minute = point.at_) calls

/-- **Each minute of the chart shows what was gained in it**, and the figures beside it are the
sums of the last hour and quarter, whatever the number of commits and of minutes between them,
for a reader whose clock is not behind them. -/
theorem growth_feed_exact {K : Type*} [Field K] [LinearOrder K] [FloorRing K]
    {json : Codec IndexHistory} (hjson : WritesCompact json) {calls : List Call} {last : Call}
    {clock : ℤ} {file : StateFile} (hreached : reached calls = some history)
    (hlast : calls.getLast? = some last) (hsteady : (calls.map Call.minute).IsChain (· ≤ ·))
    (hclock : ∀ call ∈ calls, call.now ≤ clock) (hfile : recorded json calls = some file.content)
    (parse : Str → Option ℤ) (path : Str) (now : Option Double) (time : Double) :
    ∃ report, readIndexHistory parse path (contents loads (some file)) now time
      = some (some report) ∧ ShowsGrowth K calls last clock report := by
  have hne : calls ≠ [] := by
    rintro rfl
    cases hlast
  have hcontent : file.content = utf8 (write (timelineValue history)) :=
    Option.some.inj (hfile.symm.trans ((recorded_eq hjson hreached).2 hne))
  have hordered : (minutes history.buckets).Pairwise (· < ·) := by
    rw [IndexHistory.reached_buckets hreached]
    exact (IndexHistory.merged_ascending hsteady).sublist ((List.drop_sublist _ _).map _)
  obtain ⟨report, hreport, hreports⟩ := readIndexHistory_timeline (reached_fits hreached)
    (reached_length hreached) hordered parse path now time
  have hupdated : history.updatedAt = last.now ∧ history.totalDocuments = last.totalDocuments := by
    obtain ⟨before, rfl⟩ := List.getLast?_eq_some_iff.mp hlast
    obtain ⟨_, -, hcall⟩ := IndexHistory.reached_snoc hreached
    obtain ⟨-, -, rfl⟩ := IndexHistory.addChecked_eq_some hcall
    exact ⟨rfl, rfl⟩
  rw [contents_timeline hcontent]
  refine ⟨report, hreport, ?_, ?_, ?_, ?_, ?_⟩
  · rw [hreports.updatedAt, hupdated.1]
  · rw [hreports.totalDocuments, hupdated.2]
  · rw [hreports.lastHour, hupdated.1]
    exact congrArg _ (countedFrom_eq hreached hlast hsteady 3600 (by decide))
  · rw [hreports.lastQuarter, hupdated.1]
    exact congrArg _ (countedFrom_eq hreached hlast hsteady 900 (by decide))
  · intro point hpoint
    rw [GrowthChart.seriesPoints_eq] at hpoint
    obtain ⟨minute, hwindow, rfl⟩ := List.mem_map.mp hpoint
    rw [hreports.buckets]
    exact documentsAt_newest hreached hsteady hclock hwindow

/-! ### Three commits of two minutes -/

def commits : List Call :=
  [⟨30, 3, 3, by decide, by decide, by decide⟩, ⟨100, 5, 8, by decide, by decide, by decide⟩,
    ⟨110, 6, 14, by decide, by decide, by decide⟩]

theorem growth_feed_exact_sample :
    ∃ report, readIndexHistory (fun _ => none) []
        (contents loads
          (some ⟨0, 1, utf8 (write (timelineValue ⟨110, 14, [⟨0, 3⟩, ⟨60, 11⟩]⟩))⟩)) none .nan
      = some (some report) ∧
        ShowsGrowth ℚ commits ⟨110, 6, 14, by decide, by decide, by decide⟩ 130 report := by
  have hreached : reached commits = some ⟨110, 14, [⟨0, 3⟩, ⟨60, 11⟩]⟩ := by decide
  have hjson := IndexHistory.historyJson_writesCompact
  refine growth_feed_exact hjson hreached rfl (by decide) ?_ ?_ _ _ _ _
  · simp [commits]
  · exact (recorded_eq hjson hreached).2 (List.cons_ne_nil _ _)

end GrowthFeed
