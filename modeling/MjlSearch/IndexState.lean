/-
The figures that the panels show of the growth timeline (`services.index_state`).

The file's content is any JSON value: what parsing gave, or nothing when there is no file or
it does not parse.  What raises has no result.  `int` of a text is a parameter, since the
total is the one thing that may be a text.

* `quarter_le_hour` — the windows of a timeline hold no more than the total;
* `idle_iff` — when an idle state has no rate and no projection.
-/
import Mathlib.Algebra.Order.Group.Unbundled.Int
import Mathlib.Algebra.BigOperators.Group.List.Basic
import Mathlib.Data.List.Sort
import MjlSearch.Doubles
import MjlSearch.Text

open Machine Text

namespace IndexState

/-- A parsed file's value, in Python's types; the keys of an object are distinct. -/
inductive Json
  | null
  | bool (b : Bool)
  | int (z : ℤ)
  | float (x : Double)
  | str (s : Str)
  | list (values : List Json)
  | dict (items : List (Str × Json))

namespace Json

/-- `raw.get(key)` -/
def get (items : List (Str × Json)) (key : Str) : Json := (items.lookup key).getD null

/-- The truth value of a value. -/
def truthy : Json → Bool
  | null => false
  | bool b => b
  | int z => z != 0
  | float x => !x.isZero
  | str s => !s.isEmpty
  | list values => !values.isEmpty
  | dict items => !items.isEmpty

/-- `value or other` -/
def orElse (value other : Json) : Json := if value.truthy then value else other

/-- `isinstance(value, (int, float))`, which a truth value is as well. -/
def isNumber : Json → Bool
  | bool _ | int _ | float _ => true
  | _ => false

/-- `int(value)` of a number. -/
def intOf : Json → Option ℤ
  | bool b => some (if b then 1 else 0)
  | int z => some z
  | float x => x.toInt
  | _ => none

/-- `int(value)`; `parse` reads a text. -/
def toInt (parse : Str → Option ℤ) : Json → Option ℤ
  | str s => parse s
  | value => value.intOf

/-- What a loop over a value runs through. -/
def iterate : Json → Option (List Json)
  | str s => some (s.map fun c => str [c])
  | list values => some values
  | dict items => some (items.map fun item => str item.1)
  | _ => none

end Json

/-- The window the "indexed in the last hour" panel asks about. -/
def hourSeconds : ℕ := 3600

/-- The window the arrival rate is measured over. -/
def rateWindowSeconds : ℕ := 900

/-- Minutes of history handed to the growth chart. -/
def chartBuckets : ℕ := 60

/-- How long without a commit means that the indexer has stopped. -/
def idleAfterSeconds : ℕ := rateWindowSeconds

/-- A bucket as the reader keeps it. -/
structure Bucket where
  at_ : ℤ
  documents : ℤ
  deriving DecidableEq

/-- What `read_index_history` returns. -/
structure Report where
  path : Str
  updatedAt : Option ℤ
  ageSeconds : Option Double
  idle : Bool
  totalDocuments : ℤ
  documentsLastHour : ℤ
  documentsLastQuarter : ℤ
  ratePerMinute : Double
  projectedNextHour : ℤ
  buckets : List Bucket
  deriving DecidableEq

/-- An entry of the file's buckets, unless it is passed over. -/
def readEntry : Json → Option (Option Bucket)
  | .dict items =>
    let at_ := Json.get items "at".toList
    let documents := Json.get items "documents".toList
    if at_.isNumber && documents.isNumber then do
      let at_ ← at_.intOf
      let documents ← documents.intOf
      pure (some { at_, documents })
    else some none
  | _ => some none

/-- The file's buckets, the oldest first. -/
def readBuckets (items : List (Str × Json)) : Option (List Bucket) := do
  let entries ← ((Json.get items "buckets".toList).orElse (.list [])).iterate
  let read ← entries.mapM readEntry
  pure (read.reduceOption.insertionSort fun a b => a.at_ ≤ b.at_)

/-- When the file says it was written, if it does. -/
def readUpdatedAt (items : List (Str × Json)) : Option (Option ℤ) :=
  let updatedAt := Json.get items "updated_at".toList
  if updatedAt.isNumber then updatedAt.intOf.map some else some none

/-- `now or time.time()` -/
def clockOr (now : Option Double) (time : Double) : Double :=
  match now with
  | some now => if now.isZero then time else now
  | none => time

/-- The time that the windows end at: the one in the file, or the clock's when there is none. -/
def referenceOf (now : Option Double) (time : Double) : Option ℤ → Option ℤ
  | some updatedAt => some updatedAt
  | none => (clockOr now time).toInt

/-- `documents_since` of the reader. -/
def documentsSince (buckets : List Bucket) (reference : ℤ) (seconds : ℕ) : ℤ :=
  ((buckets.filter fun bucket => reference - seconds ≤ bucket.at_).map Bucket.documents).sum

/-- The seconds since the file was written, on the reader's clock. -/
def ageOf (now : Option Double) (time : Double) (updatedAt : ℤ) : Option Double :=
  (Double.ofInt updatedAt).map fun updatedAt => ((clockOr now time).sub updatedAt).maxZero

/-- The same, if the file says when that was. -/
def ageSecondsOf (now : Option Double) (time : Double) : Option ℤ → Option (Option Double)
  | some updatedAt => (ageOf now time updatedAt).map some
  | none => some none

/-- The growth timeline with the derived figures: `time` is the reader's clock.  Where it
raises there is no result, and where the file is no object, no report. -/
def readIndexHistory (parse : Str → Option ℤ) (path : Str) (raw : Option Json)
    (now : Option Double) (time : Double) : Option (Option Report) :=
  match raw with
  | some (.dict items) => do
    let buckets ← readBuckets items
    let updatedAt ← readUpdatedAt items
    let reference ← referenceOf now time updatedAt
    let lastQuarter := documentsSince buckets reference rateWindowSeconds
    let ratePerMinute ← (Double.ofInt lastQuarter).map (·.divNat (rateWindowSeconds / 60))
    let ageSeconds ← ageSecondsOf now time updatedAt
    let totalDocuments ←
      ((Json.get items "total_documents".toList).orElse (.int 0)).toInt parse
    let projectedNextHour ← (ratePerMinute.mulNat 60).toInt
    pure (some
      { path, updatedAt, ageSeconds
        idle := ageSeconds.any (·.exceeds idleAfterSeconds)
        totalDocuments
        documentsLastHour := documentsSince buckets reference hourSeconds
        documentsLastQuarter := lastQuarter
        ratePerMinute, projectedNextHour
        buckets := buckets.drop (buckets.length - chartBuckets) })
  | _ => some none

variable {parse : Str → Option ℤ} {path : Str} {raw : Option Json} {now : Option Double}
  {time : Double} {report : Report}

/-! ### What a report says -/

/-- Where a report's figures come from. -/
structure Reports (items : List (Str × Json)) (now : Option Double) (time : Double)
    (buckets : List Bucket) (updatedAt : Option ℤ) (reference : ℤ) (report : Report) :
    Prop where
  read : readBuckets items = some buckets
  updated : readUpdatedAt items = some updatedAt
  ending : referenceOf now time updatedAt = some reference
  idle : report.idle = true ↔
    ∃ written age, updatedAt = some written ∧ ageOf now time written = some age ∧
      age.exceeds idleAfterSeconds = true
  hour : report.documentsLastHour = documentsSince buckets reference hourSeconds
  quarter : report.documentsLastQuarter = documentsSince buckets reference rateWindowSeconds
  rate : ∃ x, Double.ofInt report.documentsLastQuarter = some x ∧
    report.ratePerMinute = x.divNat 15
  projected : (report.ratePerMinute.mulNat 60).toInt = some report.projectedNextHour

theorem readIndexHistory_eq_some
    (h : readIndexHistory parse path raw now time = some (some report)) :
    ∃ items buckets updatedAt reference, raw = some (.dict items) ∧
      Reports items now time buckets updatedAt reference report := by
  unfold readIndexHistory at h
  split at h
  · rename_i items
    obtain ⟨buckets, hbuckets, h⟩ := Option.bind_eq_some_iff.mp h
    obtain ⟨updatedAt, hupdated, h⟩ := Option.bind_eq_some_iff.mp h
    obtain ⟨reference, hreference, h⟩ := Option.bind_eq_some_iff.mp h
    obtain ⟨rate, hrate, h⟩ := Option.bind_eq_some_iff.mp h
    obtain ⟨age, hage, h⟩ := Option.bind_eq_some_iff.mp h
    obtain ⟨total, -, h⟩ := Option.bind_eq_some_iff.mp h
    obtain ⟨projected, hprojected, h⟩ := Option.bind_eq_some_iff.mp h
    cases h
    obtain ⟨x, hx, rfl⟩ := Option.map_eq_some_iff.mp hrate
    refine ⟨items, buckets, updatedAt, reference, rfl, hbuckets, hupdated, hreference, ?_, rfl,
      rfl, ⟨x, hx, rfl⟩, hprojected⟩
    cases updatedAt with
    | none =>
      cases hage
      refine iff_of_false Bool.false_ne_true ?_
      rintro ⟨_, _, hc, -⟩
      cases hc
    | some written =>
      obtain ⟨x, hx, rfl⟩ := Option.map_eq_some_iff.mp hage
      constructor
      · exact fun hidle => ⟨written, x, rfl, hx, hidle⟩
      · rintro ⟨_, other, heq, hother, hidle⟩
        cases heq
        rw [hx] at hother
        cases hother
        exact hidle
  · cases h

/-! ### Windows -/

/-- A wider window holds no less, when no count is negative. -/
theorem sum_filter_mono {p q : Bucket → Bool} {buckets : List Bucket}
    (hnonneg : ∀ bucket ∈ buckets, 0 ≤ bucket.documents)
    (hpq : ∀ bucket ∈ buckets, p bucket = true → q bucket = true) :
    ((buckets.filter p).map Bucket.documents).sum ≤
      ((buckets.filter q).map Bucket.documents).sum := by
  induction buckets with
  | nil => exact Int.le_refl _
  | cons bucket buckets ih =>
    have hrest := ih (fun other hother => hnonneg other (List.mem_cons_of_mem _ hother))
      fun other hother => hpq other (List.mem_cons_of_mem _ hother)
    have hfirst := hpq bucket List.mem_cons_self
    have hpos := hnonneg bucket List.mem_cons_self
    rw [List.filter_cons, List.filter_cons]
    by_cases hp : p bucket = true
    · rw [if_pos hp, if_pos (hfirst hp), List.map_cons, List.map_cons, List.sum_cons,
        List.sum_cons]
      omega
    · rw [if_neg hp]
      split
      · rw [List.map_cons, List.sum_cons]
        omega
      · exact hrest

theorem documentsSince_mono {buckets : List Bucket}
    (hnonneg : ∀ bucket ∈ buckets, 0 ≤ bucket.documents) (reference : ℤ) {seconds more : ℕ}
    (h : seconds ≤ more) :
    documentsSince buckets reference seconds ≤ documentsSince buckets reference more := by
  refine sum_filter_mono hnonneg fun bucket _ hin => ?_
  rw [decide_eq_true_iff] at hin ⊢
  omega

theorem documentsSince_le_sum {buckets : List Bucket}
    (hnonneg : ∀ bucket ∈ buckets, 0 ≤ bucket.documents) (reference : ℤ) (seconds : ℕ) :
    documentsSince buckets reference seconds ≤ (buckets.map Bucket.documents).sum := by
  have hall := sum_filter_mono (q := fun _ => true) hnonneg
    (p := fun bucket => reference - seconds ≤ bucket.at_) fun _ _ _ => rfl
  rw [List.filter_true] at hall
  exact hall

/-! ### Idle -/

/-- The clock is past the time the file was written by more than the rate window. -/
def IsIdle (now : Option Double) (time : Double) (updatedAt : ℤ) : Prop :=
  ∃ age, ageOf now time updatedAt = some age ∧ age.exceeds idleAfterSeconds = true

/-- A file that is idle has no documents in the rate window before it was written. -/
def QuietWhenIdle (raw : Option Json) (now : Option Double) (time : Double) : Prop :=
  ∀ items buckets updatedAt, raw = some (.dict items) → readBuckets items = some buckets →
    readUpdatedAt items = some (some updatedAt) → IsIdle now time updatedAt →
    ((buckets.filter fun bucket => updatedAt - rateWindowSeconds ≤ bucket.at_).map
      Bucket.documents).sum = 0

/-- The windows of a report, against the file it was made of. -/
theorem quarter_le_hour (h : readIndexHistory parse path raw now time = some (some report))
    {items : List (Str × Json)} {buckets : List Bucket} (hraw : raw = some (.dict items))
    (hread : readBuckets items = some buckets)
    (hnonneg : ∀ bucket ∈ buckets, 0 ≤ bucket.documents)
    (htotal : (buckets.map Bucket.documents).sum ≤ report.totalDocuments) :
    report.documentsLastQuarter ≤ report.documentsLastHour ∧
      report.documentsLastHour ≤ report.totalDocuments := by
  obtain ⟨items', buckets', updatedAt, reference, hraw', hreports⟩ := readIndexHistory_eq_some h
  rw [hraw] at hraw'
  cases hraw'
  have hsame := hreports.read
  rw [hread] at hsame
  cases hsame
  rw [hreports.hour, hreports.quarter]
  exact ⟨documentsSince_mono hnonneg reference (by decide),
    (documentsSince_le_sum hnonneg reference hourSeconds).trans htotal⟩

/-- The projection of no rate is nothing. -/
theorem projected_of_isZero {rate : Double} {projected : ℤ} (hzero : rate.isZero = true)
    (h : (rate.mulNat 60).toInt = some projected) : projected = 0 := by
  cases rate with
  | nan => cases hzero
  | infinite negative => cases hzero
  | finite negative mantissa exponent =>
    rw [eq_of_beq (a := mantissa) (b := 0) hzero, Double.mulNat, Nat.zero_mul,
      Double.ofFraction_zero] at h
    cases negative <;> cases h <;> rfl

/-- **An idle state has no rate and no projection if, and only if, nothing was added in the
rate window before the file was written.** The window ends when the file was written, and
idleness is by the reader's clock. No window ever holds more than a wider one or the total,
as long as the file's counts are none of them negative and sum to no more than it. -/
theorem idle_iff (h : readIndexHistory parse path raw now time = some (some report)) :
    ((report.idle = true →
        report.ratePerMinute.isZero = true ∧ report.projectedNextHour = 0) ∧
      ∀ items buckets, raw = some (.dict items) → readBuckets items = some buckets →
        (∀ bucket ∈ buckets, 0 ≤ bucket.documents) →
        (buckets.map Bucket.documents).sum ≤ report.totalDocuments →
        report.documentsLastQuarter ≤ report.documentsLastHour ∧
          report.documentsLastHour ≤ report.totalDocuments) ↔
    QuietWhenIdle raw now time := by
  obtain ⟨items, buckets, updatedAt, reference, hraw, hreports⟩ := readIndexHistory_eq_some h
  obtain ⟨x, hx, hrate⟩ := hreports.rate
  have hzero : report.ratePerMinute.isZero = true ↔ report.documentsLastQuarter = 0 := by
    rw [hrate]
    exact Double.rate_isZero_iff hx (by decide) (by decide)
  -- idleness is by the clock, the quarter by the time in the file
  have hidle : ∀ written, readUpdatedAt items = some (some written) →
      (report.idle = true ↔ IsIdle now time written) ∧
        report.documentsLastQuarter = documentsSince buckets written rateWindowSeconds := by
    intro written hwritten
    have hupdated := hreports.updated
    rw [hwritten] at hupdated
    cases hupdated
    have hsame : reference = written := (Option.some.inj hreports.ending).symm
    refine ⟨hreports.idle.trans ⟨?_, ?_⟩, hsame ▸ hreports.quarter⟩
    · rintro ⟨_, age, heq, hage, hexceeds⟩
      cases heq
      exact ⟨age, hage, hexceeds⟩
    · rintro ⟨age, hage, hexceeds⟩
      exact ⟨written, age, rfl, hage, hexceeds⟩
  constructor
  · rintro ⟨hquiet, -⟩ items' buckets' written hraw' hread' hwritten his
    rw [hraw] at hraw'
    cases hraw'
    rw [hreports.read] at hread'
    cases hread'
    obtain ⟨hiff, hquarter⟩ := hidle written hwritten
    exact hquarter.symm.trans (hzero.mp (hquiet (hiff.mpr his)).1)
  · intro hquiet
    refine ⟨fun his => ?_, fun items' buckets' hraw' hread' => quarter_le_hour h hraw' hread'⟩
    obtain ⟨written, -, hwritten, -⟩ := hreports.idle.mp his
    have hupdated := hreports.updated
    rw [hwritten] at hupdated
    obtain ⟨hiff, hquarter⟩ := hidle written hupdated
    have hnone := hquiet items buckets written hraw hreports.read hupdated (hiff.mp his)
    have hrateZero := hzero.mpr (hquarter.trans hnone)
    exact ⟨hrateZero, projected_of_isZero hrateZero hreports.projected⟩

/-! ### An indexer that stopped after its last commits -/

/-- A file written at 1000, with thirty documents in one minute. -/
def fileWith (minute : ℤ) : Json :=
  .dict [("updated_at".toList, .int 1000), ("total_documents".toList, .int 30),
    ("buckets".toList,
      .list [.dict [("at".toList, .int minute), ("documents".toList, .int 30)]])]

/-- With the documents in its last minute, it is idle when it is read at 5000, and projects
120 documents for the next hour. -/
theorem stopped_projects :
    ∃ report, readIndexHistory (fun _ => none) [] (some (fileWith 960))
        (some (.ofFraction false 5000 1)) .nan = some (some report) ∧
      report.idle = true ∧ report.ratePerMinute.isZero = false ∧
      report.projectedNextHour = 120 := by
  refine ⟨⟨[], some 1000, some (.finite false 8796093022208000 (-41)), true, 30, 30, 30,
    .finite false 4503599627370496 (-51), 120, [⟨960, 30⟩]⟩, ?_, rfl, rfl, rfl⟩
  decide +kernel

/-- With the documents in a minute long before, it projects none. -/
theorem idle_iff_sample :
    ∃ report, readIndexHistory (fun _ => none) [] (some (fileWith 0))
        (some (.ofFraction false 5000 1)) .nan = some (some report) ∧
      report.idle = true ∧ report.ratePerMinute.isZero = true ∧
      report.projectedNextHour = 0 := by
  have hreport : readIndexHistory (fun _ => none) [] (some (fileWith 0))
      (some (.ofFraction false 5000 1)) .nan =
      some (some ⟨[], some 1000, some (.finite false 8796093022208000 (-41)), true, 30, 30, 0,
        .finite false 0 0, 0, [⟨0, 30⟩]⟩) := by
    decide +kernel
  have hquiet : QuietWhenIdle (some (fileWith 0)) (some (.ofFraction false 5000 1)) .nan := by
    intro items buckets updatedAt hraw hread hupdated _
    cases hraw
    cases hupdated
    cases hread
    decide
  exact ⟨_, hreport, rfl, ((idle_iff hreport).mpr hquiet).1 rfl⟩

end IndexState
