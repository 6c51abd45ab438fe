/-
The aggregates of the query log (`api.services.analytics`), in exact arithmetic.

* `percentile_nearestRank_iff` — a percentile is of the nearest rank iff its rank is not rounded
  down, or the rank below has the same latency;
* `nearestRank_iff` — for which numbers of latencies that is so, at the fractions in use;
* `bucketSeries_eq_scan` — the one pass gives the series that a scan for each bucket does.
-/
import Mathlib.Algebra.Order.Floor.Ring
import Mathlib.Algebra.Order.Floor.Semiring
import Mathlib.Data.Rat.Floor
import MjlSearch.Binned
import MjlSearch.Decimals
import MjlSearch.Machine
import MjlSearch.Ranks

open Binned Decimals Machine Ranks

namespace Analytics

/-! ### The source -/

/-- Ten-second buckets over five minutes. -/
def bucketSeconds : ℕ := 10

def seriesBuckets : ℕ := 30

/-- One served query, as far as the figures go. -/
structure QueryRecord (K : Type*) where
  tookMs : K
  failed : Bool
  at_ : K

section

variable {α : Type*} [LinearOrder α] [Zero α]

/-- `QueryLog._percentile` -/
def percentile (values : List α) (fraction : ℚ) : α :=
  if values.isEmpty then 0
  else
    let ordered := values.insertionSort (· ≤ ·)
    let index := min (ordered.length - 1 : ℤ) (max 0 (nearest (fraction * ordered.length) - 1))
    ordered.getD index.toNat 0

/-- `max(values, default=0.0)` -/
def maximum (values : List α) : α := values.max?.getD 0

end

section

variable {K : Type*} [Field K] [LinearOrder K]

/-- `statistics.fmean(values) if values else 0.0` -/
def mean (values : List K) : K := if values.isEmpty then 0 else values.sum / values.length

/-- The `latency_ms` of a snapshot. -/
structure LatencyMs (K : Type*) where
  mean : K
  p50 : K
  p95 : K
  max : K

/-- The latencies of the queries that did not fail, summarised. -/
def latencyMs (records : List (QueryRecord K)) : LatencyMs K :=
  let latencies := (records.filter fun record => !record.failed).map QueryRecord.tookMs
  { mean := mean latencies
    p50 := percentile latencies (1 / 2)
    p95 := percentile latencies (19 / 20)
    max := maximum latencies }

/-- A point of the series. -/
@[ext]
structure Point (K : Type*) where
  at_ : K
  count : ℕ
  meanMs : K
  maxMs : K
  deriving DecidableEq

/-- What the pass over the records keeps for the buckets. -/
structure Accumulators (K : Type*) where
  counts : List ℕ
  totals : List K
  peaks : List K

variable [FloorRing K]

/-- The bucket of a time, unless it is outside the window. -/
def bucketOf (start at_ : K) : Option ℕ :=
  let index := ⌊(at_ - start) / bucketSeconds⌋
  if index < 0 ∨ seriesBuckets ≤ index then none else some index.toNat

/-- One record of the pass. -/
def accumulate (start : K) (acc : Accumulators K) (record : QueryRecord K) : Accumulators K :=
  match bucketOf start record.at_ with
  | none => acc
  | some index =>
    { counts := acc.counts.modify index (· + 1)
      totals := acc.totals.modify index (· + record.tookMs)
      peaks := acc.peaks.modify index (max · record.tookMs) }

/-- `_bucket_series` -/
def bucketSeries (records : List (QueryRecord K)) (now : K) : List (Point K) :=
  let start := now - bucketSeconds * seriesBuckets
  let acc := records.foldl (accumulate start)
    ⟨.replicate seriesBuckets 0, .replicate seriesBuckets 0, .replicate seriesBuckets 0⟩
  (List.range seriesBuckets).map fun index : ℕ =>
    { at_ := start + ((index : K) + 1) * bucketSeconds
      count := acc.counts.getD index 0
      meanMs := if acc.counts.getD index 0 = 0 then 0
        else acc.totals.getD index 0 / acc.counts.getD index 0
      maxMs := acc.peaks.getD index 0 }

end

/-! ### Percentiles -/

/-- `x` is the least of the values that at least a fraction of them are not above. -/
structure NearestRank {α : Type*} [LinearOrder α] (fraction : ℚ) (values : List α) (x : α) :
    Prop where
  mem : x ∈ values
  enough : fraction * values.length ≤ values.countP (· ≤ x)
  least : ∀ y ∈ values, fraction * values.length ≤ values.countP (· ≤ y) → x ≤ y

section

variable {α : Type*} [LinearOrder α] {fraction : ℚ} {values : List α} {x : α}

/-- The nearest rank is the fraction of the length, rounded up. -/
theorem nearestRank_iff_isRank :
    NearestRank fraction values x ↔ IsRank ⌈fraction * values.length⌉₊ values x := by
  constructor
  · intro h
    exact ⟨h.mem, Nat.ceil_le.mpr h.enough, fun y hy hcount =>
      h.least y hy (Nat.ceil_le.mp hcount)⟩
  · intro h
    exact ⟨h.mem, Nat.ceil_le.mp h.enough, fun y hy hcount =>
      h.least y hy (Nat.ceil_le.mpr hcount)⟩

/-- A fraction is rounded as its numerator and denominator are. -/
theorem nearest_div (a : ℕ) {b : ℕ} (hb : 0 < b) :
    nearest ((a : ℚ) / b) = Double.roundHalfEven a b := by
  have hpos : (0 : ℚ) < b := by exact_mod_cast hb
  have hfloor : ⌊(a : ℚ) / b⌋ = ((a / b : ℕ) : ℤ) := Rat.floor_natCast_div_natCast a b
  have hparts : (a : ℚ) / b = (a / b : ℕ) + (a % b : ℕ) / b := by
    rw [div_eq_iff hpos.ne', add_mul, div_mul_cancel₀ _ hpos.ne']
    exact_mod_cast (Nat.div_add_mod' a b).symm
  have hrest : (a : ℚ) / b - (a / b : ℕ) = (a % b : ℕ) / b := by
    rw [hparts, add_sub_cancel_left]
  have hlow : (a : ℚ) / b - (a / b : ℕ) < 1 / 2 ↔ 2 * (a % b) < b := by
    rw [hrest, div_lt_div_iff₀ hpos two_pos, one_mul, mul_comm]
    exact_mod_cast Iff.rfl
  have hhalf : (a : ℚ) / b - (a / b : ℕ) = 1 / 2 ↔ 2 * (a % b) = b := by
    rw [hrest, div_eq_div_iff hpos.ne' two_ne_zero, one_mul, mul_comm]
    exact_mod_cast Iff.rfl
  have heven : ((a / b : ℕ) : ℤ) % 2 = 0 ↔ a / b % 2 = 0 := by omega
  simp only [nearest, Double.roundHalfEven, hfloor, Int.cast_natCast, hlow, hhalf, heven]
  split_ifs
  · rfl
  · rfl
  · rfl

variable [Zero α]

/-- Ranks are counted from one, positions from nought. -/
theorem percentile_eq (hne : values ≠ []) {k : ℕ} (hk : k < values.length)
    (hround : (nearest (fraction * values.length) - 1).toNat = k) :
    percentile values fraction =
      (values.insertionSort (· ≤ ·)).get ⟨k, by simpa using hk⟩ := by
  have hlen : (values.insertionSort (· ≤ ·)).length = values.length := List.length_insertionSort ..
  have hindex : (min ((values.length : ℤ) - 1)
      (max 0 (nearest (fraction * values.length) - 1))).toNat = k := by
    omega
  have hempty : values.isEmpty = false := by simpa using hne
  simp only [percentile, hempty, Bool.false_eq_true, if_false, hlen, hindex]
  rw [List.getD_eq_getElem?_getD, List.getElem?_eq_getElem (by omega)]
  rfl

/-- **A percentile is of the nearest rank** iff its rank is not rounded down, or there is none
below, or the one below has the same value. -/
theorem percentile_nearestRank_iff (hne : values ≠ []) (hpos : 0 < fraction)
    (hle : fraction ≤ 1) :
    NearestRank fraction values (percentile values fraction) ↔
      nearest (fraction * values.length) = ⌈fraction * values.length⌉ ∨
        ⌈fraction * values.length⌉₊ = 1 ∨ Tied ⌈fraction * values.length⌉₊ values := by
  have hlength : 0 < values.length := List.length_pos_iff.mpr hne
  have hlengthQ : (0 : ℚ) < values.length := by exact_mod_cast hlength
  -- the nearest rank is one of those there are
  have hfirst : 0 < ⌈fraction * values.length⌉₊ := Nat.ceil_pos.mpr (mul_pos hpos hlengthQ)
  have hlast : ⌈fraction * values.length⌉₊ ≤ values.length := by
    refine Nat.ceil_le.mpr ?_
    calc fraction * values.length ≤ 1 * values.length := by gcongr
      _ = values.length := one_mul _
  have hceil : (⌈fraction * values.length⌉₊ : ℤ) = ⌈fraction * values.length⌉ :=
    Int.natCast_ceil_eq_ceil (mul_pos hpos hlengthQ).le
  obtain ⟨k, hk⟩ : ∃ k, ⌈fraction * values.length⌉₊ = k + 1 :=
    ⟨_, (Nat.sub_add_cancel hfirst).symm⟩
  have hsorted := List.pairwise_insertionSort (· ≤ ·) values
  have hperm := List.perm_insertionSort (· ≤ ·) values
  have hlen : (values.insertionSort (· ≤ ·)).length = values.length := hperm.length_eq
  have hrank : ∀ x, NearestRank fraction values x ↔
      x = (values.insertionSort (· ≤ ·)).get ⟨k, by omega⟩ := by
    intro x
    rw [nearestRank_iff_isRank, hk]
    exact ⟨fun h => (isRank_iff hsorted (by omega)).mp (h.perm hperm.symm),
      fun h => ((isRank_iff hsorted (by omega)).mpr h).perm hperm⟩
  rw [hrank]
  rcases nearest_eq_or (fraction * values.length) with hround | hround
  · refine iff_of_true ?_ (Or.inl hround)
    exact percentile_eq hne (by omega) (by omega)
  · rcases k with _ | k
    · -- the index is clamped to the first
      refine iff_of_true ?_ (Or.inr (Or.inl hk))
      exact percentile_eq hne (by omega) (by omega)
    · have hbelow : percentile values fraction = (values.insertionSort (· ≤ ·)).get ⟨k, by omega⟩ :=
        percentile_eq hne (by omega) (by omega)
      have htied := tied_iff hsorted (k := k) (by omega)
      rw [hbelow, hk]
      constructor
      · intro heq
        exact Or.inr (Or.inr ((htied.mpr heq).perm hperm))
      · rintro (hup | hone | hsame)
        · omega
        · omega
        · exact htied.mp (hsame.perm hperm.symm)

end

/-! ### The fractions in use -/

section

variable {α : Type*} [LinearOrder α] [Zero α] {values : List α}

/-- For a fraction with a numerator and a denominator, in whole numbers. -/
theorem nearestRank_div_iff (hne : values ≠ []) {a b k : ℕ} (ha : 0 < a) (hab : a ≤ b)
    (hk : -(-((a * values.length : ℕ) : ℤ) / b) = k) :
    NearestRank ((a : ℚ) / b) values (percentile values ((a : ℚ) / b)) ↔
      Double.roundHalfEven (a * values.length) b = k ∨ k = 1 ∨ Tied k values := by
  have hb : 0 < b := by omega
  have hbQ : (0 : ℚ) < b := by exact_mod_cast hb
  have hproduct : (a : ℚ) / b * values.length = ((a * values.length : ℕ) : ℚ) / b := by
    push_cast
    ring
  have hceil : ⌈((a * values.length : ℕ) : ℚ) / b⌉ = k :=
    (Rat.ceil_natCast_div_natCast _ _).trans hk
  have hnat : ⌈((a * values.length : ℕ) : ℚ) / b⌉₊ = k := by
    rw [← Int.ceil_toNat, hceil, Int.toNat_natCast]
  have hpos : (0 : ℚ) < (a : ℚ) / b := div_pos (by exact_mod_cast ha) hbQ
  have hle : (a : ℚ) / b ≤ 1 := (div_le_one hbQ).mpr (by exact_mod_cast hab)
  rw [percentile_nearestRank_iff hne hpos hle, hproduct, hceil, hnat, nearest_div _ hb,
    Nat.cast_inj]

/-- **When the two percentiles in use are of the nearest rank.**  The median is, unless there
are more latencies than one and one more than a multiple of four; the other is, when there are
no more than ten over a multiple of twenty, and not thirty over a multiple of forty.  Where a
rank is lost to rounding, the latency of the rank below has to be the same. -/
theorem nearestRank_iff (hne : values ≠ []) :
    (NearestRank (1 / 2) values (percentile values (1 / 2)) ↔
      values.length % 4 ≠ 1 ∨ values.length = 1 ∨ Tied ((values.length + 1) / 2) values) ∧
    (NearestRank (19 / 20) values (percentile values (19 / 20)) ↔
      (values.length % 20 ≤ 10 ∧ values.length % 40 ≠ 30) ∨
        Tied (values.length - values.length / 20) values) := by
  have hlength : 0 < values.length := List.length_pos_iff.mpr hne
  constructor
  · have h := nearestRank_div_iff hne (a := 1) (b := 2) (k := (values.length + 1) / 2)
      (by decide) (by decide) (by omega)
    have hround : Double.roundHalfEven (1 * values.length) 2 = (values.length + 1) / 2 ∨
        (values.length + 1) / 2 = 1 ↔ values.length % 4 ≠ 1 ∨ values.length = 1 := by
      simp only [Double.roundHalfEven]
      split_ifs
      · omega
      · omega
      · omega
    rw [← or_assoc, hround, or_assoc] at h
    exact_mod_cast h
  · have h := nearestRank_div_iff hne (a := 19) (b := 20)
      (k := values.length - values.length / 20) (by decide) (by decide) (by omega)
    have hround : Double.roundHalfEven (19 * values.length) 20 =
        values.length - values.length / 20 ∨ values.length - values.length / 20 = 1 ↔
        values.length % 20 ≤ 10 ∧ values.length % 40 ≠ 30 := by
      simp only [Double.roundHalfEven]
      split_ifs
      · omega
      · omega
      · omega
    rw [← or_assoc, hround] at h
    exact_mod_cast h

/-- The median of three. -/
theorem median_of_three :
    NearestRank (1 / 2) [(30 : ℚ), 10, 20] (percentile [(30 : ℚ), 10, 20] (1 / 2)) ∧
      percentile [(30 : ℚ), 10, 20] (1 / 2) = 20 :=
  ⟨(nearestRank_iff (by decide)).1.mpr (Or.inl (by decide)), by decide +kernel⟩

/-- The median of five is given as the second of them. -/
theorem median_of_five :
    percentile [(1 : ℚ), 2, 3, 4, 5] (1 / 2) = 2 ∧
      ¬ NearestRank (1 / 2) [(1 : ℚ), 2, 3, 4, 5] (percentile [(1 : ℚ), 2, 3, 4, 5] (1 / 2)) := by
  have hsecond : percentile [(1 : ℚ), 2, 3, 4, 5] (1 / 2) = 2 := by decide +kernel
  refine ⟨hsecond, fun h => ?_⟩
  have henough := h.enough
  rw [hsecond] at henough
  -- two of the five are not above it, and a half is two and a half
  have hcount : [(1 : ℚ), 2, 3, 4, 5].countP (· ≤ 2) = 2 := by decide +kernel
  rw [hcount] at henough
  norm_num at henough

end

/-! ### The series -/

section

variable {K : Type*} [Field K] [LinearOrder K]

/-- The point of the bucket from `low` to `high`, by a scan of all the records. -/
def scanPoint (records : List (QueryRecord K)) (low high : K) : Point K :=
  let latencies := (records.filter fun record => low ≤ record.at_ ∧ record.at_ < high).map
    QueryRecord.tookMs
  { at_ := high
    count := latencies.length
    meanMs := mean latencies
    maxMs := maximum latencies }

/-- The series, bucket by bucket. -/
def bucketScan (records : List (QueryRecord K)) (now : K) : List (Point K) :=
  let start := now - bucketSeconds * seriesBuckets
  (List.range seriesBuckets).map fun index : ℕ =>
    scanPoint records (start + bucketSeconds * index) (start + bucketSeconds * (index + 1))

/-- Latencies that are not negative have the maximum that is found from nought on. -/
theorem foldl_max_eq_maximum {latencies : List K} (h : ∀ x ∈ latencies, 0 ≤ x) :
    latencies.foldl max 0 = maximum latencies := by
  rcases latencies with _ | ⟨x, latencies⟩
  · rfl
  · rw [maximum, List.max?_cons', Option.getD_some, List.foldl_cons,
      max_eq_right (h x List.mem_cons_self)]

variable {records : List (QueryRecord K)} {start : K}

/-- What three folds of the records of a bucket come to. -/
theorem scanPoint_eq {inside : List (QueryRecord K)} {low high : K}
    (hinside : (records.filter fun record => low ≤ record.at_ ∧ record.at_ < high) = inside)
    (hnonneg : ∀ record ∈ records, 0 ≤ record.tookMs) :
    scanPoint records low high =
      { at_ := high
        count := inside.foldl (fun n _ => n + 1) 0
        meanMs := if inside.foldl (fun n _ => n + 1) 0 = 0 then 0
          else inside.foldl (fun t r => t + r.tookMs) 0 / (inside.foldl (fun n _ => n + 1) 0 : ℕ)
        maxMs := inside.foldl (fun p r => max p r.tookMs) 0 } := by
  have hcount : inside.foldl (fun n _ => n + 1) 0 = (inside.map QueryRecord.tookMs).length := by
    simp
  have htotal : inside.foldl (fun t r => t + r.tookMs) 0 =
      (inside.map QueryRecord.tookMs).sum := by
    rw [List.sum_eq_foldl, List.foldl_map]
  have hpeak : inside.foldl (fun p r => max p r.tookMs) 0 =
      maximum (inside.map QueryRecord.tookMs) := by
    rw [← foldl_max_eq_maximum, List.foldl_map]
    intro x hx
    obtain ⟨record, hrecord, rfl⟩ := List.mem_map.mp hx
    rw [← hinside] at hrecord
    exact hnonneg record (List.mem_of_mem_filter hrecord)
  rw [scanPoint, hinside, hcount, htotal, hpeak, mean]
  simp only [List.isEmpty_iff_length_eq_zero]

variable [FloorRing K]

theorem accumulate_none {acc : Accumulators K} {record : QueryRecord K}
    (h : bucketOf start record.at_ = none) : accumulate start acc record = acc := by
  rw [accumulate, h]

theorem accumulate_some {acc : Accumulators K} {record : QueryRecord K} {index : ℕ}
    (h : bucketOf start record.at_ = some index) :
    accumulate start acc record =
      { counts := acc.counts.modify index (· + 1)
        totals := acc.totals.modify index (· + record.tookMs)
        peaks := acc.peaks.modify index (max · record.tookMs) } := by
  rw [accumulate, h]

/-- The three accumulators, each as a pass of its own. -/
theorem foldl_accumulate (records : List (QueryRecord K)) (acc : Accumulators K) :
    records.foldl (accumulate start) acc =
      { counts := sweep (fun r => bucketOf start r.at_) (fun n _ => n + 1) acc.counts records
        totals := sweep (fun r => bucketOf start r.at_) (fun t r => t + r.tookMs) acc.totals
          records
        peaks := sweep (fun r => bucketOf start r.at_) (fun p r => max p r.tookMs) acc.peaks
          records } := by
  induction records generalizing acc with
  | nil => rfl
  | cons record records ih =>
    rw [List.foldl_cons, ih]
    let bin : QueryRecord K → Option ℕ := fun r => bucketOf start r.at_
    rcases hbin : bin record with _ | index
    · rw [sweep_cons_none hbin, sweep_cons_none hbin, sweep_cons_none hbin,
        accumulate_none hbin]
    · rw [sweep_cons_some hbin, sweep_cons_some hbin, sweep_cons_some hbin,
        accumulate_some hbin]

variable [IsStrictOrderedRing K]

/-- **Floor division finds the bucket that two comparisons do.** -/
theorem bucketOf_eq_some {at_ : K} {index : ℕ} (hindex : index < seriesBuckets) :
    bucketOf start at_ = some index ↔
      start + bucketSeconds * index ≤ at_ ∧ at_ < start + bucketSeconds * (index + 1) := by
  have hpos : (0 : K) < bucketSeconds := by exact_mod_cast (by decide : 0 < bucketSeconds)
  have hfloor : ⌊(at_ - start) / bucketSeconds⌋ = (index : ℤ) ↔
      start + bucketSeconds * index ≤ at_ ∧ at_ < start + bucketSeconds * (index + 1) := by
    rw [Int.floor_eq_iff, le_div_iff₀ hpos, div_lt_iff₀ hpos, Int.cast_natCast, le_sub_iff_add_le',
      sub_lt_iff_lt_add', mul_comm (index : K), mul_comm ((index : K) + 1)]
  rw [← hfloor, bucketOf]
  -- outside the window the quotient is the number of no bucket
  split_ifs with hout
  · refine iff_of_false (by simp) ?_
    omega
  · rw [Option.some_inj]
    omega

/-- What a pass leaves in a bucket is the fold of the records between its bounds. -/
theorem getD_sweep {σ : Type*} (f : σ → QueryRecord K → σ) (s : σ) {index : ℕ}
    (hindex : index < seriesBuckets) :
    (sweep (fun r => bucketOf start r.at_) f (.replicate seriesBuckets s) records).getD index s =
      (records.filter fun record => start + bucketSeconds * index ≤ record.at_ ∧
        record.at_ < start + bucketSeconds * (index + 1)).foldl f s := by
  have hfilter : (records.filter fun record => bucketOf start record.at_ = some index) =
      records.filter fun record => start + bucketSeconds * index ≤ record.at_ ∧
        record.at_ < start + bucketSeconds * (index + 1) := by
    refine List.filter_congr fun record _ => ?_
    rw [decide_eq_decide]
    exact bucketOf_eq_some hindex
  rw [List.getD_eq_getElem?_getD, getElem?_sweep, List.getElem?_replicate_of_lt hindex,
    Option.map_some, Option.getD_some, hfilter]

/-- The one pass gives the points that a scan for each bucket does. -/
theorem bucketSeries_eq (hnonneg : ∀ record ∈ records, 0 ≤ record.tookMs) (now : K) :
    bucketSeries records now = bucketScan records now := by
  simp only [bucketSeries, bucketScan]
  refine List.map_congr_left fun index hindex => ?_
  have hlt : index < seriesBuckets := List.mem_range.mp hindex
  rw [foldl_accumulate, scanPoint_eq rfl hnonneg]
  simp only [getD_sweep _ _ hlt]
  rw [mul_comm ((index : K) + 1)]

/-- **The one pass gives the series that a scan for each bucket does.** -/
theorem bucketSeries_eq_scan (hnonneg : ∀ record ∈ records, 0 ≤ record.tookMs) (now : K) :
    (bucketSeries records now).length = 30 ∧ bucketSeries records now = bucketScan records now :=
  ⟨by simp [bucketSeries, seriesBuckets], bucketSeries_eq hnonneg now⟩

/-- Two queries in one bucket, and one at the end of the window, which is in none. -/
theorem series_of_three :
    let records : List (QueryRecord ℚ) := [⟨4, false, 1005⟩, ⟨2, true, 1009⟩, ⟨9, false, 1300⟩]
    (bucketSeries records 1300).length = 30 ∧
      bucketSeries records 1300 = bucketScan records 1300 ∧
      (bucketSeries records 1300)[0]? = some ⟨1010, 2, 3, 4⟩ := by
  intro records
  have hnonneg : ∀ record ∈ records, 0 ≤ record.tookMs := by
    intro record hrecord
    simp only [records, List.mem_cons, List.not_mem_nil, or_false] at hrecord
    rcases hrecord with rfl | rfl | rfl <;> norm_num
  have h := bucketSeries_eq_scan hnonneg 1300
  exact ⟨h.1, h.2, by decide +kernel⟩

end

end Analytics
