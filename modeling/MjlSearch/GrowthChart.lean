/-
The growth chart (`searchui.app`: `growth_series`, `chart_paths`).

The last hour becomes a dense series, a point for each minute, and the points the vertices of a
curve.  Numbers are those of an ordered field, rounded as the source rounds them.

* `percent_mem`, `vertex_mem` — a minute's share of the peak, and where it is drawn;
* `vertices_ascending`, `reached_commands` — the vertices go from left to right, and the curve
  through them;
* `series_drawn` — what the paths draw stays within its band, whatever was counted.
-/
import MjlSearch.Decimals
import MjlSearch.GrowthCurve
import MjlSearch.IndexState

open Text Set Decimals GrowthCurve

namespace GrowthChart

/-! ### The series -/

/-- Minutes of history drawn. -/
def chartMinutes : ℕ := 60

/-- A minute of the series, with its share of the busiest one. -/
structure Point (K : Type*) where
  at_ : ℤ
  documents : ℤ
  percent : K

/-- `by_minute.get(minute, 0)`, where the last entry of a minute counts. -/
def documentsAt (buckets : List IndexState.Bucket) (minute : ℤ) : ℤ :=
  ((buckets.reverse.find? fun bucket => bucket.at_ = minute).map
    IndexState.Bucket.documents).getD 0

/-- The minutes of the window, the oldest first: the last is that of the reader's clock. -/
def window (now : ℤ) : List ℤ :=
  (List.range chartMinutes).map fun index : ℕ => now / 60 * 60 - ((chartMinutes : ℤ) - 1 - index) * 60

/-- The busiest minute's documents. -/
def peakOf (values : List ℤ) : ℤ := values.max?.getD 0

section
variable {K : Type*} [Field K] [LinearOrder K] [FloorRing K]

-- the numeral of a hundred percent
local instance instAtLeastTwoHundred : Nat.AtLeastTwo 100 := ⟨by decide⟩

/-- A minute's share of the busiest one. -/
def percentOf (peak value : ℤ) : K := if peak ≠ 0 then roundTo 2 (value * 100 / peak) else 0

/-- The points of the series, and the peak they are scaled against. -/
def seriesPoints (buckets : List IndexState.Bucket) (now : ℤ) : List (Point K) × ℤ :=
  let minutes := window now
  let values := minutes.map (documentsAt buckets)
  let peak := peakOf values
  (List.zipWith (fun minute value => ⟨minute, value, percentOf peak value⟩) minutes values, peak)

/-! ### The geometry -/

def chartWidth : K := 1000

def chartHeight : K := 100

/-- Headroom at the top and the bottom. -/
def chartPad : K := 6

def top : K := chartPad

def bottom : K := chartHeight - chartPad

def band : K := bottom - top

/-- The height at which a share is drawn. -/
def heightOf (percent : K) : K := roundTo 3 (bottom - percent / 100 * band)

/-- The vertices of the curve. -/
def vertices (points : List (Point K)) : List (K × K) :=
  let step : K := chartWidth / (max (points.length - 1) 1 : ℕ)
  points.mapIdx fun index point => (roundTo 3 (index * step), heightOf point.percent)

/-- The reported rate against the peak. -/
def ratePercent (peak : ℤ) (ratePerMinute : K) : K :=
  if 0 < peak then min 100 (ratePerMinute / peak * 100) else 0

/-- What `chart_paths` returns. -/
structure Paths (K : Type*) where
  line : Str
  area : Str
  dot : Str
  rateLine : Str
  ratePercent : K
  ratePerMinute : K

/-- The chart's geometry: the curve, its fill, and the line of the current rate. -/
def chartPaths (fixed : K → Str) (hypot : K → K → K) (points : List (Point K)) (peak : ℤ)
    (ratePerMinute : K) : Paths K :=
  let vertices := vertices points
  let line := smoothPath fixed hypot vertices
  let first := vertices.headD (0, 0)
  let last := vertices.getLastD (0, 0)
  let rate := ratePercent peak ratePerMinute
  let at_ (x y : K) : Str := fixed x ++ ' ' :: fixed y
  { line
    area := line ++ " L ".toList ++ at_ last.1 chartHeight ++ " L ".toList ++
      at_ first.1 chartHeight ++ " Z".toList
    dot := "M ".toList ++ at_ last.1 last.2 ++ " L ".toList ++ at_ last.1 last.2
    rateLine := "M 0.000 ".toList ++ fixed (heightOf rate) ++ " L ".toList ++
      at_ chartWidth (heightOf rate)
    ratePercent := roundTo 2 rate
    ratePerMinute }

/-- What `growth_series` returns. -/
structure Series (K : Type*) where
  points : List (Point K)
  peak : ℤ
  windowMinutes : ℕ
  paths : Paths K

/-- The last hour as a dense series, a point for each minute. -/
def growthSeries (fixed : K → Str) (hypot : K → K → K) (buckets : List IndexState.Bucket)
    (ratePerMinute : K) (now : ℤ) : Series K :=
  let (points, peak) := seriesPoints buckets now
  { points, peak, windowMinutes := chartMinutes
    paths := chartPaths fixed hypot points peak ratePerMinute }

end

/-! ### The points -/

section
variable {buckets : List IndexState.Bucket} {now : ℤ}

theorem documentsAt_nonneg (h : ∀ bucket ∈ buckets, 0 ≤ bucket.documents) (minute : ℤ) :
    0 ≤ documentsAt buckets minute := by
  rw [documentsAt]
  cases hfind : buckets.reverse.find? fun bucket => bucket.at_ = minute with
  | none => exact le_refl _
  | some bucket => exact h bucket (List.mem_reverse.mp (List.mem_of_find?_eq_some hfind))

theorem le_peakOf {values : List ℤ} {value : ℤ} (h : value ∈ values) : value ≤ peakOf values := by
  rw [peakOf]
  cases hmax : values.max? with
  | none =>
    rw [List.max?_eq_none_iff] at hmax
    rw [hmax] at h
    exact absurd h List.not_mem_nil
  | some peak => exact (List.max?_eq_some_iff.mp hmax).2 value h

theorem length_window (now : ℤ) : (window now).length = chartMinutes := by
  rw [window, List.length_map, List.length_range]

end

variable {K : Type*} [Field K] [LinearOrder K] [IsStrictOrderedRing K] [FloorRing K]
  {hypot : K → K → K} {buckets : List IndexState.Bucket} {now : ℤ} {points : List (Point K)}

omit [IsStrictOrderedRing K] in
/-- Each point is of its minute. -/
theorem seriesPoints_eq (buckets : List IndexState.Bucket) (now : ℤ) :
    (seriesPoints buckets now : List (Point K) × ℤ).1 = (window now).map fun minute =>
      ⟨minute, documentsAt buckets minute,
        percentOf (seriesPoints (K := K) buckets now).2 (documentsAt buckets minute)⟩ := by
  rw [seriesPoints]
  dsimp only
  rw [List.zipWith_map_right, List.zipWith_self]

theorem roundTo_mem {digits : ℕ} {low high x : K} {l h : ℤ} (hl : low * 10 ^ digits = l)
    (hh : high * 10 ^ digits = h) (hx : x ∈ Icc low high) : roundTo digits x ∈ Icc low high := by
  constructor
  · exact (roundTo_of_mul_eq hl).ge.trans (roundTo_mono hx.1)
  · exact (roundTo_mono hx.2).trans (roundTo_of_mul_eq hh).le

/-- **A share is one of a hundred.** -/
theorem percentOf_mem {peak value : ℤ} (hvalue : 0 ≤ value) (hle : value ≤ peak) :
    percentOf peak value ∈ Icc (0 : K) 100 := by
  rw [percentOf]
  split_ifs with hpeak
  · have hpos : (0 : K) < peak := Int.cast_pos.mpr (by omega)
    have hvalue' : (0 : K) ≤ value := Int.cast_nonneg hvalue
    have hle' : (value : K) ≤ peak := Int.cast_le.mpr hle
    refine roundTo_mem (l := 0) (h := 10000) (by norm_num) (by norm_num) ⟨?_, ?_⟩
    · positivity
    · rw [div_le_iff₀ hpos]
      linarith
  · exact ⟨le_refl _, by norm_num⟩

theorem percentOf_mono {peak value value' : ℤ} (hpeak : 0 ≤ peak) (h : value ≤ value') :
    (percentOf peak value : K) ≤ percentOf peak value' := by
  rw [percentOf, percentOf]
  split_ifs with hne
  · have hpos : (0 : K) < peak := Int.cast_pos.mpr (by omega)
    have h' : (value : K) ≤ value' := Int.cast_le.mpr h
    refine roundTo_mono ?_
    rw [div_le_div_iff_of_pos_right hpos]
    linarith
  · exact le_refl _

theorem percentOf_peak {peak : ℤ} (h : 0 < peak) : (percentOf peak peak : K) = 100 := by
  have hpos : (0 : K) < peak := Int.cast_pos.mpr h
  rw [percentOf, if_pos (ne_of_gt h), mul_div_assoc, mul_comm, div_mul_cancel₀ _ hpos.ne']
  exact roundTo_of_mul_eq (z := 10000) (by norm_num)

theorem percentOf_zero (peak : ℤ) : (percentOf peak 0 : K) = 0 := by
  rw [percentOf]
  split_ifs
  · rw [Int.cast_zero, zero_mul, zero_div]
    exact roundTo_of_mul_eq (z := 0) (by norm_num)
  · rfl

/-! ### The vertices -/

/-- The band of the plot. -/
def Inside (point : K × K) : Prop := point.1 ∈ Icc 0 chartWidth ∧ point.2 ∈ Icc top bottom

theorem heightOf_mem {percent : K} (h : percent ∈ Icc (0 : K) 100) :
    heightOf percent ∈ Icc (top : K) bottom := by
  refine roundTo_mem (l := 6000) (h := 94000) ?_ ?_ ?_
  · norm_num [top, chartPad]
  · norm_num [bottom, chartHeight, chartPad]
  · obtain ⟨hlow, hhigh⟩ := h
    simp only [top, bottom, band, chartHeight, chartPad, mem_Icc]
    constructor <;> linarith

theorem heightOf_anti {percent percent' : K} (h : percent ≤ percent') :
    heightOf percent' ≤ heightOf percent := by
  refine roundTo_mono ?_
  simp only [top, bottom, band, chartHeight, chartPad]
  linarith

theorem heightOf_full : heightOf (100 : K) = top := by
  have hsame : (bottom : K) - 100 / 100 * band = top := by
    simp only [top, bottom, band, chartHeight, chartPad]
    norm_num
  rw [heightOf, hsame]
  exact roundTo_of_mul_eq (z := 6000) (by norm_num [top, chartPad])

theorem heightOf_zero : heightOf (0 : K) = bottom := by
  rw [heightOf, zero_div, zero_mul, sub_zero]
  exact roundTo_of_mul_eq (z := 94000) (by norm_num [bottom, chartHeight, chartPad])

/-- Where a point's vertex is. -/
def vertexAt (points : List (Point K)) (index : ℕ) (point : Point K) : K × K :=
  (roundTo 3 (index * (chartWidth / (max (points.length - 1) 1 : ℕ))), heightOf point.percent)

omit [IsStrictOrderedRing K] in
theorem vertices_getElem (points : List (Point K)) (index : ℕ) :
    (vertices points)[index]? = points[index]?.map (vertexAt points index) := by
  rw [vertices, List.getElem?_mapIdx]
  rfl

omit [IsStrictOrderedRing K] in
theorem length_vertices (points : List (Point K)) : (vertices points).length = points.length := by
  rw [vertices, List.length_mapIdx]

/-- A vertex is within the plot. -/
theorem vertexAt_inside {index : ℕ} {point : Point K} (hindex : index < points.length)
    (hpercent : point.percent ∈ Icc (0 : K) 100) : Inside (vertexAt points index point) := by
  refine ⟨?_, heightOf_mem hpercent⟩
  have hpos : (0 : K) < (max (points.length - 1) 1 : ℕ) := by
    rw [Nat.cast_pos]
    omega
  have hle : (index : K) ≤ (max (points.length - 1) 1 : ℕ) := by
    rw [Nat.cast_le]
    omega
  refine roundTo_mem (l := 0) (h := 1000000) ?_ ?_ ⟨?_, ?_⟩
  · norm_num
  · norm_num [chartWidth]
  · rw [chartWidth]
    positivity
  · rw [chartWidth, mul_div_assoc', div_le_iff₀ hpos, mul_comm]
    exact mul_le_mul_of_nonneg_left hle (by norm_num)

theorem vertices_inside (hpercent : ∀ point ∈ points, point.percent ∈ Icc (0 : K) 100) :
    ∀ vertex ∈ vertices points, Inside vertex := by
  intro vertex hmem
  obtain ⟨index, hindex⟩ := List.getElem?_of_mem hmem
  rw [vertices_getElem] at hindex
  obtain ⟨point, hat, rfl⟩ := Option.map_eq_some_iff.mp hindex
  exact vertexAt_inside (List.getElem?_eq_some_iff.mp hat).1
    (hpercent point (List.mem_of_getElem? hat))

/-- **The vertices go from left to right**, for as many minutes as are drawn. -/
theorem vertices_ascending (hlength : points.length = chartMinutes) {index : ℕ} {start point : K × K}
    (hstart : (vertices points)[index]? = some start)
    (hpoint : (vertices points)[index + 1]? = some point) : start.1 < point.1 := by
  rw [vertices_getElem] at hstart hpoint
  obtain ⟨_, -, rfl⟩ := Option.map_eq_some_iff.mp hstart
  obtain ⟨_, -, rfl⟩ := Option.map_eq_some_iff.mp hpoint
  refine roundTo_lt ?_
  rw [← sub_mul, hlength]
  push_cast
  norm_num [chartWidth, chartMinutes]

/-- What a command draws is within the plot. -/
def DrawsInside : Command K → Prop
  | .moveTo point => Inside point
  | .curveTo first second point => Inside first ∧ Inside second ∧ Inside point

omit [IsStrictOrderedRing K] [FloorRing K] in
/-- Control points of a monotone segment between two vertices are within the plot. -/
theorem segment_inside {start first second point : K × K} (hstart : Inside start)
    (hpoint : Inside point) (h : MonotoneSegment start first second point) :
    DrawsInside (.curveTo first second point) := by
  have hband : uIcc start.2 point.2 ⊆ Icc top bottom :=
    ordConnected_Icc.uIcc_subset hstart.2 hpoint.2
  refine ⟨⟨⟨?_, ?_⟩, hband h.first_y⟩, ⟨⟨?_, ?_⟩, hband h.second_y⟩, hpoint⟩
  · exact hstart.1.1.trans h.first_x
  · exact (h.second_x.trans h.point_x).trans hpoint.1.2
  · exact (hstart.1.1.trans h.first_x).trans h.second_x
  · exact h.point_x.trans hpoint.1.2

omit [IsStrictOrderedRing K] in
theorem length_commands (hypot : K → K → K) (hlength : points.length = chartMinutes) :
    (commands hypot (vertices points)).length = chartMinutes := by
  have hvertices := (length_vertices points).trans hlength
  rw [commands_eq hypot (by rw [hvertices]; decide), List.length_cons, List.length_map,
    List.length_range, hvertices]
  rfl

/-- **The curve stays within the plot** when its vertices do. -/
theorem commands_inside (hhypot : Dominates hypot) (hlength : points.length = chartMinutes)
    (hinside : ∀ vertex ∈ vertices points, Inside vertex) :
    ∀ command ∈ commands hypot (vertices points), DrawsInside command := by
  have hvertices := (length_vertices points).trans hlength
  intro command hcommand
  obtain ⟨n, hn⟩ := List.getElem?_of_mem hcommand
  obtain ⟨hlt, -⟩ := List.getElem?_eq_some_iff.mp hn
  rw [length_commands hypot hlength, ← hvertices] at hlt
  have hpoint := List.getElem?_eq_getElem hlt
  cases n with
  | zero =>
    rw [commands_eq hypot (by rw [hvertices]; decide), List.getElem?_cons_zero] at hn
    cases hn
    rw [getD_map_eq _ hpoint, getD_map_eq _ hpoint]
    exact hinside _ (List.mem_of_getElem? hpoint)
  | succ n =>
    have hstart := List.getElem?_eq_getElem (Nat.lt_of_succ_lt hlt)
    obtain ⟨first, second, hcurve, hsegment⟩ := commands_segment hhypot hstart hpoint
      (vertices_ascending hlength hstart hpoint)
    rw [hcurve] at hn
    cases hn
    exact segment_inside (hinside _ (List.mem_of_getElem? hstart))
      (hinside _ (List.mem_of_getElem? hpoint)) hsegment

theorem ratePercent_mem {peak : ℤ} {rate : K} (hrate : 0 ≤ rate) :
    ratePercent peak rate ∈ Icc (0 : K) 100 := by
  rw [ratePercent]
  split_ifs with hpeak
  · have hpos : (0 : K) < peak := Int.cast_pos.mpr hpeak
    refine ⟨le_min (by norm_num) ?_, min_le_left _ _⟩
    positivity
  · exact ⟨le_refl _, by norm_num⟩

/-- The point that a command goes to. -/
def reached : Command K → K × K
  | .moveTo point => point
  | .curveTo _ _ point => point

/-- **The curve goes through the vertices**, one after the other. -/
theorem reached_commands (hhypot : Dominates hypot) (hlength : points.length = chartMinutes) :
    (commands hypot (vertices points)).map reached = vertices points := by
  have hvertices := (length_vertices points).trans hlength
  refine List.ext_getElem? fun n => ?_
  rw [List.getElem?_map]
  by_cases hlt : n < (vertices points).length
  · have hpoint := List.getElem?_eq_getElem hlt
    cases n with
    | zero =>
      rw [commands_eq hypot (by rw [hvertices]; decide), List.getElem?_cons_zero, hpoint,
        getD_map_eq _ hpoint, getD_map_eq _ hpoint]
      rfl
    | succ n =>
      have hstart := List.getElem?_eq_getElem (Nat.lt_of_succ_lt hlt)
      obtain ⟨first, second, hcurve, -⟩ := commands_segment hhypot hstart hpoint
        (vertices_ascending hlength hstart hpoint)
      rw [hcurve, hpoint]
      rfl
  · have hge := Nat.not_lt.mp hlt
    rw [List.getElem?_eq_none hge, List.getElem?_eq_none]
    · rfl
    · rwa [length_commands hypot hlength, ← hvertices]

/-! ### The chart -/

/-- How a series is drawn: what its line says is a curve through a point for each minute, from
left to right, and nothing leaves the plot. -/
structure Drawn (fixed : K → Str) (series : Series K) (curve : List (Command K)) : Prop where
  line : series.paths.line = [' '].intercalate (curve.map (Command.text fixed))
  rate : ∃ height ∈ Icc (top : K) bottom, series.paths.rateLine =
    "M 0.000 ".toList ++ fixed height ++ " L ".toList ++ (fixed chartWidth ++ ' ' :: fixed height)
  points : series.points.length = chartMinutes
  count : curve.length = chartMinutes
  inside : ∀ command ∈ curve, DrawsInside command
  ascending : (curve.map reached).IsChain fun start point => start.1 < point.1
  segments : ∀ (index : ℕ) (start point : Command K), curve[index]? = some start →
    curve[index + 1]? = some point → ∃ first second,
      point = .curveTo first second (reached point) ∧
        MonotoneSegment (reached start) first second (reached point)
  busiest : ∀ (index : ℕ) (minute : Point K) (command : Command K),
    series.points[index]? = some minute → curve[index]? = some command → 0 < series.peak →
      minute.documents = series.peak → (reached command).2 = top
  quiet : ∀ (index : ℕ) (minute : Point K) (command : Command K),
    series.points[index]? = some minute → curve[index]? = some command →
      minute.documents = 0 → (reached command).2 = bottom
  higher : ∀ (i j : ℕ) (p q : Point K) (c d : Command K), series.points[i]? = some p →
    series.points[j]? = some q → curve[i]? = some c → curve[j]? = some d →
      p.documents ≤ q.documents → (reached d).2 ≤ (reached c).2

omit [IsStrictOrderedRing K] in
/-- A point of the series, against the busiest one. -/
theorem seriesPoints_mem (hcounts : ∀ bucket ∈ buckets, 0 ≤ bucket.documents) {now : ℤ}
    {point : Point K} (h : point ∈ (seriesPoints buckets now : List (Point K) × ℤ).1) :
    0 ≤ point.documents ∧ point.documents ≤ (seriesPoints (K := K) buckets now).2 ∧
      point.percent = percentOf (seriesPoints (K := K) buckets now).2 point.documents := by
  rw [seriesPoints_eq] at h
  obtain ⟨minute, hminute, rfl⟩ := List.mem_map.mp h
  exact ⟨documentsAt_nonneg hcounts minute, le_peakOf (List.mem_map_of_mem hminute), rfl⟩

/-- A command of the curve goes to where the minute is drawn. -/
theorem reached_height (hhypot : Dominates hypot) (hlength : points.length = chartMinutes)
    {index : ℕ} {minute : Point K} {command : Command K} (hminute : points[index]? = some minute)
    (hcommand : (commands hypot (vertices points))[index]? = some command) :
    (reached command).2 = heightOf minute.percent := by
  have hvertex := vertices_getElem points index
  rw [← reached_commands hhypot hlength, List.getElem?_map, hcommand, hminute] at hvertex
  exact congrArg Prod.snd (Option.some.inj hvertex)

/-- Points that have their shares of the peak are drawn within the plot. -/
theorem chartPaths_drawn (fixed : K → Str) (hhypot : Dominates hypot) {peak : ℤ}
    (hlength : points.length = chartMinutes) (hpoints : ∀ minute ∈ points,
      0 ≤ minute.documents ∧ minute.documents ≤ peak ∧
        minute.percent = percentOf peak minute.documents)
    {ratePerMinute : K} (hrate : 0 ≤ ratePerMinute) :
    Drawn fixed
      { points, peak, windowMinutes := chartMinutes
        paths := chartPaths fixed hypot points peak ratePerMinute }
      (commands hypot (vertices points)) := by
  have hinside : ∀ vertex ∈ vertices points, Inside vertex := by
    refine vertices_inside fun minute hmem => ?_
    obtain ⟨hnonneg, hle, heq⟩ := hpoints minute hmem
    rw [heq]
    exact percentOf_mem hnonneg hle
  have hvertices := reached_commands hhypot hlength
  refine ⟨rfl, ⟨_, heightOf_mem (ratePercent_mem hrate), rfl⟩, hlength,
    length_commands hypot hlength, commands_inside hhypot hlength hinside, ?_, ?_, ?_, ?_, ?_⟩
  · rw [hvertices]
    refine List.isChain_iff_getElem.mpr fun index hindex => ?_
    exact vertices_ascending hlength (List.getElem?_eq_getElem (Nat.lt_of_succ_lt hindex))
      (List.getElem?_eq_getElem hindex)
  · intro index start point hstart hpoint
    have hvertex : ∀ (n : ℕ) (command : Command K),
        (commands hypot (vertices points))[n]? = some command →
          (vertices points)[n]? = some (reached command) := by
      intro n command hcommand
      rw [← hvertices, List.getElem?_map, hcommand, Option.map_some]
    obtain ⟨first, second, hcurve, hsegment⟩ := commands_segment hhypot
      (hvertex _ _ hstart) (hvertex _ _ hpoint)
      (vertices_ascending hlength (hvertex _ _ hstart) (hvertex _ _ hpoint))
    exact ⟨first, second, Option.some.inj (hpoint.symm.trans hcurve), hsegment⟩
  · intro index minute command hminute hcommand hpos hbusy
    rw [reached_height hhypot hlength hminute hcommand,
      (hpoints minute (List.mem_of_getElem? hminute)).2.2, hbusy]
    exact (congrArg heightOf (percentOf_peak hpos)).trans heightOf_full
  · intro index minute command hminute hcommand hquiet
    rw [reached_height hhypot hlength hminute hcommand,
      (hpoints minute (List.mem_of_getElem? hminute)).2.2, hquiet, percentOf_zero]
    exact heightOf_zero
  · intro i j p q c d hp hq hc hd hle
    obtain ⟨hnonneg, hpeaked, hpeq⟩ := hpoints p (List.mem_of_getElem? hp)
    rw [reached_height hhypot hlength hp hc, reached_height hhypot hlength hq hd, hpeq,
      (hpoints q (List.mem_of_getElem? hq)).2.2]
    exact heightOf_anti (percentOf_mono (hnonneg.trans hpeaked) hle)

/-- **The chart stays within its plot**, whatever was counted: each minute's point is as high as
its share of the busiest one, and the curve between two of them is monotone. -/
theorem series_drawn (fixed : K → Str) (hhypot : Dominates hypot)
    (hcounts : ∀ bucket ∈ buckets, 0 ≤ bucket.documents) (now : ℤ) {ratePerMinute : K}
    (hrate : 0 ≤ ratePerMinute) :
    ∃ curve, Drawn fixed (growthSeries fixed hypot buckets ratePerMinute now) curve := by
  have hlength : (seriesPoints (K := K) buckets now).1.length = chartMinutes := by
    rw [seriesPoints_eq, List.length_map, length_window]
  exact ⟨_, chartPaths_drawn fixed hhypot hlength
    (fun minute hmem => seriesPoints_mem hcounts hmem) hrate⟩

/-- `f"{x:.3f}"` -/
def threeDecimals (x : K) : Str :=
  let thousandths := nearest (x * 1000)
  let digits := Nat.toDigits 10 thousandths.natAbs
  let padded := List.replicate (4 - digits.length) '0' ++ digits
  (if thousandths < 0 then ['-'] else []) ++ padded.take (padded.length - 3) ++
    '.' :: padded.drop (padded.length - 3)

/-- Two commits in the reader's hour. -/
theorem series_drawn_sample : ∃ curve, Drawn threeDecimals
    (growthSeries threeDecimals mathHypot [⟨0, 2⟩, ⟨60, 3⟩] (1 : ℝ) 75) curve :=
  series_drawn _ mathHypot_dominates (by simp) 75 zero_le_one

end GrowthChart
