/-
The curve of the growth chart (`searchui.app::smooth_path`).

The tangents are limited one segment after the other, each at both its ends, so a tangent is
limited twice; both times it is made smaller and keeps its sign.

* `limit_shrinks`, `limit_bounded` — what limiting at one segment does;
* `tangents_bounded` — so every tangent is bounded by the slopes on both its sides;
* `smoothPath_monotone` — the curve is monotone on each segment and stays within it.
-/
import MjlSearch.Beziers
import MjlSearch.Text
import Mathlib.Algebra.Order.AbsoluteValue.Basic
import Mathlib.Analysis.SpecialFunctions.Sqrt
import Mathlib.Data.List.GetD

open Text Set Bezier

namespace GrowthCurve

/-! ### The path -/

/-- A command of the path. -/
inductive Command (K : Type*)
  | moveTo (point : K × K)
  | curveTo (first second point : K × K)

/-- A command as it is written, with the numbers to three decimals. -/
def Command.text {K : Type*} (fixed : K → Str) : Command K → Str
  | moveTo (x, y) => "M ".toList ++ fixed x ++ ' ' :: fixed y
  | curveTo (x₁, y₁) (x₂, y₂) (x, y) =>
    "C ".toList ++ fixed x₁ ++ ' ' :: fixed y₁ ++ ' ' :: fixed x₂ ++ ' ' :: fixed y₂ ++
      ' ' :: fixed x ++ ' ' :: fixed y

section
variable {K : Type*} [Field K] [LinearOrder K]

/-- The widths of the segments. -/
def widths (xs : List K) : List K :=
  (List.range (xs.length - 1)).map fun index => xs.getD (index + 1) 0 - xs.getD index 0

/-- The slopes of the segments. -/
def slopes (ys widths : List K) : List K :=
  (List.range (ys.length - 1)).map fun index =>
    if widths.getD index 0 ≠ 0 then
      (ys.getD (index + 1) 0 - ys.getD index 0) / widths.getD index 0
    else 0

/-- The tangent to start from: the average of the two neighbouring slopes, where these have one
sign. -/
def average (slopes : List K) (index : ℕ) : K :=
  if slopes.getD (index - 1) 0 * slopes.getD index 0 ≤ 0 then 0
  else (slopes.getD (index - 1) 0 + slopes.getD index 0) / 2

/-- The tangents before they are limited. -/
def startTangents (slopes : List K) (count : ℕ) : List K :=
  let tangents := ((List.replicate count 0).set 0 (slopes.getD 0 0)).set (count - 1)
    (slopes.getLastD 0)
  (List.range' 1 (count - 2)).foldl
    (fun tangents index => tangents.set index (average slopes index)) tangents

/-- The tangents at both ends of a segment, limited by its slope. -/
def limit (hypot : K → K → K) (slopes tangents : List K) (index : ℕ) : List K :=
  let slope := slopes.getD index 0
  if slope = 0 then (tangents.set index 0).set (index + 1) 0
  else
    let left := tangents.getD index 0 / slope
    let right := tangents.getD (index + 1) 0 / slope
    let radius := hypot left right
    if 3 < radius then
      let scale := 3 / radius
      (tangents.set index (scale * left * slope)).set (index + 1) (scale * right * slope)
    else tangents

/-- The tangents of the curve. -/
def tangents (hypot : K → K → K) (slopes : List K) (count : ℕ) : List K :=
  (List.range (count - 1)).foldl (limit hypot slopes) (startTangents slopes count)

/-- The command for a segment: its control points are a third of its width from either end. -/
def curve (xs ys widths tangents : List K) (index : ℕ) : Command K :=
  let third := widths.getD index 0 / 3
  .curveTo (xs.getD index 0 + third, ys.getD index 0 + tangents.getD index 0 * third)
    (xs.getD (index + 1) 0 - third,
      ys.getD (index + 1) 0 - tangents.getD (index + 1) 0 * third)
    (xs.getD (index + 1) 0, ys.getD (index + 1) 0)

/-- The commands of the path through some vertices. -/
def commands (hypot : K → K → K) : List (K × K) → List (Command K)
  | [] => []
  | [vertex] => [.moveTo vertex]
  | vertices =>
    let xs := vertices.map Prod.fst
    let ys := vertices.map Prod.snd
    let widths := widths xs
    let tangents := tangents hypot (slopes ys widths) vertices.length
    .moveTo (xs.getD 0 0, ys.getD 0 0) ::
      (List.range (vertices.length - 1)).map (curve xs ys widths tangents)

/-- An SVG path through `vertices` that never leaves the range of its neighbours. -/
def smoothPath (fixed : K → Str) (hypot : K → K → K) (vertices : List (K × K)) : Str :=
  [' '].intercalate ((commands hypot vertices).map (Command.text fixed))

end

/-! ### Lists that are written by position -/

section
variable {α : Type*} {default : α}

theorem getD_set (l : List α) (i j : ℕ) (a : α) :
    (l.set i a).getD j default = if i = j ∧ i < l.length then a else l.getD j default := by
  rw [List.getD_eq_getElem?_getD, List.getD_eq_getElem?_getD, List.getElem?_set]
  by_cases hij : i = j
  · by_cases hlt : i < l.length
    · simp [hij ▸ hlt, hij]
    · subst hij
      simp [hlt]
  · simp [hij]

theorem set_getD_self (l : List α) (i : ℕ) : l.set i (l.getD i default) = l := by
  by_cases hlt : i < l.length
  · rw [List.getD_eq_getElem _ _ hlt, List.set_getElem_self]
  · rw [List.set_eq_of_length_le (Nat.not_lt.mp hlt)]

/-- A loop that writes what depends on the position only. -/
theorem getD_foldl_set (f : ℕ → α) (indices : List ℕ) (l : List α) (j : ℕ) :
    (indices.foldl (fun l i => l.set i (f i)) l).getD j default =
      if j ∈ indices ∧ j < l.length then f j else l.getD j default := by
  induction indices generalizing l with
  | nil => simp
  | cons i indices ih =>
    rw [List.foldl_cons, ih, List.length_set, getD_set]
    by_cases hj : j ∈ indices ∧ j < l.length
    · rw [if_pos hj, if_pos ⟨List.mem_cons_of_mem _ hj.1, hj.2⟩]
    · rw [if_neg hj]
      by_cases hi : i = j ∧ i < l.length
      · obtain ⟨rfl, hlt⟩ := hi
        rw [if_pos ⟨rfl, hlt⟩, if_pos ⟨List.mem_cons_self .., hlt⟩]
      · rw [if_neg hi, if_neg]
        rintro ⟨hmem, hlt⟩
        rcases List.mem_cons.mp hmem with rfl | hmem
        · exact hi ⟨rfl, hlt⟩
        · exact hj ⟨hmem, hlt⟩

theorem length_foldl_set (f : ℕ → α) (indices : List ℕ) (l : List α) :
    (indices.foldl (fun l i => l.set i (f i)) l).length = l.length := by
  induction indices generalizing l with
  | nil => rfl
  | cons i indices ih => rw [List.foldl_cons, ih, List.length_set]

end

/-! ### The shape of the loops -/

section
variable {K : Type*} [Field K] [LinearOrder K]

theorem limit_length (hypot : K → K → K) (slopes tangents : List K) (index : ℕ) :
    (limit hypot slopes tangents index).length = tangents.length := by
  rw [limit]
  dsimp only
  split
  · rw [List.length_set, List.length_set]
  · split
    · rw [List.length_set, List.length_set]
    · rfl

theorem startTangents_length (slopes : List K) (count : ℕ) :
    (startTangents slopes count).length = count := by
  rw [startTangents, length_foldl_set, List.length_set, List.length_set, List.length_replicate]

theorem startTangents_first (slopes : List K) {count : ℕ} (h : 2 ≤ count) :
    (startTangents slopes count).getD 0 0 = slopes.getD 0 0 := by
  rw [startTangents, getD_foldl_set, if_neg (by simp), getD_set, if_neg (by omega), getD_set,
    if_pos ⟨rfl, by rw [List.length_replicate]; omega⟩]

theorem startTangents_last {slopes : List K} {count : ℕ} (h : 2 ≤ count)
    (hslopes : slopes.length = count - 1) :
    (startTangents slopes count).getD (count - 1) 0 = slopes.getD (count - 2) 0 := by
  have hinner : ¬ (count - 1 ∈ List.range' 1 (count - 2) ∧
      count - 1 < (((List.replicate count 0).set 0 (slopes.getD 0 0)).set (count - 1)
        (slopes.getLastD 0)).length) := by
    rintro ⟨hmem, -⟩
    rw [List.mem_range'_1] at hmem
    omega
  rw [startTangents, getD_foldl_set, if_neg hinner, getD_set,
    if_pos ⟨rfl, by rw [List.length_set, List.length_replicate]; omega⟩,
    List.getLastD_eq_getLast?, List.getLast?_eq_getElem?, hslopes, List.getD_eq_getElem?_getD]
  rfl

theorem startTangents_inner (slopes : List K) {count index : ℕ} (hpos : 1 ≤ index)
    (h : index + 1 < count) :
    (startTangents slopes count).getD index 0 = average slopes index := by
  rw [startTangents, getD_foldl_set, if_pos]
  rw [List.mem_range'_1, List.length_set, List.length_set, List.length_replicate]
  omega

end

/-! ### Limiting -/

variable {K : Type*} [Field K] [LinearOrder K] [IsStrictOrderedRing K]

/-- Every tangent is made smaller, if anything, and keeps its sign. -/
def Shrinks (before after : List K) : Prop :=
  ∀ index, ∃ c ∈ Icc (0 : K) 1, after.getD index 0 = c * before.getD index 0

theorem Shrinks.refl (tangents : List K) : Shrinks tangents tangents :=
  fun _ => ⟨1, ⟨zero_le_one, le_rfl⟩, (one_mul _).symm⟩

theorem Shrinks.trans {t₁ t₂ t₃ : List K} (h : Shrinks t₁ t₂) (h' : Shrinks t₂ t₃) :
    Shrinks t₁ t₃ := by
  intro index
  obtain ⟨c, ⟨hc0, hc1⟩, hc⟩ := h index
  obtain ⟨d, ⟨hd0, hd1⟩, hd⟩ := h' index
  exact ⟨d * c, ⟨mul_nonneg hd0 hc0, mul_le_one₀ hd1 hc0 hc1⟩, by rw [hd, hc, mul_assoc]⟩

/-- A tangent that a smaller one of its sign is written over. -/
theorem Shrinks.set {tangents : List K} {index : ℕ} {c value : K} (hc : c ∈ Icc 0 1)
    (h : value = c * tangents.getD index 0) : Shrinks tangents (tangents.set index value) := by
  intro j
  rw [getD_set]
  split
  · rename_i hj
    rw [← hj.1]
    exact ⟨c, hc, h⟩
  · exact Shrinks.refl tangents j

/-- What is relied on of `math.hypot`: it is no smaller than either side. -/
def Dominates (hypot : K → K → K) : Prop := ∀ a b, |a| ≤ hypot a b ∧ |b| ≤ hypot a b

variable {hypot : K → K → K}

/-- **Limiting multiplies the tangents at both ends by one factor, which makes them at most
three times the slope.** -/
theorem limit_spec (hhypot : Dominates hypot) (slopes tangents : List K) (index : ℕ) :
    ∃ c ∈ Icc (0 : K) 1, limit hypot slopes tangents index =
        (tangents.set index (c * tangents.getD index 0)).set (index + 1)
          (c * tangents.getD (index + 1) 0) ∧
      |c * tangents.getD index 0| ≤ 3 * |slopes.getD index 0| ∧
      |c * tangents.getD (index + 1) 0| ≤ 3 * |slopes.getD index 0| := by
  rw [limit]
  generalize slopes.getD index 0 = slope
  by_cases hflat : slope = 0
  · refine ⟨0, ⟨le_rfl, zero_le_one⟩, ?_, ?_, ?_⟩
    · rw [if_pos hflat, zero_mul, zero_mul]
    · rw [zero_mul, abs_zero]
      positivity
    · rw [zero_mul, abs_zero]
      positivity
  · obtain ⟨hleft, hright⟩ := hhypot (tangents.getD index 0 / slope)
      (tangents.getD (index + 1) 0 / slope)
    rw [if_neg hflat]
    dsimp only
    generalize hypot (tangents.getD index 0 / slope) (tangents.getD (index + 1) 0 / slope) =
      radius at *
    rw [abs_div, div_le_iff₀ (abs_pos.mpr hflat)] at hleft hright
    by_cases hfar : 3 < radius
    · have hpos : 0 < radius := lt_trans (by norm_num) hfar
      have hscale : 0 ≤ 3 / radius := by positivity
      have hbound : ∀ t : K, |t| ≤ radius * |slope| → |3 / radius * t| ≤ 3 * |slope| := by
        intro t ht
        calc |3 / radius * t| = 3 / radius * |t| := by rw [abs_mul, abs_of_nonneg hscale]
          _ ≤ 3 / radius * (radius * |slope|) := mul_le_mul_of_nonneg_left ht hscale
          _ = 3 * |slope| := by rw [← mul_assoc, div_mul_cancel₀ _ hpos.ne']
      refine ⟨3 / radius, ⟨hscale, (div_le_one hpos).mpr hfar.le⟩, ?_, hbound _ hleft,
        hbound _ hright⟩
      rw [if_pos hfar, mul_assoc, div_mul_cancel₀ _ hflat, mul_assoc, div_mul_cancel₀ _ hflat]
    · have hnear : radius * |slope| ≤ 3 * |slope| :=
        mul_le_mul_of_nonneg_right (not_lt.mp hfar) (abs_nonneg slope)
      refine ⟨1, ⟨zero_le_one, le_rfl⟩, ?_, ?_, ?_⟩
      · rw [if_neg hfar, one_mul, one_mul, set_getD_self, set_getD_self]
      · rw [one_mul]
        exact hleft.trans hnear
      · rw [one_mul]
        exact hright.trans hnear

theorem limit_shrinks (hhypot : Dominates hypot) (slopes tangents : List K) (index : ℕ) :
    Shrinks tangents (limit hypot slopes tangents index) := by
  obtain ⟨c, hc, heq, -, -⟩ := limit_spec hhypot slopes tangents index
  rw [heq]
  refine (Shrinks.set hc rfl).trans (Shrinks.set hc ?_)
  rw [getD_set, if_neg (by omega)]

/-- The tangents at both ends of a segment are at most three times its slope. -/
def Bounded (slopes tangents : List K) (index : ℕ) : Prop :=
  |tangents.getD index 0| ≤ 3 * |slopes.getD index 0| ∧
    |tangents.getD (index + 1) 0| ≤ 3 * |slopes.getD index 0|

theorem limit_bounded (hhypot : Dominates hypot) (slopes : List K) {tangents : List K}
    {index : ℕ} (h : index + 1 < tangents.length) :
    Bounded slopes (limit hypot slopes tangents index) index := by
  obtain ⟨c, -, heq, hleft, hright⟩ := limit_spec hhypot slopes tangents index
  rw [Bounded, heq, getD_set, if_neg (by omega), getD_set, if_pos ⟨rfl, by omega⟩, getD_set,
    if_pos ⟨rfl, by rwa [List.length_set]⟩]
  exact ⟨hleft, hright⟩

theorem Shrinks.abs_le {before after : List K} (h : Shrinks before after) (index : ℕ) :
    |after.getD index 0| ≤ |before.getD index 0| := by
  obtain ⟨c, ⟨hc0, hc1⟩, heq⟩ := h index
  rw [heq, abs_mul, abs_of_nonneg hc0]
  exact mul_le_of_le_one_left (abs_nonneg _) hc1

theorem Shrinks.bounded {slopes before after : List K} {index : ℕ} (h : Shrinks before after)
    (hbounded : Bounded slopes before index) : Bounded slopes after index :=
  ⟨(h.abs_le index).trans hbounded.1, (h.abs_le (index + 1)).trans hbounded.2⟩

/-- **What all the limiting does**: the tangents shrink, and those of every segment it has come
to are bounded. -/
theorem limited_spec (hhypot : Dominates hypot) (slopes start : List K) (n : ℕ)
    (hn : n < start.length ∨ n = 0) :
    Shrinks start ((List.range n).foldl (limit hypot slopes) start) ∧
      ((List.range n).foldl (limit hypot slopes) start).length = start.length ∧
      ∀ index < n, Bounded slopes ((List.range n).foldl (limit hypot slopes) start) index := by
  induction n with
  | zero => exact ⟨Shrinks.refl start, rfl, fun index hindex => absurd hindex (Nat.not_lt_zero _)⟩
  | succ n ih =>
    have hlt : n + 1 < start.length := hn.resolve_right (Nat.succ_ne_zero n)
    obtain ⟨hshrinks, hlength, hbounded⟩ := ih (Or.inl (Nat.lt_of_succ_lt hlt))
    rw [List.range_succ, List.foldl_append, List.foldl_cons, List.foldl_nil]
    generalize (List.range n).foldl (limit hypot slopes) start = limited at *
    have hstep := limit_shrinks hhypot slopes limited n
    refine ⟨hshrinks.trans hstep, (limit_length _ _ _ _).trans hlength, fun index hindex => ?_⟩
    -- the segments before keep their bound, as both their tangents shrink
    rcases Nat.lt_succ_iff_lt_or_eq.mp hindex with hbefore | rfl
    · exact hstep.bounded (hbounded index hbefore)
    · exact limit_bounded hhypot slopes (by omega)

/-! ### The tangents to start from -/

/-- The tangents at both ends of a segment have the sign of its slope. -/
def Agrees (slopes tangents : List K) (index : ℕ) : Prop :=
  0 ≤ tangents.getD index 0 * slopes.getD index 0 ∧
    0 ≤ tangents.getD (index + 1) 0 * slopes.getD index 0

theorem Shrinks.agrees {slopes before after : List K} {index : ℕ} (h : Shrinks before after)
    (hagrees : Agrees slopes before index) : Agrees slopes after index := by
  obtain ⟨c, hc, hleft⟩ := h index
  obtain ⟨d, hd, hright⟩ := h (index + 1)
  rw [Agrees, hleft, hright, mul_assoc, mul_assoc]
  exact ⟨mul_nonneg hc.1 hagrees.1, mul_nonneg hd.1 hagrees.2⟩

/-- An average has the sign of both slopes. -/
theorem average_agrees (slopes : List K) (index : ℕ) :
    0 ≤ average slopes index * slopes.getD (index - 1) 0 ∧
      0 ≤ average slopes index * slopes.getD index 0 := by
  rw [average]
  split
  · rw [zero_mul, zero_mul]
    exact ⟨le_rfl, le_rfl⟩
  · rename_i hsame
    have hprod := (not_le.mp hsame).le
    have hbefore := mul_self_nonneg (slopes.getD (index - 1) 0)
    have hafter := mul_self_nonneg (slopes.getD index 0)
    constructor
    · linarith
    · linarith

/-- **The tangents to start from have the signs of the slopes on both their sides.** -/
theorem startTangents_agrees {slopes : List K} {count index : ℕ}
    (hslopes : slopes.length = count - 1) (h : index + 1 < count) :
    Agrees slopes (startTangents slopes count) index := by
  constructor
  · rcases Nat.eq_zero_or_pos index with rfl | hpos
    · rw [startTangents_first slopes h]
      exact mul_self_nonneg _
    · rw [startTangents_inner slopes hpos h]
      exact (average_agrees slopes index).2
  · rcases Nat.lt_or_ge (index + 2) count with hinner | hlast
    · rw [startTangents_inner slopes (Nat.succ_pos _) hinner]
      exact (average_agrees slopes (index + 1)).1
    · obtain rfl : count = index + 2 := by omega
      have hend := startTangents_last (Nat.le_add_left 2 index) hslopes
      rw [show index + 2 - 1 = index + 1 from rfl, show index + 2 - 2 = index from rfl] at hend
      rw [hend]
      exact mul_self_nonneg _

/-- **Every tangent of the curve has the sign of the slopes on both its sides, and is at most
three times as large.** -/
theorem tangents_bounded (hhypot : Dominates hypot) {slopes : List K} {count index : ℕ}
    (hslopes : slopes.length = count - 1) (h : index + 1 < count) :
    Agrees slopes (tangents hypot slopes count) index ∧
      Bounded slopes (tangents hypot slopes count) index := by
  have hlength := startTangents_length slopes count
  obtain ⟨hshrinks, -, hbounded⟩ := limited_spec hhypot slopes (startTangents slopes count)
    (count - 1) (Or.inl (by omega))
  exact ⟨hshrinks.agrees (startTangents_agrees hslopes h), hbounded index (by omega)⟩

/-! ### The segments -/

/-- A tangent that a slope bounds goes a part of the way in a third of the width. -/
theorem exists_part {tangent slope : K} (hsign : 0 ≤ tangent * slope)
    (hbound : |tangent| ≤ 3 * |slope|) : ∃ p ∈ Icc (0 : K) 1, tangent / 3 = p * slope := by
  by_cases hflat : slope = 0
  · rw [hflat, abs_zero, mul_zero] at hbound
    have hzero : tangent = 0 := abs_eq_zero.mp (le_antisymm hbound (abs_nonneg _))
    exact ⟨0, ⟨le_rfl, zero_le_one⟩, by rw [hzero, zero_div, zero_mul]⟩
  · refine ⟨tangent / 3 / slope, ⟨?_, ?_⟩, (div_mul_cancel₀ _ hflat).symm⟩
    · have heq : tangent / 3 / slope = tangent * slope / (3 * (slope * slope)) := by
        field_simp
      rw [heq]
      exact div_nonneg hsign (mul_nonneg (by norm_num) (mul_self_nonneg slope))
    · refine (le_abs_self _).trans ?_
      rw [abs_div, abs_div, abs_of_pos (by norm_num : (0 : K) < 3),
        div_le_one (abs_pos.mpr hflat), div_le_iff₀ (by norm_num), mul_comm]
      exact hbound

/-- **The control values that two bounded tangents give are between the ends.** -/
theorem controls_mem {y y' width left right : K} (hwidth : 0 < width)
    (hleft : 0 ≤ left * ((y' - y) / width)) (hright : 0 ≤ right * ((y' - y) / width))
    (hleft' : |left| ≤ 3 * |(y' - y) / width|) (hright' : |right| ≤ 3 * |(y' - y) / width|) :
    y + left * (width / 3) ∈ uIcc y y' ∧ y' - right * (width / 3) ∈ uIcc y y' := by
  obtain ⟨p, hp, hpl⟩ := exists_part hleft hleft'
  obtain ⟨q, hq, hqr⟩ := exists_part hright hright'
  have hscale : ∀ r t : K, t / 3 = r * ((y' - y) / width) → t * (width / 3) = r * (y' - y) := by
    intro r t h
    have hrun : (y' - y) / width * width = y' - y := div_mul_cancel₀ _ hwidth.ne'
    linear_combination width * h + r * hrun
  constructor
  · rw [hscale p left hpl]
    exact fraction_mem hp
  · rw [hscale q right hqr, uIcc_comm]
    have hback : y' - q * (y' - y) = y' + q * (y - y') := by ring
    rw [hback]
    exact fraction_mem hq

/-- What a segment from `start` to `point` is to look like, with its two control points. -/
structure MonotoneSegment (start first second point : K × K) : Prop where
  first_y : first.2 ∈ uIcc start.2 point.2
  second_y : second.2 ∈ uIcc start.2 point.2
  first_x : start.1 ≤ first.1
  second_x : first.1 ≤ second.1
  point_x : second.1 ≤ point.1
  steady : ∀ t, cubic start.1 first.1 second.1 point.1 t = start.1 + t * (point.1 - start.1)
  monotone : MonotoneOn (cubic start.2 first.2 second.2 point.2) (Icc 0 1) ∨
    AntitoneOn (cubic start.2 first.2 second.2 point.2) (Icc 0 1)
  inside : ∀ t ∈ Icc (0 : K) 1, cubic start.2 first.2 second.2 point.2 t ∈ uIcc start.2 point.2

/-- Control points at a third of the width from either end. -/
theorem MonotoneSegment.of_mem {start point : K × K} {y₁ y₂ : K} (hx : start.1 < point.1)
    (h₁ : y₁ ∈ uIcc start.2 point.2) (h₂ : y₂ ∈ uIcc start.2 point.2) :
    MonotoneSegment start (start.1 + (point.1 - start.1) / 3, y₁)
      (point.1 - (point.1 - start.1) / 3, y₂) point where
  first_y := h₁
  second_y := h₂
  first_x := by linarith
  second_x := by linarith
  point_x := by linarith
  steady t := by
    have hthirds := cubic_thirds start.1 (point.1 - start.1) t
    rwa [add_sub_cancel] at hthirds
  monotone := cubic_monotone h₁ h₂
  inside _ ht := cubic_mem h₁ h₂ ht

section
variable {vertices : List (K × K)} {index : ℕ} {start point : K × K}

omit [IsStrictOrderedRing K] in
theorem commands_eq (hypot : K → K → K) (h : 2 ≤ vertices.length) :
    commands hypot vertices =
      .moveTo ((vertices.map Prod.fst).getD 0 0, (vertices.map Prod.snd).getD 0 0) ::
        (List.range (vertices.length - 1)).map (curve (vertices.map Prod.fst)
          (vertices.map Prod.snd) (widths (vertices.map Prod.fst)) (tangents hypot
            (slopes (vertices.map Prod.snd) (widths (vertices.map Prod.fst)))
            vertices.length)) := by
  match vertices, h with
  | _ :: _ :: _, _ => rfl

omit [LinearOrder K] [IsStrictOrderedRing K] in
theorem getD_map_eq (f : K × K → K) (h : vertices[index]? = some start) :
    (vertices.map f).getD index 0 = f start := by
  rw [List.getD_eq_getElem?_getD, List.getElem?_map, h]
  rfl

omit [LinearOrder K] [IsStrictOrderedRing K] in
theorem getD_map_range (f : ℕ → K) {n : ℕ} (h : index < n) :
    ((List.range n).map f).getD index 0 = f index := by
  rw [List.getD_eq_getElem?_getD, List.getElem?_map, List.getElem?_range h]
  rfl

omit [LinearOrder K] [IsStrictOrderedRing K] in
theorem widths_getD (hstart : vertices[index]? = some start)
    (hpoint : vertices[index + 1]? = some point) :
    (widths (vertices.map Prod.fst)).getD index 0 = point.1 - start.1 := by
  obtain ⟨hlt, -⟩ := List.getElem?_eq_some_iff.mp hpoint
  rw [widths, getD_map_range _ (by rw [List.length_map]; omega), getD_map_eq _ hstart,
    getD_map_eq _ hpoint]

theorem slopes_getD (hstart : vertices[index]? = some start)
    (hpoint : vertices[index + 1]? = some point) (hx : start.1 < point.1) :
    (slopes (vertices.map Prod.snd) (widths (vertices.map Prod.fst))).getD index 0 =
      (point.2 - start.2) / (point.1 - start.1) := by
  obtain ⟨hlt, -⟩ := List.getElem?_eq_some_iff.mp hpoint
  rw [slopes, getD_map_range _ (by rw [List.length_map]; omega), widths_getD hstart hpoint,
    if_pos (sub_pos.mpr hx).ne', getD_map_eq _ hstart, getD_map_eq _ hpoint]

/-- **Each segment is monotone.** -/
theorem commands_segment (hhypot : Dominates hypot) (hstart : vertices[index]? = some start)
    (hpoint : vertices[index + 1]? = some point) (hx : start.1 < point.1) :
    ∃ first second, (commands hypot vertices)[index + 1]? = some (.curveTo first second point) ∧
      MonotoneSegment start first second point := by
  obtain ⟨hlt, -⟩ := List.getElem?_eq_some_iff.mp hpoint
  have hslopes : (slopes (vertices.map Prod.snd) (widths (vertices.map Prod.fst))).length =
      vertices.length - 1 := by
    rw [slopes, List.length_map, List.length_range, List.length_map]
  obtain ⟨hagrees, hbounded⟩ := tangents_bounded hhypot hslopes hlt
  have hslope := slopes_getD hstart hpoint hx
  rw [Agrees, hslope] at hagrees
  rw [Bounded, hslope] at hbounded
  obtain ⟨hfirst, hsecond⟩ := controls_mem (sub_pos.mpr hx) hagrees.1 hagrees.2 hbounded.1
    hbounded.2
  refine ⟨_, _, ?_, MonotoneSegment.of_mem hx hfirst hsecond⟩
  rw [commands_eq hypot (by omega), List.getElem?_cons_succ, List.getElem?_map,
    List.getElem?_range (by omega), Option.map_some, curve, widths_getD hstart hpoint,
    getD_map_eq Prod.fst hstart, getD_map_eq Prod.snd hstart, getD_map_eq Prod.fst hpoint,
    getD_map_eq Prod.snd hpoint]

end

/-- `math.hypot`, over the reals. -/
noncomputable def mathHypot (a b : ℝ) : ℝ := √(a ^ 2 + b ^ 2)

theorem mathHypot_dominates : Dominates mathHypot := by
  intro a b
  constructor
  · exact Real.abs_le_sqrt (le_add_of_nonneg_right (sq_nonneg b))
  · exact Real.abs_le_sqrt (le_add_of_nonneg_left (sq_nonneg a))

/-- **The curve never overshoots**: it starts at the first vertex and has one segment to each
further one; every segment has its control points between its ends, and is monotone and stays
within their range. -/
theorem smoothPath_monotone {vertices : List (ℝ × ℝ)} (hlength : 2 ≤ vertices.length)
    (hx : vertices.Pairwise fun v w => v.1 < w.1) :
    (commands mathHypot vertices).length = vertices.length ∧
      (commands mathHypot vertices)[0]? = vertices[0]?.map Command.moveTo ∧
      ∀ (index : ℕ) (start point : ℝ × ℝ), vertices[index]? = some start →
        vertices[index + 1]? = some point → ∃ first second,
          (commands mathHypot vertices)[index + 1]? = some (.curveTo first second point) ∧
            MonotoneSegment start first second point := by
  refine ⟨?_, ?_, fun index start point hstart hpoint => ?_⟩
  · rw [commands_eq mathHypot hlength, List.length_cons, List.length_map, List.length_range]
    omega
  · obtain ⟨vertex, hvertex⟩ : ∃ vertex, vertices[0]? = some vertex :=
      ⟨_, List.getElem?_eq_getElem (Nat.zero_lt_of_lt hlength)⟩
    rw [commands_eq mathHypot hlength, List.getElem?_cons_zero, getD_map_eq _ hvertex,
      getD_map_eq _ hvertex, hvertex]
    rfl
  · obtain ⟨hlt, hvalue⟩ := List.getElem?_eq_some_iff.mp hpoint
    obtain ⟨hlt', hvalue'⟩ := List.getElem?_eq_some_iff.mp hstart
    have hless := List.pairwise_iff_getElem.mp hx index (index + 1) hlt' hlt (Nat.lt_succ_self _)
    rw [hvalue, hvalue'] at hless
    exact commands_segment mathHypot_dominates hstart hpoint hless

/-- A spike, whose tangents are limited. -/
theorem smoothPath_monotone_spike :
    (commands mathHypot [(0, 0), (1, 1), (2, 9), (3, 9)]).length =
        ([(0, 0), (1, 1), (2, 9), (3, 9)] : List (ℝ × ℝ)).length ∧
      (commands mathHypot [(0, 0), (1, 1), (2, 9), (3, 9)])[0]? =
        ([(0, 0), (1, 1), (2, 9), (3, 9)] : List (ℝ × ℝ))[0]?.map Command.moveTo ∧
      ∀ (index : ℕ) (start point : ℝ × ℝ),
        ([(0, 0), (1, 1), (2, 9), (3, 9)] : List (ℝ × ℝ))[index]? = some start →
        ([(0, 0), (1, 1), (2, 9), (3, 9)] : List (ℝ × ℝ))[index + 1]? = some point →
        ∃ first second, (commands mathHypot [(0, 0), (1, 1), (2, 9), (3, 9)])[index + 1]? =
            some (.curveTo first second point) ∧
          MonotoneSegment start first second point :=
  smoothPath_monotone (by decide) (by norm_num)

end GrowthCurve
