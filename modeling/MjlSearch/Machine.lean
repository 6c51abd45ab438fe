/-
The machine's numbers: `i64`, and the doubles a decimal is read as.

* `satAdd`, `satSub` — saturating `i64` arithmetic; `satAdd_toI64`,
  `satSub_le_iff` — where it is exact;
* `toI64` — a `u64` reinterpreted as an `i64`; `toI64_of_lt`, `toI64_of_ge`;
* `Double.parse`, `Double.ceilU64` — a decimal read as a double, and the whole
  number above a double, saturated to `u64`.
-/
import MjlSearch.Text

open Text

namespace Machine

/-! ### i64 -/

/-- The least `i64`. -/
def i64Min : ℤ := -2 ^ 63

/-- The greatest `i64`. -/
def i64Max : ℤ := 2 ^ 63 - 1

/-- A number an `i64` can hold. -/
def IsI64 (z : ℤ) : Prop := i64Min ≤ z ∧ z ≤ i64Max

instance : DecidablePred IsI64 := fun z => inferInstanceAs (Decidable (i64Min ≤ z ∧ z ≤ i64Max))

/-- The `i64` closest to a number. -/
def clamp (z : ℤ) : ℤ := if z < i64Min then i64Min else if i64Max < z then i64Max else z

/-- `i64::saturating_add`. -/
def satAdd (a b : ℤ) : ℤ := clamp (a + b)

/-- `i64::saturating_sub`. -/
def satSub (a b : ℤ) : ℤ := clamp (a - b)

/-- A `u64` cast to `i64`: its upper half becomes negative. -/
def toI64 (n : ℕ) : ℤ := if n < 2 ^ 63 then n else n - 2 ^ 64

theorem clamp_isI64 (z : ℤ) : IsI64 (clamp z) := by
  have hrange : i64Min ≤ i64Max := by decide
  rw [clamp]
  by_cases hlow : z < i64Min
  · rw [if_pos hlow]
    exact ⟨Int.le_refl _, hrange⟩
  · rw [if_neg hlow]
    by_cases hhigh : i64Max < z
    · rw [if_pos hhigh]
      exact ⟨hrange, Int.le_refl _⟩
    · rw [if_neg hhigh]
      exact ⟨Int.not_lt.mp hlow, Int.not_lt.mp hhigh⟩

theorem clamp_of_isI64 {z : ℤ} (h : IsI64 z) : clamp z = z := by
  rw [clamp, if_neg (Int.not_lt.mpr h.1), if_neg (Int.not_lt.mpr h.2)]

/-- A clamped difference is within a bound exactly when the difference is. -/
theorem satSub_le_iff {a b c : ℤ} (h : IsI64 c) (hc : c < i64Max) :
    satSub a b ≤ c ↔ a - b ≤ c := by
  have hmin := h.1
  rw [satSub, clamp]
  by_cases hlow : a - b < i64Min
  · rw [if_pos hlow]
    omega
  · rw [if_neg hlow]
    by_cases hhigh : i64Max < a - b
    · rw [if_pos hhigh]
      omega
    · rw [if_neg hhigh]

theorem toI64_of_lt {n : ℕ} (h : n < 2 ^ 63) : toI64 n = n := if_pos h

theorem toI64_of_ge {n : ℕ} (h : 2 ^ 63 ≤ n) : toI64 n = n - 2 ^ 64 :=
  if_neg (Nat.not_lt.mpr h)

/-- Nothing saturates while the sum fits. -/
theorem satAdd_toI64 {a : ℤ} {n : ℕ} (ha : 0 ≤ a) (h : a + n ≤ i64Max) :
    satAdd a (toI64 n) = a + n := by
  have hn : n < 2 ^ 63 := by
    simp only [i64Max] at h
    omega
  rw [satAdd, toI64_of_lt hn, clamp_of_isI64]
  refine ⟨?_, h⟩
  simp only [i64Min]
  omega

/-! ### Doubles -/

/-- A double: its sign, and its magnitude `mantissa * 2 ^ exponent`. -/
inductive Double
  | nan
  | infinite (negative : Bool)
  | finite (negative : Bool) (mantissa : ℕ) (exponent : ℤ)
  deriving DecidableEq, Repr

namespace Double

/-- The whole number closest to a fraction, the even one of two. -/
def roundHalfEven (num den : ℕ) : ℕ :=
  let below := num / den
  let rest := num % den
  if 2 * rest < den then below
  else if 2 * rest = den ∧ below % 2 = 0 then below
  else below + 1

/-- The largest `k` with `2 ^ k ≤ num / den`. -/
def log2 (num den : ℕ) : ℤ :=
  let k : ℤ := (Nat.log2 num : ℤ) - Nat.log2 den
  if den * 2 ^ k.toNat ≤ num * 2 ^ (-k).toNat then k else k - 1

/-- The double closest to a fraction: 53 binary digits, or fewer below the least
normal exponent, and an infinity from `2 ^ 1024` on. -/
def ofFraction (negative : Bool) (num den : ℕ) : Double :=
  if num = 0 then finite negative 0 0
  else
    let exponent := max (log2 num den - 52) (-1074)
    let mantissa := roundHalfEven (num * 2 ^ (-exponent).toNat) (den * 2 ^ exponent.toNat)
    if 2 ^ 1024 ≤ mantissa * 2 ^ exponent.toNat then infinite negative
    else finite negative mantissa exponent

/-- Strips a sign: whether it was a minus, and what follows. -/
def stripSign : Str → Bool × Str
  | '-' :: rest => (true, rest)
  | '+' :: rest => (false, rest)
  | s => (false, s)

/-- What follows a number's digits: nothing, or an exponent of ten. -/
def parseExponent : Str → Option ℤ
  | [] => some 0
  | c :: rest =>
    let (negative, digits) := stripSign rest
    if (c = 'e' ∨ c = 'E') ∧ digits ≠ [] ∧ digits.all Char.isDigit then
      let n : ℤ := Nat.ofDigitChars 10 digits 0
      some (if negative then -n else n)
    else none

/-- The digits before and after the point, and the rest. -/
def splitDigits (s : Str) : Str × Str × Str :=
  let whole := s.takeWhile Char.isDigit
  match s.dropWhile Char.isDigit with
  | '.' :: rest => (whole, rest.takeWhile Char.isDigit, rest.dropWhile Char.isDigit)
  | rest => (whole, [], rest)

/-- `str::parse::<f64>`. -/
def parse (s : Str) : Option Double :=
  let (negative, s) := stripSign s
  let name := asciiLower s
  if name = ['n', 'a', 'n'] then some nan
  else if name = ['i', 'n', 'f'] ∨ name = ['i', 'n', 'f', 'i', 'n', 'i', 't', 'y'] then
    some (infinite negative)
  else
    let (whole, fraction, rest) := splitDigits s
    if whole = [] ∧ fraction = [] then none
    else do
      let exponent ← parseExponent rest
      let n := Nat.ofDigitChars 10 (whole ++ fraction) 0
      let scale := exponent - fraction.length
      some (ofFraction negative (n * 10 ^ scale.toNat) (10 ^ (-scale).toNat))

/-- `x.is_finite() && x >= 0.0`, where minus zero is not below zero. -/
def isFiniteNonneg : Double → Bool
  | finite negative mantissa _ => !negative || mantissa == 0
  | _ => false

/-- `x.ceil() as u64`, for a finite `x` that is not negative. -/
def ceilU64 : Double → ℕ
  | finite _ mantissa exponent =>
    let unit := 2 ^ (-exponent).toNat
    min ((mantissa * 2 ^ exponent.toNat + unit - 1) / unit) (2 ^ 64 - 1)
  | _ => 0

end Double

end Machine
