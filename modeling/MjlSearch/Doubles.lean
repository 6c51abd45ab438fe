/-
Arithmetic on doubles, as far as figures made of whole numbers need it.

Every operation rounds the exact result to the closest double (`Double.ofFraction`).  What is
used of this is that rounding makes nothing zero that is not: the exponent that
`ofFraction` chooses is no greater than the fraction's own.

* `log2_spec` — `log2` does not exceed the logarithm;
* `ofFraction_pos` — a fraction that is not too small is not rounded to zero;
* `rate_isZero_iff` — a count divided by a small number is zero exactly when it is.
-/
import MjlSearch.Machine

namespace Machine

namespace Double

/-- A zero, of either sign. -/
def isZero : Double → Bool
  | finite _ mantissa _ => mantissa == 0
  | _ => false

/-- `float(z)`, which raises when the number is too large. -/
def ofInt (z : ℤ) : Option Double :=
  match ofFraction (z < 0) z.natAbs 1 with
  | infinite _ => none
  | x => some x

/-- `int(x)`: what stands before the point, which there is not of infinities and of what is
not a number. -/
def toInt : Double → Option ℤ
  | finite negative mantissa exponent =>
    let whole : ℤ := (mantissa * 2 ^ exponent.toNat / 2 ^ (-exponent).toNat : ℕ)
    some (if negative then -whole else whole)
  | _ => none

/-- `x / n` for a positive whole number that is a double. -/
def divNat : Double → ℕ → Double
  | finite negative mantissa exponent, n =>
    ofFraction negative (mantissa * 2 ^ exponent.toNat) (n * 2 ^ (-exponent).toNat)
  | x, _ => x

/-- `x * n` for a positive whole number that is a double. -/
def mulNat : Double → ℕ → Double
  | finite negative mantissa exponent, n =>
    ofFraction negative (mantissa * n * 2 ^ exponent.toNat) (2 ^ (-exponent).toNat)
  | x, _ => x

/-- `x - y`. -/
def sub : Double → Double → Double
  | nan, _ => nan
  | _, nan => nan
  | infinite a, infinite b => if a = b then nan else infinite a
  | infinite a, _ => infinite a
  | _, infinite b => infinite (!b)
  | finite a m e, finite b n f =>
    let scale := min e f
    let x : ℤ := m * 2 ^ (e - scale).toNat
    let y : ℤ := n * 2 ^ (f - scale).toNat
    let z := (if a then -x else x) - (if b then -y else y)
    -- a difference of two zeros keeps a minus that both terms have
    if z = 0 then finite (a && !b && m == 0) 0 0
    else ofFraction (z < 0) (z.natAbs * 2 ^ scale.toNat) (2 ^ (-scale).toNat)

/-- `max(x, 0.0)` -/
def maxZero : Double → Double
  | finite true mantissa exponent =>
    if mantissa = 0 then finite true mantissa exponent else finite false 0 0
  | infinite true => finite false 0 0
  | x => x

/-- `x > n` for a whole number. -/
def exceeds : Double → ℕ → Bool
  | finite negative mantissa exponent, n =>
    !negative && n * 2 ^ (-exponent).toNat < mantissa * 2 ^ exponent.toNat
  | infinite negative, _ => !negative
  | nan, _ => false

/-! ### The exponent of a fraction -/

/-- A power of two is no greater than a fraction. -/
def PowLe (k : ℤ) (num den : ℕ) : Prop := den * 2 ^ k.toNat ≤ num * 2 ^ (-k).toNat

theorem PowLe.mono {k e : ℤ} {num den : ℕ} (h : PowLe k num den) (hle : e ≤ k) :
    PowLe e num den := by
  have hup : 2 ^ e.toNat ≤ 2 ^ k.toNat := Nat.pow_le_pow_right (by decide) (by omega)
  have hdown : 2 ^ (-k).toNat ≤ 2 ^ (-e).toNat := Nat.pow_le_pow_right (by decide) (by omega)
  calc den * 2 ^ e.toNat ≤ den * 2 ^ k.toNat := Nat.mul_le_mul_left den hup
    _ ≤ num * 2 ^ (-k).toNat := h
    _ ≤ num * 2 ^ (-e).toNat := Nat.mul_le_mul_left num hdown

/-- **The logarithm is not too large.** -/
theorem log2_spec {num den : ℕ} (hnum : 0 < num) : PowLe (log2 num den) num den := by
  rw [log2]
  split
  · assumption
  · -- the digits of numerator and denominator differ in number by more than that
    have hlow := Nat.log2_self_le (Nat.ne_of_gt hnum)
    have hhigh : den ≤ 2 ^ (den.log2 + 1) := Nat.le_of_lt Nat.lt_log2_self
    generalize num.log2 = a at *
    generalize den.log2 = b at *
    rw [PowLe]
    rcases Nat.lt_or_ge b a with hlt | hge
    · have hk : ((a : ℤ) - b - 1).toNat = a - (b + 1) := by omega
      have hk' : (-((a : ℤ) - b - 1)).toNat = 0 := by omega
      rw [hk, hk', Nat.pow_zero, Nat.mul_one]
      calc den * 2 ^ (a - (b + 1)) ≤ 2 ^ (b + 1) * 2 ^ (a - (b + 1)) :=
            Nat.mul_le_mul_right _ hhigh
        _ = 2 ^ a := by rw [← Nat.pow_add, Nat.add_sub_cancel' hlt]
        _ ≤ num := hlow
    · have hk : ((a : ℤ) - b - 1).toNat = 0 := by omega
      have hk' : (-((a : ℤ) - b - 1)).toNat = b + 1 - a := by omega
      rw [hk, hk', Nat.pow_zero, Nat.mul_one]
      calc den ≤ 2 ^ (b + 1) := hhigh
        _ = 2 ^ a * 2 ^ (b + 1 - a) := by rw [← Nat.pow_add, Nat.add_sub_cancel' (by omega)]
        _ ≤ num * 2 ^ (b + 1 - a) := Nat.mul_le_mul_right _ hlow

/-- A whole number is at least one. -/
theorem log2_nonneg {num : ℕ} (hnum : 0 < num) : 0 ≤ log2 num 1 := by
  rw [log2]
  have hone : Nat.log2 1 = 0 := by decide
  rw [if_pos]
  · omega
  · have hlow := Nat.log2_self_le (Nat.ne_of_gt hnum)
    have hk : ((num.log2 : ℤ) - (Nat.log2 1 : ℕ)).toNat = num.log2 := by omega
    have hk' : (-((num.log2 : ℤ) - (Nat.log2 1 : ℕ))).toNat = 0 := by omega
    rw [hk, hk', Nat.pow_zero, Nat.mul_one, Nat.one_mul]
    exact hlow

theorem roundHalfEven_pos {num den : ℕ} (hden : 0 < den) (h : den ≤ num) :
    0 < roundHalfEven num den := by
  have hbelow : 0 < num / den := Nat.div_pos h hden
  rw [roundHalfEven]
  split
  · exact hbelow
  · split
    · exact hbelow
    · exact Nat.succ_pos _

/-! ### What is rounded to zero -/

theorem ofFraction_zero (negative : Bool) (den : ℕ) :
    ofFraction negative 0 den = finite negative 0 0 := rfl

/-- A fraction of at least the least double is an infinity, or has a mantissa and the exponent
that was chosen for it. -/
theorem ofFraction_pos (negative : Bool) {num den : ℕ} (hnum : 0 < num) (hden : 0 < den)
    (h : PowLe (-1074) num den) :
    ofFraction negative num den = infinite negative ∨
      ∃ mantissa, 0 < mantissa ∧
        ofFraction negative num den =
          finite negative mantissa (max (log2 num den - 52) (-1074)) := by
  have hexponent : PowLe (max (log2 num den - 52) (-1074)) num den := by
    by_cases hsmall : log2 num den - 52 ≤ -1074
    · rw [Int.max_eq_right hsmall]
      exact h
    · rw [Int.max_eq_left (by omega)]
      exact (log2_spec hnum).mono (by omega)
  rw [ofFraction, if_neg (Nat.ne_of_gt hnum)]
  dsimp only
  split
  · exact .inl rfl
  · exact .inr ⟨_, roundHalfEven_pos (Nat.mul_pos hden (Nat.pow_pos (by decide))) hexponent,
      rfl⟩

/-- A number that is not zero, as a double. -/
theorem ofInt_pos {z : ℤ} {x : Double} (h : ofInt z = some x) (hz : z ≠ 0) :
    ∃ mantissa exponent, x = finite (z < 0) mantissa exponent ∧ 0 < mantissa ∧
      -52 ≤ exponent := by
  have hnum : 0 < z.natAbs := Int.natAbs_pos.mpr hz
  have hwhole : PowLe 0 z.natAbs 1 := by
    show 1 * 2 ^ 0 ≤ z.natAbs * 2 ^ 0
    omega
  rw [ofInt] at h
  rcases ofFraction_pos (z < 0) hnum Nat.one_pos (hwhole.mono (by decide)) with hinf | hfin
  · rw [hinf] at h
    cases h
  · obtain ⟨mantissa, hpos, hfin⟩ := hfin
    rw [hfin] at h
    cases h
    have hlog := log2_nonneg hnum
    exact ⟨mantissa, _, rfl, hpos, by omega⟩

/-- **A count divided by a small number is zero exactly when the count is.** -/
theorem rate_isZero_iff {z : ℤ} {x : Double} {n : ℕ} (h : ofInt z = some x) (hn : 0 < n)
    (hsmall : n ≤ 2 ^ 52) : (x.divNat n).isZero = true ↔ z = 0 := by
  constructor
  · intro hzero
    by_contra hz
    obtain ⟨mantissa, exponent, rfl, hpos, hexponent⟩ := ofInt_pos h hz
    have hnum : 0 < mantissa * 2 ^ exponent.toNat :=
      Nat.mul_pos hpos (Nat.pow_pos (by decide))
    have hle : PowLe (-104) (mantissa * 2 ^ exponent.toNat) (n * 2 ^ (-exponent).toNat) := by
      have hdown : 2 ^ (-exponent).toNat ≤ 2 ^ 52 :=
        Nat.pow_le_pow_right (by decide) (by omega)
      show n * 2 ^ (-exponent).toNat * 2 ^ 0 ≤ mantissa * 2 ^ exponent.toNat * 2 ^ 104
      calc n * 2 ^ (-exponent).toNat * 2 ^ 0
          = n * 2 ^ (-exponent).toNat := Nat.mul_one _
        _ ≤ 2 ^ 52 * 2 ^ 52 := Nat.mul_le_mul hsmall hdown
        _ = 1 * 2 ^ 104 := by decide
        _ ≤ mantissa * 2 ^ exponent.toNat * 2 ^ 104 := Nat.mul_le_mul_right _ hnum
    rw [divNat] at hzero
    rcases ofFraction_pos (z < 0) hnum (Nat.mul_pos hn (Nat.pow_pos (by decide)))
      (hle.mono (by decide)) with hinf | ⟨mantissa', hpos', hfin⟩
    · rw [hinf] at hzero
      cases hzero
    · rw [hfin] at hzero
      exact Nat.ne_of_gt hpos' (eq_of_beq hzero)
  · rintro rfl
    cases h
    rfl

end Double

end Machine
