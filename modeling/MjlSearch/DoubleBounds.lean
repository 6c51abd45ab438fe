/-
How large the result of an operation on doubles is.

`Below k` says that a double is a number, and of a magnitude of at most `2 ^ k`.  Rounding goes
at most to the next power of two, so a few operations on numbers of no great size give numbers.

* `log2_lt` — `log2` is not far below the logarithm;
* `ofFraction_below` — a fraction is rounded to a number below the next power of two;
* `ofInt_below`, `divNat_below`, `mulNat_below`, `toInt_below` — the operations.
-/
import Mathlib.Tactic.Ring
import MjlSearch.Doubles

namespace Machine

namespace Double

/-- A number of a magnitude of at most `2 ^ k`. -/
def Below (k : ℕ) : Double → Prop
  | finite _ mantissa exponent =>
    mantissa * 2 ^ exponent.toNat ≤ 2 ^ k * 2 ^ (-exponent).toNat
  | _ => False

/-- **The logarithm is not too small.** -/
theorem log2_lt {num den : ℕ} (hden : 0 < den) :
    num * 2 ^ (-(log2 num den + 1)).toNat < den * 2 ^ (log2 num den + 1).toNat := by
  have hhigh : num < 2 ^ (num.log2 + 1) := Nat.lt_log2_self
  have hlow := Nat.log2_self_le (Nat.ne_of_gt hden)
  rw [log2]
  generalize num.log2 = a at *
  generalize den.log2 = b at *
  split
  · rcases Nat.lt_or_ge a b with hlt | hge
    · have hk : ((a : ℤ) - b + 1).toNat = 0 := by omega
      have hk' : (-((a : ℤ) - b + 1)).toNat = b - (a + 1) := by omega
      rw [hk, hk', Nat.pow_zero, Nat.mul_one]
      calc num * 2 ^ (b - (a + 1)) < 2 ^ (a + 1) * 2 ^ (b - (a + 1)) :=
            Nat.mul_lt_mul_of_pos_right hhigh (Nat.pow_pos (by decide))
        _ = 2 ^ b := by rw [← Nat.pow_add, Nat.add_sub_cancel' hlt]
        _ ≤ den := hlow
    · have hk : ((a : ℤ) - b + 1).toNat = a + 1 - b := by omega
      have hk' : (-((a : ℤ) - b + 1)).toNat = 0 := by omega
      rw [hk, hk', Nat.pow_zero, Nat.mul_one]
      calc num < 2 ^ (a + 1) := hhigh
        _ = 2 ^ b * 2 ^ (a + 1 - b) := by rw [← Nat.pow_add, Nat.add_sub_cancel' (by omega)]
        _ ≤ den * 2 ^ (a + 1 - b) := Nat.mul_le_mul_right _ hlow
  · rename_i hnot
    have hk : (a : ℤ) - b - 1 + 1 = (a : ℤ) - b := by omega
    rw [hk]
    exact Nat.not_le.mp hnot

theorem roundHalfEven_le (num den : ℕ) : roundHalfEven num den ≤ num / den + 1 := by
  rw [roundHalfEven]
  split
  · exact Nat.le_succ _
  · split
    · exact Nat.le_succ _
    · exact Nat.le_refl _

/-- A mantissa at most one above what it rounds. -/
theorem roundHalfEven_mul_le (num den : ℕ) : roundHalfEven num den * den ≤ num + den := by
  calc roundHalfEven num den * den ≤ (num / den + 1) * den :=
        Nat.mul_le_mul_right _ (roundHalfEven_le num den)
    _ = num / den * den + den := Nat.succ_mul _ _
    _ ≤ num + den := Nat.add_le_add_right (Nat.div_mul_le_self num den) den

section

variable {num den k : ℕ} {e : ℤ}

/-- The fraction that is rounded has no more digits than a double has. -/
theorem digits_le (hden : 0 < den) (hneg : e < 0) (he : log2 num den ≤ e + 52) :
    num * 2 ^ (-e).toNat ≤ den * 2 ^ 53 := by
  have hlog : num * 2 ^ (-(log2 num den + 1)).toNat < den * 2 ^ (log2 num den + 1).toNat :=
    log2_lt hden
  generalize log2 num den = l at *
  refine Nat.le_of_mul_le_mul_right ?_ (Nat.pow_pos (n := (-(l + 1)).toNat) (a := 2) (by decide))
  calc num * 2 ^ (-e).toNat * 2 ^ (-(l + 1)).toNat
      = num * 2 ^ (-(l + 1)).toNat * 2 ^ (-e).toNat := Nat.mul_right_comm _ _ _
    _ ≤ den * 2 ^ (l + 1).toNat * 2 ^ (-e).toNat := Nat.mul_le_mul_right _ (Nat.le_of_lt hlog)
    _ = den * 2 ^ ((l + 1).toNat + (-e).toNat) := by rw [Nat.mul_assoc, ← Nat.pow_add]
    _ ≤ den * 2 ^ (53 + (-(l + 1)).toNat) :=
        Nat.mul_le_mul_left _ (Nat.pow_le_pow_right (by decide) (by omega))
    _ = den * 2 ^ 53 * 2 ^ (-(l + 1)).toNat := by rw [Nat.mul_assoc, ← Nat.pow_add]

/-- The mantissa of an exponent below zero. -/
theorem fine_mantissa (hden : 0 < den) (h : num ≤ 2 ^ k * den) (hneg : e < 0)
    (he : log2 num den ≤ e + 52) :
    roundHalfEven (num * 2 ^ (-e).toNat) den ≤ 2 ^ 53 + 1 ∧
      roundHalfEven (num * 2 ^ (-e).toNat) den ≤ 2 ^ (k + 1) * 2 ^ (-e).toNat := by
  have hround := roundHalfEven_mul_le (num * 2 ^ (-e).toNat) den
  constructor
  · refine Nat.le_of_mul_le_mul_right (le_trans hround ?_) hden
    calc num * 2 ^ (-e).toNat + den ≤ den * 2 ^ 53 + den :=
          Nat.add_le_add_right (digits_le hden hneg he) den
      _ = (2 ^ 53 + 1) * den := by rw [Nat.mul_comm den, Nat.succ_mul]
  · have hone : 1 ≤ 2 ^ k * 2 ^ (-e).toNat :=
      Nat.mul_pos (Nat.pow_pos (by decide)) (Nat.pow_pos (by decide))
    refine Nat.le_of_mul_le_mul_right (le_trans hround ?_) hden
    calc num * 2 ^ (-e).toNat + den
        ≤ 2 ^ k * den * 2 ^ (-e).toNat + 2 ^ k * 2 ^ (-e).toNat * den :=
          Nat.add_le_add (Nat.mul_le_mul_right _ h) (Nat.le_mul_of_pos_left den hone)
      _ = 2 ^ (k + 1) * 2 ^ (-e).toNat * den := by rw [Nat.pow_succ]; ring

/-- The mantissa of an exponent from zero on. -/
theorem coarse_mantissa (hnum : 0 < num) (hden : 0 < den) (h : num ≤ 2 ^ k * den) (hpos : 0 ≤ e)
    (he : e ≤ log2 num den) :
    roundHalfEven num (den * 2 ^ e.toNat) * 2 ^ e.toNat ≤ 2 ^ (k + 1) := by
  have hround := roundHalfEven_mul_le num (den * 2 ^ e.toNat)
  have hdown : (-e).toNat = 0 := by omega
  have hle : den * 2 ^ e.toNat ≤ num := by
    have hlog : PowLe (log2 num den) num den := log2_spec hnum
    have hpow := hlog.mono he
    rwa [PowLe, hdown, Nat.pow_zero, Nat.mul_one] at hpow
  generalize roundHalfEven num (den * 2 ^ e.toNat) = m at hround ⊢
  refine Nat.le_of_mul_le_mul_right ?_ hden
  calc m * 2 ^ e.toNat * den = m * (den * 2 ^ e.toNat) := by ring
    _ ≤ num + den * 2 ^ e.toNat := hround
    _ ≤ 2 ^ k * den + 2 ^ k * den := Nat.add_le_add h (Nat.le_trans hle h)
    _ = 2 ^ (k + 1) * den := by rw [Nat.pow_succ]; ring

/-- **What is below a power of two is rounded to a number below the next.** -/
theorem ofFraction_below (negative : Bool) (hden : 0 < den) (h : num ≤ 2 ^ k * den)
    (hk : k < 1023) : Below (k + 1) (ofFraction negative num den) := by
  by_cases hzero : num = 0
  · subst hzero
    show 0 * 2 ^ 0 ≤ _
    omega
  have hnum : 0 < num := Nat.pos_of_ne_zero hzero
  have hpow : 2 ^ (k + 1) < 2 ^ 1024 := Nat.pow_lt_pow_right Nat.one_lt_two (by omega)
  have hdigit : 2 ^ 54 ≤ 2 ^ 1024 := Nat.pow_le_pow_right (by decide) (by decide)
  rw [ofFraction, if_neg hzero]
  dsimp only
  generalize 2 ^ 1024 = top at hpow hdigit ⊢
  generalize he : max (log2 num den - 52) (-1074) = e
  rcases lt_or_ge e 0 with hneg | hpos
  · obtain ⟨hdigits, hbound⟩ := fine_mantissa hden h hneg (by omega)
    have hup : e.toNat = 0 := by omega
    rw [hup, Nat.pow_zero, Nat.mul_one, Nat.mul_one, if_neg]
    · show _ * 2 ^ e.toNat ≤ _
      rw [hup, Nat.pow_zero, Nat.mul_one]
      exact hbound
    · have hnext : 2 ^ 53 + 1 < 2 ^ 54 := by decide
      exact Nat.not_le.mpr (Nat.lt_of_le_of_lt hdigits (Nat.lt_of_lt_of_le hnext hdigit))
  · have hbound := coarse_mantissa hnum hden h hpos (by omega)
    have hdown : (-e).toNat = 0 := by omega
    rw [hdown, Nat.pow_zero, Nat.mul_one,
      if_neg (Nat.not_le.mpr (Nat.lt_of_le_of_lt hbound hpow))]
    show _ ≤ 2 ^ (k + 1) * 2 ^ (-e).toNat
    rw [hdown, Nat.pow_zero, Nat.mul_one]
    exact hbound

end

/-- A whole number of no great size is a double. -/
theorem ofInt_below {z : ℤ} {k : ℕ} (h : z.natAbs ≤ 2 ^ k) (hk : k < 1023) :
    ∃ x, ofInt z = some x ∧ Below (k + 1) x := by
  have hbelow : Below (k + 1) (ofFraction (z < 0) z.natAbs 1) :=
    ofFraction_below _ Nat.one_pos (by rwa [Nat.mul_one]) hk
  rw [ofInt]
  split
  · rename_i hinf
    rw [hinf] at hbelow
    exact hbelow.elim
  · exact ⟨_, rfl, hbelow⟩

variable {x : Double} {k n : ℕ}

theorem divNat_below (h : Below k x) (hn : 0 < n) (hk : k < 1023) :
    Below (k + 1) (x.divNat n) := by
  cases x with
  | nan => exact h.elim
  | infinite negative => exact h.elim
  | finite negative mantissa exponent =>
    have hpos : 0 < 2 ^ (-exponent).toNat := Nat.pow_pos (by decide)
    refine ofFraction_below negative (Nat.mul_pos hn hpos) (Nat.le_trans h ?_) hk
    exact Nat.mul_le_mul_left _ (Nat.le_mul_of_pos_left _ hn)

theorem mulNat_below {j : ℕ} (h : Below k x) (hn : n ≤ 2 ^ j) (hk : k + j < 1023) :
    Below (k + j + 1) (x.mulNat n) := by
  cases x with
  | nan => exact h.elim
  | infinite negative => exact h.elim
  | finite negative mantissa exponent =>
    refine ofFraction_below negative (Nat.pow_pos (by decide)) ?_ hk
    calc mantissa * n * 2 ^ exponent.toNat = mantissa * 2 ^ exponent.toNat * n :=
          Nat.mul_right_comm _ _ _
      _ ≤ 2 ^ k * 2 ^ (-exponent).toNat * 2 ^ j := Nat.mul_le_mul h hn
      _ = 2 ^ (k + j) * 2 ^ (-exponent).toNat := by rw [Nat.pow_add, Nat.mul_right_comm]

theorem toInt_below (h : Below k x) : ∃ z, x.toInt = some z := by
  cases x with
  | nan => exact h.elim
  | infinite negative => exact h.elim
  | finite negative mantissa exponent => exact ⟨_, rfl⟩

end Double

end Machine
