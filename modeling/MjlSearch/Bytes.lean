/-
Byte strings: fixed-width integers, and the order they are stored in.

* `fromLeBytes_toLeBytes`, `fromBeBytes_toBeBytes` — a number below `256 ^ k`
  survives its `k` byte encoding in either byte order;
* `toBeBytes_lt_iff` — big-endian encodings of one width compare as byte
  strings exactly as the numbers do;
* `append_lt_append_iff` — byte strings with a common head compare by their
  tails, and `cons_lt_cons_iff_of_ne` decides at the first different byte.
-/
import Mathlib.Algebra.Order.Ring.Int
import Mathlib.Algebra.Order.Ring.Nat
import Mathlib.Data.List.Lex
import Mathlib.Data.Nat.Basic
import Mathlib.Order.Basic

/-- Bytes are ordered as the numbers they are. -/
instance instLinearOrderUInt8 : LinearOrder UInt8 where
  le_refl a := Nat.le_refl a.toNat
  le_trans a b c h h' := Nat.le_trans (m := b.toNat) h h'
  le_antisymm a b h h' := UInt8.toNat_inj.mp (Nat.le_antisymm h h')
  le_total a b := Nat.le_total a.toNat b.toNat
  lt_iff_le_not_ge a b := by
    rw [UInt8.lt_iff_toNat_lt, UInt8.le_iff_toNat_le, UInt8.le_iff_toNat_le]
    omega
  toDecidableLE := inferInstance

namespace Bytes

/-- The `k` low bytes of `n`, least significant first. -/
def toLeBytes : ℕ → ℕ → List UInt8
  | 0, _ => []
  | k + 1, n => UInt8.ofNat n :: toLeBytes k (n / 256)

/-- The number whose bytes, least significant first, are given. -/
def fromLeBytes : List UInt8 → ℕ
  | [] => 0
  | b :: bs => b.toNat + 256 * fromLeBytes bs

/-- The `k` low bytes of `n`, most significant first. -/
def toBeBytes (k n : ℕ) : List UInt8 := (toLeBytes k n).reverse

/-- The number whose bytes, most significant first, are given. -/
def fromBeBytes (bs : List UInt8) : ℕ := fromLeBytes bs.reverse

@[simp] theorem toLeBytes_length (k n : ℕ) : (toLeBytes k n).length = k := by
  induction k generalizing n with
  | zero => rfl
  | succ k ih => rw [toLeBytes, List.length_cons, ih]

@[simp] theorem toBeBytes_length (k n : ℕ) : (toBeBytes k n).length = k := by
  rw [toBeBytes, List.length_reverse, toLeBytes_length]

theorem fromLeBytes_toLeBytes {k n : ℕ} (h : n < 256 ^ k) :
    fromLeBytes (toLeBytes k n) = n := by
  induction k generalizing n with
  | zero =>
    rw [Nat.pow_zero, Nat.lt_one_iff] at h
    rw [h]
    rfl
  | succ k ih =>
    have hdiv : n / 256 < 256 ^ k := by
      rw [Nat.pow_succ] at h
      exact Nat.div_lt_of_lt_mul (by rwa [Nat.mul_comm] at h)
    rw [toLeBytes, fromLeBytes, ih hdiv, UInt8.toNat_ofNat']
    exact Nat.mod_add_div n 256

theorem fromBeBytes_toBeBytes {k n : ℕ} (h : n < 256 ^ k) :
    fromBeBytes (toBeBytes k n) = n := by
  rw [fromBeBytes, toBeBytes, List.reverse_reverse, fromLeBytes_toLeBytes h]

theorem toBeBytes_inj {k m n : ℕ} (hm : m < 256 ^ k) (hn : n < 256 ^ k) :
    toBeBytes k m = toBeBytes k n ↔ m = n := by
  constructor
  · intro h
    rw [← fromBeBytes_toBeBytes hm, h, fromBeBytes_toBeBytes hn]
  · intro h
    rw [h]

theorem toBeBytes_succ (k n : ℕ) :
    toBeBytes (k + 1) n = toBeBytes k (n / 256) ++ [UInt8.ofNat n] := by
  rw [toBeBytes, toLeBytes, List.reverse_cons]
  rfl

/-! ### Comparing byte strings -/

variable {α : Type*} [LinearOrder α]

theorem append_lt_append_iff (p : List α) {l l' : List α} :
    p ++ l < p ++ l' ↔ l < l' := by
  induction p with
  | nil => rfl
  | cons a p ih =>
    rw [List.cons_append, List.cons_append, List.cons_lt_cons_iff]
    simp [ih]

theorem cons_lt_cons_iff_of_ne {a b : α} (hab : a ≠ b) (l l' : List α) :
    a :: l < b :: l' ↔ a < b := by
  rw [List.cons_lt_cons_iff]
  simp [hab]

/-- Strings of one length compare by their heads first, then by what follows. -/
theorem append_lt_append_iff_of_length {p q : List α} (h : p.length = q.length)
    (l l' : List α) : p ++ l < q ++ l' ↔ p < q ∨ (p = q ∧ l < l') := by
  induction p generalizing q with
  | nil =>
    have hq : q = [] := List.length_eq_zero_iff.mp h.symm
    subst hq
    simp
  | cons a p ih =>
    cases q with
    | nil => simp at h
    | cons b q =>
      have hlen : p.length = q.length := by simpa using h
      rw [List.cons_append, List.cons_append, List.cons_lt_cons_iff,
        List.cons_lt_cons_iff, ih hlen, List.cons.injEq]
      tauto

/-- A smaller string is cut off by the larger one, or the two differ in a place
that nothing appended can change. -/
theorem lt_cases {a b : List α} (h : a < b) :
    (∃ c r, b = a ++ c :: r) ∨ ∀ x y, a ++ x < b ++ y := by
  induction a generalizing b with
  | nil =>
    obtain ⟨c, r, rfl⟩ := List.exists_cons_of_ne_nil (by
      rintro rfl
      exact absurd h (lt_irrefl _) : b ≠ [])
    exact Or.inl ⟨c, r, rfl⟩
  | cons p a ih =>
    cases b with
    | nil => exact absurd h (List.not_lt_nil _)
    | cons q b =>
      by_cases hpq : p = q
      · subst hpq
        rcases ih ((append_lt_append_iff [p]).mp h) with ⟨c, r, rfl⟩ | hall
        · exact Or.inl ⟨c, r, rfl⟩
        · exact Or.inr fun x y => (append_lt_append_iff [p]).mpr (hall x y)
      · exact Or.inr fun x y => (cons_lt_cons_iff_of_ne hpq _ _).mpr
          ((cons_lt_cons_iff_of_ne hpq _ _).mp h)

/-- **Big-endian order is numeric order.** -/
theorem toBeBytes_lt_iff {k m n : ℕ} (hm : m < 256 ^ k) (hn : n < 256 ^ k) :
    toBeBytes k m < toBeBytes k n ↔ m < n := by
  induction k generalizing m n with
  | zero =>
    rw [Nat.pow_zero, Nat.lt_one_iff] at hm hn
    subst hm
    subst hn
    simp [toBeBytes, toLeBytes]
  | succ k ih =>
    have hm' : m / 256 < 256 ^ k := by
      rw [Nat.pow_succ, Nat.mul_comm] at hm
      exact Nat.div_lt_of_lt_mul hm
    have hn' : n / 256 < 256 ^ k := by
      rw [Nat.pow_succ, Nat.mul_comm] at hn
      exact Nat.div_lt_of_lt_mul hn
    rw [toBeBytes_succ, toBeBytes_succ,
      append_lt_append_iff_of_length (by simp), ih hm' hn', toBeBytes_inj hm' hn']
    have hlast : [UInt8.ofNat m] < [UInt8.ofNat n] ↔ m % 256 < n % 256 := by
      rw [List.cons_lt_cons_iff]
      simp [UInt8.lt_iff_toNat_lt]
    rw [hlast]
    omega

end Bytes
