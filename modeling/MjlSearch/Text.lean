/-
Strings as sequences of characters, and their UTF-8 bytes.

A string is the list of its Unicode scalar values; `utf8` is the byte string it
is stored as and `byteLen` the length in bytes.

* `decodeChar_encodeChar` — the first character of an encoded string is read
  back exactly;
* `fromUtf8Lossy_utf8` — a string survives its encoding, so `utf8` is injective
  (`utf8_injective`);
* `parseU64_padded` — a number survives its decimal form, with any number of
  leading zeros.
-/
import Mathlib.Algebra.Order.Ring.Int
import Mathlib.Algebra.Order.Ring.Nat
import Mathlib.Data.List.Basic
import Mathlib.Data.Nat.Basic

namespace Text

/-- A string, as the sequence of its Unicode scalar values. -/
abbrev Str := List Char

instance instLawfulBEqStr : LawfulBEq Str := List.instLawfulBEq

/-- The bytes a string is stored as. -/
def utf8 (s : Str) : List UInt8 := s.flatMap String.utf8EncodeChar

/-- The length of a string in bytes. -/
def byteLen (s : Str) : ℕ := (utf8 s).length

@[simp] theorem utf8_nil : utf8 [] = [] := rfl

@[simp] theorem utf8_cons (c : Char) (s : Str) :
    utf8 (c :: s) = String.utf8EncodeChar c ++ utf8 s := List.flatMap_cons

theorem utf8_append (s t : Str) : utf8 (s ++ t) = utf8 s ++ utf8 t :=
  List.flatMap_append

/-- `to_ascii_lowercase`: only the letters A to Z change. -/
def asciiLower (s : Str) : Str := s.map Char.toLower

/-- Unicode white space. -/
def isWhitespace (c : Char) : Bool :=
  let n := c.toNat
  (9 ≤ n ∧ n ≤ 13) ∨ n = 0x20 ∨ n = 0x85 ∨ n = 0xA0 ∨ n = 0x1680 ∨ (0x2000 ≤ n ∧ n ≤ 0x200A) ∨
    n = 0x2028 ∨ n = 0x2029 ∨ n = 0x202F ∨ n = 0x205F ∨ n = 0x3000

/-- `str::trim`. -/
def trim (s : Str) : Str :=
  ((s.dropWhile isWhitespace).reverse.dropWhile isWhitespace).reverse

/-- The lines of a text, the first of them begun with `line`, in reverse. -/
def linesFrom : Str → Str → List Str
  | line, [] => if line = [] then [] else [line.reverse]
  | line, c :: s =>
    if c = '\n' then
      let line := match line with
        | '\r' :: line => line
        | line => line
      line.reverse :: linesFrom [] s
    else linesFrom (c :: line) s

/-- `str::lines`: a line ends with a newline, which a carriage return may stand
before. -/
def lines (s : Str) : List Str := linesFrom [] s

/-- `str::split_once`: what stands before and after the first separator. -/
def splitOnce (separator : Char) (s : Str) : Option (Str × Str) :=
  if separator ∈ s then
    some (s.takeWhile fun c => c != separator, (s.dropWhile fun c => c != separator).tail)
  else none

theorem splitOnce_append {separator : Char} {front rest : Str} (h : separator ∉ front) :
    splitOnce separator (front ++ separator :: rest) = some (front, rest) := by
  have hall : ∀ c ∈ front, (c != separator) = true := by
    intro c hc
    rw [bne_iff_ne]
    rintro rfl
    exact h hc
  rw [splitOnce, if_pos (by simp), List.takeWhile_append_of_pos hall,
    List.dropWhile_append_of_pos hall]
  simp

/-- `str::split_whitespace`. -/
def splitWhitespace (s : Str) : List Str := (s.splitOnP isWhitespace).filter fun word => word ≠ []

/-- `str::contains`, of a string. -/
def contains (s part : Str) : Bool := s.tails.any fun rest => part.isPrefixOf rest

/-! ### Reading UTF-8 -/

/-- How many bytes a character takes, by its first byte. -/
def charWidth (b : UInt8) : ℕ :=
  if b.toNat < 0x80 then 1 else if b.toNat < 0xE0 then 2
  else if b.toNat < 0xF0 then 3 else 4

/-- The scalar value the payload bits of an encoded character spell. -/
def scalarOf : List UInt8 → ℕ
  | [a] => a.toNat
  | [a, b] => (a.toNat - 0xC0) * 64 + (b.toNat - 0x80)
  | [a, b, c] => ((a.toNat - 0xE0) * 64 + (b.toNat - 0x80)) * 64 + (c.toNat - 0x80)
  | [a, b, c, d] =>
    (((a.toNat - 0xF0) * 64 + (b.toNat - 0x80)) * 64 + (c.toNat - 0x80)) * 64
      + (d.toNat - 0x80)
  | _ => 0

/-- Read one character off the front.  What the payload bits spell is accepted
only if its encoding is what was read: overlong forms, surrogates and stray
continuation bytes are refused. -/
def decodeChar : List UInt8 → Option (Char × List UInt8)
  | [] => none
  | b :: bs =>
    let head := (b :: bs).take (charWidth b)
    let c := Char.ofNat (scalarOf head)
    if String.utf8EncodeChar c = head then some (c, (b :: bs).drop (charWidth b)) else none

/-- Whether `b` may stand second after the first byte `a`. -/
def secondFits (a b : UInt8) : Bool :=
  if a.toNat = 0xE0 then 0xA0 ≤ b.toNat ∧ b.toNat < 0xC0
  else if a.toNat = 0xED then 0x80 ≤ b.toNat ∧ b.toNat < 0xA0
  else if a.toNat = 0xF0 then 0x90 ≤ b.toNat ∧ b.toNat < 0xC0
  else if a.toNat = 0xF4 then 0x80 ≤ b.toNat ∧ b.toNat < 0x90
  else 0xE1 ≤ a.toNat ∧ a.toNat < 0xF4 ∧ 0x80 ≤ b.toNat ∧ b.toNat < 0xC0

/-- How many bytes of an invalid sequence one replacement character stands
for: the part that could still have become a character, and at least one. -/
def invalidLen : List UInt8 → ℕ
  | a :: b :: rest =>
    if secondFits a b then
      match rest with
      | c :: _ => if 0xF0 ≤ a.toNat ∧ 0x80 ≤ c.toNat ∧ c.toNat < 0xC0 then 3 else 2
      | [] => 2
    else 1
  | _ => 1

/-- `String::from_utf8_lossy` on at most `fuel` characters. -/
def fromUtf8LossyUpTo : ℕ → List UInt8 → Str
  | 0, _ => []
  | _ + 1, [] => []
  | fuel + 1, bs =>
    match decodeChar bs with
    | some (c, rest) => c :: fromUtf8LossyUpTo fuel rest
    | none => '\uFFFD' :: fromUtf8LossyUpTo fuel (bs.drop (invalidLen bs))

/-- `String::from_utf8_lossy`: invalid sequences become U+FFFD. -/
def fromUtf8Lossy (bs : List UInt8) : Str := fromUtf8LossyUpTo bs.length bs

theorem scalarOf_one (a : UInt8) : scalarOf [a] = a.toNat := rfl

theorem scalarOf_two (a b : UInt8) :
    scalarOf [a, b] = (a.toNat - 0xC0) * 64 + (b.toNat - 0x80) := rfl

theorem scalarOf_three (a b c : UInt8) : scalarOf [a, b, c]
    = ((a.toNat - 0xE0) * 64 + (b.toNat - 0x80)) * 64 + (c.toNat - 0x80) := rfl

theorem scalarOf_four (a b c d : UInt8) : scalarOf [a, b, c, d]
    = (((a.toNat - 0xF0) * 64 + (b.toNat - 0x80)) * 64 + (c.toNat - 0x80)) * 64
      + (d.toNat - 0x80) := rfl

theorem encodeChar_ne_nil (c : Char) : String.utf8EncodeChar c ≠ [] :=
  String.utf8EncodeChar_ne_nil

/-- Characters above U+0001 have no byte below `0x02`. -/
theorem one_lt_of_mem_encodeChar {c : Char} (hc : 1 < c.toNat) {b : UInt8}
    (hb : b ∈ String.utf8EncodeChar c) : 1 < b := by
  have hv : c.toNat = c.val.toNat := rfl
  rw [hv] at hc
  simp only [String.utf8EncodeChar] at hb
  generalize c.val.toNat = v at hc hb
  rw [UInt8.lt_iff_toNat_lt]
  -- one case for each width
  split at hb
  · rw [List.mem_singleton] at hb
    subst hb
    simp only [UInt8.toNat_ofNat']
    show 1 < v % 2 ^ 8
    omega
  · split at hb
    · simp at hb
      rcases hb with rfl | rfl <;> simp <;> omega
    · split at hb
      · simp at hb
        rcases hb with rfl | rfl | rfl <;> simp <;> omega
      · simp at hb
        rcases hb with rfl | rfl | rfl | rfl <;> simp <;> omega

/-- A byte below `0x80` is a character of its own. -/
theorem toNat_of_mem_encodeChar {c : Char} {b : UInt8} (hb : b ∈ String.utf8EncodeChar c)
    (hlow : b.toNat < 128) : c.toNat = b.toNat := by
  have hv : c.toNat = c.val.toNat := rfl
  rw [hv]
  have hlt : c.val.toNat < 0x110000 := by
    rcases c.valid with h | ⟨_, h⟩ <;> omega
  simp only [String.utf8EncodeChar] at hb
  generalize c.val.toNat = v at hlt hb
  -- one case for each width
  split at hb
  · rw [List.mem_singleton] at hb
    subst hb
    simp only [UInt8.toNat_ofNat']
    show v = v % 2 ^ 8
    omega
  · split at hb
    · simp at hb
      rcases hb with rfl | rfl <;> simp at hlow <;> omega
    · split at hb
      · simp at hb
        rcases hb with rfl | rfl | rfl <;> simp at hlow <;> omega
      · simp at hb
        rcases hb with rfl | rfl | rfl | rfl <;> simp at hlow <;> omega

/-- The first byte tells the width, and the payload bits spell the character. -/
theorem encodeChar_spec (c : Char) :
    ∃ b bs, String.utf8EncodeChar c = b :: bs ∧ charWidth b = (b :: bs).length ∧
      scalarOf (b :: bs) = c.toNat := by
  have hc : c.val.toNat < 0x110000 := by
    have h := c.valid
    simp only [UInt32.isValidChar, Nat.isValidChar] at h
    omega
  have hv : c.toNat = c.val.toNat := rfl
  rw [hv]
  simp only [String.utf8EncodeChar]
  generalize c.val.toNat = v at hc
  by_cases h1 : v ≤ 0x7f
  · rw [if_pos h1]
    refine ⟨_, _, rfl, ?_, ?_⟩
    · rw [charWidth, UInt8.toNat_ofNat', if_pos (by omega)]
      rfl
    · rw [scalarOf_one, UInt8.toNat_ofNat']
      omega
  · rw [if_neg h1]
    by_cases h2 : v ≤ 0x7ff
    · rw [if_pos h2]
      refine ⟨_, _, rfl, ?_, ?_⟩
      · rw [charWidth, UInt8.toNat_ofNat', if_neg (by omega), if_pos (by omega)]
        rfl
      · rw [scalarOf_two]
        simp only [UInt8.toNat_ofNat']
        omega
    · rw [if_neg h2]
      by_cases h3 : v ≤ 0xffff
      · rw [if_pos h3]
        refine ⟨_, _, rfl, ?_, ?_⟩
        · rw [charWidth, UInt8.toNat_ofNat', if_neg (by omega), if_neg (by omega),
            if_pos (by omega)]
          rfl
        · rw [scalarOf_three]
          simp only [UInt8.toNat_ofNat']
          omega
      · rw [if_neg h3]
        refine ⟨_, _, rfl, ?_, ?_⟩
        · rw [charWidth, UInt8.toNat_ofNat', if_neg (by omega), if_neg (by omega),
            if_neg (by omega)]
          rfl
        · rw [scalarOf_four]
          simp only [UInt8.toNat_ofNat']
          omega

theorem decodeChar_encodeChar (c : Char) (rest : List UInt8) :
    decodeChar (String.utf8EncodeChar c ++ rest) = some (c, rest) := by
  obtain ⟨b, bs, hcode, hwidth, hscalar⟩ := encodeChar_spec c
  rw [hcode, List.cons_append, decodeChar]
  have htake : (b :: (bs ++ rest)).take (charWidth b) = b :: bs := by
    rw [hwidth, ← List.cons_append, List.take_left]
  have hdrop : (b :: (bs ++ rest)).drop (charWidth b) = rest := by
    rw [hwidth, ← List.cons_append, List.drop_left]
  simp only [htake, hdrop, hscalar, Char.ofNat_toNat, hcode, if_true]

theorem fromUtf8LossyUpTo_utf8 (s : Str) :
    ∀ fuel, s.length ≤ fuel → fromUtf8LossyUpTo fuel (utf8 s) = s := by
  induction s with
  | nil =>
    intro fuel _
    cases fuel <;> rfl
  | cons c s ih =>
    intro fuel hfuel
    obtain ⟨fuel, rfl⟩ : ∃ k, fuel = k + 1 := ⟨fuel - 1, by simp at hfuel; omega⟩
    have hne : String.utf8EncodeChar c ++ utf8 s ≠ [] := fun h =>
      encodeChar_ne_nil c (List.append_eq_nil_iff.mp h).1
    rw [utf8_cons, fromUtf8LossyUpTo, decodeChar_encodeChar]
    · simp only
      rw [ih fuel (by simpa using hfuel)]
    · exact hne

theorem length_le_utf8 (s : Str) : s.length ≤ (utf8 s).length := by
  induction s with
  | nil => exact Nat.le_refl _
  | cons c s ih =>
    rw [utf8_cons, List.length_append, List.length_cons]
    have := List.length_pos_of_ne_nil (encodeChar_ne_nil c)
    omega

/-- **A string survives its encoding.** -/
theorem fromUtf8Lossy_utf8 (s : Str) : fromUtf8Lossy (utf8 s) = s :=
  fromUtf8LossyUpTo_utf8 s _ (length_le_utf8 s)

/-- A text, when the bytes are one. -/
def fromUtf8 (bs : List UInt8) : Option Str :=
  let s := fromUtf8Lossy bs
  if utf8 s = bs then some s else none

theorem fromUtf8_utf8 (s : Str) : fromUtf8 (utf8 s) = some s := by
  simp only [fromUtf8, fromUtf8Lossy_utf8, if_true]

theorem fromUtf8_eq_some {bs : List UInt8} {s : Str} : fromUtf8 bs = some s ↔ bs = utf8 s := by
  constructor
  · intro h
    simp only [fromUtf8] at h
    split at h
    · rename_i hvalid
      rw [← Option.some.inj h]
      exact hvalid.symm
    · cases h
  · rintro rfl
    exact fromUtf8_utf8 s

theorem utf8_injective : Function.Injective utf8 :=
  Function.LeftInverse.injective fromUtf8Lossy_utf8

/-! ### Numbers -/

/-- The value of a hexadecimal digit. -/
def hexValue (c : Char) : Option ℕ :=
  if '0' ≤ c ∧ c ≤ '9' then some (c.toNat - 48)
  else if 'a' ≤ c ∧ c ≤ 'f' then some (c.toNat - 87)
  else if 'A' ≤ c ∧ c ≤ 'F' then some (c.toNat - 55)
  else none

/-- A number in decimal, padded with zeros to at least `width` digits. -/
def padded (width n : ℕ) : Str :=
  List.replicate (width - (Nat.toDigits 10 n).length) '0' ++ Nat.toDigits 10 n

/-- `str::parse::<u64>`: an optional plus sign, then at least one decimal digit,
and a value that fits. -/
def parseU64 (s : Str) : Option ℕ :=
  let digits := (['+'].isPrefixOf? s).getD s
  if digits ≠ [] ∧ digits.all Char.isDigit then
    let n := Nat.ofDigitChars 10 digits 0
    if n < 2 ^ 64 then some n else none
  else none

theorem padded_ne_nil (width n : ℕ) : padded width n ≠ [] := by
  simp [padded, Nat.toDigits_ne_nil]

theorem isDigit_of_mem_padded {width n : ℕ} {c : Char} (h : c ∈ padded width n) :
    c.isDigit := by
  rw [padded, List.mem_append] at h
  rcases h with h | h
  · rw [List.eq_of_mem_replicate h]
    rfl
  · exact Nat.isDigit_of_mem_toDigits (by decide) (by decide) h

theorem ofDigitChars_padded (width n : ℕ) :
    Nat.ofDigitChars 10 (padded width n) 0 = n := by
  rw [padded, Nat.ofDigitChars_append, Nat.ofDigitChars_replicate_zero,
    Nat.mul_zero, Nat.ofDigitChars_ten_toDigits]

/-- **A number survives its padded decimal form.** -/
theorem parseU64_padded {width n : ℕ} (h : n < 2 ^ 64) :
    parseU64 (padded width n) = some n := by
  have hplus : ['+'].isPrefixOf? (padded width n) = none := by
    cases hp : padded width n with
    | nil => rfl
    | cons c cs =>
      have hmem : c ∈ padded width n := by simp [hp]
      have hc : c.isDigit := isDigit_of_mem_padded hmem
      have hne : ('+' == c) = false := by
        rw [beq_eq_false_iff_ne]
        rintro rfl
        exact absurd hc (by decide)
      simp [List.isPrefixOf?, hne]
  have hall : (padded width n).all Char.isDigit :=
    List.all_eq_true.mpr fun c hc => isDigit_of_mem_padded hc
  simp only [parseU64, hplus, Option.getD_none]
  rw [if_pos ⟨padded_ne_nil width n, hall⟩, ofDigitChars_padded, if_pos h]

end Text
