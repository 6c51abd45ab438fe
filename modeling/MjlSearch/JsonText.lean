/-
JSON texts: how values are written without spaces, and how any text is read.

A number is an integer when it has neither a fraction nor an exponent; one that has is kept as
the text it is.  The words that a reader knows beyond those of the format are a parameter.

* `readString_quoted`, `readNumber_intText` — strings and integers are read back;
* `readValue_write` — so is a value of whole numbers, whatever follows that ends a number;
* `loads_write` — **what was written is what is read**;
* `write_printable` — on one line: no control character stands in it.
-/
import Mathlib.Data.Nat.Digits.Defs
import MjlSearch.Text

open Text

namespace JsonText

/-- A value, the items of an object in their order. -/
inductive Value
  | null
  | bool (b : Bool)
  | int (z : ℤ)
  | real (token : Str)
  | str (s : Str)
  | list (values : List Value)
  | dict (items : List (Str × Value))

/-! ### Writing -/

/-- A whole number. -/
def intText : ℤ → Str
  | .ofNat n => Nat.toDigits 10 n
  | .negSucc n => '-' :: Nat.toDigits 10 (n + 1)

/-- A character within a string. -/
def escape (c : Char) : Str :=
  if c = '"' then ['\\', '"']
  else if c = '\\' then ['\\', '\\']
  else if c = '\x08' then ['\\', 'b']
  else if c = '\x0c' then ['\\', 'f']
  else if c = '\n' then ['\\', 'n']
  else if c = '\r' then ['\\', 'r']
  else if c = '\t' then ['\\', 't']
  else if c.toNat < 32 then
    ['\\', 'u', '0', '0', Nat.digitChar (c.toNat / 16), Nat.digitChar (c.toNat % 16)]
  else [c]

/-- A string, without the mark that opens it. -/
def quoted (s : Str) : Str := s.flatMap escape ++ ['"']

mutual

/-- A value, without spaces. -/
def write : Value → Str
  | .null => "null".toList
  | .bool true => "true".toList
  | .bool false => "false".toList
  | .int z => intText z
  | .real token => token
  | .str s => '"' :: quoted s
  | .list [] => ['[', ']']
  | .list (v :: vs) => '[' :: (write v ++ writeMore vs)
  | .dict [] => ['\x7b', '\x7d']
  | .dict ((key, v) :: items) => '\x7b' :: ('"' :: (quoted key ++ ':' :: write v) ++ writeItems items)

/-- What follows the first value of a list. -/
def writeMore : List Value → Str
  | [] => [']']
  | v :: vs => ',' :: (write v ++ writeMore vs)

/-- What follows the first item of an object. -/
def writeItems : List (Str × Value) → Str
  | [] => ['\x7d']
  | (key, v) :: items => ',' :: ('"' :: (quoted key ++ ':' :: write v) ++ writeItems items)

end

/-! ### Reading -/

def isSpace (c : Char) : Bool := c = ' ' ∨ c = '\t' ∨ c = '\n' ∨ c = '\r'

def skip (s : Str) : Str := s.dropWhile isSpace

/-- What follows a mark, if the mark comes next but for spaces. -/
def mark (c : Char) (s : Str) : Option Str :=
  match skip s with
  | d :: s => if d = c then some s else none
  | [] => none

/-- Four hexadecimal digits. -/
def readHex : Str → Option (ℕ × Str)
  | a :: b :: c :: d :: s => do
    let a ← hexValue a
    let b ← hexValue b
    let c ← hexValue c
    let d ← hexValue d
    pure (((a * 16 + b) * 16 + c) * 16 + d, s)
  | _ => none

/-- The character of one code unit, or of two that are a pair. -/
def readUnicode (s : Str) : Option (Char × Str) := do
  let (n, s) ← readHex s
  if 0xD800 ≤ n ∧ n < 0xDC00 then
    match s with
    | '\\' :: 'u' :: s => do
      let (m, s) ← readHex s
      if 0xDC00 ≤ m ∧ m < 0xE000 then
        pure (Char.ofNat (0x10000 + (n - 0xD800) * 0x400 + (m - 0xDC00)), s)
      else none
    | _ => none
  else if 0xDC00 ≤ n ∧ n < 0xE000 then none
  else pure (Char.ofNat n, s)

/-- The characters that stand for others behind a backslash. -/
def escapes : List (Char × Char) :=
  [('"', '"'), ('\\', '\\'), ('/', '/'), ('b', '\x08'), ('f', '\x0c'), ('n', '\n'), ('r', '\r'),
    ('t', '\t')]

/-- What follows a backslash. -/
def readEscape : Str → Option (Char × Str)
  | [] => none
  | c :: s => if c = 'u' then readUnicode s else (escapes.lookup c).map fun d => (d, s)

/-- A string, after the mark that opens it. -/
def readString : ℕ → Str → Option (Str × Str)
  | 0, _ | _, [] => none
  | fuel + 1, c :: s =>
    if c = '"' then some ([], s)
    else if c = '\\' then do
      let (d, s) ← readEscape s
      let (t, s) ← readString fuel s
      pure (d :: t, s)
    else if c.toNat < 32 then none
    else do
      let (t, s) ← readString fuel s
      pure (c :: t, s)

/-- The digits before the point: a nought stands alone. -/
def readWhole : Str → Option (Str × Str)
  | [] => none
  | c :: s =>
    if c = '0' then some (['0'], s)
    else if c.isDigit then some (c :: s.takeWhile Char.isDigit, s.dropWhile Char.isDigit)
    else none

/-- A point with digits behind it, or nothing. -/
def readFraction : Str → Str × Str
  | '.' :: d :: s =>
    if d.isDigit then ('.' :: d :: s.takeWhile Char.isDigit, s.dropWhile Char.isDigit)
    else ([], '.' :: d :: s)
  | s => ([], s)

/-- An exponent, or nothing. -/
def readExponent : Str → Str × Str
  | [] => ([], [])
  | e :: s =>
    let sign := s.take 1 |>.filter fun c => c = '+' ∨ c = '-'
    let digits := (s.drop sign.length).takeWhile Char.isDigit
    if (e = 'e' ∨ e = 'E') ∧ digits ≠ [] then
      (e :: (sign ++ digits), (s.drop sign.length).dropWhile Char.isDigit)
    else ([], e :: s)

/-- A number. -/
def readNumber (s : Str) : Option (Value × Str) := do
  let sign := s.take 1 |>.filter fun c => c = '-'
  let (whole, s) ← readWhole (s.drop sign.length)
  let (fraction, s) := readFraction s
  let (exponent, s) := readExponent s
  let magnitude : ℕ := Nat.ofDigitChars 10 whole 0
  if fraction = [] ∧ exponent = [] then
    pure (.int (if sign = [] then magnitude else -magnitude), s)
  else pure (.real (sign ++ whole ++ fraction ++ exponent), s)

/-- The first of some words that a text begins with. -/
def readWord (words : List (Str × Value)) (s : Str) : Option (Value × Str) :=
  (words.find? fun word => word.1.isPrefixOf s).map fun word => (word.2, s.drop word.1.length)

/-- The words of the format. -/
def words : List (Str × Value) :=
  [("null".toList, .null), ("true".toList, .bool true), ("false".toList, .bool false)]

/-- A value that begins with none of the marks. -/
def readScalar (extra : List (Str × Value)) (s : Str) : Option (Value × Str) :=
  readWord words s <|> readNumber s <|> readWord extra s

mutual

/-- A value that comes next. -/
def readValue (extra : List (Str × Value)) : ℕ → Str → Option (Value × Str)
  | 0, _ | _, [] => none
  | fuel + 1, c :: s =>
    if c = '"' then do
      let (t, s) ← readString fuel s
      pure (.str t, s)
    else if c = '[' then
      match mark ']' s with
      | some s => some (.list [], s)
      | none => do
        let (v, s) ← readValue extra fuel (skip s)
        let (vs, s) ← readMore extra fuel s
        pure (.list (v :: vs), s)
    else if c = '\x7b' then
      match mark '\x7d' s with
      | some s => some (.dict [], s)
      | none => do
        let (item, s) ← readItem extra fuel s
        let (items, s) ← readItems extra fuel s
        pure (.dict (item :: items), s)
    else readScalar extra (c :: s)

/-- What follows the first value of a list. -/
def readMore (extra : List (Str × Value)) : ℕ → Str → Option (List Value × Str)
  | 0, _ => none
  | fuel + 1, s =>
    match mark ']' s with
    | some s => some ([], s)
    | none => do
      let s ← mark ',' s
      let (v, s) ← readValue extra fuel (skip s)
      let (vs, s) ← readMore extra fuel s
      pure (v :: vs, s)

/-- An item of an object. -/
def readItem (extra : List (Str × Value)) : ℕ → Str → Option ((Str × Value) × Str)
  | 0, _ => none
  | fuel + 1, s => do
    let s ← mark '"' s
    let (key, s) ← readString fuel s
    let s ← mark ':' s
    let (v, s) ← readValue extra fuel (skip s)
    pure ((key, v), s)

/-- What follows the first item of an object. -/
def readItems (extra : List (Str × Value)) : ℕ → Str → Option (List (Str × Value) × Str)
  | 0, _ => none
  | fuel + 1, s =>
    match mark '\x7d' s with
    | some s => some ([], s)
    | none => do
      let s ← mark ',' s
      let (item, s) ← readItem extra fuel s
      let (items, s) ← readItems extra fuel s
      pure (item :: items, s)

end

/-- The value of a text, which is all of it but for spaces. -/
def loads (extra : List (Str × Value)) (s : Str) : Option Value := do
  let (v, s) ← readValue extra (s.length + 1) (skip s)
  if skip s = [] then pure v else none

/-! ### Marks and strings -/

theorem mark_cons {c : Char} (h : isSpace c = false) (s : Str) : mark c (c :: s) = some s := by
  rw [mark, skip, List.dropWhile_cons_of_neg (by simp [h])]
  exact if_pos rfl

theorem mark_other {c d : Char} (hspace : isSpace d = false) (h : d ≠ c) (s : Str) :
    mark c (d :: s) = none := by
  rw [mark, skip, List.dropWhile_cons_of_neg (by simp [hspace])]
  exact if_neg h

theorem skip_cons {c : Char} (h : isSpace c = false) (s : Str) : skip (c :: s) = c :: s := by
  rw [skip, List.dropWhile_cons_of_neg (by simp [h])]

theorem hexValue_digitChar {n : ℕ} (h : n < 16) : hexValue (Nat.digitChar n) = some n := by
  have hall : ∀ n < 16, hexValue (Nat.digitChar n) = some n := by decide
  exact hall n h

/-- A character below the space is read back from its number. -/
theorem readUnicode_small {n : ℕ} (h : n < 32) (s : Str) :
    readUnicode ('0' :: '0' :: Nat.digitChar (n / 16) :: Nat.digitChar (n % 16) :: s)
      = some (Char.ofNat n, s) := by
  have hvalue : (((0 * 16 + 0) * 16 + n / 16) * 16 + n % 16) = n := by omega
  have hhex : readHex ('0' :: '0' :: Nat.digitChar (n / 16) :: Nat.digitChar (n % 16) :: s)
      = some (n, s) := by
    rw [readHex, hexValue_digitChar (by omega), hexValue_digitChar (by omega),
      show hexValue '0' = some 0 from rfl]
    simp only [Option.bind_eq_bind, Option.bind_some, Option.pure_def, hvalue]
  rw [readUnicode, hhex]
  simp only [Option.bind_eq_bind, Option.bind_some]
  rw [if_neg (by omega), if_neg (by omega)]
  rfl

theorem readString_backslash {c d : Char} {s rest : Str} (fuel : ℕ)
    (h : readEscape (d :: s) = some (c, rest)) :
    readString (fuel + 1) ('\\' :: d :: s)
      = (readString fuel rest).map fun read => (c :: read.1, read.2) := by
  rw [readString, if_neg (by decide), if_pos rfl, h]
  simp only [Option.bind_eq_bind, Option.bind_some, Option.pure_def]
  cases readString fuel rest with
  | none => rfl
  | some read => rfl

/-- **A character is read back.** -/
theorem readString_escape (c : Char) (fuel : ℕ) (s : Str) :
    readString (fuel + 1) (escape c ++ s)
      = (readString fuel s).map fun read => (c :: read.1, read.2) := by
  unfold escape
  split_ifs with h₁ h₂ h₃ h₄ h₅ h₆ h₇ h₈
  · subst h₁
    exact readString_backslash fuel rfl
  · subst h₂
    exact readString_backslash fuel rfl
  · subst h₃
    exact readString_backslash fuel rfl
  · subst h₄
    exact readString_backslash fuel rfl
  · subst h₅
    exact readString_backslash fuel rfl
  · subst h₆
    exact readString_backslash fuel rfl
  · subst h₇
    exact readString_backslash fuel rfl
  · refine readString_backslash fuel ?_
    show readUnicode ('0' :: '0' :: Nat.digitChar (c.toNat / 16) ::
      Nat.digitChar (c.toNat % 16) :: s) = _
    rw [readUnicode_small h₈, Char.ofNat_toNat]
  · rw [List.singleton_append, readString, if_neg h₁, if_neg h₂, if_neg h₈]
    simp only [Option.bind_eq_bind, Option.pure_def]
    cases readString fuel s with
    | none => rfl
    | some read => rfl

/-- **A string is read back.** -/
theorem readString_quoted (s rest : Str) {fuel : ℕ} (h : s.length < fuel) :
    readString fuel (quoted s ++ rest) = some (s, rest) := by
  induction s generalizing fuel with
  | nil =>
    obtain ⟨fuel, rfl⟩ := Nat.exists_eq_succ_of_ne_zero (Nat.ne_of_gt h)
    rfl
  | cons c s ih =>
    obtain ⟨fuel, rfl⟩ := Nat.exists_eq_succ_of_ne_zero (Nat.ne_of_gt (Nat.zero_lt_of_lt h))
    have hsplit : quoted (c :: s) ++ rest = escape c ++ (quoted s ++ rest) := by
      simp [quoted]
    rw [hsplit, readString_escape, ih (Nat.lt_of_succ_lt_succ h)]
    rfl

theorem length_le_quoted (s : Str) : s.length < (quoted s).length := by
  induction s with
  | nil => exact Nat.zero_lt_one
  | cons c s ih =>
    have hsplit : quoted (c :: s) = escape c ++ quoted s := by simp [quoted]
    have hpos : 0 < (escape c).length := by
      unfold escape
      split_ifs <;> exact Nat.zero_lt_succ _
    rw [hsplit, List.length_append, List.length_cons]
    omega

/-! ### Numbers -/

/-- What follows does not go on with a number. -/
def EndsNumber (s : Str) : Prop :=
  ∀ c ∈ s.head?, c.isDigit = false ∧ c ≠ '.' ∧ c ≠ 'e' ∧ c ≠ 'E'

theorem isDigit_digitChar {n : ℕ} (h : n < 10) : (Nat.digitChar n).isDigit = true := by
  have hall : ∀ n < 10, (Nat.digitChar n).isDigit = true := by decide
  exact hall n h

/-- The digits of a number: only nought begins with a nought. -/
theorem toDigits_spec (n : ℕ) : ∃ c digits, Nat.toDigits 10 n = c :: digits ∧
    c.isDigit = true ∧ (∀ d ∈ digits, d.isDigit = true) ∧ (c = '0' → n = 0) := by
  induction n using Nat.strong_induction_on with
  | _ n ih =>
    rcases Nat.lt_or_ge n 10 with hlt | hge
    · refine ⟨Nat.digitChar n, [], Nat.toDigits_of_lt_base hlt, ?_, ?_, ?_⟩
      · exact isDigit_digitChar hlt
      · intro d hd
        exact absurd hd List.not_mem_nil
      · have hall : ∀ n < 10, Nat.digitChar n = '0' → n = 0 := by decide
        exact hall n hlt
    · obtain ⟨c, digits, heq, hc, hdigits, hzero⟩ := ih (n / 10) (by omega)
      refine ⟨c, digits ++ [Nat.digitChar (n % 10)], ?_, hc, ?_, ?_⟩
      · rw [Nat.toDigits_of_base_le (by decide) hge, heq, List.cons_append]
      · intro d hd
        rcases List.mem_append.mp hd with hd | hd
        · exact hdigits d hd
        · rw [List.mem_singleton.mp hd]
          exact isDigit_digitChar (Nat.mod_lt n (by decide))
      · intro hc
        have := hzero hc
        omega

theorem takeWhile_ends {rest : Str} (h : EndsNumber rest) : rest.takeWhile Char.isDigit = [] ∧
    rest.dropWhile Char.isDigit = rest := by
  cases rest with
  | nil => exact ⟨rfl, rfl⟩
  | cons c rest =>
    have hc := (h c rfl).1
    exact ⟨List.takeWhile_cons_of_neg (by simp [hc]), List.dropWhile_cons_of_neg (by simp [hc])⟩

theorem readWhole_toDigits (n : ℕ) {rest : Str} (h : EndsNumber rest) :
    readWhole (Nat.toDigits 10 n ++ rest) = some (Nat.toDigits 10 n, rest) := by
  obtain ⟨c, digits, heq, hc, hdigits, hzero⟩ := toDigits_spec n
  obtain ⟨htake, hdrop⟩ := takeWhile_ends h
  rw [heq, List.cons_append, readWhole]
  by_cases hc0 : c = '0'
  · have hn : n = 0 := hzero hc0
    rw [hn, Nat.toDigits_zero, List.cons.injEq] at heq
    rw [if_pos hc0, ← heq.2, hc0]
    rfl
  · rw [if_neg hc0, if_pos hc, List.takeWhile_append_of_pos hdigits,
      List.dropWhile_append_of_pos hdigits, htake, hdrop, List.append_nil]

theorem readFraction_ends {rest : Str} (h : EndsNumber rest) : readFraction rest = ([], rest) := by
  unfold readFraction
  split
  · exact absurd rfl (h '.' rfl).2.1
  · rfl

theorem readExponent_ends {rest : Str} (h : EndsNumber rest) : readExponent rest = ([], rest) := by
  cases rest with
  | nil => rfl
  | cons c rest =>
    have hc := h c rfl
    rw [readExponent]
    exact if_neg fun hand => hand.1.elim hc.2.2.1 hc.2.2.2

/-- **A whole number is read back.** -/
theorem readNumber_intText (z : ℤ) {rest : Str} (h : EndsNumber rest) :
    readNumber (intText z ++ rest) = some (.int z, rest) := by
  have hread : ∀ n : ℕ, ∀ sign : Str, ((readWhole (Nat.toDigits 10 n ++ rest)).bind fun read =>
      let (fraction, s) := readFraction read.2
      let (exponent, s) := readExponent s
      let magnitude : ℕ := Nat.ofDigitChars 10 read.1 0
      if fraction = [] ∧ exponent = [] then
        some (Value.int (if sign = [] then magnitude else -magnitude), s)
      else some (.real (sign ++ read.1 ++ fraction ++ exponent), s))
      = some (.int (if sign = [] then n else -n), rest) := by
    intro n sign
    rw [readWhole_toDigits n h, Option.bind_some, readFraction_ends h]
    dsimp only
    rw [readExponent_ends h]
    dsimp only
    rw [if_pos ⟨rfl, rfl⟩, Nat.ofDigitChars_ten_toDigits]
  cases z with
  | ofNat n =>
    obtain ⟨c, digits, heq, hc, -, -⟩ := toDigits_spec n
    have hminus : c ≠ '-' := by
      rintro rfl
      exact absurd hc (by decide)
    have hsign : ((intText (.ofNat n) ++ rest).take 1).filter (fun c => c = '-') = [] := by
      rw [intText, heq]
      simp [hminus]
    rw [readNumber, hsign]
    exact hread n []
  | negSucc n =>
    have hsign : ((intText (.negSucc n) ++ rest).take 1).filter (fun c => c = '-') = ['-'] := rfl
    rw [readNumber, hsign]
    refine (hread (n + 1) ['-']).trans ?_
    rw [if_neg (List.cons_ne_nil _ _)]
    rfl

theorem intText_head (z : ℤ) : ∃ c s, intText z = c :: s ∧ (c.isDigit = true ∨ c = '-') := by
  cases z with
  | ofNat n =>
    obtain ⟨c, digits, heq, hc, -, -⟩ := toDigits_spec n
    exact ⟨c, digits, heq, Or.inl hc⟩
  | negSucc n => exact ⟨'-', _, rfl, Or.inr rfl⟩

/-- A number begins with no other character. -/
theorem ne_of_numeric {c d : Char} (hc : c.isDigit = true ∨ c = '-')
    (hd : d.isDigit = false ∧ d ≠ '-') : c ≠ d := by
  rintro rfl
  rw [hd.1] at hc
  exact hc.elim Bool.false_ne_true hd.2

/-- No word of the format begins as a number does. -/
theorem readScalar_intText (extra : List (Str × Value)) (z : ℤ) {rest : Str} (h : EndsNumber rest) :
    readScalar extra (intText z ++ rest) = some (.int z, rest) := by
  have hnone : readWord words (intText z ++ rest) = none := by
    obtain ⟨c, s, heq, hc⟩ := intText_head z
    have hn := (ne_of_numeric (d := 'n') hc (by decide)).symm
    have ht := (ne_of_numeric (d := 't') hc (by decide)).symm
    have hf := (ne_of_numeric (d := 'f') hc (by decide)).symm
    rw [heq]
    simp [readWord, words, List.isPrefixOf, hn, ht, hf]
  rw [readScalar, hnone, readNumber_intText z h]
  rfl

/-! ### Values -/

mutual

/-- All numbers within a value are whole. -/
def Value.IsWhole : Value → Prop
  | .real _ => False
  | .list values => AllWhole values
  | .dict items => ItemsWhole items
  | _ => True

def AllWhole : List Value → Prop
  | [] => True
  | v :: vs => v.IsWhole ∧ AllWhole vs

def ItemsWhole : List (Str × Value) → Prop
  | [] => True
  | (_, v) :: items => v.IsWhole ∧ ItemsWhole items

end

theorem endsNumber_nil : EndsNumber [] := by
  intro c hc
  cases hc

theorem endsNumber_mark {c : Char} (h : c = ',' ∨ c = ']' ∨ c = '\x7d') (s : Str) :
    EndsNumber (c :: s) := by
  intro d hd
  cases hd
  rcases h with rfl | rfl | rfl <;> decide

theorem endsNumber_writeMore (values : List Value) (rest : Str) :
    EndsNumber (writeMore values ++ rest) := by
  cases values with
  | nil => exact endsNumber_mark (Or.inr (Or.inl rfl)) _
  | cons v values => exact endsNumber_mark (Or.inl rfl) _

theorem endsNumber_writeItems (items : List (Str × Value)) (rest : Str) :
    EndsNumber (writeItems items ++ rest) := by
  rcases items with _ | ⟨⟨key, v⟩, items⟩
  · exact endsNumber_mark (Or.inr (Or.inr rfl)) _
  · exact endsNumber_mark (Or.inl rfl) _

/-- A value begins with neither a space nor a mark that ends. -/
theorem write_head (v : Value) (hv : v.IsWhole) :
    ∃ c s, write v = c :: s ∧ isSpace c = false ∧ c ≠ ']' := by
  cases v with
  | null => exact ⟨'n', _, rfl, by decide, by decide⟩
  | bool b =>
    cases b with
    | true => exact ⟨'t', _, rfl, by decide, by decide⟩
    | false => exact ⟨'f', _, rfl, by decide, by decide⟩
  | int z =>
    obtain ⟨c, s, heq, hc⟩ := intText_head z
    refine ⟨c, s, heq, ?_, ne_of_numeric hc (by decide)⟩
    rw [isSpace, decide_eq_false_iff_not]
    rintro (rfl | rfl | rfl | rfl) <;> exact absurd hc (by decide)
  | real token => exact hv.elim
  | str s => exact ⟨'"', _, rfl, by decide, by decide⟩
  | list values =>
    cases values with
    | nil => exact ⟨'[', _, rfl, by decide, by decide⟩
    | cons v values => exact ⟨'[', _, rfl, by decide, by decide⟩
  | dict items =>
    rcases items with _ | ⟨⟨key, v⟩, items⟩
    · exact ⟨'\x7b', _, rfl, by decide, by decide⟩
    · exact ⟨'\x7b', _, rfl, by decide, by decide⟩

theorem skip_write (v : Value) (hv : v.IsWhole) (rest : Str) :
    skip (write v ++ rest) = write v ++ rest := by
  obtain ⟨c, s, heq, hspace, -⟩ := write_head v hv
  rw [heq, List.cons_append, skip_cons hspace]

theorem mark_write (v : Value) (hv : v.IsWhole) (rest : Str) :
    mark ']' (write v ++ rest) = none := by
  obtain ⟨c, s, heq, hspace, hne⟩ := write_head v hv
  rw [heq, List.cons_append, mark_other hspace hne]

/-- What an item's text has room for. -/
theorem item_lt {key more : Str} {v : Value} {fuel : ℕ} {c : Char}
    (h : (c :: ('"' :: (quoted key ++ ':' :: write v) ++ more)).length < fuel + 1) :
    key.length + (write v).length + 2 < fuel ∧ more.length < fuel := by
  have hlength := length_le_quoted key
  simp only [List.length_cons, List.length_append] at h
  omega

/-- An item is read back, if its value is. -/
theorem readItem_of {extra : List (Str × Value)} (key : Str) {v : Value} {rest : Str} {fuel : ℕ}
    (hv : v.IsWhole) (h : key.length + (write v).length + 2 < fuel)
    (hread : ∀ fuel, (write v).length < fuel →
      readValue extra fuel (write v ++ rest) = some (v, rest)) :
    readItem extra fuel ('"' :: (quoted key ++ ':' :: write v) ++ rest) = some ((key, v), rest) := by
  obtain ⟨fuel, rfl⟩ := Nat.exists_eq_succ_of_ne_zero (Nat.ne_of_gt (Nat.zero_lt_of_lt h))
  rw [List.cons_append, List.append_assoc, readItem, mark_cons (by decide)]
  simp only [Option.bind_eq_bind, Option.bind_some]
  rw [readString_quoted key _ (by omega)]
  simp only [Option.bind_some]
  rw [List.cons_append, mark_cons (by decide)]
  simp only [Option.bind_some]
  rw [skip_write v hv, hread fuel (by omega)]
  rfl

mutual

/-- **A value is read back**, whatever follows that ends a number. -/
theorem readValue_write (extra : List (Str × Value)) :
    ∀ v : Value, v.IsWhole → ∀ (rest : Str), EndsNumber rest → ∀ fuel, (write v).length < fuel →
      readValue extra fuel (write v ++ rest) = some (v, rest)
  | _, _, _, _, 0, h => absurd h (Nat.not_lt_zero _)
  | .null, _, rest, _, fuel + 1, _ => rfl
  | .bool true, _, rest, _, fuel + 1, _ => rfl
  | .bool false, _, rest, _, fuel + 1, _ => rfl
  | .int z, _, rest, hrest, fuel + 1, _ => by
    have hread := readScalar_intText extra z hrest
    obtain ⟨c, s, heq, hc⟩ := intText_head z
    rw [heq, List.cons_append] at hread
    rw [write, heq, List.cons_append, readValue, if_neg (ne_of_numeric hc (by decide)),
      if_neg (ne_of_numeric hc (by decide)), if_neg (ne_of_numeric hc (by decide)), hread]
  | .str s, _, rest, _, fuel + 1, h => by
    have hlength := length_le_quoted s
    rw [write, List.length_cons] at h
    rw [write, List.cons_append, readValue, if_pos rfl, readString_quoted s rest (by omega)]
    rfl
  | .list [], _, rest, _, fuel + 1, _ => rfl
  | .list (v :: vs), hv, rest, _, fuel + 1, h => by
    rw [write, List.length_cons, List.length_append] at h
    rw [write, List.cons_append, List.append_assoc, readValue, if_neg (by decide), if_pos rfl,
      mark_write v hv.1]
    dsimp only
    rw [skip_write v hv.1, readValue_write extra v hv.1 _ (endsNumber_writeMore vs rest) fuel
      (by omega)]
    simp only [Option.bind_eq_bind, Option.bind_some]
    rw [readMore_write extra vs hv.2 rest fuel (by omega)]
    rfl
  | .dict [], _, rest, _, fuel + 1, _ => rfl
  | .dict ((key, v) :: items), hv, rest, _, fuel + 1, h => by
    obtain ⟨hitem, hmore⟩ := item_lt h
    rw [write, List.cons_append, List.append_assoc, readValue, if_neg (by decide),
      if_neg (by decide), if_pos rfl, List.cons_append, mark_other (by decide) (by decide)]
    dsimp only
    rw [← List.cons_append, readItem_of key hv.1 hitem fun fuel hfuel =>
      readValue_write extra v hv.1 _ (endsNumber_writeItems items rest) fuel hfuel]
    simp only [Option.bind_eq_bind, Option.bind_some]
    rw [readItems_write extra items hv.2 rest fuel hmore]
    rfl

/-- The rest of a list is read back. -/
theorem readMore_write (extra : List (Str × Value)) :
    ∀ vs : List Value, AllWhole vs → ∀ (rest : Str) fuel, (writeMore vs).length < fuel →
      readMore extra fuel (writeMore vs ++ rest) = some (vs, rest)
  | _, _, _, 0, h => absurd h (Nat.not_lt_zero _)
  | [], _, rest, fuel + 1, _ => rfl
  | v :: vs, hv, rest, fuel + 1, h => by
    rw [writeMore, List.length_cons, List.length_append] at h
    rw [writeMore, List.cons_append, List.append_assoc, readMore,
      mark_other (by decide) (by decide), mark_cons (by decide)]
    simp only [Option.bind_eq_bind, Option.bind_some]
    rw [skip_write v hv.1, readValue_write extra v hv.1 _ (endsNumber_writeMore vs rest) fuel
      (by omega)]
    simp only [Option.bind_some]
    rw [readMore_write extra vs hv.2 rest fuel (by omega)]
    rfl

/-- The rest of an object is read back. -/
theorem readItems_write (extra : List (Str × Value)) :
    ∀ items : List (Str × Value), ItemsWhole items → ∀ (rest : Str) fuel,
      (writeItems items).length < fuel →
      readItems extra fuel (writeItems items ++ rest) = some (items, rest)
  | _, _, _, 0, h => absurd h (Nat.not_lt_zero _)
  | [], _, rest, fuel + 1, _ => rfl
  | (key, v) :: items, hv, rest, fuel + 1, h => by
    obtain ⟨hitem, hmore⟩ := item_lt h
    rw [writeItems, List.cons_append, List.append_assoc, readItems,
      mark_other (by decide) (by decide), mark_cons (by decide)]
    simp only [Option.bind_eq_bind, Option.bind_some]
    rw [readItem_of key hv.1 hitem fun fuel hfuel =>
      readValue_write extra v hv.1 _ (endsNumber_writeItems items rest) fuel hfuel]
    simp only [Option.bind_some]
    rw [readItems_write extra items hv.2 rest fuel hmore]
    rfl

end

/-- **What was written is what is read.** -/
theorem loads_write (extra : List (Str × Value)) (v : Value) (hv : v.IsWhole) :
    loads extra (write v) = some v := by
  have hskip := skip_write v hv []
  have hread := readValue_write extra v hv [] endsNumber_nil _
    (Nat.lt_succ_self (write v).length)
  rw [List.append_nil] at hskip hread
  rw [loads, hskip, hread]
  rfl

/-! ### One line -/

/-- No character of a text is a control character. -/
def Printable (s : Str) : Prop := ∀ c ∈ s, 32 ≤ c.toNat

instance : DecidablePred Printable := fun s => List.decidableBAll (fun c : Char => 32 ≤ c.toNat) s

theorem printable_cons {c : Char} {s : Str} : Printable (c :: s) ↔ 32 ≤ c.toNat ∧ Printable s :=
  List.forall_mem_cons

theorem printable_append {s t : Str} : Printable (s ++ t) ↔ Printable s ∧ Printable t :=
  List.forall_mem_append

theorem printable_digits (n : ℕ) : Printable (Nat.toDigits 10 n) := by
  intro c hc
  have hdigit : c.isDigit = true := Nat.isDigit_of_mem_toDigits (by decide) (by decide) hc
  rw [Char.isDigit, Bool.and_eq_true, decide_eq_true_iff] at hdigit
  exact le_trans (by decide) (UInt32.le_iff_toNat_le.mp hdigit.1)

theorem printable_intText (z : ℤ) : Printable (intText z) := by
  cases z with
  | ofNat n => exact printable_digits n
  | negSucc n => exact printable_cons.mpr ⟨by decide, printable_digits (n + 1)⟩

/-- A control character is written by its number. -/
theorem printable_escape (c : Char) : Printable (escape c) := by
  have hdigit : ∀ n < 16, 32 ≤ (Nat.digitChar n).toNat := by decide
  unfold escape
  split_ifs with h₁ h₂ h₃ h₄ h₅ h₆ h₇ h₈
  iterate 7 decide
  · have hhigh := hdigit (c.toNat / 16) (by omega)
    have hlow := hdigit (c.toNat % 16) (by omega)
    simp [Printable, hhigh, hlow]
  · simpa [Printable] using h₈

theorem printable_quoted (s : Str) : Printable (quoted s) := by
  refine printable_append.mpr ⟨?_, by decide⟩
  intro c hc
  obtain ⟨d, -, hc⟩ := List.mem_flatMap.mp hc
  exact printable_escape d c hc

mutual

/-- **No control character stands in what is written.** -/
theorem write_printable : ∀ v : Value, v.IsWhole → Printable (write v)
  | .null, _ => by decide
  | .bool true, _ => by decide
  | .bool false, _ => by decide
  | .int z, _ => printable_intText z
  | .str s, _ => printable_cons.mpr ⟨by decide, printable_quoted s⟩
  | .list [], _ => by decide
  | .list (v :: vs), hv => by
    rw [write, printable_cons, printable_append]
    exact ⟨by decide, write_printable v hv.1, writeMore_printable vs hv.2⟩
  | .dict [], _ => by decide
  | .dict ((key, v) :: items), hv => by
    rw [write, printable_cons, printable_append, printable_cons, printable_append, printable_cons]
    exact ⟨by decide, ⟨by decide, printable_quoted key, by decide, write_printable v hv.1⟩,
      writeItems_printable items hv.2⟩

theorem writeMore_printable : ∀ vs : List Value, AllWhole vs → Printable (writeMore vs)
  | [], _ => by decide
  | v :: vs, hv => by
    rw [writeMore, printable_cons, printable_append]
    exact ⟨by decide, write_printable v hv.1, writeMore_printable vs hv.2⟩

theorem writeItems_printable :
    ∀ items : List (Str × Value), ItemsWhole items → Printable (writeItems items)
  | [], _ => by decide
  | (key, v) :: items, hv => by
    rw [writeItems, printable_cons, printable_append, printable_cons, printable_append,
      printable_cons]
    exact ⟨by decide, ⟨by decide, printable_quoted key, by decide, write_printable v hv.1⟩,
      writeItems_printable items hv.2⟩

end

end JsonText
