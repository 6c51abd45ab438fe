/-
Character references (`crawler::parser`): titles, text, links and sitemaps go through
`decode_entities`.

What is a reference is said twice: `Reference` as the document formats have it, and
`Accepted` by what the decoder makes of it.  The decoder's number parser takes a plus sign,
so it accepts a little more (`SignedReference`).

* `decodeEntities_replaced` — decoding is one pass over the accepted references;
* `accepted_iff` — these are the references, and the signed ones;
* `decode_exact_iff` — decoding is exact iff the text has no signed reference.
-/
import MjlSearch.OnePass
import MjlSearch.Text

open Text OnePass

namespace Entities

/-- The named references. -/
def table : List (Str × Char) :=
  [("amp", 0x26), ("lt", 0x3C), ("gt", 0x3E), ("quot", 0x22), ("apos", 0x27), ("nbsp", 0xA0),
   ("ensp", 0x2002), ("emsp", 0x2003), ("thinsp", 0x2009), ("zwnj", 0x200C), ("zwj", 0x200D),
   ("shy", 0xAD), ("ndash", 0x2013), ("mdash", 0x2014), ("horbar", 0x2015), ("minus", 0x2212),
   ("lsquo", 0x2018), ("rsquo", 0x2019), ("sbquo", 0x201A), ("ldquo", 0x201C), ("rdquo", 0x201D),
   ("bdquo", 0x201E), ("laquo", 0xAB), ("raquo", 0xBB), ("lsaquo", 0x2039), ("rsaquo", 0x203A),
   ("hellip", 0x2026), ("bull", 0x2022), ("middot", 0xB7), ("dagger", 0x2020), ("Dagger", 0x2021),
   ("prime", 0x2032), ("Prime", 0x2033), ("permil", 0x2030), ("oline", 0x203E), ("frasl", 0x2044),
   ("iexcl", 0xA1), ("iquest", 0xBF), ("sect", 0xA7), ("para", 0xB6), ("copy", 0xA9),
   ("reg", 0xAE), ("trade", 0x2122), ("deg", 0xB0), ("micro", 0xB5), ("plusmn", 0xB1),
   ("times", 0xD7), ("divide", 0xF7), ("not", 0xAC), ("cent", 0xA2), ("pound", 0xA3),
   ("yen", 0xA5), ("euro", 0x20AC), ("curren", 0xA4), ("brvbar", 0xA6), ("uml", 0xA8),
   ("acute", 0xB4), ("cedil", 0xB8), ("macr", 0xAF), ("circ", 0x2C6), ("tilde", 0x2DC),
   ("sup1", 0xB9), ("sup2", 0xB2), ("sup3", 0xB3), ("frac14", 0xBC), ("frac12", 0xBD),
   ("frac34", 0xBE), ("ordf", 0xAA), ("ordm", 0xBA), ("Agrave", 0xC0), ("Aacute", 0xC1),
   ("Acirc", 0xC2), ("Atilde", 0xC3), ("Auml", 0xC4), ("Aring", 0xC5), ("AElig", 0xC6),
   ("Ccedil", 0xC7), ("Egrave", 0xC8), ("Eacute", 0xC9), ("Ecirc", 0xCA), ("Euml", 0xCB),
   ("Igrave", 0xCC), ("Iacute", 0xCD), ("Icirc", 0xCE), ("Iuml", 0xCF), ("ETH", 0xD0),
   ("Ntilde", 0xD1), ("Ograve", 0xD2), ("Oacute", 0xD3), ("Ocirc", 0xD4), ("Otilde", 0xD5),
   ("Ouml", 0xD6), ("Oslash", 0xD8), ("Ugrave", 0xD9), ("Uacute", 0xDA), ("Ucirc", 0xDB),
   ("Uuml", 0xDC), ("Yacute", 0xDD), ("THORN", 0xDE), ("szlig", 0xDF), ("agrave", 0xE0),
   ("aacute", 0xE1), ("acirc", 0xE2), ("atilde", 0xE3), ("auml", 0xE4), ("aring", 0xE5),
   ("aelig", 0xE6), ("ccedil", 0xE7), ("egrave", 0xE8), ("eacute", 0xE9), ("ecirc", 0xEA),
   ("euml", 0xEB), ("igrave", 0xEC), ("iacute", 0xED), ("icirc", 0xEE), ("iuml", 0xEF),
   ("eth", 0xF0), ("ntilde", 0xF1), ("ograve", 0xF2), ("oacute", 0xF3), ("ocirc", 0xF4),
   ("otilde", 0xF5), ("ouml", 0xF6), ("oslash", 0xF8), ("ugrave", 0xF9), ("uacute", 0xFA),
   ("ucirc", 0xFB), ("uuml", 0xFC), ("yacute", 0xFD), ("thorn", 0xFE), ("yuml", 0xFF),
   ("OElig", 0x152), ("oelig", 0x153), ("Scaron", 0x160), ("scaron", 0x161), ("Yuml", 0x178),
   ("fnof", 0x192), ("larr", 0x2190), ("uarr", 0x2191), ("rarr", 0x2192), ("darr", 0x2193),
   ("harr", 0x2194), ("crarr", 0x21B5), ("forall", 0x2200), ("part", 0x2202), ("exist", 0x2203),
   ("empty", 0x2205), ("nabla", 0x2207), ("isin", 0x2208), ("notin", 0x2209), ("ni", 0x220B),
   ("prod", 0x220F), ("sum", 0x2211), ("lowast", 0x2217), ("radic", 0x221A), ("prop", 0x221D),
   ("infin", 0x221E), ("ang", 0x2220), ("and", 0x2227), ("or", 0x2228), ("cap", 0x2229),
   ("cup", 0x222A), ("int", 0x222B), ("there4", 0x2234), ("sim", 0x223C), ("cong", 0x2245),
   ("asymp", 0x2248), ("ne", 0x2260), ("equiv", 0x2261), ("le", 0x2264), ("ge", 0x2265),
   ("sub", 0x2282), ("sup", 0x2283), ("nsub", 0x2284), ("sube", 0x2286), ("supe", 0x2287),
   ("oplus", 0x2295), ("otimes", 0x2297), ("perp", 0x22A5), ("sdot", 0x22C5), ("lceil", 0x2308),
   ("rceil", 0x2309), ("lfloor", 0x230A), ("rfloor", 0x230B), ("lang", 0x27E8), ("rang", 0x27E9),
   ("loz", 0x25CA), ("Alpha", 0x391), ("Beta", 0x392), ("Gamma", 0x393), ("Delta", 0x394),
   ("Epsilon", 0x395), ("Zeta", 0x396), ("Eta", 0x397), ("Theta", 0x398), ("Iota", 0x399),
   ("Kappa", 0x39A), ("Lambda", 0x39B), ("Mu", 0x39C), ("Nu", 0x39D), ("Xi", 0x39E),
   ("Omicron", 0x39F), ("Pi", 0x3A0), ("Rho", 0x3A1), ("Sigma", 0x3A3), ("Tau", 0x3A4),
   ("Upsilon", 0x3A5), ("Phi", 0x3A6), ("Chi", 0x3A7), ("Psi", 0x3A8), ("Omega", 0x3A9),
   ("alpha", 0x3B1), ("beta", 0x3B2), ("gamma", 0x3B3), ("delta", 0x3B4), ("epsilon", 0x3B5),
   ("zeta", 0x3B6), ("eta", 0x3B7), ("theta", 0x3B8), ("iota", 0x3B9), ("kappa", 0x3BA),
   ("lambda", 0x3BB), ("mu", 0x3BC), ("nu", 0x3BD), ("xi", 0x3BE), ("omicron", 0x3BF),
   ("pi", 0x3C0), ("rho", 0x3C1), ("sigmaf", 0x3C2), ("sigma", 0x3C3), ("tau", 0x3C4),
   ("upsilon", 0x3C5), ("phi", 0x3C6), ("chi", 0x3C7), ("psi", 0x3C8), ("omega", 0x3C9),
   ("spades", 0x2660), ("clubs", 0x2663), ("hearts", 0x2665), ("diams", 0x2666)].map
    fun entry => (entry.1.toList, Char.ofNat entry.2)

/-! ### Numbers -/

/-- `char::to_digit`. -/
def toDigit (radix : ℕ) (c : Char) : Option ℕ :=
  let digit :=
    if '0' ≤ c ∧ c ≤ '9' then c.toNat - 48
    else if 'a' ≤ c ∧ c ≤ 'z' then c.toNat - 87
    else if 'A' ≤ c ∧ c ≤ 'Z' then c.toNat - 55
    else radix
  if digit < radix then some digit else none

/-- The number that digits are the numeral of. -/
def numberOf (radix : ℕ) (digits : Str) : Option ℕ :=
  (digits.mapM (toDigit radix)).map fun values => values.foldl (fun n digit => radix * n + digit) 0

/-- `u32::from_str_radix`: an optional plus sign, at least one digit, and a value that fits. -/
def parseU32 (radix : ℕ) (s : Str) : Option ℕ :=
  let digits := (['+'].isPrefixOf? s).getD s
  if digits = [] then none else (numberOf radix digits).filter fun n => n < 2 ^ 32

/-- `char::from_u32`. -/
def charFromU32 (n : ℕ) : Option Char := if n.isValidChar then some (Char.ofNat n) else none

/-! ### The decoder -/

/-- `str::find`, of a character. -/
def findChar (s : Str) (c : Char) : Option ℕ := s.findIdx? fun d => d == c

/-- The character of a numeric reference, from what follows the number sign. -/
def decodeDigits : Str → Option Char
  | 'x' :: hex | 'X' :: hex => (parseU32 16 hex).bind charFromU32
  | digits => (parseU32 10 digits).bind charFromU32

/-- The character that stands for what is between the ampersand and the semicolon. -/
def decodeEntity (entity : Str) : Option Char :=
  match table.lookup entity with
  | some character => some character
  | none => (['#'].isPrefixOf? entity).bind decodeDigits

/-- Decodes one reference at the start of a text that begins with an ampersand: the character,
and the length of what it was decoded from. -/
def decodeReference (input : Str) : Option (Char × ℕ) := do
  let semicolon ← findChar input ';'
  let entity := (input.take semicolon).drop 1
  if entity = [] ∨ 12 < byteLen entity then none
  else (decodeEntity entity).map fun character => (character, semicolon + 1)

/-- The loop of `push_decoded`, for at most `fuel` ampersands. -/
def pushDecodedUpTo : ℕ → Str → Str → Str
  | 0, output, rest => output ++ rest
  | fuel + 1, output, rest =>
    match findChar rest '&' with
    | none => output ++ rest
    | some index =>
      match decodeReference (rest.drop index) with
      | some (character, consumed) =>
        pushDecodedUpTo fuel (output ++ rest.take index ++ [character])
          ((rest.drop index).drop consumed)
      -- a bare ampersand is legal
      | none =>
        pushDecodedUpTo fuel (output ++ rest.take index ++ ['&']) ((rest.drop index).drop 1)

/-- Appends `input` to `output`, decoding character references on the way. -/
def pushDecoded (output input : Str) : Str :=
  if '&' ∈ input then pushDecodedUpTo input.length output input else output ++ input

/-- Decodes the character references of a text. -/
def decodeEntities (input : Str) : Str := pushDecoded [] input

/-! ### References -/

/-- What stands between the ampersand and the semicolon of a reference. -/
inductive Names : Str → Char → Prop
  | named {name : Str} {c : Char} (h : table.lookup name = some c) : Names name c
  | decimal {digits : Str} {c : Char} (hne : digits ≠ []) (h : numberOf 10 digits = some c.toNat) :
      Names ('#' :: digits) c
  | hex {x : Char} {digits : Str} {c : Char} (hx : x = 'x' ∨ x = 'X') (hne : digits ≠ [])
      (h : numberOf 16 digits = some c.toNat) : Names ('#' :: x :: digits) c

/-- The same with a plus sign before the digits. -/
inductive SignedNames : Str → Char → Prop
  | decimal {digits : Str} {c : Char} (hne : digits ≠ []) (h : numberOf 10 digits = some c.toNat) :
      SignedNames ('#' :: '+' :: digits) c
  | hex {x : Char} {digits : Str} {c : Char} (hx : x = 'x' ∨ x = 'X') (hne : digits ≠ [])
      (h : numberOf 16 digits = some c.toNat) : SignedNames ('#' :: x :: '+' :: digits) c

/-- A piece of text whose inside, of at most twelve bytes, is of a kind. -/
def Delimited (inside : Str → Char → Prop) (piece : Str) (c : Char) : Prop :=
  ∃ entity, piece = '&' :: (entity ++ [';']) ∧ byteLen entity ≤ 12 ∧ inside entity c

/-- A well-formed reference. -/
abbrev Reference : Str → Char → Prop := Delimited Names

/-- A numeric reference with a plus sign before its digits. -/
abbrev SignedReference : Str → Char → Prop := Delimited SignedNames

/-- What the decoder takes for a reference. -/
abbrev Accepted : Str → Char → Prop :=
  Delimited fun entity c => entity ≠ [] ∧ decodeEntity entity = some c

/-- A text in which every ampersand is written as a reference. -/
def escapeAmpersands (s : Str) : Str :=
  s.flatMap fun c => if c = '&' then "&amp;".toList else [c]

/-! ### What stands in a reference -/

theorem findChar_eq_some {s : Str} {c : Char} {i : ℕ} :
    findChar s c = some i ↔ ∃ front back, s = front ++ c :: back ∧ c ∉ front ∧ i = front.length := by
  rw [findChar]
  induction s generalizing i with
  | nil => simp
  | cons d s ih =>
    rw [List.findIdx?_cons]
    by_cases hd : d = c
    · subst hd
      rw [if_pos (beq_self_eq_true d), Option.some.injEq]
      constructor
      · rintro rfl
        exact ⟨[], s, rfl, List.not_mem_nil, rfl⟩
      · rintro ⟨front, back, heq, hfront, rfl⟩
        rcases front with _ | ⟨e, front⟩
        · rfl
        · cases heq
          exact absurd List.mem_cons_self hfront
    · rw [if_neg (by simpa using hd), Option.map_eq_some_iff]
      constructor
      · rintro ⟨j, hj, rfl⟩
        obtain ⟨front, back, rfl, hfront, rfl⟩ := ih.mp hj
        exact ⟨d :: front, back, rfl, by simp [Ne.symm hd, hfront], rfl⟩
      · rintro ⟨front, back, heq, hfront, rfl⟩
        rcases front with _ | ⟨e, front⟩
        · cases heq
          exact absurd rfl hd
        · cases heq
          exact ⟨front.length, ih.mpr ⟨front, back, rfl, fun hc => hfront (by simp [hc]), rfl⟩, rfl⟩

theorem findChar_eq_none {s : Str} {c : Char} : findChar s c = none ↔ c ∉ s := by
  rw [findChar, List.findIdx?_eq_none_iff]
  constructor
  · intro h hc
    simpa using h c hc
  · intro h d hd
    rw [beq_eq_false_iff_ne]
    rintro rfl
    exact h hd

theorem isAlphanum_of_toDigit {radix n : ℕ} {c : Char} (h : toDigit radix c = some n) :
    c.isAlphanum = true := by
  have hval : c.val.toNat = c.toNat := rfl
  simp only [toDigit, Char.le_def, UInt32.le_iff_toNat_le, hval] at h
  unfold Char.isAlphanum Char.isAlpha Char.isUpper Char.isLower Char.isDigit
  simp only [Bool.or_eq_true, Bool.and_eq_true, decide_eq_true_eq, ge_iff_le,
    UInt32.le_iff_toNat_le, hval]
  split at h
  · rename_i hdigit
    exact .inr hdigit
  · split at h
    · rename_i hlower
      exact .inl (.inr hlower)
    · split at h
      · rename_i hupper
        exact .inl (.inl hupper)
      · rw [if_neg (Nat.lt_irrefl radix)] at h
        cases h

theorem isAlphanum_of_numberOf {radix n : ℕ} {digits : Str} (h : numberOf radix digits = some n) :
    ∀ c ∈ digits, c.isAlphanum = true := by
  obtain ⟨values, hvalues, -⟩ := Option.map_eq_some_iff.mp h
  clear h
  induction digits generalizing values with
  | nil => exact fun c hc => (List.not_mem_nil hc).elim
  | cons d digits ih =>
    rw [List.mapM_cons] at hvalues
    obtain ⟨digit, hdigit, hrest⟩ := Option.bind_eq_some_iff.mp hvalues
    obtain ⟨values', hvalues', -⟩ := Option.bind_eq_some_iff.mp hrest
    exact List.forall_mem_cons.mpr ⟨isAlphanum_of_toDigit hdigit, ih values' hvalues'⟩

theorem parseU32_eq_some {radix n : ℕ} {s : Str} :
    parseU32 radix s = some n ↔ n < 2 ^ 32 ∧ ∃ digits, digits ≠ [] ∧
      numberOf radix digits = some n ∧ (s = digits ∨ s = '+' :: digits) := by
  have hfits : ∀ digits : Str, (if digits = [] then none else
      (numberOf radix digits).filter fun n => n < 2 ^ 32) = some n ↔
      n < 2 ^ 32 ∧ digits ≠ [] ∧ numberOf radix digits = some n := by
    intro digits
    by_cases hne : digits = []
    · simp [hne]
    · rw [if_neg hne, Option.filter_eq_some_iff, decide_eq_true_iff]
      tauto
  rw [parseU32]
  by_cases hplus : ∃ digits, s = '+' :: digits
  · obtain ⟨digits, rfl⟩ := hplus
    refine (hfits digits).trans (and_congr_right fun _ => ?_)
    constructor
    · exact fun h => ⟨digits, h.1, h.2, .inr rfl⟩
    · rintro ⟨other, hne, hn, rfl | heq⟩
      · -- a plus sign is no digit
        exact absurd (isAlphanum_of_numberOf hn '+' List.mem_cons_self) (by decide)
      · cases heq
        exact ⟨hne, hn⟩
  · have hstrip : (['+'].isPrefixOf? s).getD s = s := by
      rcases s with _ | ⟨d, s⟩
      · rfl
      · have hd : ('+' == d) = false := by
          rw [beq_eq_false_iff_ne]
          rintro rfl
          exact hplus ⟨s, rfl⟩
        simp [List.isPrefixOf?, hd]
    rw [hstrip]
    refine (hfits s).trans (and_congr_right fun _ => ?_)
    constructor
    · exact fun h => ⟨s, h.1, h.2, .inl rfl⟩
    · rintro ⟨digits, hne, hn, rfl | heq⟩
      · exact ⟨hne, hn⟩
      · exact absurd ⟨digits, heq⟩ hplus

theorem charFromU32_eq_some {n : ℕ} {c : Char} : charFromU32 n = some c ↔ n = c.toNat := by
  rw [charFromU32]
  constructor
  · intro h
    split at h
    · cases h
      rename_i hvalid
      rw [Char.ofNat, dif_pos hvalid]
      rfl
    · cases h
  · rintro rfl
    have hvalid : c.toNat.isValidChar := c.valid
    rw [if_pos hvalid, Char.ofNat_toNat]

/-- The names are of letters and digits. -/
theorem table_alphanum : ∀ entry ∈ table, entry.1 ≠ [] ∧ ∀ c ∈ entry.1, c.isAlphanum = true := by
  have hall : (table.all fun entry => !entry.1.isEmpty && entry.1.all Char.isAlphanum) = true := by
    decide +kernel
  intro entry hentry
  simpa using List.all_eq_true.mp hall entry hentry

theorem lookup_alphanum {name : Str} {c : Char} (h : table.lookup name = some c) :
    name ≠ [] ∧ ∀ d ∈ name, d.isAlphanum = true := by
  obtain ⟨front, back, heq, -⟩ := List.lookup_eq_some_iff.mp h
  refine table_alphanum (name, c) ?_
  rw [heq]
  exact List.mem_append_right _ List.mem_cons_self

theorem lookup_hash (rest : Str) : table.lookup ('#' :: rest) = none := by
  by_contra hc
  obtain ⟨c, hfound⟩ := Option.ne_none_iff_exists'.mp hc
  exact absurd ((lookup_alphanum hfound).2 '#' List.mem_cons_self) (by decide)

/-- A number that is a character's. -/
theorem parseU32_bind {radix : ℕ} {s : Str} {c : Char} :
    (parseU32 radix s).bind charFromU32 = some c ↔ ∃ digits, digits ≠ [] ∧
      numberOf radix digits = some c.toNat ∧ (s = digits ∨ s = '+' :: digits) := by
  rw [Option.bind_eq_some_iff]
  constructor
  · rintro ⟨n, hn, hc⟩
    obtain rfl := charFromU32_eq_some.mp hc
    exact (parseU32_eq_some.mp hn).2
  · intro h
    have hfits : c.toNat < 2 ^ 32 := c.val.toNat_lt
    exact ⟨c.toNat, parseU32_eq_some.mpr ⟨hfits, h⟩, charFromU32_eq_some.mpr rfl⟩

theorem decodeDigits_hex {x : Char} (hx : x = 'x' ∨ x = 'X') (hex : Str) :
    decodeDigits (x :: hex) = (parseU32 16 hex).bind charFromU32 := by
  rcases hx with rfl | rfl <;> rfl

theorem decodeDigits_decimal {digits : Str} (h : ∀ x ∈ digits.head?, x ≠ 'x' ∧ x ≠ 'X') :
    decodeDigits digits = (parseU32 10 digits).bind charFromU32 := by
  rw [decodeDigits.eq_def]
  split
  · exact absurd rfl (h 'x' rfl).1
  · exact absurd rfl (h 'X' rfl).2
  · rfl

/-- A numeral, with its sign, does not begin like a hexadecimal one. -/
theorem head_of_decimal {digits s : Str} {n : ℕ} (hn : numberOf 10 digits = some n)
    (hs : s = digits ∨ s = '+' :: digits) : ∀ x ∈ s.head?, x ≠ 'x' ∧ x ≠ 'X' := by
  intro x hx
  rcases hs with rfl | rfl
  · rcases s with _ | ⟨d, s⟩
    · cases hx
    · cases hx
      constructor
      · rintro rfl
        cases hn
      · rintro rfl
        cases hn
  · cases hx
    decide

/-- **What the decoder reads between an ampersand and a semicolon.** -/
theorem decodeEntity_eq_some {entity : Str} {c : Char} :
    decodeEntity entity = some c ↔ Names entity c ∨ SignedNames entity c := by
  have hhash : ∀ rest, decodeEntity ('#' :: rest) = decodeDigits rest := by
    intro rest
    rw [decodeEntity, lookup_hash]
    rfl
  constructor
  · intro h
    by_cases hentity : ∃ rest, entity = '#' :: rest
    · obtain ⟨rest, rfl⟩ := hentity
      rw [hhash] at h
      -- an x after the number sign makes the numeral a hexadecimal one
      by_cases hx : ∃ x hex, rest = x :: hex ∧ (x = 'x' ∨ x = 'X')
      · obtain ⟨x, hex, rfl, hx⟩ := hx
        rw [decodeDigits_hex hx] at h
        obtain ⟨digits, hne, hn, rfl | rfl⟩ := parseU32_bind.mp h
        · exact .inl (.hex hx hne hn)
        · exact .inr (.hex hx hne hn)
      · have hhead : ∀ x ∈ rest.head?, x ≠ 'x' ∧ x ≠ 'X' := by
          intro x hxs
          obtain ⟨hex, rfl⟩ := List.head?_eq_some_iff.mp hxs
          exact not_or.mp fun hc => hx ⟨x, hex, rfl, hc⟩
        rw [decodeDigits_decimal hhead] at h
        obtain ⟨digits, hne, hn, rfl | rfl⟩ := parseU32_bind.mp h
        · exact .inl (.decimal hne hn)
        · exact .inr (.decimal hne hn)
    · rw [decodeEntity] at h
      split at h
      · rename_i hfound
        cases h
        exact .inl (.named hfound)
      · -- what is not in the table has to begin with a number sign
        obtain ⟨digits, hdigits, -⟩ := Option.bind_eq_some_iff.mp h
        exact absurd ⟨digits, (List.isPrefixOf?_eq_some_iff_append_eq.mp hdigits).symm⟩ hentity
  · rintro (h | h)
    · cases h with
      | named h => rw [decodeEntity, h]
      | decimal hne hn =>
        rw [hhash, decodeDigits_decimal (head_of_decimal hn (.inl rfl))]
        exact parseU32_bind.mpr ⟨_, hne, hn, .inl rfl⟩
      | hex hx hne hn =>
        rw [hhash, decodeDigits_hex hx]
        exact parseU32_bind.mpr ⟨_, hne, hn, .inl rfl⟩
    · cases h with
      | decimal hne hn =>
        rw [hhash, decodeDigits_decimal (head_of_decimal hn (.inr rfl))]
        exact parseU32_bind.mpr ⟨_, hne, hn, .inr rfl⟩
      | hex hx hne hn =>
        rw [hhash, decodeDigits_hex hx]
        exact parseU32_bind.mpr ⟨_, hne, hn, .inr rfl⟩

/-- A character of a reference. -/
def isEntityChar (c : Char) : Bool := c.isAlphanum || c == '#' || c == '+'

theorem decodeEntity_chars {entity : Str} {c : Char} (h : decodeEntity entity = some c) :
    entity ≠ [] ∧ ∀ d ∈ entity, isEntityChar d = true := by
  have hdigits : ∀ {radix n : ℕ} {digits : Str}, numberOf radix digits = some n →
      ∀ d ∈ digits, isEntityChar d = true := by
    intro radix n digits hn d hd
    simp [isEntityChar, isAlphanum_of_numberOf hn d hd]
  rcases decodeEntity_eq_some.mp h with h | h
  · cases h with
    | named h =>
      refine ⟨(lookup_alphanum h).1, fun d hd => ?_⟩
      simp [isEntityChar, (lookup_alphanum h).2 d hd]
    | decimal hne hn =>
      exact ⟨List.cons_ne_nil _ _, List.forall_mem_cons.mpr ⟨by decide, hdigits hn⟩⟩
    | hex hx hne hn =>
      refine ⟨List.cons_ne_nil _ _, List.forall_mem_cons.mpr ⟨by decide,
        List.forall_mem_cons.mpr ⟨?_, hdigits hn⟩⟩⟩
      rcases hx with rfl | rfl <;> decide
  · cases h with
    | decimal hne hn =>
      exact ⟨List.cons_ne_nil _ _, List.forall_mem_cons.mpr ⟨by decide,
        List.forall_mem_cons.mpr ⟨by decide, hdigits hn⟩⟩⟩
    | hex hx hne hn =>
      refine ⟨List.cons_ne_nil _ _, List.forall_mem_cons.mpr ⟨by decide,
        List.forall_mem_cons.mpr ⟨?_, List.forall_mem_cons.mpr ⟨by decide, hdigits hn⟩⟩⟩⟩
      rcases hx with rfl | rfl <;> decide

/-! ### The pass -/

theorem not_mem_entity {entity : Str} (h : ∀ d ∈ entity, isEntityChar d = true) {c : Char}
    (hc : isEntityChar c = false) : c ∉ entity := by
  intro hmem
  rw [h c hmem] at hc
  cases hc

theorem accepted_iff {piece : Str} {c : Char} :
    Accepted piece c ↔ Reference piece c ∨ SignedReference piece c := by
  constructor
  · rintro ⟨entity, rfl, hshort, -, hdecode⟩
    rcases decodeEntity_eq_some.mp hdecode with h | h
    · exact .inl ⟨entity, rfl, hshort, h⟩
    · exact .inr ⟨entity, rfl, hshort, h⟩
  · have hboth : ∀ entity, byteLen entity ≤ 12 → decodeEntity entity = some c →
        Accepted ('&' :: (entity ++ [';'])) c := fun entity hshort hdecode =>
      ⟨entity, rfl, hshort, (decodeEntity_chars hdecode).1, hdecode⟩
    rintro (⟨entity, rfl, hshort, h⟩ | ⟨entity, rfl, hshort, h⟩)
    · exact hboth entity hshort (decodeEntity_eq_some.mpr (.inl h))
    · exact hboth entity hshort (decodeEntity_eq_some.mpr (.inr h))

/-- What ends at the first semicolon is determined. -/
theorem entity_unique {entity entity' rest rest' : Str} (h : ';' ∉ entity) (h' : ';' ∉ entity')
    (heq : entity ++ ';' :: rest = entity' ++ ';' :: rest') : entity = entity' ∧ rest = rest' := by
  have hlength : entity.length = entity'.length := by
    have hfound := findChar_eq_some.mpr ⟨entity, rest, rfl, h, rfl⟩
    rw [heq, findChar_eq_some.mpr ⟨entity', rest', rfl, h', rfl⟩, Option.some.injEq] at hfound
    exact hfound.symm
  obtain ⟨hfront, hback⟩ := List.append_inj heq hlength
  exact ⟨hfront, (List.cons.inj hback).2⟩

theorem accepted_marked : Marked Accepted '&' := by
  refine ⟨?_, ?_⟩
  · rintro _ c ⟨entity, rfl, -, -, hdecode⟩
    refine ⟨entity ++ [';'], rfl, ?_, by simp⟩
    have hnone := not_mem_entity (decodeEntity_chars hdecode).2 (c := '&') (by decide)
    simpa using hnone
  · rintro _ c _ c' ⟨entity, rfl, -, -, hdecode⟩ ⟨entity', rfl, -, -, hdecode'⟩ ⟨rest, hrest⟩
    have hsame : entity ++ ';' :: rest = entity' ++ [';'] := by
      simpa using hrest
    obtain ⟨rfl, -⟩ := entity_unique
      (not_mem_entity (decodeEntity_chars hdecode).2 (by decide))
      (not_mem_entity (decodeEntity_chars hdecode').2 (by decide)) hsame
    rw [hdecode, Option.some.injEq] at hdecode'
    exact ⟨rfl, hdecode'⟩

theorem reference_accepted (piece : Str) (c : Char) (h : Reference piece c) : Accepted piece c :=
  accepted_iff.mpr (.inl h)

/-- What is read between the ampersand and a semicolon. -/
theorem drop_take_entity (entity rest : Str) :
    ((('&' :: entity) ++ ';' :: rest).take ('&' :: entity).length).drop 1 = entity := by
  rw [List.take_left]
  rfl

theorem decodeReference_some {s : Str} {c : Char} {consumed : ℕ}
    (h : decodeReference ('&' :: s) = some (c, consumed)) :
    ∃ piece rest, '&' :: s = piece ++ rest ∧ Accepted piece c ∧ consumed = piece.length := by
  rw [decodeReference] at h
  obtain ⟨semicolon, hfound, h⟩ := Option.bind_eq_some_iff.mp h
  obtain ⟨front, rest, heq, -, rfl⟩ := findChar_eq_some.mp hfound
  rcases front with _ | ⟨first, entity⟩
  · cases heq
  · cases heq
    have hentity := drop_take_entity entity rest
    rw [List.cons_append] at hentity
    have hinput : '&' :: (entity.append (';' :: rest)) = '&' :: (entity ++ ';' :: rest) := rfl
    rw [hinput] at h ⊢
    dsimp only at h
    rw [hentity] at h
    split at h
    · cases h
    · rename_i hfits
      rw [not_or, Nat.not_lt] at hfits
      obtain ⟨_, hdecode, hpair⟩ := Option.map_eq_some_iff.mp h
      cases hpair
      exact ⟨'&' :: (entity ++ [';']), rest, by simp, ⟨entity, rfl, hfits.2, hfits.1, hdecode⟩,
        by simp⟩

theorem decodeReference_none {s : Str} (h : decodeReference ('&' :: s) = none) (piece : Str)
    (c : Char) (hpiece : Accepted piece c) : ¬ piece <+: '&' :: s := by
  obtain ⟨entity, rfl, hshort, hne, hdecode⟩ := hpiece
  rintro ⟨rest, hrest⟩
  have hs : '&' :: s = ('&' :: entity) ++ ';' :: rest := by
    rw [← hrest]
    simp
  have hnone : ';' ∉ '&' :: entity := by
    rw [List.mem_cons, not_or]
    exact ⟨by decide, not_mem_entity (decodeEntity_chars hdecode).2 (by decide)⟩
  have hfound := findChar_eq_some.mpr ⟨'&' :: entity, rest, hs, hnone, rfl⟩
  have hentity : (('&' :: s).take (('&' :: entity).length)).drop 1 = entity := by
    rw [hs]
    exact drop_take_entity entity rest
  rw [decodeReference, hfound] at h
  change (if _ then none else _) = none at h
  rw [hentity, if_neg (by rw [not_or, Nat.not_lt]; exact ⟨hne, hshort⟩), hdecode] at h
  cases h

/-- Each round decodes up to an ampersand and what stands there. -/
theorem pushDecodedUpTo_replaced (fuel : ℕ) (output rest : Str) (hfuel : rest.length ≤ fuel) :
    ∃ out, pushDecodedUpTo fuel output rest = output ++ out ∧ Replaced Accepted rest out := by
  induction fuel generalizing output rest with
  | zero =>
    obtain rfl := List.length_eq_zero_iff.mp (Nat.le_zero.mp hfuel)
    exact ⟨[], rfl, .nil⟩
  | succ fuel ih =>
    rw [pushDecodedUpTo]
    rcases hindex : findChar rest '&' with _ | index
    · exact ⟨rest, rfl, .of_not_mem accepted_marked (findChar_eq_none.mp hindex)⟩
    · obtain ⟨front, back, rfl, hfront, rfl⟩ := findChar_eq_some.mp hindex
      rw [List.length_append, List.length_cons] at hfuel
      dsimp only
      rw [List.drop_left, List.take_left]
      rcases hreference : decodeReference ('&' :: back) with _ | ⟨c, consumed⟩
      · -- a bare ampersand is copied
        obtain ⟨out, hout, hreplaced⟩ := ih (output ++ front ++ ['&']) back (by omega)
        refine ⟨front ++ '&' :: out, ?_, ?_⟩
        · dsimp only
          rw [List.drop_one, List.tail_cons, hout]
          simp
        · exact Replaced.copy accepted_marked hfront
            (.copied (decodeReference_none hreference) hreplaced)
      · obtain ⟨piece, rest', heq, hpiece, rfl⟩ := decodeReference_some hreference
        have hlength := congrArg List.length heq
        rw [List.length_cons, List.length_append] at hlength
        have hpos : 0 < piece.length := by
          obtain ⟨entity, rfl, -⟩ := hpiece
          exact Nat.succ_pos _
        obtain ⟨out, hout, hreplaced⟩ := ih (output ++ front ++ [c]) rest' (by omega)
        refine ⟨front ++ c :: out, ?_, ?_⟩
        · dsimp only
          rw [heq, List.drop_left, hout]
          simp
        · rw [heq]
          exact Replaced.copy accepted_marked hfront (.replaced hpiece hreplaced)

theorem pushDecoded_replaced (output input : Str) :
    ∃ out, pushDecoded output input = output ++ out ∧ Replaced Accepted input out := by
  rw [pushDecoded]
  split
  · exact pushDecodedUpTo_replaced _ _ _ (Nat.le_refl _)
  · rename_i hnone
    exact ⟨input, rfl, .of_not_mem accepted_marked hnone⟩

/-- **Decoding is one pass over what the decoder accepts.** -/
theorem decodeEntities_replaced (s : Str) : Replaced Accepted s (decodeEntities s) := by
  obtain ⟨out, hout, hreplaced⟩ := pushDecoded_replaced [] s
  rw [decodeEntities, hout]
  exact hreplaced

theorem decodeEntities_eq {s out : Str} (h : Replaced Accepted s out) : decodeEntities s = out :=
  (decodeEntities_replaced s).unique accepted_marked h

/-- Appending decodes as decoding does. -/
theorem pushDecoded_eq (output input : Str) :
    pushDecoded output input = output ++ decodeEntities input := by
  obtain ⟨out, hout, hreplaced⟩ := pushDecoded_replaced output input
  rw [hout, decodeEntities_eq hreplaced]

/-! ### Exactness -/

/-- A text whose decoding is one pass over its references, and changes nothing else; written
with references for its ampersands, it is decoded to itself. -/
structure DecodedExactly (s : Str) : Prop where
  replaced : Replaced Reference s (decodeEntities s)
  unchanged : ¬ Occurs Reference s → decodeEntities s = s
  escaped : decodeEntities (escapeAmpersands s) = s

theorem decodeEntities_escape (s : Str) : decodeEntities (escapeAmpersands s) = s := by
  refine decodeEntities_eq ?_
  have hamp : Accepted "&amp;".toList '&' :=
    ⟨"amp".toList, by decide, by decide, by decide, by decide⟩
  induction s with
  | nil => exact .nil
  | cons c s ih =>
    rw [escapeAmpersands, List.flatMap_cons]
    by_cases hc : c = '&'
    · subst hc
      rw [if_pos rfl]
      exact .replaced hamp ih
    · rw [if_neg hc]
      exact .copied (accepted_marked.not_prefix hc _) ih

/-- No reference has a plus sign. -/
theorem plus_not_mem {entity : Str} {c : Char} (h : Names entity c) : '+' ∉ entity := by
  have hdigits : ∀ {radix n : ℕ} {digits : Str}, numberOf radix digits = some n → '+' ∉ digits := by
    intro radix n digits hn hmem
    exact absurd (isAlphanum_of_numberOf hn '+' hmem) (by decide)
  cases h with
  | named h => exact fun hmem => absurd ((lookup_alphanum h).2 '+' hmem) (by decide)
  | decimal hne hn =>
    rw [List.mem_cons, not_or]
    exact ⟨by decide, hdigits hn⟩
  | hex hx hne hn =>
    rw [List.mem_cons, List.mem_cons, not_or, not_or]
    refine ⟨by decide, ?_, hdigits hn⟩
    rcases hx with rfl | rfl <;> decide

theorem plus_mem {entity : Str} {c : Char} (h : SignedNames entity c) : '+' ∈ entity := by
  cases h with
  | decimal hne hn => simp
  | hex hx hne hn => simp

theorem signed_not_reference {piece : Str} {c : Char} (h : SignedReference piece c) (b : Char) :
    ¬ Reference piece b := by
  rintro ⟨entity, rfl, -, hnames⟩
  obtain ⟨entity', heq, -, hsigned⟩ := h
  obtain rfl : entity = entity' := List.append_cancel_right (List.cons.inj heq).2
  exact plus_not_mem hnames (plus_mem hsigned)

/-- What is accepted and is no reference has a sign. -/
theorem accepted_not_reference {piece : Str} {c : Char} :
    Accepted piece c ∧ ¬ Reference piece c ↔ SignedReference piece c := by
  rw [accepted_iff]
  constructor
  · exact fun h => h.1.resolve_left h.2
  · exact fun h => ⟨.inr h, signed_not_reference h c⟩

/-- **A text is decoded exactly if, and only if, it has no numeric reference with a plus sign
before its digits.** -/
theorem decode_exact_iff (s : Str) : DecodedExactly s ↔ ¬ Occurs SignedReference s := by
  have hmarked : Marked Reference '&' := accepted_marked.of_le reference_accepted
  obtain ⟨out, hout⟩ := exists_replaced hmarked s
  have hiff := (hout.eq_iff accepted_marked reference_accepted (decodeEntities_replaced s)).2
  simp only [accepted_not_reference] at hiff
  rw [← hiff]
  constructor
  · exact fun h => hout.unique hmarked h.replaced
  · intro heq
    exact ⟨heq ▸ hout, fun hnone => heq ▸ hout.eq_self hnone, decodeEntities_escape s⟩

/-- A reference with a sign is decoded, although it is none. -/
theorem signed_decoded : decodeEntities "&#+65;".toList = "A".toList ∧
    ¬ Occurs Reference "&#+65;".toList ∧ ¬ DecodedExactly "&#+65;".toList := by
  have hsigned : SignedReference "&#+65;".toList 'A' :=
    ⟨"#+65".toList, by decide, by decide, @SignedNames.decimal "65".toList 'A' (by decide) (by decide)⟩
  have hdecode : decodeEntities "&#+65;".toList = "A".toList :=
    decodeEntities_eq (.replaced (accepted_iff.mpr (.inr hsigned)) .nil)
  have hnone : ¬ Occurs Reference "&#+65;".toList := by
    have hwhole := occurs_append accepted_marked reference_accepted
      (accepted_iff.mpr (.inr hsigned)) []
    rw [List.append_nil] at hwhole
    rw [hwhole, not_or]
    -- the text is one piece, and that has a sign
    refine ⟨signed_not_reference hsigned 'A', ?_⟩
    rintro ⟨before, piece, c, after, heq, entity, rfl, -⟩
    simp at heq
  refine ⟨hdecode, hnone, fun h => ?_⟩
  have hsame := h.unchanged hnone
  rw [hdecode] at hsame
  exact absurd hsame (by decide)

end Entities
