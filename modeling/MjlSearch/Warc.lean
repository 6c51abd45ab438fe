/-
The records of the archive (`crawler::storage`, WARC half), and the rule they are read by.

A record is a head, lines that end in CR LF up to an empty one, then as many bytes as the
head's `Content-Length` says, then CR LF CR LF.  The payload of a response is once more such
a head and the body of the page.

* `takeBlock_block` — a head and its content are read back, whatever the content is;
* `readRecords_file` — the bytes of a file are read as its `warcinfo` and the responses;
* `takeBlock_httpPayload` — the body of a page is read back from the payload.
-/
import MjlSearch.Crawler

open Text

namespace Warc

/-! ### Dates and identifiers -/

/-- Converts days since the unix epoch into a civil date. -/
def civilFromDays (days : ℤ) : ℤ × ℕ × ℕ :=
  let shifted := days + 719468
  let era := (if 0 ≤ shifted then shifted else shifted - 146096).tdiv 146097
  let dayOfEra := (shifted - era * 146097).toNat
  let yearOfEra := (dayOfEra - dayOfEra / 1460 + dayOfEra / 36524 - dayOfEra / 146096) / 365
  let year := (yearOfEra : ℤ) + era * 400
  let dayOfYear := dayOfEra - (365 * yearOfEra + yearOfEra / 4 - yearOfEra / 100)
  let monthPrime := (5 * dayOfYear + 2) / 153
  let day := dayOfYear - (153 * monthPrime + 2) / 5 + 1
  let month := if monthPrime < 10 then monthPrime + 3 else monthPrime - 9
  (if month ≤ 2 then year + 1 else year, month, day)

/-- A signed number in decimal, padded with zeros to at least `width` characters. -/
def paddedInt (width : ℕ) (z : ℤ) : Str :=
  if z < 0 then '-' :: padded (width - 1) z.natAbs else padded width z.natAbs

/-- Formats a unix timestamp as an ISO 8601 UTC timestamp. -/
def iso8601 (timestampSeconds : ℤ) : Str :=
  let days := timestampSeconds / 86400
  let secondsOfDay := (timestampSeconds % 86400).toNat
  let (year, month, day) := civilFromDays days
  paddedInt 4 year ++ '-' :: padded 2 month ++ '-' :: padded 2 day ++
    'T' :: padded 2 (secondsOfDay / 3600) ++ ':' :: padded 2 (secondsOfDay % 3600 / 60) ++
    ':' :: padded 2 (secondsOfDay % 60) ++ ['Z']

example : iso8601 1709164800 = "2024-02-29T00:00:00Z".toList ∧
    iso8601 (-1) = "1969-12-31T23:59:59Z".toList := by decide

/-- The `width` low digits of a number in hexadecimal. -/
def hex : ℕ → ℕ → Str
  | 0, _ => []
  | width + 1, n => hex width (n / 16) ++ [Nat.digitChar (n % 16)]

/-- A stable, unique record identifier. -/
def recordId (contentHash : Str → ℕ) (url : Str) (fetchedAt : ℤ) : Str :=
  let high := contentHash (url ++ Char.ofNat 1 :: paddedInt 0 fetchedAt)
  let low := contentHash (paddedInt 0 fetchedAt ++ Char.ofNat 1 :: url)
  "urn:uuid:".toList ++ hex 8 (high / 2 ^ 32) ++ '-' :: hex 4 (high / 2 ^ 16 % 2 ^ 16) ++
    '-' :: hex 4 (high % 2 ^ 16) ++ '-' :: hex 4 (low / 2 ^ 48) ++ '-' :: hex 12 (low % 2 ^ 48)

/-! ### Records -/

/-- The end of a line. -/
def crlf : Str := ['\r', '\n']

/-- Lines, each ended, and the empty line after them. -/
def headText (lines : List Str) : Str := lines.flatMap (· ++ crlf) ++ crlf

/-- A number in decimal. -/
def decimal (n : ℕ) : Str := padded 0 n

/-- The head of a stored HTTP response. -/
def httpLines (page : FetchedPage) : List Str :=
  ["HTTP/1.1 ".toList ++ decimal page.status ++ " ".toList,
    "Content-Type: ".toList ++ page.contentType.getD "text/html; charset=utf-8".toList,
    "Content-Length: ".toList ++ decimal (byteLen page.body)]

/-- The stored HTTP response: a status line, headers and the raw body. -/
def httpPayload (page : FetchedPage) : Str := headText (httpLines page) ++ page.body

/-- The head of a response record. -/
def responseLines (contentHash : Str → ℕ) (document : Document) (length : ℕ) : List Str :=
  ["WARC/1.1".toList,
    "WARC-Type: response".toList,
    "WARC-Record-ID: <".toList ++ recordId contentHash document.url document.fetchedAt ++ ">".toList,
    "WARC-Date: ".toList ++ iso8601 document.fetchedAt,
    "WARC-Target-URI: ".toList ++ document.url,
    "Content-Type: application/http; msgtype=response".toList,
    "Content-Length: ".toList ++ decimal length]

/-- The head that `write_warc_record` writes before the payload. -/
def responseRecord (contentHash : Str → ℕ) (page : FetchedPage) (document : Document) : Str :=
  headText (responseLines contentHash document (byteLen (httpPayload page)))

/-- What a `warcinfo` record says of the program. -/
def warcinfoFields : Str :=
  "software: MJLsearchBot/0.1.0".toList ++ crlf ++ "format: WARC File Format 1.1".toList ++ crlf

def warcinfoLines (contentHash : Str → ℕ) (now : ℤ) (filename : Str) : List Str :=
  ["WARC/1.1".toList,
    "WARC-Type: warcinfo".toList,
    "WARC-Record-ID: <urn:uuid:00000000-0000-0000-0000-".toList ++
      hex 12 (contentHash filename % 2 ^ 48) ++ ">".toList,
    "WARC-Date: ".toList ++ iso8601 now,
    "WARC-Filename: ".toList ++ filename,
    "Content-Type: application/warc-fields".toList,
    "Content-Length: ".toList ++ decimal (byteLen warcinfoFields)]

/-- The `warcinfo` record written at the head of every WARC file. -/
def warcinfoRecord (contentHash : Str → ℕ) (now : ℤ) (filename : Str) : Str :=
  headText (warcinfoLines contentHash now filename) ++ warcinfoFields ++ crlf ++ crlf

/-- What `write_warc_record` hands to the compressor for a page. -/
def responseBytes (contentHash : Str → ℕ) (page : FetchedPage) (document : Document) : List UInt8 :=
  utf8 (responseRecord contentHash page document) ++ utf8 (httpPayload page) ++ utf8 (crlf ++ crlf)

/-- Name of a WARC file. -/
def warcName (sequence : ℕ) : Str := "crawl-".toList ++ padded 8 sequence ++ ".warc.zst".toList

/-! ### Reading -/

/-- The first line, up to CR LF, and what follows. -/
def takeLine : List UInt8 → Option (List UInt8 × List UInt8)
  | [] => none
  | b :: bytes =>
    match b, bytes with
    | 13, 10 :: rest => some ([], rest)
    | b, bytes => (takeLine bytes).map fun p => (b :: p.1, p.2)

/-- The lines up to the first empty one, and what follows it; at most `fuel` lines. -/
def takeLines : ℕ → List UInt8 → Option (List (List UInt8) × List UInt8)
  | 0, _ => none
  | fuel + 1, bytes =>
    match takeLine bytes with
    | none => none
    | some ([], rest) => some ([], rest)
    | some (line, rest) => (takeLines fuel rest).map fun p => (line :: p.1, p.2)

/-- The value of the first line with this field name. -/
def fieldValue (name : Str) (lines : List (List UInt8)) : Option (List UInt8) :=
  lines.findSome? fun line => (utf8 (name ++ ": ".toList)).isPrefixOf? line

/-- The number that a string of decimal digits denotes. -/
def readDecimal (digits : List UInt8) : Option ℕ :=
  let digits := digits.map fun b => Char.ofNat b.toNat
  if digits ≠ [] ∧ digits.all Char.isDigit then some (Nat.ofDigitChars 10 digits 0) else none

/-- A head and its content. -/
structure Block where
  lines : List (List UInt8)
  content : List UInt8
  deriving DecidableEq, Repr

/-- The first head with as many bytes as its `Content-Length` says, and what follows.  Every
line takes two bytes at least, so the bound is never what stops the read. -/
def takeBlock (bytes : List UInt8) : Option (Block × List UInt8) := do
  let (lines, rest) ← takeLines (bytes.length + 1) bytes
  let value ← fieldValue "Content-Length".toList lines
  let length ← readDecimal value
  if length ≤ rest.length then some ({ lines, content := rest.take length }, rest.drop length)
  else none

/-- The first record of a file, and what follows. -/
def takeRecord (bytes : List UInt8) : Option (Block × List UInt8) := do
  let (block, rest) ← takeBlock bytes
  let rest ← (utf8 (crlf ++ crlf)).isPrefixOf? rest
  some (block, rest)

/-- The records of a file, at most `fuel` of them. -/
def readUpTo : ℕ → List UInt8 → Option (List Block)
  | _, [] => some []
  | 0, _ => none
  | fuel + 1, bytes => do
    let (block, rest) ← takeRecord bytes
    let blocks ← readUpTo fuel rest
    some (block :: blocks)

/-- The records of a file. -/
def readRecords (bytes : List UInt8) : Option (List Block) := readUpTo bytes.length bytes

/-! ### Lines -/

/-- A string that cannot end a line. -/
def Plain (s : Str) : Prop := '\r' ∉ s

instance (s : Str) : Decidable (Plain s) := inferInstanceAs (Decidable ('\r' ∉ s))

@[simp] theorem plain_append {s t : Str} : Plain (s ++ t) ↔ Plain s ∧ Plain t := by
  rw [Plain, List.mem_append, not_or]
  exact Iff.rfl

@[simp] theorem plain_cons {c : Char} {s : Str} : Plain (c :: s) ↔ c ≠ '\r' ∧ Plain s := by
  rw [Plain, List.mem_cons, not_or]
  exact and_congr_left' ⟨Ne.symm, Ne.symm⟩

@[simp] theorem plain_nil : Plain [] := List.not_mem_nil

theorem plain_padded (width n : ℕ) : Plain (padded width n) := by
  intro hc
  exact absurd (isDigit_of_mem_padded hc) (by decide)

theorem plain_paddedInt (width : ℕ) (z : ℤ) : Plain (paddedInt width z) := by
  rw [paddedInt]
  split
  · exact plain_cons.mpr ⟨by decide, plain_padded _ _⟩
  · exact plain_padded _ _

theorem plain_hex (width n : ℕ) : Plain (hex width n) := by
  induction width generalizing n with
  | zero => exact plain_nil
  | succ width ih =>
    have hdigit : ∀ d < 16, Nat.digitChar d ≠ '\r' := by decide
    rw [hex, plain_append, plain_cons]
    exact ⟨ih _, hdigit _ (Nat.mod_lt _ (by decide)), plain_nil⟩

theorem plain_iso8601 (t : ℤ) : Plain (iso8601 t) := by
  simp only [iso8601, plain_append, plain_cons, plain_nil, plain_padded, plain_paddedInt, and_true,
    ne_eq, Char.reduceEq, not_false_eq_true]

theorem plain_uuid (a b c d e : ℕ) : Plain ("urn:uuid:".toList ++ hex 8 a ++ '-' :: hex 4 b ++
    '-' :: hex 4 c ++ '-' :: hex 4 d ++ '-' :: hex 12 e) := by
  have hscheme : Plain "urn:uuid:".toList := by decide
  simp only [plain_append, plain_cons, hscheme, plain_hex, and_true, ne_eq, Char.reduceEq,
    not_false_eq_true]

theorem plain_recordId (contentHash : Str → ℕ) (url : Str) (fetchedAt : ℤ) :
    Plain (recordId contentHash url fetchedAt) := plain_uuid _ _ _ _ _

theorem plain_warcName (sequence : ℕ) : Plain (warcName sequence) := by
  unfold warcName
  simp only [plain_append, plain_padded]
  decide

/-- No byte of such a string is a carriage return. -/
theorem Plain.utf8 {s : Str} (h : Plain s) : 13 ∉ utf8 s := by
  intro hc
  obtain ⟨c, hmem, hb⟩ := List.mem_flatMap.mp hc
  have hnat : c.toNat = 13 := toNat_of_mem_encodeChar hb (by decide)
  have hcr : c = '\r' := Char.toNat_inj.mp hnat
  exact h (hcr ▸ hmem)

theorem takeLine_line {line : List UInt8} (h : 13 ∉ line) (rest : List UInt8) :
    takeLine (line ++ 13 :: 10 :: rest) = some (line, rest) := by
  induction line with
  | nil => rfl
  | cons b line ih =>
    rw [List.mem_cons, not_or] at h
    have hb : b ≠ 13 := fun hc => h.1 hc.symm
    rw [List.cons_append, takeLine, ih h.2]
    · rfl
    · exact fun _ hc => absurd hc hb

theorem utf8_crlf : utf8 crlf = [13, 10] := by decide

/-- The lines of a head are read back. -/
theorem takeLines_headText {lines : List Str} (h : ∀ line ∈ lines, line ≠ [] ∧ Plain line)
    (rest : List UInt8) {fuel : ℕ} (hfuel : lines.length < fuel) :
    takeLines fuel (utf8 (headText lines) ++ rest) = some (lines.map utf8, rest) := by
  induction lines generalizing fuel with
  | nil =>
    obtain ⟨fuel, rfl⟩ : ∃ k, fuel = k + 1 := ⟨fuel - 1, by simp at hfuel; omega⟩
    rw [takeLines, headText, List.flatMap_nil, List.nil_append, utf8_crlf]
    rfl
  | cons line lines ih =>
    obtain ⟨fuel, rfl⟩ : ∃ k, fuel = k + 1 := ⟨fuel - 1, by simp at hfuel; omega⟩
    obtain ⟨hne, hplain⟩ := h line List.mem_cons_self
    have htext : utf8 (headText (line :: lines)) ++ rest =
        utf8 line ++ 13 :: 10 :: (utf8 (headText lines) ++ rest) := by
      rw [headText, List.flatMap_cons, List.append_assoc, utf8_append, utf8_append, utf8_crlf]
      simp only [List.append_assoc, List.cons_append, List.nil_append]
      rfl
    have hroom : lines.length < fuel := by simpa using hfuel
    have hrest := ih (fun l hl => h l (List.mem_cons_of_mem _ hl)) hroom
    rw [takeLines, htext, takeLine_line hplain.utf8]
    split
    · contradiction
    · rename_i heq
      -- a line is not empty
      cases line with
      | nil => exact absurd rfl hne
      | cons c line =>
        obtain ⟨b, bs, hb, -⟩ := encodeChar_spec c
        rw [utf8_cons, hb] at heq
        cases heq
    · rename_i heq
      cases heq
      rw [hrest]
      rfl

/-! ### Blocks -/

/-- The bytes of an ASCII string are its characters. -/
theorem chars_of_utf8 {s : Str} (h : ∀ c ∈ s, c.toNat < 128) :
    (utf8 s).map (fun b => Char.ofNat b.toNat) = s := by
  induction s with
  | nil => rfl
  | cons c s ih =>
    have hc : c.val.toNat < 128 := h c List.mem_cons_self
    have hbyte : String.utf8EncodeChar c = [UInt8.ofNat c.toNat] := by
      rw [String.utf8EncodeChar, if_pos (by omega)]
      rfl
    have hback : Char.ofNat (UInt8.ofNat c.toNat).toNat = c := by
      have hnat : (UInt8.ofNat c.toNat).toNat = c.toNat := by
        rw [UInt8.toNat_ofNat']
        exact Nat.mod_eq_of_lt (by show c.val.toNat < 256; omega)
      rw [hnat, Char.ofNat_toNat]
    rw [utf8_cons, hbyte, List.singleton_append, List.map_cons, hback,
      ih fun d hd => h d (List.mem_cons_of_mem _ hd)]

theorem readDecimal_decimal (n : ℕ) : readDecimal (utf8 (decimal n)) = some n := by
  have hdigits : ∀ c ∈ decimal n, c.isDigit := fun c hc => isDigit_of_mem_padded hc
  have hascii : ∀ c ∈ decimal n, c.toNat < 128 := by
    intro c hc
    have hdigit := hdigits c hc
    simp only [Char.isDigit, Bool.and_eq_true, decide_eq_true_eq, UInt32.le_iff_toNat_le] at hdigit
    have hle : c.toNat ≤ 57 := hdigit.2
    omega
  simp only [readDecimal, chars_of_utf8 hascii]
  rw [if_pos ⟨padded_ne_nil 0 n, List.all_eq_true.mpr hdigits⟩]
  exact congrArg some (ofDigitChars_padded 0 n)

/-- Lines that tell how long the content is. -/
structure Heads (lines : List Str) (content : List UInt8) : Prop where
  each : ∀ line ∈ lines, line ≠ [] ∧ Plain line
  length : fieldValue "Content-Length".toList (lines.map utf8) = some (utf8 (decimal content.length))

theorem length_le_headText (lines : List Str) : lines.length ≤ (utf8 (headText lines)).length := by
  induction lines with
  | nil => exact Nat.zero_le _
  | cons line lines ih =>
    have hcons : utf8 (headText (line :: lines)) = utf8 (line ++ crlf) ++ utf8 (headText lines) := by
      rw [headText, List.flatMap_cons, List.append_assoc, utf8_append]
      rfl
    rw [hcons, List.length_append, utf8_append, List.length_append, utf8_crlf, List.length_cons]
    simp only [List.length_cons, List.length_nil]
    omega

/-- **A head and its content are read back**, whatever the content is and whatever follows. -/
theorem takeBlock_block {lines : List Str} {content : List UInt8} (h : Heads lines content)
    (rest : List UInt8) :
    takeBlock (utf8 (headText lines) ++ content ++ rest) =
      some ({ lines := lines.map utf8, content }, rest) := by
  have hfuel : lines.length < (utf8 (headText lines) ++ content ++ rest).length + 1 := by
    have hle := length_le_headText lines
    simp only [List.length_append]
    omega
  have hlines := takeLines_headText h.each (content ++ rest) hfuel
  rw [← List.append_assoc] at hlines
  rw [takeBlock, hlines]
  simp only [Option.bind_eq_bind, Option.bind_some, h.length, readDecimal_decimal,
    List.length_append]
  rw [if_pos (Nat.le_add_right _ _), List.take_left, List.drop_left]

/-- The bytes of a record. -/
def recordBytes (lines : List Str) (content : List UInt8) : List UInt8 :=
  utf8 (headText lines) ++ content ++ utf8 (crlf ++ crlf)

theorem takeRecord_record {lines : List Str} {content : List UInt8} (h : Heads lines content)
    (rest : List UInt8) :
    takeRecord (recordBytes lines content ++ rest) =
      some ({ lines := lines.map utf8, content }, rest) := by
  have hblock := takeBlock_block h (utf8 (crlf ++ crlf) ++ rest)
  rw [← List.append_assoc] at hblock
  have hend : (utf8 (crlf ++ crlf)).isPrefixOf? (utf8 (crlf ++ crlf) ++ rest) = some rest :=
    List.isPrefixOf?_eq_some_iff_append_eq.mpr rfl
  rw [recordBytes, takeRecord, hblock]
  simp only [Option.bind_eq_bind, Option.bind_some, hend]

/-- The records of a file are read one after the other. -/
theorem readRecords_records (records : List (List Str × List UInt8))
    (h : ∀ record ∈ records, Heads record.1 record.2) :
    readRecords (records.flatMap fun record => recordBytes record.1 record.2) =
      some (records.map fun record =>
        { lines := record.1.map utf8, content := record.2 }) := by
  have hread : ∀ fuel, records.length ≤ fuel →
      readUpTo fuel (records.flatMap fun record => recordBytes record.1 record.2) =
        some (records.map fun record =>
          { lines := record.1.map utf8, content := record.2 }) := by
    induction records with
    | nil =>
      intro fuel _
      cases fuel <;> rfl
    | cons record records ih =>
      intro fuel hfuel
      obtain ⟨fuel, rfl⟩ : ∃ k, fuel = k + 1 := ⟨fuel - 1, by simp at hfuel; omega⟩
      have htake := takeRecord_record (h record List.mem_cons_self)
        (records.flatMap fun record => recordBytes record.1 record.2)
      have hrest := ih (fun r hr => h r (List.mem_cons_of_mem _ hr)) fuel (by simpa using hfuel)
      rw [List.flatMap_cons]
      -- a record has bytes
      cases hbytes : recordBytes record.1 record.2 ++
          records.flatMap fun record => recordBytes record.1 record.2 with
      | nil =>
        rw [hbytes] at htake
        cases htake
      | cons b bytes =>
        rw [hbytes] at htake
        rw [readUpTo, htake]
        · simp only [Option.bind_eq_bind, Option.bind_some, hrest, List.map_cons]
        · exact fun hc => by cases hc
  refine hread _ ?_
  clear hread
  induction records with
  | nil => exact Nat.zero_le _
  | cons record records ih =>
    have hle := ih fun r hr => h r (List.mem_cons_of_mem _ hr)
    have hpos : 0 < (recordBytes record.1 record.2).length := by
      simp only [recordBytes, List.length_append, show (utf8 (crlf ++ crlf)).length = 4 by decide]
      omega
    rw [List.flatMap_cons, List.length_append, List.length_cons]
    omega

/-! ### The fields of a head -/

/-- Whether two strings differ in a place that both have. -/
def apart : List UInt8 → List UInt8 → Bool
  | a :: as, b :: bs => a != b || apart as bs
  | _, _ => false

theorem isPrefixOf?_of_apart {l l' : List UInt8} (h : apart l l' = true) (rest : List UInt8) :
    l.isPrefixOf? (l' ++ rest) = none := by
  induction l generalizing l' with
  | nil => cases h
  | cons a l ih =>
    cases l' with
    | nil => cases h
    | cons b l' =>
      rw [List.cons_append, List.isPrefixOf?]
      split
      · rename_i hab
        refine ih ?_
        rwa [apart, bne, hab, Bool.not_true, Bool.false_or] at h
      · rfl

/-- The line of the field that is asked for. -/
theorem fieldValue_self {name start : Str} (hstart : start = name ++ ": ".toList) (value : Str)
    (lines : List (List UInt8)) :
    fieldValue name (utf8 (start ++ value) :: lines) = some (utf8 value) := by
  have hprefix : (utf8 (name ++ ": ".toList)).isPrefixOf? (utf8 (start ++ value))
      = some (utf8 value) := by
    rw [hstart, utf8_append (name ++ ": ".toList)]
    exact List.isPrefixOf?_eq_some_iff_append_eq.mpr rfl
  rw [fieldValue, List.findSome?_cons, hprefix]

/-- A line of another field. -/
theorem fieldValue_other {name start : Str}
    (hapart : apart (utf8 (name ++ ": ".toList)) (utf8 start) = true) (value : Str)
    (lines : List (List UInt8)) :
    fieldValue name (utf8 (start ++ value) :: lines) = fieldValue name lines := by
  rw [fieldValue, List.findSome?_cons, utf8_append start, isPrefixOf?_of_apart hapart]
  rfl

/-- A page whose content type is a line. -/
def PlainType (page : FetchedPage) : Prop :=
  ∀ contentType, page.contentType = some contentType → Plain contentType

theorem httpLines_heads {page : FetchedPage} (h : PlainType page) :
    Heads (httpLines page) (utf8 page.body) := by
  have htype : Plain (page.contentType.getD "text/html; charset=utf-8".toList) := by
    cases htype : page.contentType with
    | none => decide
    | some contentType => exact h contentType htype
  constructor
  · intro line hline
    simp only [httpLines, List.mem_cons, List.not_mem_nil, or_false] at hline
    rcases hline with rfl | rfl | rfl
    · exact ⟨by simp, plain_append.mpr ⟨plain_append.mpr ⟨by decide, plain_padded _ _⟩, by decide⟩⟩
    · exact ⟨by simp, plain_append.mpr ⟨by decide, htype⟩⟩
    · exact ⟨by simp, plain_append.mpr ⟨by decide, plain_padded _ _⟩⟩
  · simp only [httpLines, List.map_cons, List.append_assoc]
    rw [fieldValue_other (by decide), fieldValue_other (by decide)]
    exact fieldValue_self (by decide) _ _

/-- **The body of a page is read back from its payload**, and nothing follows it. -/
theorem takeBlock_httpPayload {page : FetchedPage} (h : PlainType page) :
    takeBlock (utf8 (httpPayload page)) =
      some ({ lines := (httpLines page).map utf8, content := utf8 page.body }, []) := by
  have hblock := takeBlock_block (httpLines_heads h) []
  rwa [List.append_nil, ← utf8_append] at hblock

theorem responseLines_heads (contentHash : Str → ℕ) (page : FetchedPage) {document : Document}
    (h : Plain document.url) :
    Heads (responseLines contentHash document (byteLen (httpPayload page)))
      (utf8 (httpPayload page)) := by
  constructor
  · intro line hline
    simp only [responseLines, List.mem_cons, List.not_mem_nil, or_false] at hline
    rcases hline with rfl | rfl | rfl | rfl | rfl | rfl | rfl
    · decide
    · decide
    · exact ⟨by simp, plain_append.mpr
        ⟨plain_append.mpr ⟨by decide, plain_recordId _ _ _⟩, by decide⟩⟩
    · exact ⟨by simp, plain_append.mpr ⟨by decide, plain_iso8601 _⟩⟩
    · exact ⟨by simp, plain_append.mpr ⟨by decide, h⟩⟩
    · decide
    · exact ⟨by simp, plain_append.mpr ⟨by decide, plain_padded _ _⟩⟩
  · simp only [responseLines, List.map_cons, List.append_assoc]
    rw [← List.append_nil "WARC/1.1".toList, fieldValue_other (by decide),
      ← List.append_nil "WARC-Type: response".toList, fieldValue_other (by decide),
      fieldValue_other (by decide), fieldValue_other (by decide), fieldValue_other (by decide),
      ← List.append_nil "Content-Type: application/http; msgtype=response".toList,
      fieldValue_other (by decide)]
    exact fieldValue_self (by decide) _ _

/-- What a response record says of its page. -/
structure Describes (block : Block) (page : FetchedPage) (document : Document) : Prop where
  type : fieldValue "WARC-Type".toList block.lines = some (utf8 "response".toList)
  uri : fieldValue "WARC-Target-URI".toList block.lines = some (utf8 document.url)
  date : fieldValue "WARC-Date".toList block.lines = some (utf8 (iso8601 document.fetchedAt))
  payload : block.content = utf8 (httpPayload page)

def responseBlock (contentHash : Str → ℕ) (page : FetchedPage) (document : Document) : Block :=
  { lines := (responseLines contentHash document (byteLen (httpPayload page))).map utf8
    content := utf8 (httpPayload page) }

theorem responseBlock_describes (contentHash : Str → ℕ) (page : FetchedPage)
    (document : Document) : Describes (responseBlock contentHash page document) page document := by
  refine ⟨?_, ?_, ?_, rfl⟩
  · simp only [responseBlock, responseLines, List.map_cons]
    rw [← List.append_nil "WARC/1.1".toList, fieldValue_other (by decide)]
    exact @fieldValue_self "WARC-Type".toList "WARC-Type: ".toList (by decide) "response".toList _
  · simp only [responseBlock, responseLines, List.map_cons, List.append_assoc]
    rw [← List.append_nil "WARC/1.1".toList, fieldValue_other (by decide),
      ← List.append_nil "WARC-Type: response".toList, fieldValue_other (by decide),
      fieldValue_other (by decide), fieldValue_other (by decide)]
    exact fieldValue_self (by decide) _ _
  · simp only [responseBlock, responseLines, List.map_cons, List.append_assoc]
    rw [← List.append_nil "WARC/1.1".toList, fieldValue_other (by decide),
      ← List.append_nil "WARC-Type: response".toList, fieldValue_other (by decide),
      fieldValue_other (by decide)]
    exact fieldValue_self (by decide) _ _

def warcinfoBlock (contentHash : Str → ℕ) (now : ℤ) (filename : Str) : Block :=
  { lines := (warcinfoLines contentHash now filename).map utf8, content := utf8 warcinfoFields }

theorem warcinfoBlock_type (contentHash : Str → ℕ) (now : ℤ) (filename : Str) :
    fieldValue "WARC-Type".toList (warcinfoBlock contentHash now filename).lines
      = some (utf8 "warcinfo".toList) := by
  simp only [warcinfoBlock, warcinfoLines, List.map_cons]
  rw [← List.append_nil "WARC/1.1".toList, fieldValue_other (by decide)]
  exact @fieldValue_self "WARC-Type".toList "WARC-Type: ".toList (by decide) "warcinfo".toList _

theorem warcinfoLines_heads (contentHash : Str → ℕ) (now : ℤ) {filename : Str}
    (h : Plain filename) :
    Heads (warcinfoLines contentHash now filename) (utf8 warcinfoFields) := by
  constructor
  · intro line hline
    simp only [warcinfoLines, List.mem_cons, List.not_mem_nil, or_false] at hline
    rcases hline with rfl | rfl | rfl | rfl | rfl | rfl | rfl
    · decide
    · decide
    · exact ⟨by simp, plain_append.mpr
        ⟨plain_append.mpr ⟨by decide, plain_hex _ _⟩, by decide⟩⟩
    · exact ⟨by simp, plain_append.mpr ⟨by decide, plain_iso8601 _⟩⟩
    · exact ⟨by simp, plain_append.mpr ⟨by decide, h⟩⟩
    · decide
    · exact ⟨by simp, plain_append.mpr ⟨by decide, plain_padded _ _⟩⟩
  · simp only [warcinfoLines, List.map_cons, List.append_assoc]
    rw [← List.append_nil "WARC/1.1".toList, fieldValue_other (by decide),
      ← List.append_nil "WARC-Type: warcinfo".toList, fieldValue_other (by decide),
      fieldValue_other (by decide), fieldValue_other (by decide), fieldValue_other (by decide),
      ← List.append_nil "Content-Type: application/warc-fields".toList,
      fieldValue_other (by decide)]
    exact fieldValue_self (by decide) _ _

/-- What the compressor of a file is handed: its `warcinfo` record, and the responses. -/
def fileBytes (contentHash : Str → ℕ) (now : ℤ) (filename : Str)
    (pages : List (FetchedPage × Document)) : List UInt8 :=
  utf8 (warcinfoRecord contentHash now filename) ++
    pages.flatMap fun p => responseBytes contentHash p.1 p.2

/-- A page that its record can hold: no line of the two heads is broken. -/
def Recordable (page : FetchedPage) (document : Document) : Prop :=
  Plain document.url ∧ PlainType page

/-- **A file is read as its `warcinfo` and the responses**, in the order they were written. -/
theorem readRecords_file (contentHash : Str → ℕ) (now : ℤ) {filename : Str}
    (hname : Plain filename) {pages : List (FetchedPage × Document)}
    (hpages : ∀ p ∈ pages, Recordable p.1 p.2) :
    readRecords (fileBytes contentHash now filename pages) =
      some (warcinfoBlock contentHash now filename ::
        pages.map fun p => responseBlock contentHash p.1 p.2) := by
  have hread := readRecords_records
    ((warcinfoLines contentHash now filename, utf8 warcinfoFields) ::
      pages.map fun p =>
        (responseLines contentHash p.2 (byteLen (httpPayload p.1)), utf8 (httpPayload p.1))) (by
    intro record hrecord
    rcases List.mem_cons.mp hrecord with rfl | hrecord
    · exact warcinfoLines_heads contentHash now hname
    · obtain ⟨p, hp, rfl⟩ := List.mem_map.mp hrecord
      exact responseLines_heads contentHash p.1 (hpages p hp).1)
  have hinfo : utf8 (warcinfoRecord contentHash now filename) =
      recordBytes (warcinfoLines contentHash now filename) (utf8 warcinfoFields) := by
    rw [warcinfoRecord, List.append_assoc, utf8_append, utf8_append]
    rfl
  rw [List.flatMap_cons, List.flatMap_map, List.map_cons, List.map_map] at hread
  rw [fileBytes, hinfo]
  exact hread

end Warc
