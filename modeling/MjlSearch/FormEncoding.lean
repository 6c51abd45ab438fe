/-
The form encoding of a query, `application/x-www-form-urlencoded`.

A query is pieces between ampersands; a piece that is not empty is a pair, its key
and value apart at the first equals sign.  In both, a plus sign is a space and a
percent sign with two hexadecimal digits is a byte, and the bytes are read as UTF-8.

* `parse_serialize` — the pairs written are read back;
* `parse_join` — the pairs of a query are those of its pieces, one by one;
* `serialize_clean` — what is written needs no escape in a URL.
-/
import MjlSearch.Policy

open Text

namespace FormEncoding

def hexDigit (n : ℕ) : Char := Char.ofNat (if n < 10 then 48 + n else 55 + n)

/-- The bytes a key or a value spells. -/
def decodeBytes : Str → List UInt8
  | [] => []
  | c :: s =>
    if c = '+' then 32 :: decodeBytes s
    else if c = '%' then
      match s with
      | [] => [37]
      | [h] => 37 :: decodeBytes [h]
      | h :: l :: rest =>
        match hexValue h, hexValue l with
        | some x, some y => UInt8.ofNat (16 * x + y) :: decodeBytes rest
        -- a percent sign that no two digits follow stands for itself
        | _, _ => 37 :: decodeBytes (h :: l :: rest)
    else String.utf8EncodeChar c ++ decodeBytes s

/-- The text a key or a value spells. -/
def decode (s : Str) : Str := fromUtf8Lossy (decodeBytes s)

/-- Whether a byte is written as itself. -/
def isPlain (b : UInt8) : Bool :=
  let c := Char.ofNat b.toNat
  c.isAlphanum || c == '*' || c == '-' || c == '.' || c == '_'

def encodeByte (b : UInt8) : Str :=
  if isPlain b then [Char.ofNat b.toNat]
  else if b = 32 then ['+']
  else ['%', hexDigit (b.toNat / 16), hexDigit (b.toNat % 16)]

/-- How a key or a value is written. -/
def encode (s : Str) : Str := (utf8 s).flatMap encodeByte

/-- The pieces of a query; an empty query has none. -/
def pieces (query : Str) : List Str := if query = [] then [] else query.splitOn '&'

/-- The query made of pieces. -/
def join (pieces : List Str) : Str := ['&'].intercalate pieces

/-- The pair a piece stands for. -/
def readPiece (piece : Str) : Str × Str :=
  (decode (piece.takeWhile fun c => c != '='), decode (piece.dropWhile fun c => c != '=').tail)

/-- The pairs of a list of pieces: an empty piece is none. -/
def readPieces (pieces : List Str) : List (Str × Str) :=
  (pieces.filter fun piece => !piece.isEmpty).map readPiece

/-- `form_urlencoded::parse`. -/
def parse (query : Str) : List (Str × Str) := readPieces (pieces query)

def writePair (pair : Str × Str) : Str := encode pair.1 ++ '=' :: encode pair.2

/-- `form_urlencoded::Serializer`. -/
def serialize (pairs : List (Str × Str)) : Str := join (pairs.map writePair)

/-- The `url` crate's form encoding. -/
def formUrlencoded : FormUrlencoded := { parse, serialize }

/-- Whether a character stands in the query of a URL unescaped. -/
def isQueryChar (c : Char) : Bool :=
  let n := c.toNat
  0x21 ≤ n ∧ n ≤ 0x7E ∧ n ≠ 0x22 ∧ n ≠ 0x23 ∧ n ≠ 0x27 ∧ n ≠ 0x3C ∧ n ≠ 0x3E

/-! ### Keys and values -/

theorem hexValue_hexDigit : ∀ n < 16, hexValue (hexDigit n) = some n := by decide

theorem plain_spec : ∀ n < 256, isPlain (UInt8.ofNat n) = true →
    Char.ofNat n ≠ '+' ∧ Char.ofNat n ≠ '%' ∧
      String.utf8EncodeChar (Char.ofNat n) = [UInt8.ofNat n] := by
  decide +kernel

theorem encodeByte_all : ∀ n < 256, ((encodeByte (UInt8.ofNat n)).all fun c =>
    isQueryChar c && c != '&' && c != '=') = true := by
  decide +kernel

/-- A byte that is written is read back. -/
theorem decodeBytes_encodeByte (b : UInt8) (s : Str) :
    decodeBytes (encodeByte b ++ s) = b :: decodeBytes s := by
  have hb : b.toNat < 256 := b.toNat_lt
  have hof : UInt8.ofNat b.toNat = b := UInt8.ofNat_toNat
  rw [encodeByte]
  by_cases hplain : isPlain b = true
  · obtain ⟨hplus, hpercent, hutf8⟩ := plain_spec b.toNat hb (by rwa [hof])
    rw [if_pos hplain, List.singleton_append, decodeBytes.eq_def]
    simp only [hplus, hpercent, if_false, hutf8, hof]
    rfl
  · rw [if_neg hplain]
    by_cases hspace : b = 32
    · rw [if_pos hspace, hspace, List.singleton_append, decodeBytes.eq_def]
      rfl
    · rw [if_neg hspace]
      show decodeBytes ('%' :: hexDigit (b.toNat / 16) :: hexDigit (b.toNat % 16) :: s) = _
      have hlow : b.toNat % 16 < 16 := Nat.mod_lt _ (by omega)
      rw [decodeBytes.eq_def]
      simp only [hexValue_hexDigit _ (show b.toNat / 16 < 16 by omega), hexValue_hexDigit _ hlow]
      rw [show 16 * (b.toNat / 16) + b.toNat % 16 = b.toNat by omega, hof]
      simp

/-- **A text that is written is read back.** -/
theorem decode_encode (s : Str) : decode (encode s) = s := by
  have hbytes : ∀ bs : List UInt8, decodeBytes (bs.flatMap encodeByte) = bs := by
    intro bs
    induction bs with
    | nil => rfl
    | cons b bs ih => rw [List.flatMap_cons, decodeBytes_encodeByte, ih]
  rw [decode, encode, hbytes, fromUtf8Lossy_utf8]

theorem encode_spec (s : Str) : ∀ c ∈ encode s, isQueryChar c = true ∧ c ≠ '&' ∧ c ≠ '=' := by
  intro c hc
  obtain ⟨b, _, hb⟩ := List.mem_flatMap.mp hc
  have hall := encodeByte_all b.toNat b.toNat_lt
  rw [UInt8.ofNat_toNat] at hall
  simpa [and_assoc] using List.all_eq_true.mp hall c hb

/-! ### Pieces -/

theorem join_pieces (query : Str) : join (pieces query) = query := by
  rw [join, pieces]
  split
  · rename_i hempty
    rw [hempty]
    rfl
  · exact List.intercalate_splitOn '&'

/-- Pieces without an ampersand, not only an empty one, are the pieces of the query they
make. -/
theorem pieces_join {parts : List Str} (hparts : ∀ part ∈ parts, '&' ∉ part)
    (hne : parts ≠ [[]]) : pieces (join parts) = parts := by
  rw [pieces]
  split
  · rename_i hempty
    rcases parts with _ | ⟨part, parts⟩
    · rfl
    · rcases parts with _ | ⟨part', parts⟩
      · rw [join, List.intercalate_singleton] at hempty
        rw [hempty] at hne
        exact absurd rfl hne
      · rw [join, List.intercalate_cons_cons] at hempty
        simp at hempty
  · rename_i hempty
    refine List.splitOn_intercalate '&' hparts ?_
    rintro rfl
    exact hempty rfl

/-- **The pairs of a query are those of its pieces.** -/
theorem parse_join {parts : List Str} (hparts : ∀ part ∈ parts, '&' ∉ part) :
    parse (join parts) = readPieces parts := by
  by_cases hne : parts = [[]]
  · rw [hne]
    rfl
  · rw [parse, pieces_join hparts hne]

theorem not_mem_of_mem_splitOn {s piece : Str} (h : piece ∈ s.splitOn '&') : '&' ∉ piece := by
  induction s generalizing piece with
  | nil =>
    rw [List.splitOn_nil, List.mem_singleton] at h
    rw [h]
    exact List.not_mem_nil
  | cons c s ih =>
    rw [List.splitOn_cons_eq_if_modifyHead] at h
    split at h
    · rcases List.mem_cons.mp h with rfl | h
      · exact List.not_mem_nil
      · exact ih h
    · rename_i hc
      rcases hsplit : s.splitOn '&' with _ | ⟨first, others⟩
      · exact absurd hsplit (List.splitOn_ne_nil '&' s)
      · rw [hsplit, List.modifyHead_cons] at h
        rw [hsplit] at ih
        rcases List.mem_cons.mp h with rfl | h
        · rw [List.mem_cons, not_or]
          refine ⟨fun heq => hc ?_, ih List.mem_cons_self⟩
          rw [← heq]
          rfl
        · exact ih (List.mem_cons_of_mem _ h)

theorem mem_pieces {query piece : Str} (h : piece ∈ pieces query) : '&' ∉ piece := by
  rw [pieces] at h
  split at h
  · cases h
  · exact not_mem_of_mem_splitOn h

theorem mem_join {parts : List Str} {c : Char} (h : c ∈ join parts) :
    c = '&' ∨ ∃ part ∈ parts, c ∈ part := by
  induction parts with
  | nil => cases h
  | cons part parts ih =>
    rcases parts with _ | ⟨next, parts⟩
    · rw [join, List.intercalate_singleton] at h
      exact Or.inr ⟨part, List.mem_singleton_self _, h⟩
    · rw [join, List.intercalate_cons_cons, List.mem_append, List.mem_append,
        List.mem_singleton] at h
      rcases h with (h | h) | h
      · exact Or.inr ⟨part, List.mem_cons_self, h⟩
      · exact Or.inl h
      · rcases ih h with hc | ⟨piece, hpiece, hc⟩
        · exact Or.inl hc
        · exact Or.inr ⟨piece, List.mem_cons_of_mem _ hpiece, hc⟩

theorem mem_join_of_mem {parts : List Str} {part : Str} {c : Char} (h : part ∈ parts)
    (hc : c ∈ part) : c ∈ join parts := by
  induction parts with
  | nil => cases h
  | cons first parts ih =>
    rcases parts with _ | ⟨next, parts⟩
    · rw [join, List.intercalate_singleton, ← List.mem_singleton.mp h]
      exact hc
    · rw [join, List.intercalate_cons_cons, List.mem_append, List.mem_append]
      rcases List.mem_cons.mp h with rfl | h
      · exact Or.inl (Or.inl hc)
      · exact Or.inr (ih h)

theorem readPiece_writePair (pair : Str × Str) : readPiece (writePair pair) = pair := by
  have hkey : ∀ c ∈ encode pair.1, (c != '=') = true := by
    intro c hc
    simpa using (encode_spec pair.1 c hc).2.2
  rw [readPiece, writePair, List.takeWhile_append_of_pos hkey, List.dropWhile_append_of_pos hkey]
  simp [decode_encode]

/-- **The pairs written are read back.** -/
theorem parse_serialize (pairs : List (Str × Str)) : parse (serialize pairs) = pairs := by
  have hparts : ∀ part ∈ pairs.map writePair, '&' ∉ part := by
    intro part hpart hmem
    obtain ⟨pair, _, rfl⟩ := List.mem_map.mp hpart
    rw [writePair, List.mem_append, List.mem_cons] at hmem
    rcases hmem with hmem | heq | hmem
    · exact (encode_spec _ _ hmem).2.1 rfl
    · exact absurd heq (by decide)
    · exact (encode_spec _ _ hmem).2.1 rfl
  rw [serialize, parse_join hparts, readPieces, List.filter_eq_self.mpr]
  · rw [List.map_map]
    exact List.map_id''  readPiece_writePair pairs
  · intro part hpart
    obtain ⟨pair, _, rfl⟩ := List.mem_map.mp hpart
    simp [writePair]

example : parse "q=a+b%2Cc&x&&utm_source=%zz".toList =
    [("q".toList, "a b,c".toList), ("x".toList, []), ("utm_source".toList, "%zz".toList)] := by
  decide +kernel

/-- **What is written needs no escape in a URL.** -/
theorem serialize_clean (pairs : List (Str × Str)) :
    ∀ c ∈ serialize pairs, isQueryChar c = true := by
  intro c hc
  rcases mem_join hc with rfl | ⟨part, hpart, hc⟩
  · decide
  · obtain ⟨pair, _, rfl⟩ := List.mem_map.mp hpart
    rw [writePair, List.mem_append, List.mem_cons] at hc
    rcases hc with hc | rfl | hc
    · exact (encode_spec _ c hc).1
    · decide
    · exact (encode_spec _ c hc).1

end FormEncoding
