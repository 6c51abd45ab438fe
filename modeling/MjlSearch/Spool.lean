/-
The hand-off format between the crawler and the indexer (`common::spool`).

A segment is a sequence of frames: a little-endian `u32` length and that many
bytes of an encoded `Document`.  The encoding is postcard's; it enters as a
`Codec`, the pair of functions with the law that decoding undoes encoding.

* `readExactOrEof_of_delivers` — filling a buffer does not depend on how the
  bytes arrive;
* `frames_round_trip` — frames are read back exactly, and a cut is told from a
  clean end wherever it falls;
* `parseSegmentSequence_sealedSegmentName` — a segment's name gives back its
  number, and only a sealed name is readable (`isSealed_openSegmentName`).
-/
import MjlSearch.Bytes
import MjlSearch.ByteSource
import MjlSearch.Text

open Text

/-- One fetched page, ready for storage and indexing. -/
structure Document where
  url : Str
  title : Str
  body : Str
  fetchedAt : ℤ
  contentHash : ℕ
  outlinks : List Str
  deriving DecidableEq, Repr

/-- A serialisation format: what it encodes, it decodes. -/
structure Codec (α : Type) where
  encode : α → Option (List UInt8)
  decode : List UInt8 → Option α
  decode_encode : ∀ {a bs}, encode a = some bs → decode bs = some a

namespace Spool

open Bytes ByteSource

/-- Byte length of a frame header. -/
def frameHeaderBytes : ℕ := 4

/-- Errors from reading or writing spool frames. -/
inductive SpoolError
  | io
  | encode
  | decode
  | truncated (expected found : ℕ)
  deriving DecidableEq, Repr

/-- The bytes one frame hands to the writer, header first, and how many they are. -/
def writeFrame (codec : Codec Document) (document : Document) :
    Except SpoolError (List UInt8 × ℕ) :=
  match codec.encode document with
  | none => .error .encode
  | some payload =>
    if payload.length < 2 ^ 32 then
      .ok (toLeBytes 4 payload.length ++ payload, frameHeaderBytes + payload.length)
    else .error (.truncated (2 ^ 32 - 1) payload.length)

/-- The end of input with `filled` in the buffer: clean only if nothing came. -/
def atEnd (len : ℕ) (filled : List UInt8) : Except SpoolError (Option (List UInt8)) :=
  if filled.length = 0 then .ok none else .error (.truncated len filled.length)

/-- Fills a buffer of `len` bytes entirely, reporting whether any bytes were
available at all: `none` is the source's `Ok(false)`, `some` the full buffer. -/
def readExactOrEof (len : ℕ) : ByteSource → List UInt8 →
    Except SpoolError (Option (List UInt8)) × ByteSource
  | .eof, filled =>
    if filled.length < len then (atEnd len filled, .eof) else (.ok (some filled), .eof)
  | .call reply next, filled =>
    if filled.length < len then
      match reply (len - filled.length) with
      | .bytes [] => (atEnd len filled, next (len - filled.length))
      | .bytes (b :: bs) => readExactOrEof len (next (len - filled.length)) (filled ++ b :: bs)
      | .interrupted => readExactOrEof len (next (len - filled.length)) filled
      | .failed => (.error .io, next (len - filled.length))
    else (.ok (some filled), .call reply next)

/-- Reads one frame, or `ok none` at a clean end of segment. -/
def readFrame (codec : Codec Document) (src : ByteSource) :
    Except SpoolError (Option Document) × ByteSource :=
  match readExactOrEof frameHeaderBytes src [] with
  | (.error e, src) => (.error e, src)
  | (.ok none, src) => (.ok none, src)
  | (.ok (some header), src) =>
    let length := fromLeBytes header
    match readExactOrEof length src [] with
    | (.error e, src) => (.error e, src)
    | (.ok none, src) => (.error (.truncated length 0), src)
    | (.ok (some payload), src) =>
      match codec.decode payload with
      | none => (.error .decode, src)
      | some document => (.ok (some document), src)

/-- How a repeated read of frames comes to its end. -/
inductive ReadEnd
  /-- `Ok(None)` after the last frame. -/
  | clean
  | failed (e : SpoolError)
  /-- The bound on the number of frames was reached first. -/
  | unfinished
  deriving DecidableEq, Repr

/-- Reads frames until the segment ends or a read fails, at most `fuel` times. -/
def readFrames (codec : Codec Document) : ℕ → ByteSource → List Document × ReadEnd
  | 0, _ => ([], .unfinished)
  | fuel + 1, src =>
    match readFrame codec src with
    | (.ok none, _) => ([], .clean)
    | (.error e, _) => ([], .failed e)
    | (.ok (some document), src) =>
      let (documents, stop) := readFrames codec fuel src
      (document :: documents, stop)

/-- Suffix of a segment still being appended to. -/
def openSuffix : Str := ".open".toList

/-- Suffix of a segment that is complete and safe to read. -/
def sealedSuffix : Str := ".pdoc".toList

/-- What the open and the sealed name of a segment have in common. -/
def segmentStem (sequence : ℕ) : Str := "segment-".toList ++ padded 12 sequence

/-- Filename of the segment a crawler is currently appending to. -/
def openSegmentName (sequence : ℕ) : Str := segmentStem sequence ++ openSuffix

/-- Filename of a complete, readable segment. -/
def sealedSegmentName (sequence : ℕ) : Str := segmentStem sequence ++ sealedSuffix

/-- Whether a filename denotes a complete segment. -/
def isSealed (name : Str) : Bool := sealedSuffix.isSuffixOf name

/-- Recovers the sequence number from a segment filename, sealed or open. -/
def parseSegmentSequence (name : Str) : Option ℕ := do
  let stem ← (sealedSuffix.isSuffixOf? name).or (openSuffix.isSuffixOf? name)
  let digits ← "segment-".toList.isPrefixOf? stem
  parseU64 digits

/-! ### Segment names -/

theorem parse_stem {n : ℕ} (h : n < 2 ^ 64) :
    ("segment-".toList.isPrefixOf? (segmentStem n)).bind parseU64 = some n := by
  have hdigits : "segment-".toList.isPrefixOf? (segmentStem n) = some (padded 12 n) :=
    List.isPrefixOf?_eq_some_iff_append_eq.mpr rfl
  rw [hdigits]
  exact parseU64_padded h

theorem parseSegmentSequence_sealedSegmentName {n : ℕ} (h : n < 2 ^ 64) :
    parseSegmentSequence (sealedSegmentName n) = some n := by
  have hstem : sealedSuffix.isSuffixOf? (sealedSegmentName n)
      = some (segmentStem n) :=
    List.isSuffixOf?_eq_some_iff_append_eq.mpr rfl
  simp only [parseSegmentSequence, hstem, Option.some_or, Option.bind_eq_bind,
    Option.bind_some]
  exact parse_stem h

/-- The two suffixes are told apart by their last character. -/
theorem isSealed_openSegmentName (n : ℕ) : isSealed (openSegmentName n) = false := by
  rw [← Bool.not_eq_true, isSealed, List.isSuffixOf_iff_suffix]
  rintro ⟨t, ht⟩
  have hc : sealedSuffix.getLast? = some 'c' := by decide
  have hn : openSuffix.getLast? = some 'n' := by decide
  have hsealed : (t ++ sealedSuffix).getLast? = some 'c' := by
    rw [List.getLast?_append, hc, Option.some_or]
  have hopen : (segmentStem n ++ openSuffix).getLast? = some 'n' := by
    rw [List.getLast?_append, hn, Option.some_or]
  rw [ht, openSegmentName, hopen] at hsealed
  exact absurd hsealed (by decide)

theorem parseSegmentSequence_openSegmentName {n : ℕ} (h : n < 2 ^ 64) :
    parseSegmentSequence (openSegmentName n) = some n := by
  have hsealed : sealedSuffix.isSuffixOf? (openSegmentName n) = none := by
    rw [← Option.not_isSome_iff_eq_none, List.isSome_isSuffixOf?_eq_isSuffixOf]
    exact Bool.not_eq_true _ ▸ isSealed_openSegmentName n
  have hstem : openSuffix.isSuffixOf? (openSegmentName n)
      = some (segmentStem n) :=
    List.isSuffixOf?_eq_some_iff_append_eq.mpr rfl
  simp only [parseSegmentSequence, hsealed, hstem, Option.none_or, Option.bind_eq_bind,
    Option.bind_some]
  exact parse_stem h

theorem isSealed_sealedSegmentName (n : ℕ) : isSealed (sealedSegmentName n) = true := by
  rw [isSealed, List.isSuffixOf_iff_suffix]
  exact List.suffix_append _ _

theorem sealedSegmentName_injective {m n : ℕ} (hm : m < 2 ^ 64) (hn : n < 2 ^ 64)
    (h : sealedSegmentName m = sealedSegmentName n) : m = n := by
  have hp := congrArg parseSegmentSequence h
  rw [parseSegmentSequence_sealedSegmentName hm,
    parseSegmentSequence_sealedSegmentName hn] at hp
  exact Option.some.inj hp

/-! ### Filling a buffer -/

theorem readExactOrEof_full {len : ℕ} {filled : List UInt8} (src : ByteSource)
    (h : ¬ filled.length < len) :
    readExactOrEof len src filled = (.ok (some filled), src) := by
  cases src <;> simp only [readExactOrEof, if_neg h]

/-- One call of the loop, on a source that delivers. -/
theorem readExactOrEof_call {len : ℕ} {filled bs : List UInt8} {reply : ℕ → Reply}
    {next : ℕ → ByteSource} (h : Delivers (.call reply next) bs) (hroom : filled.length < len) :
    ∃ p rest, p.length ≤ len - filled.length ∧ bs = p ++ rest ∧
      Delivers (next (len - filled.length)) rest ∧
      readExactOrEof len (.call reply next) filled =
        readExactOrEof len (next (len - filled.length)) (filled ++ p) := by
  have hn : 0 < len - filled.length := Nat.sub_pos_of_lt hroom
  rcases h.cases_call hn with ⟨hr, htail⟩ | ⟨p, rest, hr, hne, hlen, hbs, htail⟩
  · refine ⟨[], bs, Nat.zero_le _, rfl, htail, ?_⟩
    rw [readExactOrEof, if_pos hroom, hr, List.append_nil]
  · refine ⟨p, rest, hlen, hbs, htail, ?_⟩
    obtain ⟨b, p', rfl⟩ := List.exists_cons_of_ne_nil hne
    rw [readExactOrEof, if_pos hroom, hr]

/-- **Filling a buffer does not depend on how the bytes arrive.**  With enough
of them the buffer holds the next ones; otherwise the loop stops at the end of
input with all of them in hand. -/
theorem readExactOrEof_of_delivers {len : ℕ} {src : ByteSource} {bs : List UInt8}
    (h : Delivers src bs) : ∀ filled : List UInt8, filled.length ≤ len →
    (len ≤ filled.length + bs.length →
      ∃ src', readExactOrEof len src filled
          = (.ok (some (filled ++ bs.take (len - filled.length))), src') ∧
        Delivers src' (bs.drop (len - filled.length))) ∧
    (filled.length + bs.length < len →
      ∃ src', readExactOrEof len src filled = (atEnd len (filled ++ bs), src')) := by
  induction src generalizing bs with
  | eof =>
    intro filled hle
    have hbs := h.eq_nil_of_eof
    subst hbs
    constructor
    · intro henough
      have hfull : ¬ filled.length < len := by simpa using henough
      refine ⟨.eof, ?_, ?_⟩
      · rw [readExactOrEof_full _ hfull, List.take_nil, List.append_nil]
      · rw [List.drop_nil]
        exact h
    · intro hshort
      have hroom : filled.length < len := by simpa using hshort
      exact ⟨.eof, by rw [readExactOrEof, if_pos hroom, List.append_nil]⟩
  | call reply next ih =>
    intro filled hle
    by_cases hroom : filled.length < len
    · obtain ⟨p, rest, hplen, rfl, htail, heq⟩ := readExactOrEof_call h hroom
      have hle' : (filled ++ p).length ≤ len := by
        rw [List.length_append]
        omega
      obtain ⟨hfull, hshort⟩ := ih _ htail (filled ++ p) hle'
      rw [heq]
      have hp : p.length ≤ len - filled.length := hplen
      have hgap : len - (filled ++ p).length = len - filled.length - p.length := by
        rw [List.length_append]
        omega
      constructor
      · intro henough
        obtain ⟨src', hread, hrest⟩ := hfull (by
          rw [List.length_append] at henough ⊢
          omega)
        refine ⟨src', ?_, ?_⟩
        · rw [hread, hgap, List.take_append, List.take_of_length_le hp, List.append_assoc]
        · rw [List.drop_append, List.drop_eq_nil_of_le hp, List.nil_append, ← hgap]
          exact hrest
      · intro hfew
        obtain ⟨src', hread⟩ := hshort (by
          rw [List.length_append] at hfew ⊢
          omega)
        exact ⟨src', by rw [hread, List.append_assoc]⟩
    · have hlen : filled.length = len := Nat.le_antisymm hle (Nat.not_lt.mp hroom)
      constructor
      · intro _
        refine ⟨.call reply next, ?_, ?_⟩
        · rw [readExactOrEof_full _ hroom, hlen, Nat.sub_self, List.take_zero,
            List.append_nil]
        · rw [hlen, Nat.sub_self, List.drop_zero]
          exact h
      · intro hfew
        omega

/-- A fresh buffer, with enough bytes to fill it. -/
theorem readExactOrEof_enough (len : ℕ) {src : ByteSource} {p rest : List UInt8}
    (h : Delivers src (p ++ rest)) (hlen : p.length = len) :
    ∃ src', readExactOrEof len src [] = (.ok (some p), src') ∧ Delivers src' rest := by
  obtain ⟨src', hread, hrest⟩ := (readExactOrEof_of_delivers h [] (Nat.zero_le len)).1 (by
    rw [List.length_append]
    simp only [List.length_nil]
    omega)
  refine ⟨src', ?_, ?_⟩
  · rw [hread, List.length_nil, Nat.sub_zero, List.nil_append, ← hlen, List.take_left]
  · rw [List.length_nil, Nat.sub_zero, ← hlen, List.drop_left] at hrest
    exact hrest

/-- A fresh buffer, with too few bytes to fill it. -/
theorem readExactOrEof_short (len : ℕ) {src : ByteSource} {bs : List UInt8}
    (h : Delivers src bs) (hlen : bs.length < len) :
    ∃ src', readExactOrEof len src [] = (atEnd len bs, src') := by
  obtain ⟨src', hread⟩ := (readExactOrEof_of_delivers h [] (Nat.zero_le len)).2 (by
    simp only [List.length_nil]
    omega)
  exact ⟨src', by rw [hread, List.nil_append]⟩

/-! ### Frames -/

/-- The concatenation of what `writeFrame` hands over for each document. -/
def segmentBytes (codec : Codec Document) : List Document → Option (List UInt8)
  | [] => some []
  | document :: documents =>
    match writeFrame codec document, segmentBytes codec documents with
    | .ok (frame, _), some rest => some (frame ++ rest)
    | _, _ => none

theorem segmentBytes_cons {codec : Codec Document} {document : Document}
    {documents : List Document} {bytes : List UInt8}
    (h : segmentBytes codec (document :: documents) = some bytes) :
    ∃ frame n rest, writeFrame codec document = .ok (frame, n) ∧
      segmentBytes codec documents = some rest ∧ bytes = frame ++ rest := by
  rw [segmentBytes] at h
  split at h
  · rename_i frame n rest hframe hrest
    exact ⟨frame, n, rest, hframe, hrest, (Option.some.inj h).symm⟩
  · cases h

theorem writeFrame_ok {codec : Codec Document} {document : Document} {frame : List UInt8}
    {n : ℕ} (h : writeFrame codec document = .ok (frame, n)) :
    ∃ payload, codec.encode document = some payload ∧ payload.length < 2 ^ 32 ∧
      frame = toLeBytes 4 payload.length ++ payload ∧ n = frame.length := by
  rw [writeFrame] at h
  split at h
  · cases h
  · rename_i payload hpayload
    split at h
    · rename_i hfit
      cases h
      exact ⟨payload, hpayload, hfit, rfl, by simp [frameHeaderBytes]⟩
    · cases h

theorem frame_length_pos {codec : Codec Document} {document : Document} {frame : List UInt8}
    {n : ℕ} (h : writeFrame codec document = .ok (frame, n)) : 0 < frame.length := by
  obtain ⟨payload, _, _, rfl, _⟩ := writeFrame_ok h
  rw [List.length_append, toLeBytes_length]
  omega

/-- A whole frame at the front is read as its document. -/
theorem readFrame_frame {codec : Codec Document} {document : Document}
    {frame rest : List UInt8} {n : ℕ} {src : ByteSource}
    (hw : writeFrame codec document = .ok (frame, n)) (h : Delivers src (frame ++ rest)) :
    ∃ src', readFrame codec src = (.ok (some document), src') ∧ Delivers src' rest := by
  obtain ⟨payload, hencode, hfit, rfl, _⟩ := writeFrame_ok hw
  rw [List.append_assoc] at h
  obtain ⟨src₁, hheader, htail⟩ := readExactOrEof_enough frameHeaderBytes h
    (toLeBytes_length 4 _)
  obtain ⟨src₂, hpayload, hrest⟩ := readExactOrEof_enough payload.length htail rfl
  refine ⟨src₂, ?_, hrest⟩
  have hlength : fromLeBytes (toLeBytes 4 payload.length) = payload.length :=
    fromLeBytes_toLeBytes (by omega)
  rw [readFrame, hheader]
  simp only [hlength]
  rw [hpayload]
  simp only [codec.decode_encode hencode]

/-- Nothing left is a clean end. -/
theorem readFrame_end (codec : Codec Document) {src : ByteSource} (h : Delivers src []) :
    ∃ src', readFrame codec src = (.ok none, src') := by
  obtain ⟨src', hread⟩ := readExactOrEof_short frameHeaderBytes h (by decide)
  refine ⟨src', ?_⟩
  rw [readFrame, hread]
  rfl

/-- A frame that stops early is an error that says how much was missing: in the
header if the cut is there, in the payload otherwise. -/
theorem readFrame_cut {codec : Codec Document} {document : Document} {frame : List UInt8}
    {n cut : ℕ} {src : ByteSource} (hw : writeFrame codec document = .ok (frame, n))
    (hpos : 0 < cut) (hcut : cut < frame.length) (h : Delivers src (frame.take cut)) :
    ∃ expected found src',
      readFrame codec src = (.error (.truncated expected found), src') := by
  obtain ⟨payload, hencode, hfit, rfl, _⟩ := writeFrame_ok hw
  rw [List.length_append, toLeBytes_length] at hcut
  by_cases hheader : cut < frameHeaderBytes
  · -- fewer than four bytes: the header loop stops with some of them in hand
    have hlen : (List.take cut (toLeBytes 4 payload.length ++ payload)).length = cut := by
      rw [List.length_take, List.length_append, toLeBytes_length]
      omega
    obtain ⟨src', hread⟩ := readExactOrEof_short frameHeaderBytes h (by omega)
    refine ⟨frameHeaderBytes, cut, src', ?_⟩
    rw [readFrame, hread, atEnd, hlen, if_neg (by omega)]
  · -- a whole header: the payload loop stops, possibly before its first byte
    have htake : (toLeBytes 4 payload.length ++ payload).take cut
        = toLeBytes 4 payload.length ++ payload.take (cut - 4) := by
      rw [List.take_append, toLeBytes_length, List.take_of_length_le]
      rw [toLeBytes_length]
      exact Nat.not_lt.mp hheader
    rw [htake] at h
    obtain ⟨src₁, hread, htail⟩ := readExactOrEof_enough frameHeaderBytes h
      (toLeBytes_length 4 _)
    have hlength : fromLeBytes (toLeBytes 4 payload.length) = payload.length :=
      fromLeBytes_toLeBytes (by omega)
    have hshort : (payload.take (cut - 4)).length < payload.length := by
      have hle : 4 ≤ cut := Nat.not_lt.mp hheader
      rw [List.length_take]
      omega
    obtain ⟨src₂, hread₂⟩ := readExactOrEof_short payload.length htail hshort
    rw [readFrame, hread]
    simp only [hlength]
    rw [hread₂, atEnd]
    by_cases hnone : (payload.take (cut - 4)).length = 0
    · rw [if_pos hnone]
      exact ⟨_, _, _, rfl⟩
    · rw [if_neg hnone]
      exact ⟨_, _, _, rfl⟩

/-- The cut falls between two frames, or at either end of the segment. -/
def Boundary (codec : Codec Document) (documents : List Document) (cut : ℕ) : Prop :=
  ∃ j whole, segmentBytes codec (documents.take j) = some whole ∧ cut = whole.length

theorem boundary_zero (codec : Codec Document) (documents : List Document) :
    Boundary codec documents 0 :=
  ⟨0, [], rfl, rfl⟩

theorem boundary_cons {codec : Codec Document} {document : Document}
    {documents : List Document} {frame : List UInt8} {n cut : ℕ}
    (hw : writeFrame codec document = .ok (frame, n)) (hcut : 0 < cut) :
    Boundary codec (document :: documents) cut ↔
      frame.length ≤ cut ∧ Boundary codec documents (cut - frame.length) := by
  constructor
  · rintro ⟨j, whole, hwhole, rfl⟩
    rcases j with _ | j
    · cases hwhole
      simp at hcut
    · obtain ⟨frame', n', rest, hframe, hrest, rfl⟩ := segmentBytes_cons hwhole
      rw [hw] at hframe
      cases hframe
      refine ⟨by simp, j, rest, hrest, by simp⟩
  · rintro ⟨hle, j, whole, hwhole, hlen⟩
    refine ⟨j + 1, frame ++ whole, ?_, ?_⟩
    · rw [List.take_succ_cons, segmentBytes, hw, hwhole]
    · rw [List.length_append]
      omega

/-- A segment read to its end gives back its documents. -/
theorem readFrames_segment {codec : Codec Document} {documents : List Document}
    {bytes : List UInt8} {src : ByteSource} (hbytes : segmentBytes codec documents = some bytes)
    (h : Delivers src bytes) {fuel : ℕ} (hfuel : documents.length < fuel) :
    readFrames codec fuel src = (documents, .clean) := by
  induction documents generalizing bytes src fuel with
  | nil =>
    cases hbytes
    obtain ⟨fuel, rfl⟩ : ∃ k, fuel = k + 1 := ⟨fuel - 1, by omega⟩
    obtain ⟨src', hread⟩ := readFrame_end codec h
    rw [readFrames, hread]
  | cons document documents ih =>
    obtain ⟨frame, n, rest, hframe, hrest, rfl⟩ := segmentBytes_cons hbytes
    obtain ⟨fuel, rfl⟩ : ∃ k, fuel = k + 1 := ⟨fuel - 1, by omega⟩
    obtain ⟨src', hread, htail⟩ := readFrame_frame hframe h
    rw [readFrames, hread]
    simp only [ih hrest htail (by simpa using hfuel)]

/-- A segment cut short gives a prefix of its documents, and ends cleanly
exactly when the cut is a frame boundary. -/
theorem readFrames_cut {codec : Codec Document} {documents : List Document}
    {bytes : List UInt8} (hbytes : segmentBytes codec documents = some bytes) :
    ∀ {cut : ℕ} {src : ByteSource}, cut < bytes.length → Delivers src (bytes.take cut) →
    ∃ k stop, k ≤ documents.length ∧
      (∀ fuel, k < fuel → readFrames codec fuel src = (documents.take k, stop)) ∧
      (stop = .clean ∨ ∃ expected found, stop = .failed (.truncated expected found)) ∧
      (stop = .clean ↔ Boundary codec documents cut) := by
  induction documents generalizing bytes with
  | nil =>
    intro cut src hcut _
    cases hbytes
    simp at hcut
  | cons document documents ih =>
    intro cut src hcut h
    obtain ⟨frame, n, rest, hframe, hrest, rfl⟩ := segmentBytes_cons hbytes
    rcases Nat.eq_zero_or_pos cut with rfl | hpos
    · rw [List.take_zero] at h
      obtain ⟨src', hread⟩ := readFrame_end codec h
      refine ⟨0, .clean, Nat.zero_le _, fun fuel hfuel => ?_, Or.inl rfl,
        iff_of_true rfl (boundary_zero codec _)⟩
      obtain ⟨fuel, rfl⟩ : ∃ k, fuel = k + 1 := ⟨fuel - 1, by omega⟩
      rw [readFrames, hread, List.take_zero]
    · by_cases hin : cut < frame.length
      · -- the cut is inside this frame
        rw [List.take_append_of_le_length (Nat.le_of_lt hin)] at h
        obtain ⟨expected, found, src', hread⟩ := readFrame_cut hframe hpos hin h
        refine ⟨0, .failed (.truncated expected found), Nat.zero_le _, fun fuel hfuel => ?_,
          Or.inr ⟨expected, found, rfl⟩, iff_of_false (by simp) ?_⟩
        · obtain ⟨fuel, rfl⟩ : ∃ k, fuel = k + 1 := ⟨fuel - 1, by omega⟩
          rw [readFrames, hread, List.take_zero]
        · rw [boundary_cons hframe hpos]
          rintro ⟨hle, _⟩
          omega
      · -- this frame is whole and the cut is in what follows
        have hle : frame.length ≤ cut := Nat.not_lt.mp hin
        have htake : (frame ++ rest).take cut = frame ++ rest.take (cut - frame.length) := by
          rw [List.take_append, List.take_of_length_le hle]
        rw [htake] at h
        obtain ⟨src', hread, htail⟩ := readFrame_frame hframe h
        obtain ⟨k, stop, hk, hreads, hstop, hclean⟩ := ih hrest (by
          rw [List.length_append] at hcut
          omega) htail
        refine ⟨k + 1, stop, Nat.succ_le_succ hk, fun fuel hfuel => ?_, hstop, ?_⟩
        · obtain ⟨fuel, rfl⟩ : ∃ k, fuel = k + 1 := ⟨fuel - 1, by omega⟩
          rw [readFrames, hread]
          simp only [hreads fuel (by omega), List.take_succ_cons]
        · rw [hclean, boundary_cons hframe hpos]
          exact ⟨fun hb => ⟨hle, hb⟩, fun hb => hb.2⟩

/-- **The frame format.**  The concatenation of frames is read back as exactly
the documents and then a clean end, however the bytes arrive.  Any strict prefix
gives a prefix of the documents, and then a clean end if the cut falls on a frame
boundary and a truncation error if it does not. -/
theorem frames_round_trip (codec : Codec Document) (documents : List Document)
    (bytes : List UInt8) (hbytes : segmentBytes codec documents = some bytes) :
    (∀ src, Delivers src bytes → ∀ fuel, documents.length < fuel →
      readFrames codec fuel src = (documents, .clean)) ∧
    (∀ cut src, cut < bytes.length → Delivers src (bytes.take cut) →
      ∃ k stop, k ≤ documents.length ∧
        (∀ fuel, k < fuel → readFrames codec fuel src = (documents.take k, stop)) ∧
        (stop = .clean ∨ ∃ expected found, stop = .failed (.truncated expected found)) ∧
        (stop = .clean ↔ Boundary codec documents cut)) :=
  ⟨fun _ h _ hfuel => readFrames_segment hbytes h hfuel,
    fun _ _ hcut h => readFrames_cut hbytes hcut h⟩

/-- A page with an empty title and body, at `h:`. -/
def samplePage : Document :=
  { url := "h:".toList, title := [], body := [], fetchedAt := 0,
    contentHash := 0x2d06800538d394c2, outlinks := [] }

/-- Another page of the site. -/
def otherPage : Document := { samplePage with url := "h:x".toList }

/-- The first page's postcard bytes: lengths and numbers as varints, in field order. -/
def samplePayload : List UInt8 :=
  [2, 104, 58, 0, 0, 0, 194, 169, 206, 198, 211, 128, 160, 131, 45, 0]

/-- The format cut down to one document. -/
def sampleCodec : Codec Document where
  encode d := if d = samplePage then some samplePayload else none
  decode bs := if bs = samplePayload then some samplePage else none
  decode_encode := by
    intro a bs h
    split at h
    · rename_i ha
      cases h
      rw [if_pos rfl, ha]
    · cases h

theorem frames_round_trip_sample :
    segmentBytes sampleCodec [samplePage, samplePage]
        = some (16 :: 0 :: 0 :: 0 :: samplePayload ++ 16 :: 0 :: 0 :: 0 :: samplePayload) ∧
      readFrames sampleCodec 3 (ofBytes
        (16 :: 0 :: 0 :: 0 :: samplePayload ++ 16 :: 0 :: 0 :: 0 :: samplePayload))
        = ([samplePage, samplePage], .clean) :=
  ⟨by decide, (frames_round_trip sampleCodec [samplePage, samplePage] _ (by decide)).1 _
    (ofBytes_delivers _) 3 (by decide)⟩

end Spool
