/-
The crawler's side of the hand-off (`crawler::storage`, spool half).

An `ArchiveWriter` appends frames to an open segment and rotates it: the segment
is renamed to its readable name once it is long enough, or when the run ends.
`WriterStep` is one step of that process against the spool directory.  Between
two steps the process may be killed, and every call that can fail may fail.

`Log` records what happened and takes no part in it: which documents are in the
open segment, which were written, and which were sealed.

* `Segment.Holds` — what the bytes of an unsealed segment are;
* `forEachDocument_holds` — a reader gets exactly its documents out of them,
  also when the last write stopped half way.
-/
import MjlSearch.SpoolDir

open Text Spool ByteSource

namespace Storage

/-- A spool segment being appended to.  `contents` is everything handed to its
buffered writer. -/
structure SpoolSegment where
  sequence : ℕ
  contents : List UInt8
  bytes : ℕ

/-- Writes spool segments. -/
structure ArchiveWriter where
  segment : Option SpoolSegment
  segmentSequence : ℕ

namespace SpoolSegment

def openName (segment : SpoolSegment) : Str := openSegmentName segment.sequence

def sealedName (segment : SpoolSegment) : Str := sealedSegmentName segment.sequence

/-- A new segment, empty. -/
def create (sequence : ℕ) : SpoolSegment := { sequence, contents := [], bytes := 0 }

/-- Appends one frame. -/
def write (codec : Codec Document) (segment : SpoolSegment) (document : Document) :
    Except SpoolError SpoolSegment :=
  match writeFrame codec document with
  | .error e => .error e
  | .ok (frame, n) =>
    .ok { segment with contents := segment.contents ++ frame, bytes := segment.bytes + n }

/-- A write that failed after these bytes of the frame were accepted. -/
def accept (segment : SpoolSegment) (part : List UInt8) : SpoolSegment :=
  { segment with contents := segment.contents ++ part }

/-- Flushes, fsyncs and renames the segment into its readable name. -/
def «seal» (segment : SpoolSegment) (spool : Directory) : Directory :=
  (spool.place segment.openName segment.contents).rename segment.openName segment.sealedName

end SpoolSegment

/-- Where the writer's process stands in the code. -/
inductive Phase
  /-- `open_segment` comes next. -/
  | opening
  /-- Between two calls. -/
  | idle
  /-- `seal_segment` comes next; after a rotation `open_segment` follows. -/
  | sealing (reopen : Bool)
  /-- A call returned an error, the run is ending and the writer is about to be
  dropped. -/
  | broken
  deriving DecidableEq, Repr

/-- The writer's process, when there is one. -/
abbrev Writer := Option (Phase × ArchiveWriter)

/-- The history of the documents. -/
structure Log where
  /-- In the open segment. -/
  current : List Document
  /-- Passed to a `write_page` that stored them. -/
  written : List Document
  /-- In a segment that was given its readable name. -/
  sealed : List Document

/-- The spool directory, the writer's process and the history. -/
structure State where
  spool : Directory
  writer : Writer
  log : Log

/-- What the writer's process does. -/
inductive Event
  | open (listing : List Str)
  | createSegment
  | createFails
  | writePage (document : Document)
  | writeFails (document : Document) (part : List UInt8)
  | flush (part : List UInt8)
  | close
  | sealSegment
  | sealFails
  | kill

/-- What a failing write may have stored of a document: nothing, or a strict
prefix of its frame. -/
def PartOf (codec : Codec Document) (document : Document) (part : List UInt8) : Prop :=
  part = [] ∨ ∃ frame n cut, writeFrame codec document = .ok (frame, n) ∧
    0 < cut ∧ cut < frame.length ∧ part = frame.take cut

/-- One step of the writer's process.  Numbers are `u64`: a run that uses them
all up is not modelled. -/
inductive WriterStep (codec : Codec Document) (segmentBytes : ℕ) :
    State → Event → State → Prop
  /-- `ArchiveWriter::open`: resume numbering from what is in the directory. -/
  | open {S : State} {listing : List Str} {n : ℕ} (hoff : S.writer = none)
      (hlist : S.spool.Lists listing) (hnext : nextSpoolSequence listing = some n) :
      WriterStep codec segmentBytes S (.open listing)
        { S with writer := some (.opening, { segment := none, segmentSequence := n }) }
  | createSegment {S : State} {w : ArchiveWriter} (hw : S.writer = some (.opening, w))
      (hfit : w.segmentSequence + 1 < 2 ^ 64) :
      WriterStep codec segmentBytes S .createSegment
        { spool := S.spool.create (openSegmentName w.segmentSequence)
          writer := some (.idle,
            { segment := some (.create w.segmentSequence)
              segmentSequence := w.segmentSequence + 1 })
          log := { S.log with current := [] } }
  | createFails {S : State} {w : ArchiveWriter} (hw : S.writer = some (.opening, w)) :
      WriterStep codec segmentBytes S .createFails { S with writer := none }
  /-- `write_page`: append, and rotate once the segment is long enough. -/
  | writePage {S : State} {w : ArchiveWriter} {segment segment' : SpoolSegment}
      {document : Document} (hw : S.writer = some (.idle, w))
      (hseg : w.segment = some segment)
      (hwrite : segment.write codec document = .ok segment') :
      WriterStep codec segmentBytes S (.writePage document)
        { S with
          writer := some (if segmentBytes ≤ segment'.bytes then .sealing true else .idle,
            { w with segment := some segment' })
          log := { S.log with
            current := S.log.current ++ [document]
            written := S.log.written ++ [document] } }
  /-- `write_page` fails, and `run` returns its error. -/
  | writeFails {S : State} {w : ArchiveWriter} {segment : SpoolSegment}
      {document : Document} {part : List UInt8} (hw : S.writer = some (.idle, w))
      (hseg : w.segment = some segment) (hpart : PartOf codec document part) :
      WriterStep codec segmentBytes S (.writeFails document part)
        { S with writer := some (.broken, { w with segment := some (segment.accept part) }) }
  /-- The buffered writer passes some of its bytes on to the file. -/
  | flush {S : State} {phase : Phase} {w : ArchiveWriter} {segment : SpoolSegment}
      {part : List UInt8} (hw : S.writer = some (phase, w)) (hseg : w.segment = some segment)
      (hpart : part <+: segment.contents) :
      WriterStep codec segmentBytes S (.flush part)
        { S with spool := S.spool.place segment.openName part }
  /-- `seal` on shutdown, or `drop` after an error. -/
  | close {S : State} {phase : Phase} {w : ArchiveWriter}
      (hw : S.writer = some (phase, w)) (hphase : phase = .idle ∨ phase = .broken) :
      WriterStep codec segmentBytes S .close { S with writer := some (.sealing false, w) }
  | sealSegment {S : State} {reopen : Bool} {w : ArchiveWriter} {segment : SpoolSegment}
      (hw : S.writer = some (.sealing reopen, w)) (hseg : w.segment = some segment) :
      WriterStep codec segmentBytes S .sealSegment
        { spool := segment.seal S.spool
          writer := if reopen then some (.opening, { w with segment := none }) else none
          log := { S.log with
            current := []
            sealed := S.log.sealed ++ S.log.current } }
  /-- Flush, fsync or rename fails.  The segment was taken out of the writer, so
  dropping it does nothing. -/
  | sealFails {S : State} {reopen : Bool} {w : ArchiveWriter}
      (hw : S.writer = some (.sealing reopen, w)) :
      WriterStep codec segmentBytes S .sealFails { S with writer := none }
  | kill {S : State} {phase : Phase} {w : ArchiveWriter}
      (hw : S.writer = some (phase, w)) :
      WriterStep codec segmentBytes S .kill { S with writer := none }

/-! ### The bytes of an unsealed segment -/

/-- The segment holds the frames of `documents`, and after them at most part of
one more frame. -/
def Holds (codec : Codec Document) (documents : List Document) (contents : List UInt8) : Prop :=
  ∃ whole part, segmentBytes codec documents = some whole ∧
    (part = [] ∨ ∃ document, PartOf codec document part) ∧ contents = whole ++ part

/-- The segment holds the frames of `documents` and nothing else. -/
def HoldsWhole (codec : Codec Document) (documents : List Document)
    (contents : List UInt8) : Prop :=
  segmentBytes codec documents = some contents

variable {codec : Codec Document}

theorem HoldsWhole.holds {documents : List Document} {contents : List UInt8}
    (h : HoldsWhole codec documents contents) : Holds codec documents contents :=
  ⟨contents, [], h, Or.inl rfl, (List.append_nil _).symm⟩

theorem segmentBytes_append {documents : List Document} {document : Document}
    {whole frame : List UInt8} {n : ℕ} (h : segmentBytes codec documents = some whole)
    (hw : writeFrame codec document = .ok (frame, n)) :
    segmentBytes codec (documents ++ [document]) = some (whole ++ frame) := by
  induction documents generalizing whole with
  | nil =>
    cases h
    rw [List.nil_append, segmentBytes, hw, segmentBytes, List.nil_append]
    show some (frame ++ []) = some frame
    rw [List.append_nil]
  | cons d documents ih =>
    obtain ⟨frame', n', rest, hframe', hrest, rfl⟩ := segmentBytes_cons h
    rw [List.cons_append, segmentBytes, hframe', ih hrest]
    simp only [List.append_assoc]

/-- `write` appends the document's frame. -/
theorem write_holdsWhole {documents : List Document} {document : Document}
    {segment segment' : SpoolSegment} (h : HoldsWhole codec documents segment.contents)
    (hwrite : segment.write codec document = .ok segment') :
    segment'.sequence = segment.sequence ∧
      HoldsWhole codec (documents ++ [document]) segment'.contents := by
  rw [SpoolSegment.write] at hwrite
  split at hwrite
  · cases hwrite
  · rename_i frame n hframe
    cases hwrite
    exact ⟨rfl, segmentBytes_append h hframe⟩

/-- The rest of a read whose next bytes are a whole segment. -/
theorem readFrames_append {documents : List Document} {whole rest : List UInt8}
    {src : ByteSource} (hwhole : segmentBytes codec documents = some whole)
    (h : Delivers src (whole ++ rest)) (fuel : ℕ) :
    ∃ src', Delivers src' rest ∧ readFrames codec (documents.length + fuel) src
      = (documents ++ (readFrames codec fuel src').1, (readFrames codec fuel src').2) := by
  induction documents generalizing whole src with
  | nil =>
    cases hwhole
    exact ⟨src, h, by rw [List.length_nil, Nat.zero_add, List.nil_append]⟩
  | cons document documents ih =>
    obtain ⟨frame, n, tail, hframe, htail, rfl⟩ := segmentBytes_cons hwhole
    rw [List.append_assoc] at h
    obtain ⟨src₁, hread, hnext⟩ := readFrame_frame hframe h
    obtain ⟨src', hrest, hreads⟩ := ih htail hnext
    refine ⟨src', hrest, ?_⟩
    rw [List.length_cons, Nat.add_right_comm, readFrames, hread]
    simp only [hreads, List.cons_append]

theorem length_le_of_segmentBytes {documents : List Document} {whole : List UInt8}
    (h : segmentBytes codec documents = some whole) : documents.length ≤ whole.length := by
  induction documents generalizing whole with
  | nil => exact Nat.zero_le _
  | cons document documents ih =>
    obtain ⟨frame, n, tail, hframe, htail, rfl⟩ := segmentBytes_cons h
    have hpos := frame_length_pos hframe
    have hle := ih htail
    rw [List.length_cons, List.length_append]
    omega

/-- **A reader gets exactly the segment's documents**, whatever part of one more
frame stands after them. -/
theorem forEachDocument_holds {documents : List Document} {contents : List UInt8}
    (h : Holds codec documents contents) :
    (forEachDocument codec contents).1 = documents := by
  obtain ⟨whole, part, hwhole, hpart, rfl⟩ := h
  have hle := length_le_of_segmentBytes hwhole
  obtain ⟨fuel, hfuel⟩ : ∃ fuel, (whole ++ part).length + 1 = documents.length + (fuel + 1) :=
    ⟨(whole ++ part).length - documents.length, by
      rw [List.length_append]
      omega⟩
  obtain ⟨src', hrest, hreads⟩ :=
    readFrames_append hwhole (ofBytes_delivers (whole ++ part)) (fuel + 1)
  rw [forEachDocument, hfuel, hreads]
  show documents ++ (readFrames codec (fuel + 1) src').1 = documents
  have hnone : (readFrames codec (fuel + 1) src').1 = [] := by
    rcases hpart with rfl | ⟨document, rfl | ⟨frame, n, cut, hframe, hpos, hcut, rfl⟩⟩
    · obtain ⟨src₂, hread⟩ := readFrame_end codec hrest
      rw [readFrames, hread]
    · obtain ⟨src₂, hread⟩ := readFrame_end codec hrest
      rw [readFrames, hread]
    · obtain ⟨expected, found, src₂, hread⟩ := readFrame_cut hframe hpos hcut hrest
      rw [readFrames, hread]
  rw [hnone, List.append_nil]

end Storage
