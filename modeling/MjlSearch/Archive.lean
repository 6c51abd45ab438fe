/-
The archive writer (`crawler::storage`): WARC files and spool segments, to files whose
writes can fail at any byte.

`perform` is one call on the archive of a data directory, `Step` a call whose listings of
the two directories are right.  What the files do is decided by `Faults`; the bytes that a
compressed file holds before it is finished are not known, and are given there.

* `writeFrame_ok`, `writeFrame_failed` — what a frame leaves in its buffered writer;
* `SpoolSegment.write_ok`, `SpoolSegment.seal_spec` — a segment that is written and sealed is
  the hand-off's;
* `openWarc_spool`, `finishWarc_spool`, `writeWarcRecord_spool` — the WARC half of a call leaves
  the spool alone.
-/
import MjlSearch.BufWriter
import MjlSearch.Runs
import MjlSearch.Storage
import MjlSearch.Warc

open Text Spool Warc Runs

namespace Archive

/-- Persistence policy. -/
structure StorageConfig where
  compressionLevel : ℤ
  warcMaxBytes : ℕ
  segmentBytes : ℕ

/-- What the archive is built on: the encoding of documents, zstd on a whole stream, and the
hash that identifiers are made of. -/
structure Tools where
  codec : Codec Document
  compress : ℤ → List UInt8 → List UInt8
  contentHash : Str → ℕ

/-- The capacity of `BufWriter::new`. -/
def bufferBytes : ℕ := 8192

/-- A spool segment being appended to. -/
structure SpoolSegment where
  sequence : ℕ
  writer : BufWriter UInt8
  bytes : ℕ

/-- A WARC file being written, with all that its compressor was handed. -/
structure WarcFile where
  name : Str
  written : List UInt8

/-- Counters describing what has been written. -/
structure ArchiveStats where
  documents : ℕ
  sealedSegments : ℕ
  warcRecords : ℕ
  warcBytes : ℕ
  warcFiles : ℕ

/-- Writes WARC archives and spool segments. -/
structure ArchiveWriter where
  warc : Option WarcFile
  warcSequence : ℕ
  warcPath : Str
  segment : Option SpoolSegment
  segmentSequence : ℕ
  stats : ArchiveStats

/-- A writer that has nothing open yet. -/
def ArchiveWriter.new (warcSequence segmentSequence : ℕ) : ArchiveWriter :=
  { warc := none, warcSequence, warcPath := [], segment := none, segmentSequence,
    stats :=
      { documents := 0, sealedSegments := 0, warcRecords := 0, warcBytes := 0, warcFiles := 0 } }

/-- The two directories. -/
structure Disk where
  spool : Directory
  warc : Directory

/-- The writer and the directories it writes to. -/
structure Opened where
  writer : ArchiveWriter
  disk : Disk

/-! ### What the files do -/

/-- The faults of the two writes of a frame. -/
structure FrameFaults where
  header : BufWriter.Faults
  payload : BufWriter.Faults

/-- The faults of sealing: in flushing, in flushing once more when the failed writer is
dropped, in the fsync, in the rename. -/
structure SealFaults where
  flush : Fault
  again : Fault
  sync : Bool
  rename : Bool

/-- The faults of the WARC half.  A compressed file that is not finished holds some bytes,
and so does one whose `warcinfo` record could not be written. -/
structure WarcFaults where
  record : Fault
  finish : Option (List UInt8)
  create : Bool
  header : Option (List UInt8)

structure Faults where
  list : Bool
  warc : WarcFaults
  frame : FrameFaults
  «seal» : SealFaults
  createSegment : Bool

/-- What a call on the archive has come to. -/
abbrev Called := Except CrawlError Unit × Opened

/-- The question mark: the next part, unless there was an error. -/
def Called.andThen (called : Called) (next : Opened → Called) : Called :=
  match called with
  | (.ok (), archive) => next archive
  | (.error e, archive) => (.error e, archive)

/-! ### Segments -/

/-- `write_frame`, on a buffered writer. -/
def writeFrame (codec : Codec Document) (faults : FrameFaults) (writer : BufWriter UInt8)
    (document : Document) : Except SpoolError ℕ × BufWriter UInt8 :=
  match codec.encode document with
  | none => (.error .encode, writer)
  | some payload =>
    if payload.length < 2 ^ 32 then
      let (ok, writer) :=
        writer.writeAll bufferBytes faults.header (Bytes.toLeBytes 4 payload.length)
      if ok then
        let (ok, writer) := writer.writeAll bufferBytes faults.payload payload
        if ok then (.ok (frameHeaderBytes + payload.length), writer) else (.error .io, writer)
      else (.error .io, writer)
    else (.error (.truncated (2 ^ 32 - 1) payload.length), writer)

namespace SpoolSegment

def openName (segment : SpoolSegment) : Str := openSegmentName segment.sequence

def sealedName (segment : SpoolSegment) : Str := sealedSegmentName segment.sequence

def create (sequence : ℕ) : SpoolSegment := { sequence, writer := BufWriter.new, bytes := 0 }

def write (codec : Codec Document) (faults : FrameFaults) (segment : SpoolSegment)
    (document : Document) : Except SpoolError Unit × SpoolSegment :=
  match writeFrame codec faults segment.writer document with
  | (.ok n, writer) => (.ok (), { segment with writer, bytes := segment.bytes + n })
  | (.error e, writer) => (.error e, { segment with writer })

/-- Flushes, fsyncs and renames the segment into its readable name. -/
def «seal» (faults : SealFaults) (segment : SpoolSegment) (spool : Directory) :
    Except CrawlError Unit × Directory :=
  let (flushed, writer) := segment.writer.flushBuf faults.flush
  if flushed then
    let spool := spool.place segment.openName writer.file
    if faults.sync then (.error .io, spool)
    else if faults.rename then (.error .io, spool)
    else (.ok (), spool.rename segment.openName segment.sealedName)
  else
    -- the writer is dropped, and tries to flush what is left
    (.error .io, spool.place segment.openName (writer.flushBuf faults.again).2.file)

end SpoolSegment

section

variable (config : StorageConfig) (tools : Tools)

def openSegment (faults : Faults) (archive : Opened) : Called :=
  let w := archive.writer
  if faults.createSegment then (.error .io, archive)
  else
    let archive : Opened :=
      { writer := { w with segment := some (.create w.segmentSequence) }
        disk := { archive.disk with
          spool := archive.disk.spool.create (openSegmentName w.segmentSequence) } }
    if w.segmentSequence + 1 < 2 ^ 64 then
      (.ok (), { archive with
        writer := { archive.writer with segmentSequence := w.segmentSequence + 1 } })
    else (.error .overflow, archive)

def sealSegment (faults : Faults) (archive : Opened) : Called :=
  let w := archive.writer
  match w.segment with
  | none => (.ok (), archive)
  | some segment =>
    match segment.seal faults.seal archive.disk.spool with
    | (.ok (), spool) =>
      (.ok (),
        { writer := { w with
            segment := none
            stats := { w.stats with sealedSegments := w.stats.sealedSegments + 1 } }
          disk := { archive.disk with spool } })
    | (.error e, spool) =>
      (.error e, { writer := { w with segment := none }, disk := { archive.disk with spool } })

/-! ### WARC files -/

def openWarc (now : ℤ) (faults : WarcFaults) (archive : Opened) : Called :=
  let w := archive.writer
  let path := warcName w.warcSequence
  if w.warcSequence + 1 < 2 ^ 64 then
    let w := { w with warcSequence := w.warcSequence + 1 }
    if faults.create then (.error .io, { archive with writer := w })
    else
      let warc := archive.disk.warc.create path
      match faults.header with
      | some left =>
        (.error .io, { writer := w, disk := { archive.disk with warc := warc.place path left } })
      | none =>
        let header := utf8 (warcinfoRecord tools.contentHash now path)
        (.ok (),
          { writer := { w with
              warc := some { name := path, written := header }
              warcPath := path
              stats := { w.stats with
                warcBytes := w.stats.warcBytes + header.length
                warcRecords := w.stats.warcRecords + 1
                warcFiles := w.stats.warcFiles + 1 } }
            disk := { archive.disk with warc } })
  else (.error .overflow, archive)

def finishWarc (faults : WarcFaults) (archive : Opened) : Called :=
  let w := archive.writer
  match w.warc with
  | none => (.ok (), archive)
  | some file =>
    let finished (bytes : List UInt8) : Opened :=
      { writer := { w with warc := none }
        disk := { archive.disk with warc := archive.disk.warc.place file.name bytes } }
    match faults.finish with
    | some left => (.error .io, finished left)
    | none => (.ok (), finished (tools.compress config.compressionLevel file.written))

def writeWarcRecord (now : ℤ) (faults : WarcFaults) (page : FetchedPage) (document : Document)
    (archive : Opened) : Called :=
  let w := archive.writer
  match w.warc with
  | none => (.error (.notImplemented "warc file is closed".toList), archive)
  | some file =>
    let record := responseBytes tools.contentHash page document
    let n := BufWriter.taken faults.record record
    let archive : Opened :=
      { archive with
        writer := { w with warc := some { file with written := file.written ++ record.take n } } }
    if n < record.length then (.error .io, archive)
    else
      let stats := { w.stats with
        warcBytes := w.stats.warcBytes + record.length
        warcRecords := w.stats.warcRecords + 1 }
      let archive := { archive with writer := { archive.writer with stats } }
      if config.warcMaxBytes ≤ stats.warcBytes then
        (finishWarc config tools faults archive).andThen (openWarc tools now faults)
      else (.ok (), archive)

/-! ### The writer -/

/-- The spool half of `write_page`. -/
def writeSpoolFrame (faults : Faults) (document : Document) (archive : Opened) : Called :=
  let w := archive.writer
  match w.segment with
  | none => (.error (.notImplemented "archive is sealed".toList), archive)
  | some segment =>
    let (result, segment) := segment.write tools.codec faults.frame document
    -- what the buffer has passed on is in the file
    let disk := { archive.disk with
      spool := archive.disk.spool.place segment.openName segment.writer.file }
    match result with
    | .error e => (.error (.spool e), { writer := { w with segment := some segment }, disk })
    | .ok () =>
      let stats := { w.stats with documents := w.stats.documents + 1 }
      let archive : Opened := { writer := { w with segment := some segment, stats }, disk }
      if config.segmentBytes ≤ segment.bytes then
        (sealSegment faults archive).andThen (openSegment faults)
      else (.ok (), archive)

/-- Appends one page: a WARC record and a spool frame. -/
def writePage (now : ℤ) (faults : Faults) (page : FetchedPage) (document : Document)
    (archive : Opened) : Called :=
  (writeWarcRecord config tools now faults.warc page document archive).andThen
    (writeSpoolFrame config tools faults document)

/-- Seals the current spool segment and finishes the current WARC file. -/
def «seal» (faults : Faults) (archive : Opened) : Called :=
  (sealSegment faults archive).andThen (finishWarc config tools faults.warc)

/-- `Drop`: the same, whatever fails. -/
def drop (faults : Faults) (archive : Opened) : Disk :=
  (finishWarc config tools faults.warc (sealSegment faults archive).2).2.disk

/-- The number in a WARC file's name. -/
def parseWarcSequence (name : Str) : Option ℕ := do
  let rest ← "crawl-".toList.isPrefixOf? name
  let digits ← ".warc.zst".toList.isSuffixOf? rest
  parseU64 digits

/-- The number after every one in use; `none` is the overflow of the `u64`. -/
def nextWarcSequence (listing : List Str) : Option ℕ :=
  let highest := (listing.filterMap parseWarcSequence).foldl max 0
  if highest + 1 < 2 ^ 64 then some (highest + 1) else none

/-- Opens the archive, resuming numbering.  A writer that cannot be opened is dropped. -/
def «open» (now : ℤ) (faults : Faults) (warcListing spoolListing : List Str) (disk : Disk) :
    Except CrawlError ArchiveWriter × Disk :=
  if faults.list then (.error .io, disk)
  else
    match nextWarcSequence warcListing, nextSpoolSequence spoolListing with
    | some warcSequence, some segmentSequence =>
      let writer := ArchiveWriter.new warcSequence segmentSequence
      match (openWarc tools now faults.warc { writer, disk }).andThen (openSegment faults) with
      | (.ok (), archive) => (.ok archive.writer, archive.disk)
      | (.error e, archive) => (.error e, drop config tools faults archive)
    | _, _ => (.error .overflow, disk)

end

/-! ### Calls -/

/-- A data directory, and the writer that has it open. -/
structure System where
  disk : Disk
  writer : Option ArchiveWriter

inductive Call
  | open (warcListing spoolListing : List Str)
  | writePage (page : FetchedPage) (document : Document)
  | seal
  | drop

/-- One call: when, with which faults, and what it has come to. -/
structure Event where
  call : Call
  now : ℤ
  faults : Faults
  result : Except CrawlError Unit

/-- A call; `none` when there is no writer, or one too many. -/
def perform (config : StorageConfig) (tools : Tools) (S : System) (call : Call) (now : ℤ)
    (faults : Faults) : Option (Except CrawlError Unit × System) :=
  match call, S.writer with
  | .open warcListing spoolListing, none =>
    match «open» config tools now faults warcListing spoolListing S.disk with
    | (.ok writer, disk) => some (.ok (), { disk, writer := some writer })
    | (.error e, disk) => some (.error e, { disk, writer := none })
  | .writePage page document, some writer =>
    let (result, archive) := writePage config tools now faults page document { writer, disk := S.disk }
    some (result, { disk := archive.disk, writer := some archive.writer })
  | .seal, some writer =>
    let (result, archive) := «seal» config tools faults { writer, disk := S.disk }
    some (result, { disk := archive.disk, writer := some archive.writer })
  | .drop, some writer =>
    some (.ok (), { disk := drop config tools faults { writer, disk := S.disk }, writer := none })
  | _, _ => none

/-- One call on a data directory whose listings are right. -/
def Step (config : StorageConfig) (tools : Tools) (S : System) (e : Event) (T : System) : Prop :=
  (∀ warcListing spoolListing, e.call = .open warcListing spoolListing →
    S.disk.warc.Lists warcListing ∧ S.disk.spool.Lists spoolListing) ∧
  perform config tools S e.call e.now e.faults = some (e.result, T)

/-! ### Frames -/

section

variable {codec : Codec Document}

/-- A frame that is written is in the writer whole. -/
theorem writeFrame_ok {faults : FrameFaults} {writer writer' : BufWriter UInt8}
    {document : Document} {n : ℕ}
    (h : writeFrame codec faults writer document = (.ok n, writer')) :
    ∃ frame, Spool.writeFrame codec document = .ok (frame, n) ∧ n = frame.length ∧
      writer'.contents = writer.contents ++ frame := by
  rw [writeFrame] at h
  split at h
  · cases h
  · rename_i payload hencode
    split at h
    · rename_i hfits
      generalize hheader : writer.writeAll bufferBytes faults.header
        (Bytes.toLeBytes 4 payload.length) = headed at h
      obtain ⟨ok, headed⟩ := headed
      cases ok with
      | false => cases h
      | true =>
        have hhead : headed.contents = writer.contents ++ Bytes.toLeBytes 4 payload.length := by
          have hall := @BufWriter.writeAll_ok _ bufferBytes faults.header writer
            (Bytes.toLeBytes 4 payload.length) (by rw [hheader])
          rwa [hheader] at hall
        dsimp only at h
        rw [if_pos rfl] at h
        generalize hpayload : headed.writeAll bufferBytes faults.payload payload = written at h
        obtain ⟨ok, written⟩ := written
        cases ok with
        | false => cases h
        | true =>
          cases h
          have hbody := @BufWriter.writeAll_ok _ bufferBytes faults.payload headed payload
            (by rw [hpayload])
          rw [hpayload] at hbody
          refine ⟨Bytes.toLeBytes 4 payload.length ++ payload, ?_, ?_, ?_⟩
          · rw [Spool.writeFrame, hencode]
            exact if_pos hfits
          · rw [List.length_append, Bytes.toLeBytes_length]
            rfl
          · rw [← List.append_assoc, ← hhead]
            exact hbody
    · cases h

/-- The payload of a frame goes through once its header has. -/
def PayloadTaken (codec : Codec Document) (faults : FrameFaults) (writer : BufWriter UInt8)
    (document : Document) : Prop :=
  ∀ payload, codec.encode document = some payload → payload.length < 2 ^ 32 →
    (writer.writeAll bufferBytes faults.header (Bytes.toLeBytes 4 payload.length)).1 = true →
    ((writer.writeAll bufferBytes faults.header (Bytes.toLeBytes 4 payload.length)).2.writeAll
      bufferBytes faults.payload payload).1 = true

/-- A frame that fails otherwise leaves the writer's contents as they were. -/
theorem writeFrame_failed {faults : FrameFaults} {writer writer' : BufWriter UInt8}
    {document : Document} {e : SpoolError} (htaken : PayloadTaken codec faults writer document)
    (h : writeFrame codec faults writer document = (.error e, writer')) :
    writer'.contents = writer.contents := by
  rw [writeFrame] at h
  split at h
  · cases h
    rfl
  · rename_i payload hencode
    split at h
    · rename_i hfits
      have hpayload := htaken payload hencode hfits
      generalize hheader : writer.writeAll bufferBytes faults.header
        (Bytes.toLeBytes 4 payload.length) = headed at h hpayload
      obtain ⟨ok, headed⟩ := headed
      cases ok with
      | false =>
        cases h
        -- a header is shorter than the buffer
        have hnone := @BufWriter.writeAll_failed _ bufferBytes faults.header writer
          (Bytes.toLeBytes 4 payload.length) (by rw [hheader])
          (by rw [Bytes.toLeBytes_length]; decide)
        rwa [hheader] at hnone
      | true =>
        dsimp only at h
        rw [if_pos rfl] at h
        specialize hpayload rfl
        generalize headed.writeAll bufferBytes faults.payload payload = written at h hpayload
        obtain ⟨ok, written⟩ := written
        cases hpayload
        cases h
    · cases h
      rfl

end

/-! ### Segments, as the hand-off knows them -/

/-- A segment with all that its writer was handed, wherever it is. -/
def SpoolSegment.whole (segment : SpoolSegment) : Storage.SpoolSegment :=
  { sequence := segment.sequence, contents := segment.writer.contents, bytes := segment.bytes }

section

variable {codec : Codec Document}

/-- A write that succeeds is the hand-off's write. -/
theorem SpoolSegment.write_ok {faults : FrameFaults} {segment segment' : SpoolSegment}
    {document : Document} (h : segment.write codec faults document = (.ok (), segment')) :
    segment.whole.write codec document = .ok segment'.whole := by
  rw [SpoolSegment.write] at h
  split at h
  · rename_i n writer hwrite
    cases h
    obtain ⟨frame, hframe, -, hcontents⟩ := writeFrame_ok hwrite
    rw [Storage.SpoolSegment.write, hframe]
    rw [SpoolSegment.whole, SpoolSegment.whole, hcontents]
  · cases h

/-- One that fails changes nothing, if it is not the payload that fails. -/
theorem SpoolSegment.write_failed {faults : FrameFaults} {segment segment' : SpoolSegment}
    {document : Document} {e : SpoolError}
    (htaken : PayloadTaken codec faults segment.writer document)
    (h : segment.write codec faults document = (.error e, segment')) :
    segment'.whole = segment.whole := by
  rw [SpoolSegment.write] at h
  split at h
  · cases h
  · rename_i e' writer hwrite
    cases h
    rw [SpoolSegment.whole, writeFrame_failed htaken hwrite]
    rfl

/-- A write keeps the segment's name. -/
theorem SpoolSegment.write_sequence (codec : Codec Document) (faults : FrameFaults) (segment : SpoolSegment)
    (document : Document) : (segment.write codec faults document).2.sequence = segment.sequence := by
  rw [SpoolSegment.write]
  split <;> rfl

/-- Sealing is the hand-off's, or some bytes are left under the open name. -/
theorem SpoolSegment.seal_spec (faults : SealFaults) (segment : SpoolSegment) (spool : Directory) :
    segment.seal faults spool = (.ok (), segment.whole.seal spool) ∨
      ∃ e bytes, segment.seal faults spool = (.error e, spool.place segment.openName bytes) := by
  rw [SpoolSegment.seal]
  generalize hflush : segment.writer.flushBuf faults.flush = flushed
  obtain ⟨ok, writer⟩ := flushed
  cases ok with
  | false => exact .inr ⟨_, _, rfl⟩
  | true =>
    have hall := @BufWriter.flushBuf_ok _ segment.writer faults.flush (by rw [hflush])
    rw [hflush] at hall
    cases hall
    dsimp only
    rw [if_pos rfl]
    split
    · exact .inr ⟨_, _, rfl⟩
    · split
      · exact .inr ⟨_, _, rfl⟩
      · exact .inl rfl

/-- What a sealed segment leaves in the directory. -/
theorem seal_at (segment : Storage.SpoolSegment) (spool : Directory) (name : Str) :
    segment.seal spool name =
      if name = segment.sealedName then some segment.contents
      else if name = segment.openName then none else spool name := by
  rw [Storage.SpoolSegment.seal, Directory.rename_apply (Directory.place_self ..)]
  split
  · rfl
  · split
    · rfl
    · rename_i hopen
      exact Directory.place_of_ne spool _ hopen

/-- Whole frames are read to a clean end. -/
theorem forEachDocument_whole {documents : List Document} {contents : List UInt8}
    (h : Storage.HoldsWhole codec documents contents) :
    forEachDocument codec contents = (documents, .clean) := by
  have hle := Storage.length_le_of_segmentBytes h
  exact readFrames_segment h (ByteSource.ofBytes_delivers contents) (by omega)

end

/-! ### The two halves -/

/-- A part of a call that leaves the spool half alone. -/
structure SpoolSame (a b : Opened) : Prop where
  spool : b.disk.spool = a.disk.spool
  segment : b.writer.segment = a.writer.segment
  sequence : b.writer.segmentSequence = a.writer.segmentSequence

theorem SpoolSame.trans {a b c : Opened} (h : SpoolSame a b) (h' : SpoolSame b c) :
    SpoolSame a c :=
  ⟨h'.spool.trans h.spool, h'.segment.trans h.segment, h'.sequence.trans h.sequence⟩

/-- What the first part and, after it, the second part keep, both keep. -/
theorem Called.andThen_keeps {P : Opened → Prop} {called : Called} {next : Opened → Called}
    (hfirst : P called.2) (hnext : ∀ a, P a → P (next a).2) : P (called.andThen next).2 := by
  obtain ⟨result, archive⟩ := called
  cases result with
  | ok => exact hnext archive hfirst
  | error e => exact hfirst

@[simp] theorem Called.ok_andThen (a : Opened) (next : Opened → Called) :
    Called.andThen (.ok (), a) next = next a := rfl

/-- Two parts succeed one after the other. -/
theorem Called.andThen_ok {called : Called} {next : Opened → Called} {b : Opened}
    (h : called.andThen next = (.ok (), b)) : ∃ a, called = (.ok (), a) ∧ next a = (.ok (), b) := by
  obtain ⟨result, archive⟩ := called
  cases result with
  | ok => exact ⟨archive, rfl, h⟩
  | error e => cases h

section

variable (config : StorageConfig) (tools : Tools)

theorem openWarc_spool (now : ℤ) (faults : WarcFaults) (a : Opened) :
    SpoolSame a (openWarc tools now faults a).2 := by
  rw [openWarc]
  dsimp only
  split
  · split
    · exact ⟨rfl, rfl, rfl⟩
    · split <;> exact ⟨rfl, rfl, rfl⟩
  · exact ⟨rfl, rfl, rfl⟩

theorem finishWarc_spool (faults : WarcFaults) (a : Opened) :
    SpoolSame a (finishWarc config tools faults a).2 := by
  rw [finishWarc]
  split
  · exact ⟨rfl, rfl, rfl⟩
  · dsimp only
    split <;> exact ⟨rfl, rfl, rfl⟩

theorem writeWarcRecord_spool (now : ℤ) (faults : WarcFaults) (page : FetchedPage)
    (document : Document) (a : Opened) :
    SpoolSame a (writeWarcRecord config tools now faults page document a).2 := by
  rw [writeWarcRecord]
  split
  · exact ⟨rfl, rfl, rfl⟩
  · dsimp only
    split
    · exact ⟨rfl, rfl, rfl⟩
    · split
      · refine Called.andThen_keeps (P := SpoolSame a) ?_ fun b hb => ?_
        · have hfinish := finishWarc_spool config tools faults
          exact ⟨(hfinish _).spool, (hfinish _).segment, (hfinish _).sequence⟩
        · exact hb.trans (openWarc_spool tools now faults b)
      · exact ⟨rfl, rfl, rfl⟩

end

end Archive
