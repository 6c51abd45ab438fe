/-
Half-written frames.

A frame is handed to its segment in two writes, its header and its payload, and a call of
`write_page` that fails in between leaves the header behind.  The writer is then dropped,
and dropping it seals the segment.

* `sealed_segments_whole` — where no payload is refused after its header, what is sealed
  holds whole frames;
* `half_frame_sealed` — a payload that is refused, and a sealed file that ends in its header.
-/
import MjlSearch.ArchiveCalls

open Text Spool Warc Runs

namespace Archive

/-! ### What is sealed -/

/-- A file that is read to a clean end: no frame of it is cut short or unreadable. -/
def Clean (codec : Codec Document) (bytes : List UInt8) : Prop :=
  (forEachDocument codec bytes).2 = .clean

/-- The sealed files are read to a clean end, but for those that were there before, and the
open segment holds whole frames. -/
structure WholeFrames (codec : Codec Document) (base : Directory) (spool : Directory)
    (segment : Option SpoolSegment) : Prop where
  clean : ∀ name bytes, isSealed name = true → spool name = some bytes →
    base name = some bytes ∨ Clean codec bytes
  whole : ∀ s, segment = some s →
    ∃ documents, Storage.HoldsWhole codec documents s.writer.contents

/-- The same, of the spool half of an archive. -/
def Opened.WholeFrames (codec : Codec Document) (base : Directory) (a : Opened) : Prop :=
  Archive.WholeFrames codec base a.disk.spool a.writer.segment

section

variable {codec : Codec Document} {base spool : Directory} {segment : Option SpoolSegment}
  {config : StorageConfig} {tools : Tools}

/-- What is written under the name of an open segment is not read. -/
theorem WholeFrames.place (h : WholeFrames codec base spool segment)
    {segment' : Option SpoolSegment} (n : ℕ) (bytes : List UInt8)
    (hwhole : ∀ s, segment' = some s →
      ∃ documents, Storage.HoldsWhole codec documents s.writer.contents) :
    WholeFrames codec base (spool.place (openSegmentName n) bytes) segment' := by
  refine ⟨fun name bytes' hname hbytes => ?_, hwhole⟩
  have hne : name ≠ openSegmentName n := by
    rintro rfl
    rw [isSealed_openSegmentName] at hname
    cases hname
  rw [Directory.place_of_ne _ _ hne] at hbytes
  exact h.clean name bytes' hname hbytes

theorem Opened.WholeFrames.same {a b : Opened} (h : a.WholeFrames codec base)
    (hsame : SpoolSame a b) : b.WholeFrames codec base := by
  rw [Opened.WholeFrames, hsame.spool, hsame.segment]
  exact h

theorem Opened.WholeFrames.sealSegment {a : Opened} (h : a.WholeFrames codec base)
    (faults : Faults) : (Archive.sealSegment faults a).2.WholeFrames codec base := by
  rw [Archive.sealSegment]
  split
  · exact h
  · rename_i s hs
    obtain ⟨documents, hwhole⟩ := h.whole s hs
    rcases s.seal_spec faults.seal a.disk.spool with hok | ⟨e, bytes, herror⟩
    · rw [hok]
      refine ⟨fun name bytes hname hbytes => ?_, fun _ hc => by cases hc⟩
      have hsealed : s.whole.seal a.disk.spool name = some bytes := hbytes
      rw [seal_at] at hsealed
      split at hsealed
      · -- the segment itself
        cases hsealed
        right
        show (forEachDocument codec s.writer.contents).2 = .clean
        rw [forEachDocument_whole hwhole]
      · split at hsealed
        · cases hsealed
        · exact h.clean name bytes hname hsealed
    · rw [herror]
      exact h.place s.sequence bytes fun _ hc => by cases hc

theorem Opened.WholeFrames.openSegment {a : Opened} (h : a.WholeFrames codec base)
    (faults : Faults) : (Archive.openSegment faults a).2.WholeFrames codec base := by
  -- a new segment is empty
  have hnew : ∀ s, some (SpoolSegment.create a.writer.segmentSequence) = some s →
      ∃ documents, Storage.HoldsWhole codec documents s.writer.contents := by
    intro s hs
    cases hs
    exact ⟨[], rfl⟩
  rw [Archive.openSegment]
  dsimp only
  split
  · exact h
  · split
    · exact h.place a.writer.segmentSequence [] hnew
    · exact h.place a.writer.segmentSequence [] hnew

theorem Opened.WholeFrames.drop {a : Opened} (h : a.WholeFrames tools.codec base)
    (faults : Faults) :
    Archive.WholeFrames tools.codec base (Archive.drop config tools faults a).spool none := by
  have hsealed := (h.sealSegment faults).same
    (finishWarc_spool config tools faults.warc (Archive.sealSegment faults a).2)
  exact ⟨hsealed.clean, fun _ hc => by cases hc⟩

/-- A frame whose payload is taken if its header is, whether it can be written or not. -/
theorem Opened.WholeFrames.writeSpoolFrame {a : Opened} (h : a.WholeFrames tools.codec base)
    {faults : Faults} {document : Document}
    (htaken : ∀ s, a.writer.segment = some s →
      PayloadTaken tools.codec faults.frame s.writer document) :
    (Archive.writeSpoolFrame config tools faults document a).2.WholeFrames tools.codec base := by
  rw [Archive.writeSpoolFrame]
  dsimp only
  cases hs : a.writer.segment with
  | none => exact h
  | some s =>
    obtain ⟨documents, hwhole⟩ := h.whole s hs
    obtain ⟨result, s', hwrite⟩ : ∃ result s',
      s.write tools.codec faults.frame document = (result, s') := ⟨_, _, rfl⟩
    have hname : s'.openName = openSegmentName s.sequence := by
      have hsequence := SpoolSegment.write_sequence tools.codec faults.frame s document
      rw [hwrite] at hsequence
      rw [SpoolSegment.openName, hsequence]
    dsimp only
    rw [hwrite]
    dsimp only
    rw [hname]
    cases result with
    | error e =>
      have hnone : s'.writer.contents = s.writer.contents :=
        congrArg Storage.SpoolSegment.contents (SpoolSegment.write_failed (htaken s hs) hwrite)
      refine h.place s.sequence _ fun t ht => ?_
      cases ht
      rw [hnone]
      exact ⟨documents, hwhole⟩
    | ok =>
      have hwritten := SpoolSegment.write_ok hwrite
      obtain ⟨-, hmore⟩ := @Storage.write_holdsWhole _ _ _ s.whole _ hwhole hwritten
      have hnext : Opened.WholeFrames tools.codec base
          { writer := { a.writer with
              segment := some s'
              stats := { a.writer.stats with documents := a.writer.stats.documents + 1 } }
            disk := { a.disk with
              spool := a.disk.spool.place (openSegmentName s.sequence) s'.writer.file } } := by
        refine h.place s.sequence _ fun t ht => ?_
        cases ht
        exact ⟨_, hmore⟩
      dsimp only
      split
      · exact Called.andThen_keeps (hnext.sealSegment faults) fun c hc => hc.openSegment faults
      · exact hnext

theorem Opened.WholeFrames.writePage {a : Opened} (h : a.WholeFrames tools.codec base) {now : ℤ}
    {faults : Faults} {page : FetchedPage} {document : Document}
    (htaken : ∀ s, a.writer.segment = some s →
      (writeWarcRecord config tools now faults.warc page document a).1 = .ok () →
      PayloadTaken tools.codec faults.frame s.writer document) :
    (Archive.writePage config tools now faults page document a).2.WholeFrames tools.codec base := by
  rw [Archive.writePage]
  have hsame := writeWarcRecord_spool config tools now faults.warc page document a
  generalize writeWarcRecord config tools now faults.warc page document a = called at hsame htaken
  obtain ⟨result, b⟩ := called
  have hb := h.same hsame
  cases result with
  | error e => exact hb
  | ok =>
    refine hb.writeSpoolFrame fun s hs => ?_
    exact htaken s (hsame.segment.symm.trans hs) rfl

end

/-! ### Over every run -/

section

variable {config : StorageConfig} {tools : Tools}

/-- A call that is not refused a part of a frame after the frame's header was taken. -/
def PayloadsTaken (config : StorageConfig) (tools : Tools) (S : System) (e : Event) : Prop :=
  ∀ page document writer segment, e.call = .writePage page document → S.writer = some writer →
    writer.segment = some segment →
    (writeWarcRecord config tools e.now e.faults.warc page document
      { writer, disk := S.disk }).1 = .ok () →
    PayloadTaken tools.codec e.faults.frame segment.writer document

/-- The spool of a data directory, and the open segment. -/
def System.WholeFrames (codec : Codec Document) (base : Directory) (S : System) : Prop :=
  Archive.WholeFrames codec base S.disk.spool (S.writer.bind ArchiveWriter.segment)

theorem Step.wholeFrames {base : Directory} {S T : System} {e : Event}
    (hstep : Step config tools S e T) (htaken : PayloadsTaken config tools S e)
    (h : S.WholeFrames tools.codec base) : T.WholeFrames tools.codec base := by
  rcases hstep.cases with ⟨warcListing, spoolListing, -, hw, -, -, hopen⟩ |
    ⟨page, document, writer, archive, hcall, hw, hwrite, rfl⟩ |
    ⟨writer, archive, -, hw, hseal, rfl⟩ | ⟨writer, -, hw, -, rfl⟩
  · -- a new writer has no segment before its first
    have hnew : ∀ warcSequence segmentSequence : ℕ, ((openWarc tools e.now e.faults.warc
        { writer := .new warcSequence segmentSequence, disk := S.disk }).andThen
          (openSegment e.faults)).2.WholeFrames tools.codec base := by
      intro warcSequence segmentSequence
      refine Called.andThen_keeps ?_ fun a ha => ha.openSegment e.faults
      refine Opened.WholeFrames.same ?_ (openWarc_spool tools e.now e.faults.warc _)
      exact ⟨h.clean, fun _ hc => by cases hc⟩
    rcases hopen with ⟨writer, disk, hopen, -, rfl⟩ | ⟨error, disk, hopen, -, rfl⟩
    · rcases open_spec hopen with ⟨_, hc, -⟩ | ⟨m, n, -, -, called, hcalled, hresult⟩
      · cases hc
      · have hwhole := hnew m n
        rw [← hcalled] at hwhole
        rcases hresult with ⟨a, rfl, hok, rfl⟩ | ⟨_, _, -, hc, -⟩
        · cases hok
          exact hwhole
        · cases hc
    · rcases open_spec hopen with ⟨_, -, rfl⟩ | ⟨m, n, -, -, called, hcalled, hresult⟩
      · exact ⟨h.clean, fun _ hc => by cases hc⟩
      · have hwhole := hnew m n
        rw [← hcalled] at hwhole
        rcases hresult with ⟨_, -, hc, -⟩ | ⟨_, a, rfl, -, rfl⟩
        · cases hc
        · exact hwhole.drop e.faults
  · rw [System.WholeFrames, hw] at h
    have hopened : Opened.WholeFrames tools.codec base { writer, disk := S.disk } := h
    have hnext : (Archive.writePage config tools e.now e.faults page document
        { writer, disk := S.disk }).2.WholeFrames tools.codec base :=
      hopened.writePage fun s hs hrecord => htaken page document writer s hcall hw hs hrecord
    rw [hwrite] at hnext
    exact hnext
  · rw [System.WholeFrames, hw] at h
    have hnext : (Archive.seal config tools e.faults
        { writer, disk := S.disk }).2.WholeFrames tools.codec base := by
      refine Called.andThen_keeps ?_ fun a ha => ?_
      · exact Opened.WholeFrames.sealSegment (a := { writer, disk := S.disk }) h e.faults
      · exact ha.same (finishWarc_spool config tools e.faults.warc a)
    rw [hseal] at hnext
    exact hnext
  · rw [System.WholeFrames, hw] at h
    exact Opened.WholeFrames.drop (a := { writer, disk := S.disk }) h e.faults

/-- Without faults the payload is taken. -/
theorem payloadsTaken_faultless {S : System} {e : Event}
    (h : e.faults.frame = noFaults.frame) : PayloadsTaken config tools S e := by
  intro page document writer segment _ _ _ _
  rw [h]
  intro payload _ _ _
  exact BufWriter.writeAll_faultless _ payload

/-- **Sealed segments hold whole frames**, over every run in which no call is refused a part of a
frame after its header: a sealed file is read to a clean end, or was there before the run. -/
theorem sealed_segments_whole {S₀ S : System} {es : List Event} (hoff : S₀.writer = none)
    (h : Run (fun S e T => Step config tools S e T ∧ PayloadsTaken config tools S e) S₀ es S) :
    ∀ name bytes, isSealed name = true → S.disk.spool name = some bytes →
      S₀.disk.spool name = some bytes ∨ Clean tools.codec bytes := by
  have hwhole : S.WholeFrames tools.codec S₀.disk.spool := by
    refine h.invariant ?_ fun a e b ha hstep => hstep.1.wholeFrames hstep.2 ha
    refine ⟨fun _ _ _ hbytes => .inl hbytes, fun s hs => ?_⟩
    rw [hoff] at hs
    cases hs
  exact hwhole.clean

end

/-- After a page that rotates the segment, one whose record cannot be written; then the writer is
dropped. -/
def failingCalls : List (Call × Faults) :=
  [(.writePage sampleFetched samplePage, noFaults),
    (.writePage otherFetched otherPage,
      { noFaults with warc := { noFaults.warc with record := some 5 } }),
    (.drop, noFaults)]

def failingRun : List Event × System :=
  exec smallConfig sampleTools emptySystem ((.open [] [], noFaults) :: failingCalls)

/-- A call fails, and two segments are sealed: one with a page and one without. -/
theorem sealed_segments_whole_sample :
    Run (fun S e T => Step smallConfig sampleTools S e T ∧ PayloadsTaken smallConfig sampleTools S e)
        emptySystem failingRun.1 failingRun.2 ∧
      failingRun.1.map (fun e => e.result.isOk) = [true, true, false, true] ∧
      ∀ n, n = 1 ∨ n = 2 → ∃ bytes, failingRun.2.disk.spool (sealedSegmentName n) = some bytes ∧
        Clean sampleTools.codec bytes := by
  have hrun : Run (Step smallConfig sampleTools) emptySystem failingRun.1 failingRun.2 :=
    exec_open_run (by simp [failingCalls])
  have htaken : Run (fun S e T => Step smallConfig sampleTools S e T ∧
      PayloadsTaken smallConfig sampleTools S e) emptySystem failingRun.1 failingRun.2 := by
    refine (hrun.restrict (Q := fun e => e.faults.frame = noFaults.frame) fun e he => ?_).imp
      fun _ _ _ hstep => ⟨hstep.1, payloadsTaken_faultless hstep.2⟩
    have hcall := exec_mem he
    simp only [failingCalls, List.mem_cons, List.not_mem_nil, or_false, Prod.mk.injEq] at hcall
    rcases hcall with ⟨-, h⟩ | ⟨-, h⟩ | ⟨-, h⟩ | ⟨-, h⟩ <;> rw [h]
  refine ⟨htaken, by decide +kernel, fun n hn => ?_⟩
  have hfile : (failingRun.2.disk.spool (sealedSegmentName n)).isSome = true := by
    rcases hn with rfl | rfl
    · decide +kernel
    · decide +kernel
  obtain ⟨bytes, hbytes⟩ := Option.isSome_iff_exists.mp hfile
  refine ⟨bytes, hbytes, ?_⟩
  rcases sealed_segments_whole rfl htaken _ _ (isSealed_sealedSegmentName n) hbytes with
    hbase | hclean
  · cases hbase
  · exact hclean

/-! ### A frame cut after its header -/

/-- A page with a title longer than the buffer, and its postcard bytes. -/
def longPage : Document := { samplePage with title := List.replicate 9000 'a' }

def longPayload : List UInt8 :=
  [2, 104, 58, 168, 70] ++ List.replicate 9000 97 ++
    [0, 0, 194, 169, 206, 198, 211, 128, 160, 131, 45, 0]

def longCodec : Codec Document where
  encode d := if d = longPage then some longPayload else none
  decode bs := if bs = longPayload then some longPage else none
  decode_encode := by
    intro a bs h
    split at h
    · rename_i ha
      cases h
      rw [if_pos rfl, ha]
    · cases h

theorem longPayload_length : longPayload.length = 9017 := by
  rw [longPayload, List.length_append, List.length_append, List.length_replicate]
  rfl

def longTools : Tools :=
  { codec := longCodec, compress := fun _ bytes => bytes, contentHash := fun _ => 0 }

/-- The response that the page was read from. -/
def longFetched : FetchedPage :=
  { finalUrl := "h:".toList, status := 200, contentType := none,
    body := "<title>".toList ++ longPage.title }

/-- A disk that refuses what makes room for a payload, from its first byte on. -/
def refusing : Faults :=
  { noFaults with
    frame := { noFaults.frame with payload := { flush := some 0, direct := none } } }

/-- The payload is longer than the buffer, and the buffer with the header in it cannot be
flushed. -/
theorem writeFrame_refusing : writeFrame longCodec refusing.frame BufWriter.new longPage =
    (.error .io, { file := [], buffer := [57, 35, 0, 0] }) := by
  have hencode : longCodec.encode longPage = some longPayload := by
    dsimp only [longCodec]
    rw [if_pos rfl]
  have hheader : BufWriter.new.writeAll bufferBytes refusing.frame.header
      (Bytes.toLeBytes 4 9017) = (true, { file := [], buffer := [57, 35, 0, 0] }) := by
    rw [show Bytes.toLeBytes 4 9017 = [57, 35, 0, 0] by decide, BufWriter.writeAll,
      if_pos (by decide)]
    rfl
  have hpayload : ({ file := [], buffer := [57, 35, 0, 0] } : BufWriter UInt8).writeAll bufferBytes
      refusing.frame.payload longPayload = (false, { file := [], buffer := [57, 35, 0, 0] }) := by
    rw [BufWriter.writeAll, longPayload_length, if_neg (by decide), if_pos (by decide)]
    rfl
  rw [writeFrame, hencode]
  dsimp only
  rw [longPayload_length, if_pos (by decide), hheader]
  dsimp only
  rw [if_pos rfl, hpayload]
  rfl

/-- The segment after that. -/
def headerOnly : SpoolSegment :=
  { sequence := 1, writer := { file := [], buffer := [57, 35, 0, 0] }, bytes := 0 }

theorem write_refusing : (SpoolSegment.create 1).write longTools.codec refusing.frame longPage =
    (.error .io, headerOnly) := by
  rw [SpoolSegment.write, show (SpoolSegment.create 1).writer = BufWriter.new from rfl,
    show longTools.codec = longCodec from rfl, writeFrame_refusing, SpoolSegment.create, headerOnly]

/-- **A half-written frame is sealed**: the flush before the payload fails, `write_page` returns
the error, and dropping the writer seals the header that stayed behind. -/
theorem half_frame_sealed : ∃ S, Run (Step defaultConfig longTools) emptySystem
      [{ call := .open [] [], now := 0, faults := noFaults, result := .ok () },
        { call := .writePage longFetched longPage, now := 0, faults := refusing,
          result := .error (.spool .io) },
        { call := .drop, now := 0, faults := noFaults, result := .ok () }] S ∧
    isSealed (sealedSegmentName 1) = true ∧
    S.disk.spool (sealedSegmentName 1) = some [57, 35, 0, 0] ∧
    (forEachDocument longCodec [57, 35, 0, 0]).2 = .failed (.truncated 9017 0) := by
  obtain ⟨writer, disk, hopen, hready⟩ := @open_faultless defaultConfig longTools 0 [] [] 1 1
    emptySystem.disk rfl rfl (by decide) (by decide)
  obtain ⟨m, n, -, hn, -, -, -, -, -, -, hsegment, -⟩ := open_ok hopen
  obtain rfl : 1 = n := Option.some.inj hn
  have hopened := Step.ofOpen (S := emptySystem) rfl emptySystem_lists emptySystem_lists hopen
  -- the call fails, and leaves the header in the buffer
  obtain ⟨file, hrecord⟩ := writeWarcRecord_faultless defaultConfig 0 longFetched
    longPage hready
  have hsame := writeWarcRecord_spool defaultConfig longTools 0 noFaults.warc longFetched longPage
    { writer, disk }
  rw [hrecord] at hsame
  have hfile : file.writer.segment = some (.create 1) := hsame.segment.trans hsegment
  have hfailed : writePage defaultConfig longTools 0 refusing longFetched longPage { writer, disk } =
      (.error (.spool .io),
        { writer := { file.writer with segment := some headerOnly }
          disk := { file.disk with
            spool := file.disk.spool.place headerOnly.openName headerOnly.writer.file } }) := by
    rw [writePage, show refusing.warc = noFaults.warc from rfl, hrecord, Called.ok_andThen]
    exact writeSpoolFrame_error hfile write_refusing
  have hwritten := Step.ofWritePage (S := { disk, writer := some writer }) rfl hfailed
  refine ⟨_, .snoc (.snoc (.single hopened) hwritten) (.ofDrop 0 noFaults rfl), by decide, ?_,
    by decide⟩
  show (drop defaultConfig longTools noFaults _).spool (sealedSegmentName 1) = _
  rw [drop_faultless rfl, seal_at]
  exact if_pos rfl

end Archive
