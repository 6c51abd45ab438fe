/-
The calls of the archive, one by one.

* `openSegment_ok` to `writeWarcRecord_ok` — what a part of a call that succeeds has done, in
  the order of the source;
* `writeWarcRecord_faultless`, `open_faultless` — without faults the calls succeed;
* `Step.cases` — what a call can do, `open_spec` and `open_ok` what opening does;
* `exec_run` — calls made one after the other are a run.
-/
import MjlSearch.Archive
import MjlSearch.Postcard

open Text Spool Warc Runs

namespace Archive

/-! ### What succeeds -/

/-- A part of a call that leaves the WARC half alone. -/
structure WarcSame (a b : Opened) : Prop where
  warc : b.disk.warc = a.disk.warc
  file : b.writer.warc = a.writer.warc
  sequence : b.writer.warcSequence = a.writer.warcSequence

theorem WarcSame.trans {a b c : Opened} (h : WarcSame a b) (h' : WarcSame b c) : WarcSame a c :=
  ⟨h'.warc.trans h.warc, h'.file.trans h.file, h'.sequence.trans h.sequence⟩

section

theorem openSegment_warc (faults : Faults) (a : Opened) :
    WarcSame a (openSegment faults a).2 := by
  rw [openSegment]
  dsimp only
  split
  · exact ⟨rfl, rfl, rfl⟩
  · split <;> exact ⟨rfl, rfl, rfl⟩

theorem sealSegment_warc (faults : Faults) (a : Opened) :
    WarcSame a (sealSegment faults a).2 := by
  rw [sealSegment]
  split
  · exact ⟨rfl, rfl, rfl⟩
  · split <;> exact ⟨rfl, rfl, rfl⟩

theorem writeSpoolFrame_warc (config : StorageConfig) (tools : Tools) (faults : Faults)
    (document : Document) (a : Opened) :
    WarcSame a (writeSpoolFrame config tools faults document a).2 := by
  rw [writeSpoolFrame]
  dsimp only
  split
  · exact ⟨rfl, rfl, rfl⟩
  · split
    · exact ⟨rfl, rfl, rfl⟩
    · split
      · refine Called.andThen_keeps (P := WarcSame a) ?_ fun b hb => ?_
        · have hseal := sealSegment_warc faults
          exact ⟨(hseal _).warc, (hseal _).file, (hseal _).sequence⟩
        · exact hb.trans (openSegment_warc faults b)
      · exact ⟨rfl, rfl, rfl⟩

variable {config : StorageConfig} {tools : Tools} {a b : Opened}

/-- A segment that is opened. -/
theorem openSegment_ok {faults : Faults} (h : openSegment faults a = (.ok (), b)) :
    a.writer.segmentSequence + 1 < 2 ^ 64 ∧
      b.disk.spool = a.disk.spool.create (openSegmentName a.writer.segmentSequence) ∧
      b.writer.segment = some (.create a.writer.segmentSequence) ∧
      b.writer.segmentSequence = a.writer.segmentSequence + 1 := by
  rw [openSegment] at h
  dsimp only at h
  split at h
  · cases h
  · split at h
    · rename_i hfit
      cases h
      exact ⟨hfit, rfl, rfl, rfl⟩
    · cases h

/-- The segment that is sealed, if there is one. -/
theorem sealSegment_ok {faults : Faults} (h : sealSegment faults a = (.ok (), b)) :
    b.writer.segment = none ∧ b.writer.segmentSequence = a.writer.segmentSequence ∧
      (a.writer.segment = none ∧ b.disk.spool = a.disk.spool ∨
        ∃ s, a.writer.segment = some s ∧ b.disk.spool = s.whole.seal a.disk.spool) := by
  rw [sealSegment] at h
  split at h
  · rename_i hnone
    cases h
    exact ⟨hnone, rfl, .inl ⟨hnone, rfl⟩⟩
  · rename_i s hs
    rcases s.seal_spec faults.seal a.disk.spool with hok | ⟨e, bytes, herror⟩
    · rw [hok] at h
      cases h
      exact ⟨rfl, rfl, .inr ⟨s, hs, rfl⟩⟩
    · rw [herror] at h
      cases h

/-- A frame that is written, and the rotation after it. -/
theorem writeSpoolFrame_ok {faults : Faults} {document : Document}
    (h : writeSpoolFrame config tools faults document a = (.ok (), b)) :
    ∃ s s' c, a.writer.segment = some s ∧ s.whole.write tools.codec document = .ok s'.whole ∧
      c.writer.segment = some s' ∧ c.writer.segmentSequence = a.writer.segmentSequence ∧
      c.disk.spool = a.disk.spool.place (openSegmentName s.sequence) s'.writer.file ∧
      (s'.bytes < config.segmentBytes ∧ b = c ∨
        config.segmentBytes ≤ s'.bytes ∧
          ∃ d, sealSegment faults c = (.ok (), d) ∧ openSegment faults d = (.ok (), b)) := by
  rw [writeSpoolFrame] at h
  dsimp only at h
  split at h
  · cases h
  · rename_i s hs
    obtain ⟨result, s', hwrite⟩ : ∃ result s',
      s.write tools.codec faults.frame document = (result, s') := ⟨_, _, rfl⟩
    have hsequence : s'.sequence = s.sequence := by
      have hkept := SpoolSegment.write_sequence tools.codec faults.frame s document
      rwa [hwrite] at hkept
    rw [hwrite] at h
    dsimp only at h
    cases result with
    | error e => cases h
    | ok =>
      dsimp only at h
      rw [SpoolSegment.openName, hsequence] at h
      split at h
      · rename_i hreached
        obtain ⟨d, hseal, hopen⟩ := Called.andThen_ok h
        refine ⟨s, s', _, hs, SpoolSegment.write_ok hwrite, ?_, ?_, ?_,
          .inr ⟨hreached, d, hseal, hopen⟩⟩ <;> rfl
      · rename_i hshort
        cases h
        refine ⟨s, s', _, hs, SpoolSegment.write_ok hwrite, ?_, ?_, ?_,
          .inl ⟨Nat.lt_of_not_le hshort, rfl⟩⟩ <;> rfl

/-- A frame that is not written. -/
theorem writeSpoolFrame_error {faults : Faults} {document : Document} {s s' : SpoolSegment}
    {e : SpoolError} (hs : a.writer.segment = some s)
    (hwrite : s.write tools.codec faults.frame document = (.error e, s')) :
    writeSpoolFrame config tools faults document a =
      (.error (.spool e),
        { writer := { a.writer with segment := some s' }
          disk := { a.disk with
            spool := a.disk.spool.place s'.openName s'.writer.file } }) := by
  rw [writeSpoolFrame, hs]
  dsimp only
  rw [hwrite]

/-- The file that is opened. -/
theorem openWarc_ok {now : ℤ} {faults : WarcFaults}
    (h : openWarc tools now faults a = (.ok (), b)) :
    a.writer.warcSequence + 1 < 2 ^ 64 ∧
      b.disk.warc = a.disk.warc.create (warcName a.writer.warcSequence) ∧
      b.writer.warc = some
        { name := warcName a.writer.warcSequence
          written := fileBytes tools.contentHash now (warcName a.writer.warcSequence) [] } ∧
      b.writer.warcSequence = a.writer.warcSequence + 1 := by
  rw [openWarc] at h
  dsimp only at h
  split at h
  · rename_i hfit
    split at h
    · cases h
    · split at h
      · cases h
      · cases h
        refine ⟨hfit, rfl, ?_, rfl⟩
        rw [fileBytes, List.flatMap_nil, List.append_nil]
  · cases h

/-- The file that is finished, if there is one. -/
theorem finishWarc_ok {faults : WarcFaults} (h : finishWarc config tools faults a = (.ok (), b)) :
    b.writer.warc = none ∧ b.writer.warcSequence = a.writer.warcSequence ∧
      (a.writer.warc = none ∧ b.disk.warc = a.disk.warc ∨
        ∃ f, a.writer.warc = some f ∧ b.disk.warc = a.disk.warc.place f.name
          (tools.compress config.compressionLevel f.written)) := by
  rw [finishWarc] at h
  split at h
  · rename_i hnone
    cases h
    exact ⟨hnone, rfl, .inl ⟨hnone, rfl⟩⟩
  · rename_i f hf
    dsimp only at h
    split at h
    · cases h
    · cases h
      exact ⟨rfl, rfl, .inr ⟨f, hf, rfl⟩⟩

/-- A record that is written, and the rotation after it. -/
theorem writeWarcRecord_ok {now : ℤ} {faults : WarcFaults} {page : FetchedPage}
    {document : Document}
    (h : writeWarcRecord config tools now faults page document a = (.ok (), b)) :
    ∃ f c, a.writer.warc = some f ∧
      c.writer.warc = some
        { f with written := f.written ++ responseBytes tools.contentHash page document } ∧
      c.writer.warcSequence = a.writer.warcSequence ∧ c.disk.warc = a.disk.warc ∧
      (b = c ∨ ∃ d, finishWarc config tools faults c = (.ok (), d) ∧
        openWarc tools now faults d = (.ok (), b)) := by
  rw [writeWarcRecord] at h
  split at h
  · cases h
  · rename_i f hf
    dsimp only at h
    split at h
    · cases h
    · rename_i htaken
      have hall : (responseBytes tools.contentHash page document).take
          (BufWriter.taken faults.record (responseBytes tools.contentHash page document)) =
          responseBytes tools.contentHash page document :=
        List.take_of_length_le (Nat.le_of_not_lt htaken)
      rw [hall] at h
      split at h
      · obtain ⟨d, hfinish, hopen⟩ := Called.andThen_ok h
        refine ⟨f, _, hf, ?_, ?_, ?_, .inr ⟨d, hfinish, hopen⟩⟩ <;> rfl
      · cases h
        refine ⟨f, _, hf, ?_, ?_, ?_, .inl rfl⟩ <;> rfl

end

/-! ### Without faults -/

/-- No write, sync, rename or creation fails. -/
def noFaults : Faults :=
  { list := false
    warc := { record := none, finish := none, create := false, header := none }
    frame :=
      { header := { flush := none, direct := none }, payload := { flush := none, direct := none } }
    «seal» := { flush := none, again := none, sync := false, rename := false }
    createSegment := false }

/-- An archive that a page can be written to. -/
structure Ready (a : Opened) : Prop where
  file : ∃ f, a.writer.warc = some f
  segment : ∃ s, a.writer.segment = some s
  warcSequence : a.writer.warcSequence + 1 < 2 ^ 64
  segmentSequence : a.writer.segmentSequence + 1 < 2 ^ 64

section

variable {config : StorageConfig} {tools : Tools}

theorem openWarc_faultless (now : ℤ) {a : Opened} (hfit : a.writer.warcSequence + 1 < 2 ^ 64) :
    ∃ b, openWarc tools now noFaults.warc a = (.ok (), b) := by
  rw [openWarc]
  dsimp only
  rw [if_pos hfit]
  exact ⟨_, rfl⟩

theorem openSegment_faultless {a : Opened} (hfit : a.writer.segmentSequence + 1 < 2 ^ 64) :
    ∃ b, openSegment noFaults a = (.ok (), b) := by
  rw [openSegment]
  dsimp only
  rw [if_neg (by decide), if_pos hfit]
  exact ⟨_, rfl⟩

theorem finishWarc_faultless (config : StorageConfig) (tools : Tools) (a : Opened) :
    ∃ b, finishWarc config tools noFaults.warc a = (.ok (), b) := by
  rw [finishWarc]
  split <;> exact ⟨_, rfl⟩

theorem SpoolSegment.seal_faultless (segment : SpoolSegment) (spool : Directory) :
    segment.seal noFaults.seal spool = (.ok (), segment.whole.seal spool) := by
  rcases segment.seal_spec noFaults.seal spool with hok | ⟨e, bytes, herror⟩
  · exact hok
  · have hflush : (segment.writer.flushBuf noFaults.seal.flush).1 = true :=
      decide_eq_true (BufWriter.taken_none _)
    rw [SpoolSegment.seal] at herror
    dsimp only at herror
    rw [if_pos hflush, if_neg (by decide), if_neg (by decide)] at herror
    cases herror

theorem sealSegment_faultless (a : Opened) : ∃ b, sealSegment noFaults a = (.ok (), b) := by
  rw [sealSegment]
  split
  · exact ⟨_, rfl⟩
  · rw [SpoolSegment.seal_faultless]
    exact ⟨_, rfl⟩

theorem writeWarcRecord_faultless (config : StorageConfig) (now : ℤ) (page : FetchedPage)
    (document : Document) {a : Opened} (h : Ready a) : ∃ b, writeWarcRecord config tools now noFaults.warc page document a
      = (.ok (), b) := by
  obtain ⟨f, hf⟩ := h.file
  rw [writeWarcRecord, hf]
  dsimp only
  rw [if_neg (by rw [noFaults, BufWriter.taken_none]; omega)]
  split
  · obtain ⟨b, hfinish⟩ := finishWarc_faultless config tools
      { a with
        writer := { a.writer with
          warc := some { f with
            written := f.written ++ (responseBytes tools.contentHash page document).take
              (BufWriter.taken noFaults.warc.record
                (responseBytes tools.contentHash page document)) }
          stats := { a.writer.stats with
            warcBytes :=
              a.writer.stats.warcBytes + (responseBytes tools.contentHash page document).length
            warcRecords := a.writer.stats.warcRecords + 1 } } }
    have hsequence := (finishWarc_ok hfinish).2.1
    rw [hfinish]
    exact openWarc_faultless now (by rw [hsequence]; exact h.warcSequence)
  · exact ⟨_, rfl⟩

/-- What dropping the writer does to the spool. -/
theorem drop_faultless {a : Opened} {s : SpoolSegment} (hs : a.writer.segment = some s) :
    (drop config tools noFaults a).spool = s.whole.seal a.disk.spool := by
  obtain ⟨b, hseal⟩ := sealSegment_faultless a
  rw [drop, hseal, show (finishWarc config tools noFaults.warc b).2.disk.spool = b.disk.spool from
    (finishWarc_spool config tools noFaults.warc b).spool]
  rcases (sealSegment_ok hseal).2.2 with ⟨hnone, -⟩ | ⟨t, ht, hspool⟩
  · rw [hs] at hnone
    cases hnone
  · rw [hs] at ht
    cases ht
    exact hspool

/-- **Without faults an archive is opened**, and a page can be written to it. -/
theorem open_faultless (now : ℤ) {warcListing spoolListing : List Str} {m n : ℕ} (disk : Disk)
    (hwarc : nextWarcSequence warcListing = some m)
    (hspool : nextSpoolSequence spoolListing = some n)
    (hm : m + 2 < 2 ^ 64) (hn : n + 2 < 2 ^ 64) :
    ∃ writer disk', «open» config tools now noFaults warcListing spoolListing disk
      = (.ok writer, disk') ∧ Ready { writer, disk := disk' } := by
  obtain ⟨a, ha⟩ := @openWarc_faultless tools now { writer := .new m n, disk }
    (by show m + 1 < 2 ^ 64; omega)
  have hsame := openWarc_spool tools now noFaults.warc { writer := .new m n, disk }
  rw [ha] at hsame
  have hnumber : a.writer.segmentSequence = n := hsame.sequence
  obtain ⟨b, hb⟩ := openSegment_faultless (a := a) (by rw [hnumber]; omega)
  obtain ⟨-, -, hfile, hfiles⟩ := openWarc_ok ha
  obtain ⟨-, -, hsegment, hsegments⟩ := openSegment_ok hb
  have hkept := openSegment_warc noFaults a
  rw [hb] at hkept
  refine ⟨b.writer, b.disk, ?_, ⟨_, hkept.file.trans hfile⟩, ⟨_, hsegment⟩, ?_, ?_⟩
  · rw [«open», if_neg (by decide), hwarc, hspool]
    have hcalled : (openWarc tools now noFaults.warc { writer := .new m n, disk }).andThen
        (openSegment noFaults) = (.ok (), b) := by
      rw [ha]
      exact hb
    dsimp only
    rw [hcalled]
  · show b.writer.warcSequence + 1 < 2 ^ 64
    rw [show b.writer.warcSequence = a.writer.warcSequence from hkept.sequence, hfiles]
    exact hm
  · show b.writer.segmentSequence + 1 < 2 ^ 64
    rw [hsegments, hnumber]
    exact hn

end

/-! ### Calls, one by one -/

section

variable {config : StorageConfig} {tools : Tools} {S T : System} {e : Event}

/-- **What a call can do.** -/
theorem Step.cases (h : Step config tools S e T) :
    (∃ warcListing spoolListing, e.call = .open warcListing spoolListing ∧ S.writer = none ∧
      S.disk.warc.Lists warcListing ∧ S.disk.spool.Lists spoolListing ∧
      ((∃ writer disk, «open» config tools e.now e.faults warcListing spoolListing S.disk
          = (.ok writer, disk) ∧ e.result = .ok () ∧ T = { disk, writer := some writer }) ∨
        ∃ error disk, «open» config tools e.now e.faults warcListing spoolListing S.disk
          = (.error error, disk) ∧ e.result = .error error ∧ T = { disk, writer := none })) ∨
    (∃ page document writer archive, e.call = .writePage page document ∧
      S.writer = some writer ∧
      writePage config tools e.now e.faults page document { writer, disk := S.disk }
        = (e.result, archive) ∧ T = { disk := archive.disk, writer := some archive.writer }) ∨
    (∃ writer archive, e.call = .seal ∧ S.writer = some writer ∧
      «seal» config tools e.faults { writer, disk := S.disk } = (e.result, archive) ∧
      T = { disk := archive.disk, writer := some archive.writer }) ∨
    (∃ writer, e.call = .drop ∧ S.writer = some writer ∧ e.result = .ok () ∧
      T = { disk := drop config tools e.faults { writer, disk := S.disk }, writer := none }) := by
  obtain ⟨hlists, hperform⟩ := h
  cases hcall : e.call with
  | «open» warcListing spoolListing =>
    obtain ⟨hwarc, hspool⟩ := hlists warcListing spoolListing hcall
    cases hw : S.writer with
    | some writer => simp [perform, hcall, hw] at hperform
    | none =>
      refine .inl ⟨_, _, rfl, rfl, hwarc, hspool, ?_⟩
      rw [perform.eq_def, hcall, hw] at hperform
      dsimp only at hperform
      split at hperform
      · rename_i writer disk hopen
        obtain ⟨hresult, hT⟩ := Prod.mk.inj (Option.some.inj hperform)
        exact .inl ⟨writer, disk, hopen, hresult.symm, hT.symm⟩
      · rename_i error disk hopen
        obtain ⟨hresult, hT⟩ := Prod.mk.inj (Option.some.inj hperform)
        exact .inr ⟨error, disk, hopen, hresult.symm, hT.symm⟩
  | writePage page document =>
    cases hw : S.writer with
    | none => simp [perform, hcall, hw] at hperform
    | some writer =>
      obtain ⟨result, archive, hwrite⟩ : ∃ result archive, writePage config tools e.now e.faults
          page document { writer, disk := S.disk } = (result, archive) := ⟨_, _, rfl⟩
      rw [perform.eq_def, hcall, hw] at hperform
      dsimp only at hperform
      rw [hwrite] at hperform
      obtain ⟨hresult, hT⟩ := Prod.mk.inj (Option.some.inj hperform)
      refine .inr (.inl ⟨page, document, writer, archive, rfl, rfl, ?_, hT.symm⟩)
      rw [hwrite, ← hresult]
  | «seal» =>
    cases hw : S.writer with
    | none => simp [perform, hcall, hw] at hperform
    | some writer =>
      obtain ⟨result, archive, hseal⟩ : ∃ result archive, «seal» config tools e.faults
          { writer, disk := S.disk } = (result, archive) := ⟨_, _, rfl⟩
      rw [perform.eq_def, hcall, hw] at hperform
      dsimp only at hperform
      rw [hseal] at hperform
      obtain ⟨hresult, hT⟩ := Prod.mk.inj (Option.some.inj hperform)
      refine .inr (.inr (.inl ⟨writer, archive, rfl, rfl, ?_, hT.symm⟩))
      rw [hseal, ← hresult]
  | drop =>
    cases hw : S.writer with
    | none => simp [perform, hcall, hw] at hperform
    | some writer =>
      rw [perform.eq_def, hcall, hw] at hperform
      obtain ⟨hresult, hT⟩ := Prod.mk.inj (Option.some.inj hperform)
      exact .inr (.inr (.inr ⟨writer, rfl, rfl, hresult.symm, hT.symm⟩))

/-! The four calls, as steps. -/

theorem Step.ofOpen {now : ℤ} {faults : Faults} {warcListing spoolListing : List Str}
    {writer : ArchiveWriter} {disk : Disk} (hw : S.writer = none)
    (hwarc : S.disk.warc.Lists warcListing) (hspool : S.disk.spool.Lists spoolListing)
    (h : «open» config tools now faults warcListing spoolListing S.disk = (.ok writer, disk)) :
    Step config tools S { call := .open warcListing spoolListing, now, faults, result := .ok () }
      { disk, writer := some writer } := by
  refine ⟨fun warcListing' spoolListing' hcall => ?_, by simp only [perform, hw, h]⟩
  cases hcall
  exact ⟨hwarc, hspool⟩

theorem Step.ofWritePage {now : ℤ} {faults : Faults} {page : FetchedPage} {document : Document}
    {writer : ArchiveWriter} {result : Except CrawlError Unit} {archive : Opened}
    (hw : S.writer = some writer)
    (h : writePage config tools now faults page document { writer, disk := S.disk }
      = (result, archive)) :
    Step config tools S { call := .writePage page document, now, faults, result }
      { disk := archive.disk, writer := some archive.writer } :=
  ⟨fun _ _ hcall => (by cases hcall), by simp only [perform, hw, h]⟩

theorem Step.ofDrop (now : ℤ) (faults : Faults) {writer : ArchiveWriter}
    (hw : S.writer = some writer) :
    Step config tools S { call := .drop, now, faults, result := .ok () }
      { disk := drop config tools faults { writer, disk := S.disk }, writer := none } :=
  ⟨fun _ _ hcall => (by cases hcall), by simp only [perform, hw]⟩

/-- An archive that is opened is new, with a WARC file and a segment. -/
theorem open_spec {now : ℤ} {faults : Faults} {warcListing spoolListing : List Str} {disk : Disk}
    {result : Except CrawlError ArchiveWriter} {disk' : Disk}
    (h : «open» config tools now faults warcListing spoolListing disk = (result, disk')) :
    (∃ error, result = .error error ∧ disk' = disk) ∨
    ∃ warcSequence segmentSequence, nextWarcSequence warcListing = some warcSequence ∧
      nextSpoolSequence spoolListing = some segmentSequence ∧
      ∃ called, called = (openWarc tools now faults.warc
        { writer := .new warcSequence segmentSequence, disk }).andThen (openSegment faults) ∧
      ((∃ archive, called = (.ok (), archive) ∧ result = .ok archive.writer ∧
          disk' = archive.disk) ∨
        ∃ error archive, called = (.error error, archive) ∧ result = .error error ∧
          disk' = drop config tools faults archive) := by
  rw [«open»] at h
  split at h
  · cases h
    exact .inl ⟨_, rfl, rfl⟩
  · split at h
    · rename_i warcSequence segmentSequence hwarc hspool
      refine .inr ⟨warcSequence, segmentSequence, hwarc, hspool, _, rfl, ?_⟩
      dsimp only at h
      split at h
      · rename_i archive hcalled
        cases h
        exact .inl ⟨archive, hcalled, rfl, rfl⟩
      · rename_i error archive hcalled
        cases h
        exact .inr ⟨error, archive, hcalled, rfl, rfl⟩
    · cases h
      exact .inl ⟨_, rfl, rfl⟩

/-- An archive that is opened has a new WARC file and a new segment. -/
theorem open_ok {now : ℤ} {faults : Faults} {warcListing spoolListing : List Str}
    {disk disk' : Disk} {writer : ArchiveWriter}
    (h : «open» config tools now faults warcListing spoolListing disk = (.ok writer, disk')) :
    ∃ m n, nextWarcSequence warcListing = some m ∧ nextSpoolSequence spoolListing = some n ∧
      m + 1 < 2 ^ 64 ∧ n + 1 < 2 ^ 64 ∧
      disk'.warc = disk.warc.create (warcName m) ∧
      writer.warc = some
        { name := warcName m, written := fileBytes tools.contentHash now (warcName m) [] } ∧
      writer.warcSequence = m + 1 ∧
      disk'.spool = disk.spool.create (openSegmentName n) ∧
      writer.segment = some (.create n) ∧ writer.segmentSequence = n + 1 := by
  rcases open_spec h with ⟨_, hc, -⟩ | ⟨m, n, hm, hn, called, hcalled, hresult⟩
  · cases hc
  · rcases hresult with ⟨b, rfl, hwriter, rfl⟩ | ⟨_, _, -, hc, -⟩
    · cases hwriter
      obtain ⟨a, ha, hb⟩ := Called.andThen_ok hcalled.symm
      have hspool := openWarc_spool tools now faults.warc { writer := .new m n, disk }
      have hwarc := openSegment_warc faults a
      rw [ha] at hspool
      rw [hb] at hwarc
      obtain ⟨hmfit, hcreated, hfile, hfiles⟩ := openWarc_ok ha
      obtain ⟨hnfit, hplaced, hsegment, hsegments⟩ := openSegment_ok hb
      have hnumber : a.writer.segmentSequence = n := hspool.sequence
      rw [hnumber] at hnfit hplaced hsegment hsegments
      refine ⟨m, n, hm, hn, hmfit, hnfit, hwarc.warc.trans hcreated, hwarc.file.trans hfile,
        hwarc.sequence.trans hfiles, ?_, hsegment, hsegments⟩
      rw [hplaced, show a.disk.spool = disk.spool from hspool.spool]
    · cases hc

end

/-- The page that a call writes. -/
def Event.pages (e : Event) : List (FetchedPage × Document) :=
  match e.call with
  | .writePage page document => [(page, document)]
  | _ => []

/-- The pages that were passed to `write_page`, in the order of the calls. -/
def writtenPages (es : List Event) : List (FetchedPage × Document) := es.flatMap Event.pages

theorem writtenPages_snoc (es : List Event) (e : Event) :
    writtenPages (es ++ [e]) = writtenPages es ++ e.pages := by
  rw [writtenPages, List.flatMap_append, List.flatMap_singleton]
  rfl

/-! ### Two pages -/

/-- Calls one after the other, with what they come to; one that cannot be made is passed over. -/
def exec (config : StorageConfig) (tools : Tools) (S : System) :
    List (Call × Faults) → List Event × System
  | [] => ([], S)
  | (call, faults) :: calls =>
    match perform config tools S call 0 faults with
    | none => exec config tools S calls
    | some (result, T) =>
      ({ call, now := 0, faults, result } :: (exec config tools T calls).1,
        (exec config tools T calls).2)

section

variable {config : StorageConfig} {tools : Tools} {S : System} {calls : List (Call × Faults)}

theorem exec_run (h : ∀ c ∈ calls, ∀ warcListing spoolListing,
    c.1 ≠ .open warcListing spoolListing) :
    Run (Step config tools) S (exec config tools S calls).1 (exec config tools S calls).2 := by
  induction calls generalizing S with
  | nil => exact .refl
  | cons c calls ih =>
    have hrest := fun c' hc' => h c' (List.mem_cons_of_mem _ hc')
    rw [exec]
    split
    · exact ih hrest
    · rename_i result T hperform
      refine Run.cons ⟨fun warcListing spoolListing hopen => ?_, hperform⟩ (ih hrest)
      exact absurd hopen (h c List.mem_cons_self _ _)

/-- Every event is of a call that was to be made. -/
theorem exec_mem {e : Event} (h : e ∈ (exec config tools S calls).1) :
    (e.call, e.faults) ∈ calls := by
  induction calls generalizing S with
  | nil => cases h
  | cons c calls ih =>
    rw [exec] at h
    split at h
    · exact List.mem_cons_of_mem _ (ih h)
    · rcases List.mem_cons.mp h with rfl | h
      · exact List.mem_cons_self
      · exact List.mem_cons_of_mem _ (ih h)

/-- Two empty directories, and no writer. -/
def emptySystem : System :=
  { disk := { spool := fun _ => none, warc := fun _ => none }, writer := none }

theorem emptySystem_lists : Directory.Lists (fun _ => none) [] :=
  ⟨List.nodup_nil, by simp⟩

/-- The calls on an archive that is opened first. -/
theorem exec_open_run (h : ∀ c ∈ calls, ∀ warcListing spoolListing,
    c.1 ≠ .open warcListing spoolListing) :
    Run (Step config tools) emptySystem
      (exec config tools emptySystem ((.open [] [], noFaults) :: calls)).1
      (exec config tools emptySystem ((.open [] [], noFaults) :: calls)).2 := by
  rw [exec]
  split
  · exact exec_run h
  · rename_i result T hperform
    refine Run.cons ⟨fun warcListing spoolListing hopen => ?_, hperform⟩ (exec_run h)
    cases hopen
    exact ⟨emptySystem_lists, emptySystem_lists⟩

end

/-- The archive without arguments. -/
def defaultConfig : StorageConfig :=
  { compressionLevel := 6, warcMaxBytes := 1024 * 1024 * 1024, segmentBytes := 8 * 1024 * 1024 }

/-- Limits that one page reaches. -/
def smallConfig : StorageConfig :=
  { compressionLevel := 6, warcMaxBytes := 500, segmentBytes := 20 }

/-- A zstd frame of its own, with one raw block, for each byte. -/
def rawFrames (bytes : List UInt8) : List UInt8 :=
  bytes.flatMap fun b => [0x28, 0xb5, 0x2f, 0xfd, 0x20, 1, 9, 0, 0, b]

/-- What such frames are decompressed to. -/
def ofRawFrames : List UInt8 → Option (List UInt8)
  | 0x28 :: 0xb5 :: 0x2f :: 0xfd :: 0x20 :: 1 :: 9 :: 0 :: 0 :: b :: rest =>
    (ofRawFrames rest).map (b :: ·)
  | [] => some []
  | _ => none

theorem ofRawFrames_rawFrames (bytes : List UInt8) :
    ofRawFrames (rawFrames bytes) = some bytes := by
  induction bytes with
  | nil => rfl
  | cons b bytes ih =>
    have hnext : rawFrames (b :: bytes) =
        0x28 :: 0xb5 :: 0x2f :: 0xfd :: 0x20 :: 1 :: 9 :: 0 :: 0 :: b :: rawFrames bytes := rfl
    rw [hnext, ofRawFrames, ih]
    rfl

def sampleTools : Tools :=
  { codec := Postcard.documentFormat.toCodec, compress := fun _ => rawFrames
    contentHash := fun _ => 0 }

/-- The response that the page was read from. -/
def sampleFetched : FetchedPage :=
  { finalUrl := "h:".toList, status := 200, contentType := some "text/html".toList,
    body := "\r\n\r\nWARC/1.1".toList }

def otherFetched : FetchedPage := { sampleFetched with finalUrl := "h:x".toList }

/-- Both pages are written, each into a segment and a file of its own. -/
def sampleCalls : List (Call × Faults) :=
  [(.writePage sampleFetched samplePage, noFaults), (.writePage otherFetched otherPage, noFaults),
    (.seal, noFaults)]

def sampleRun : List Event × System :=
  exec smallConfig sampleTools emptySystem ((.open [] [], noFaults) :: sampleCalls)

/-- A call that succeeds and drops no writer. -/
def Plainly (S : System) (e : Event) (T : System) : Prop :=
  Step smallConfig sampleTools S e T ∧ e.result = .ok () ∧ e.call ≠ .drop

theorem sampleRun_run : Run Plainly emptySystem sampleRun.1 sampleRun.2 := by
  have hrun : Run (Step smallConfig sampleTools) emptySystem sampleRun.1 sampleRun.2 :=
    exec_open_run (by simp [sampleCalls])
  have hok : sampleRun.1.all (fun e => e.result.isOk) = true := by decide +kernel
  refine (hrun.restrict fun e he => ⟨?_, ?_⟩).imp fun _ _ _ h => h
  · have hresult := List.all_eq_true.mp hok e he
    rcases hcame : e.result with error | _
    · rw [hcame] at hresult
      cases hresult
    · rfl
  · intro hdrop
    have hcall := exec_mem he
    rw [hdrop] at hcall
    simp [sampleCalls] at hcall

/-- Three segments were sealed and three files finished, the last of them without a page. -/
theorem sampleRun_disk :
    sampleRun.2.disk.spool (sealedSegmentName 1) = some (16 :: 0 :: 0 :: 0 :: samplePayload) ∧
      sampleRun.2.disk.spool (sealedSegmentName 2)
        = some ([17, 0, 0, 0, 3, 104, 58, 120] ++ samplePayload.drop 3) ∧
      sampleRun.2.disk.spool (sealedSegmentName 3) = some [] ∧
      ∀ n, 1 ≤ n → n ≤ 3 → (sampleRun.2.disk.warc (warcName n)).isSome := by
  refine ⟨by decide +kernel, by decide +kernel, by decide +kernel, fun n hlow hhigh => ?_⟩
  have hall : ∀ i ≤ 3, 1 ≤ i → (sampleRun.2.disk.warc (warcName i)).isSome = true := by
    decide +kernel
  exact hall n hhigh hlow

end Archive
