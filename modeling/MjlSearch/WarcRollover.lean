/-
When the archive starts a new WARC file (`ArchiveWriter::write_warc_record`).

The limit is for a file, and is compared with the bytes of the whole run: the counter is a
statistic, and is not set back when a file is finished.  So the first file of a run ends
where it should, and every file after it with its first record.

* `writePage_counts` — what a page does to the file, the counter and the directory;
* `Counted` — the counter is the size of the first file, and has reached the limit when there
  is a second;
* `rollover_iff` — when the files of a run end where they should.
-/
import MjlSearch.ArchiveCalls

open Text Spool Warc Runs

namespace Archive

/-- A call of `write_page`. -/
structure Write where
  now : ℤ
  faults : Faults
  page : FetchedPage
  document : Document

/-- A call that succeeds. -/
def Writes (config : StorageConfig) (tools : Tools) (a : Opened) (w : Write) (b : Opened) : Prop :=
  writePage config tools w.now w.faults w.page w.document a = (.ok (), b)

/-- What the current WARC file is handed until the call's record is in it: its header record
and the responses. -/
def fileWith (tools : Tools) (a : Opened) (w : Write) : List UInt8 :=
  (a.writer.warc.map WarcFile.written).getD [] ++
    responseBytes tools.contentHash w.page w.document

/-- A WARC file is started. -/
def OpensWarc (a b : Opened) : Prop :=
  b.writer.stats.warcFiles = a.writer.stats.warcFiles + 1

/-- The WARC file is the first of the run. -/
def InFirstFile (a : Opened) : Prop := a.writer.stats.warcFiles = 1

/-! ### The spool half -/

/-- A part of a call that leaves the counters of the WARC half alone. -/
structure CountsSame (a b : Opened) : Prop where
  bytes : b.writer.stats.warcBytes = a.writer.stats.warcBytes
  files : b.writer.stats.warcFiles = a.writer.stats.warcFiles

theorem CountsSame.trans {a b c : Opened} (h : CountsSame a b) (h' : CountsSame b c) :
    CountsSame a c :=
  ⟨h'.bytes.trans h.bytes, h'.files.trans h.files⟩

theorem openSegment_counts (faults : Faults) (a : Opened) :
    CountsSame a (openSegment faults a).2 := by
  rw [openSegment]
  dsimp only
  split
  · exact ⟨rfl, rfl⟩
  · split <;> exact ⟨rfl, rfl⟩

theorem sealSegment_counts (faults : Faults) (a : Opened) :
    CountsSame a (sealSegment faults a).2 := by
  rw [sealSegment]
  split
  · exact ⟨rfl, rfl⟩
  · split <;> exact ⟨rfl, rfl⟩

section

variable {config : StorageConfig} {tools : Tools} {a b : Opened} {w : Write}

theorem writeSpoolFrame_counts (config : StorageConfig) (tools : Tools) (faults : Faults)
    (document : Document) (a : Opened) :
    CountsSame a (writeSpoolFrame config tools faults document a).2 := by
  rw [writeSpoolFrame]
  dsimp only
  split
  · exact ⟨rfl, rfl⟩
  · split
    · exact ⟨rfl, rfl⟩
    · split
      · refine Called.andThen_keeps (P := CountsSame a) ?_ fun b hb => ?_
        · have hseal := sealSegment_counts faults
          exact ⟨(hseal _).bytes, (hseal _).files⟩
        · exact hb.trans (openSegment_counts faults b)
      · exact ⟨rfl, rfl⟩

/-! ### One page -/

theorem openWarc_counts {now : ℤ} {faults : WarcFaults}
    (h : openWarc tools now faults a = (.ok (), b)) :
    ∃ header, b.writer.warc = some { name := warcName a.writer.warcSequence, written := header } ∧
      b.writer.stats.warcBytes = a.writer.stats.warcBytes + header.length ∧
      b.writer.stats.warcFiles = a.writer.stats.warcFiles + 1 := by
  rw [openWarc] at h
  dsimp only at h
  split at h
  · split at h
    · cases h
    · split at h
      · cases h
      · cases h
        exact ⟨_, rfl, rfl, rfl⟩
  · cases h

theorem finishWarc_counts {faults : WarcFaults} (h : finishWarc config tools faults a = (.ok (), b)) :
    CountsSame a b := by
  rw [finishWarc] at h
  split at h
  · cases h
    exact ⟨rfl, rfl⟩
  · dsimp only at h
    split at h
    · cases h
    · cases h
      exact ⟨rfl, rfl⟩

/-- What a page does to the WARC half: its record is in the file, and the file is finished and
another one started when the counter has reached the limit. -/
inductive Recorded (config : StorageConfig) (tools : Tools) (a : Opened) (w : Write)
    (b : Opened) : Prop
  | goesOn (file : WarcFile) (hfile : a.writer.warc = some file)
    (below : a.writer.stats.warcBytes +
      (responseBytes tools.contentHash w.page w.document).length < config.warcMaxBytes)
    (current : b.writer.warc = some { file with written := fileWith tools a w })
    (bytes : b.writer.stats.warcBytes = a.writer.stats.warcBytes +
      (responseBytes tools.contentHash w.page w.document).length)
    (files : b.writer.stats.warcFiles = a.writer.stats.warcFiles)
    (disk : b.disk.warc = a.disk.warc)
  | rolls (file next : WarcFile) (hfile : a.writer.warc = some file)
    (reached : config.warcMaxBytes ≤ a.writer.stats.warcBytes +
      (responseBytes tools.contentHash w.page w.document).length)
    (current : b.writer.warc = some next)
    (bytes : b.writer.stats.warcBytes = a.writer.stats.warcBytes +
      (responseBytes tools.contentHash w.page w.document).length + next.written.length)
    (files : OpensWarc a b)
    (disk : b.disk.warc = (a.disk.warc.place file.name
      (tools.compress config.compressionLevel (fileWith tools a w))).create next.name)

theorem writeWarcRecord_counts
    (h : writeWarcRecord config tools w.now w.faults.warc w.page w.document a = (.ok (), b)) :
    Recorded config tools a w b := by
  rw [writeWarcRecord] at h
  split at h
  · cases h
  · rename_i file hfile
    have hwith : fileWith tools a w =
        file.written ++ responseBytes tools.contentHash w.page w.document := by
      rw [fileWith, hfile]
      rfl
    dsimp only at h
    split at h
    · cases h
    · rename_i htaken
      rw [List.take_of_length_le (Nat.le_of_not_lt htaken), ← hwith] at h
      split at h
      · rename_i hreached
        obtain ⟨d, hfinish, hopen⟩ := Called.andThen_ok h
        have hsame := finishWarc_counts hfinish
        obtain ⟨-, hsequence, hplaced⟩ := finishWarc_ok hfinish
        obtain ⟨header, hcurrent, hbytes, hfiles⟩ := openWarc_counts hopen
        obtain ⟨-, hcreated, -, -⟩ := openWarc_ok hopen
        have hbytes' := hsame.bytes
        have hfiles' := hsame.files
        rcases hplaced with ⟨hnone, -⟩ | ⟨f, hf, hdisk⟩
        · cases hnone
        · cases hf
          refine .rolls file _ hfile hreached hcurrent ?_ ?_ ?_
          · rw [hbytes, hbytes']
          · rw [OpensWarc, hfiles, hfiles']
          · rw [hcreated, hdisk]
      · rename_i hbelow
        cases h
        exact .goesOn file hfile (Nat.lt_of_not_le hbelow) rfl rfl rfl rfl

/-- **What a page does to the WARC half.** -/
theorem writePage_counts (h : Writes config tools a w b) : Recorded config tools a w b := by
  obtain ⟨c, hrecord, hspool⟩ := Called.andThen_ok h
  have hsame := writeSpoolFrame_counts config tools w.faults w.document c
  have hwarc := writeSpoolFrame_warc config tools w.faults w.document c
  rw [hspool] at hsame hwarc
  cases writeWarcRecord_counts hrecord with
  | goesOn file hfile below current bytes files disk =>
    exact .goesOn file hfile below (hwarc.file.trans current) (hsame.bytes.trans bytes)
      (hsame.files.trans files) (hwarc.warc.trans disk)
  | rolls file next hfile reached current bytes files disk =>
    exact .rolls file next hfile reached (hwarc.file.trans current) (hsame.bytes.trans bytes)
      (hsame.files.trans files) (hwarc.warc.trans disk)

/-! ### The counter and the file -/

/-- The counter is the size of the run's first file, and has reached the limit when there is
another. -/
structure Counted (config : StorageConfig) (a : Opened) : Prop where
  current : ∃ file, a.writer.warc = some file
  started : 1 ≤ a.writer.stats.warcFiles
  first : InFirstFile a → ∀ file, a.writer.warc = some file →
    a.writer.stats.warcBytes = file.written.length
  later : ¬ InFirstFile a → config.warcMaxBytes ≤ a.writer.stats.warcBytes

theorem Counted.writes (ha : Counted config a) (h : Writes config tools a w b) :
    Counted config b := by
  have hstarted := ha.started
  cases writePage_counts h with
  | goesOn file hfile below current bytes files disk =>
    refine ⟨⟨_, current⟩, files.symm ▸ hstarted, fun hfirst file' hfile' => ?_, fun hlater => ?_⟩
    · rw [current] at hfile'
      cases hfile'
      have hsize := ha.first (files.symm.trans hfirst) file hfile
      rw [bytes, hsize, fileWith, hfile]
      exact List.length_append.symm
    · rw [bytes]
      exact (ha.later fun hc => hlater (files.trans hc)).trans (Nat.le_add_right _ _)
  | rolls file next hfile reached current bytes files disk =>
    rw [OpensWarc] at files
    refine ⟨⟨next, current⟩, by omega, fun hfirst => ?_, fun _ => ?_⟩
    · rw [InFirstFile] at hfirst
      omega
    · rw [bytes]
      exact reached.trans (Nat.le_add_right _ _)

/-- An archive that was opened has written the header of its first file. -/
theorem Counted.opened {now : ℤ} {faults : Faults} {warcListing spoolListing : List Str}
    {disk disk' : Disk} {writer : ArchiveWriter}
    (h : «open» config tools now faults warcListing spoolListing disk = (.ok writer, disk')) :
    Counted config { writer, disk := disk' } := by
  rcases open_spec h with ⟨_, hc, -⟩ | ⟨m, n, -, -, called, hcalled, hresult⟩
  · cases hc
  · rcases hresult with ⟨archive, rfl, hwriter, rfl⟩ | ⟨_, _, -, hc, -⟩
    · cases hwriter
      obtain ⟨c, hopen, hsegment⟩ := Called.andThen_ok hcalled.symm
      obtain ⟨header, hcurrent, hbytes, hfiles⟩ := openWarc_counts hopen
      have hsame := openSegment_counts faults c
      have hwarc := openSegment_warc faults c
      rw [hsegment] at hsame hwarc
      have hfirst : archive.writer.stats.warcFiles = 1 := hsame.files.trans hfiles
      refine ⟨⟨_, hwarc.file.trans hcurrent⟩, hfirst.ge, fun _ file hfile => ?_, fun hlater =>
        absurd hfirst hlater⟩
      rw [hwarc.file, hcurrent] at hfile
      cases hfile
      exact (hsame.bytes.trans hbytes).trans (Nat.zero_add _)
    · cases hc

/-- The file of a page's record ends where it should: another one is started exactly when this
one has reached the limit with the record, and then it is this file that is finished. -/
structure FollowsFile (config : StorageConfig) (tools : Tools) (a : Opened) (w : Write)
    (b : Opened) : Prop where
  opens : OpensWarc a b ↔ config.warcMaxBytes ≤ (fileWith tools a w).length
  closed : OpensWarc a b → ∃ file next, a.writer.warc = some file ∧ b.writer.warc = some next ∧
    b.disk.warc = (a.disk.warc.place file.name
      (tools.compress config.compressionLevel (fileWith tools a w))).create next.name ∧
    config.warcMaxBytes ≤ (fileWith tools a w).length

/-- One page ends its file where it should exactly when the file is the run's first, or has
reached the limit with it. -/
theorem Counted.follows_iff (ha : Counted config a) (h : Writes config tools a w b) :
    FollowsFile config tools a w b ↔
      InFirstFile a ∨ config.warcMaxBytes ≤ (fileWith tools a w).length := by
  cases writePage_counts h with
  | goesOn file hfile below current bytes files disk =>
    have hsame : ¬ OpensWarc a b := by
      rw [OpensWarc, files]
      omega
    have hfirst : InFirstFile a := by
      -- after the first file the counter is at the limit, and the file would have ended
      by_contra hlater
      have hreached := ha.later hlater
      omega
    have hsize : (fileWith tools a w).length = a.writer.stats.warcBytes +
        (responseBytes tools.contentHash w.page w.document).length := by
      rw [ha.first hfirst file hfile, fileWith, hfile]
      exact List.length_append
    refine iff_of_true ⟨iff_of_false hsame ?_, fun hc => absurd hc hsame⟩ (.inl hfirst)
    rw [hsize]
    omega
  | rolls file next hfile reached current bytes files disk =>
    constructor
    · exact fun hfollows => .inr (hfollows.opens.mp files)
    · intro hcase
      have hlong : config.warcMaxBytes ≤ (fileWith tools a w).length := by
        rcases hcase with hfirst | hlong
        · -- the counter is the size of the file
          rw [ha.first hfirst file hfile] at reached
          rw [fileWith, hfile]
          exact reached.trans_eq List.length_append.symm
        · exact hlong
      exact ⟨iff_of_true files hlong, fun _ => ⟨file, next, hfile, current, disk, hlong⟩⟩

/-! ### Runs -/

/-- A page of a run: `a` and `b` are the archive before and after it. -/
def PageOf (config : StorageConfig) (tools : Tools) (start : Opened) (ws : List Write)
    (a : Opened) (w : Write) (b : Opened) : Prop :=
  ∃ before after, ws = before ++ w :: after ∧ Run (Writes config tools) start before a ∧
    Writes config tools a w b

/-- **The files of a run end where they should if, and only if**, every page's record is in the
run's first file or its file reaches the limit with it. From the second file on, every file
ends with its first record, however short that is. -/
theorem rollover_iff {now : ℤ} {faults : Faults} {warcListing spoolListing : List Str}
    {disk disk' : Disk} {writer : ArchiveWriter}
    (h : «open» config tools now faults warcListing spoolListing disk = (.ok writer, disk'))
    (ws : List Write) :
    (∀ a w b, PageOf config tools { writer, disk := disk' } ws a w b →
      FollowsFile config tools a w b) ↔
    ∀ a w b, PageOf config tools { writer, disk := disk' } ws a w b →
      InFirstFile a ∨ config.warcMaxBytes ≤ (fileWith tools a w).length := by
  refine forall₃_congr fun a w b => forall_congr' fun hpage => ?_
  obtain ⟨before, -, -, hrun, hwrites⟩ := hpage
  have hcounted : Counted config a :=
    Run.invariant (.opened h) (fun _ _ _ hc hstep => hc.writes hstep) hrun
  exact hcounted.follows_iff hwrites

end

/-! ### Three pages -/

/-- A limit that two of the sample's records reach, but not one. -/
def lowLimit : StorageConfig :=
  { compressionLevel := 6, warcMaxBytes := 700, segmentBytes := 8 * 1024 * 1024 }

def sampleWrite : Write := { now := 0, faults := noFaults, page := sampleFetched, document := samplePage }

def writeSample (a : Opened) : Called :=
  writePage lowLimit sampleTools 0 noFaults sampleFetched samplePage a

/-- The archive of two empty directories. -/
def openedSample : Called :=
  (openWarc sampleTools 0 noFaults.warc { writer := .new 1 1, disk := emptySystem.disk }).andThen
    (openSegment noFaults)

/-- The archive after some pages. -/
def sampleAfter : ℕ → Opened
  | 0 => openedSample.2
  | k + 1 => (writeSample (sampleAfter k)).2

/-- The calls succeed; the first two pages are in the first file, the third starts another. -/
theorem sampleAfter_facts :
    openedSample.1.isOk = true ∧ (∀ i ≤ 2, (writeSample (sampleAfter i)).1.isOk = true) ∧
      (sampleAfter 0).writer.stats.warcFiles = 1 ∧
      (sampleAfter 3).writer.stats.warcFiles = (sampleAfter 2).writer.stats.warcFiles + 1 ∧
      (fileWith sampleTools (sampleAfter 2) sampleWrite).length = 594 := by
  decide +kernel

theorem Called.eq_of_isOk {called : Called} (h : called.1.isOk = true) :
    called = (.ok (), called.2) := by
  obtain ⟨result, archive⟩ := called
  cases result with
  | error e => cases h
  | ok _ => rfl

theorem openedSample_open :
    «open» lowLimit sampleTools 0 noFaults [] [] emptySystem.disk =
      (.ok openedSample.2.writer, openedSample.2.disk) := by
  have hcalled : openedSample = (.ok (), openedSample.2) :=
    Called.eq_of_isOk sampleAfter_facts.1
  have hwarc : nextWarcSequence [] = some 1 := by decide
  have hspool : nextSpoolSequence [] = some 1 := by decide
  rw [«open», if_neg (by decide), hwarc, hspool]
  dsimp only
  rw [← openedSample, hcalled]

theorem sampleAfter_page {k : ℕ} (hk : k ≤ 2) (after : List Write) :
    PageOf lowLimit sampleTools openedSample.2 (List.replicate k sampleWrite ++ sampleWrite :: after)
      (sampleAfter k) sampleWrite (sampleAfter (k + 1)) := by
  have hwrites : ∀ i ≤ 2,
      Writes lowLimit sampleTools (sampleAfter i) sampleWrite (sampleAfter (i + 1)) :=
    fun i hi => Called.eq_of_isOk (sampleAfter_facts.2.1 i hi)
  have hrun : ∀ j ≤ k, Run (Writes lowLimit sampleTools) openedSample.2
      (List.replicate j sampleWrite) (sampleAfter j) := by
    intro j hj
    induction j with
    | zero => exact .refl
    | succ j ih =>
      rw [List.replicate_succ']
      exact .snoc (ih (by omega)) (hwrites j (by omega))
  exact ⟨_, after, rfl, hrun k le_rfl, hwrites k hk⟩

/-- The third page's record leaves its file short of the limit, and ends it. -/
theorem third_page_rolls :
    PageOf lowLimit sampleTools openedSample.2 [sampleWrite, sampleWrite, sampleWrite]
      (sampleAfter 2) sampleWrite (sampleAfter 3) ∧
    OpensWarc (sampleAfter 2) (sampleAfter 3) ∧
    (fileWith sampleTools (sampleAfter 2) sampleWrite).length = 594 ∧
    ¬ FollowsFile lowLimit sampleTools (sampleAfter 2) sampleWrite (sampleAfter 3) := by
  obtain ⟨-, -, -, hopens, hsize⟩ := sampleAfter_facts
  refine ⟨sampleAfter_page le_rfl [], hopens, hsize, fun hfollows => ?_⟩
  have hlong := hfollows.opens.mp hopens
  rw [hsize] at hlong
  exact absurd hlong (by decide)

/-- The first page is in the first file, which does not reach the limit with it. -/
theorem rollover_iff_sample :
    FollowsFile lowLimit sampleTools (sampleAfter 0) sampleWrite (sampleAfter 1) := by
  refine (rollover_iff openedSample_open [sampleWrite]).mpr ?_ _ _ _
    (sampleAfter_page (Nat.zero_le 2) [])
  rintro a w b ⟨before, after, heq, hrun, -⟩
  have hstart : before = [] := by
    rcases before with _ | ⟨_, _ | ⟨_, _⟩⟩ <;> simp_all
  generalize hnil : before = earlier at hrun
  cases hrun with
  | refl => exact .inl sampleAfter_facts.2.2.1
  | snoc _ _ => simp_all

end Archive
