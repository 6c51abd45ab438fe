/-
The archive never touches a file that it did not create.

A run numbers its files after every number in use, so what it creates has a new name, and
what it writes, finishes or seals is what it created.  This holds whatever fails.

* `parseWarcSequence_warcName` — the number of a WARC file is read back from its name;
* `nextSpoolSequence_free`, `nextWarcSequence_free` — the numbers from the next one on name
  no file;
* `files_kept` — every file stays as it was, over every run.
-/
import MjlSearch.ArchiveCalls

open Text Spool Warc Runs

namespace Archive

/-! ### Names -/

theorem parseWarcSequence_warcName {n : ℕ} (h : n < 2 ^ 64) :
    parseWarcSequence (warcName n) = some n := by
  have hrest : "crawl-".toList.isPrefixOf? (warcName n)
      = some (padded 8 n ++ ".warc.zst".toList) := by
    unfold warcName
    rw [List.append_assoc]
    exact List.isPrefixOf?_eq_some_iff_append_eq.mpr rfl
  have hdigits : ".warc.zst".toList.isSuffixOf? (padded 8 n ++ ".warc.zst".toList)
      = some (padded 8 n) :=
    List.isSuffixOf?_eq_some_iff_append_eq.mpr rfl
  rw [parseWarcSequence, hrest]
  simp only [Option.bind_eq_bind, Option.bind_some, hdigits]
  exact parseU64_padded h

theorem warcName_injective {m n : ℕ} (hm : m < 2 ^ 64) (hn : n < 2 ^ 64)
    (h : warcName m = warcName n) : m = n := by
  have hp := congrArg parseWarcSequence h
  rw [parseWarcSequence_warcName hm, parseWarcSequence_warcName hn] at hp
  exact Option.some.inj hp

theorem nextWarcSequence_gt {listing : List Str} {n k : ℕ} {name : Str}
    (h : nextWarcSequence listing = some n) (hname : name ∈ listing)
    (hk : parseWarcSequence name = some k) : k < n := by
  simp only [nextWarcSequence] at h
  split at h
  · have hmem : k ∈ listing.filterMap parseWarcSequence :=
      List.mem_filterMap.mpr ⟨name, hname, hk⟩
    have hle := (le_foldl_max _ 0).2 k hmem
    cases h
    omega
  · cases h

theorem nextWarcSequence_lt {listing : List Str} {n : ℕ} (h : nextWarcSequence listing = some n) :
    n < 2 ^ 64 := by
  simp only [nextWarcSequence] at h
  split at h
  · cases h
    assumption
  · cases h

/-- A name that is not in a right listing names no file. -/
theorem apply_eq_none {dir : Directory} {listing : List Str} {name : Str} (hl : dir.Lists listing)
    (h : name ∉ listing) : dir name = none := by
  by_contra hc
  exact h ((hl.2 name).mpr hc)

theorem nextSpoolSequence_free {dir : Directory} {listing : List Str} {n k : ℕ}
    (hl : dir.Lists listing) (hn : nextSpoolSequence listing = some n) (hk : n ≤ k)
    (hlt : k < 2 ^ 64) : dir (openSegmentName k) = none ∧ dir (sealedSegmentName k) = none := by
  constructor
  · refine apply_eq_none hl fun hmem => ?_
    have hgt := nextSpoolSequence_gt hn hmem (parseSegmentSequence_openSegmentName hlt)
    omega
  · refine apply_eq_none hl fun hmem => ?_
    have hgt := nextSpoolSequence_gt hn hmem (parseSegmentSequence_sealedSegmentName hlt)
    omega

theorem nextWarcSequence_free {dir : Directory} {listing : List Str} {n k : ℕ}
    (hl : dir.Lists listing) (hn : nextWarcSequence listing = some n) (hk : n ≤ k)
    (hlt : k < 2 ^ 64) : dir (warcName k) = none := by
  refine apply_eq_none hl fun hmem => ?_
  have hgt := nextWarcSequence_gt hn hmem (parseWarcSequence_warcName hlt)
  omega

/-! ### Directories -/

/-- The files of `base` are there, as they were. -/
def Keeps (base dir : Directory) : Prop :=
  ∀ name bytes, base name = some bytes → dir name = some bytes

theorem Keeps.free {base dir : Directory} (h : Keeps base dir) {name : Str} (hfree : dir name = none) :
    base name = none := by
  cases hbase : base name with
  | none => rfl
  | some bytes =>
    rw [h name bytes hbase] at hfree
    cases hfree

/-- A change of one file that was not there. -/
theorem Keeps.of_agree {base dir dir' : Directory} (h : Keeps base dir) {name : Str}
    (hnew : base name = none) (hagree : ∀ k, k ≠ name → dir' k = dir k) : Keeps base dir' := by
  intro k bytes hk
  have hne : k ≠ name := by
    rintro rfl
    rw [hnew] at hk
    cases hk
  rw [hagree k hne]
  exact h k bytes hk

theorem Keeps.place {base dir : Directory} (h : Keeps base dir) {name : Str}
    (hnew : base name = none) (bytes : List UInt8) : Keeps base (dir.place name bytes) :=
  h.of_agree hnew fun _ hne => Directory.place_of_ne dir bytes hne

theorem Keeps.create {base dir : Directory} (h : Keeps base dir) {name : Str}
    (hnew : base name = none) : Keeps base (dir.create name) :=
  h.of_agree hnew fun _ hne => Directory.create_of_ne dir hne

/-- Sealing changes two names. -/
theorem Keeps.seal {base dir : Directory} (h : Keeps base dir) {segment : Storage.SpoolSegment}
    (hopen : base segment.openName = none) (hsealed : base segment.sealedName = none) :
    Keeps base (segment.seal dir) := by
  intro k bytes hk
  rw [seal_at, if_neg, if_neg]
  · exact h k bytes hk
  · rintro rfl
    rw [hopen] at hk
    cases hk
  · rintro rfl
    rw [hsealed] at hk
    cases hk

/-! ### The parts of a call -/

/-- What an archive must know so that it never touches a file of `base`: the files it has open
are new, and so are the names it will create. -/
structure Opened.KeepsFiles (base : Disk) (a : Opened) : Prop where
  spool : Keeps base.spool a.disk.spool
  warc : Keeps base.warc a.disk.warc
  segment : ∀ s, a.writer.segment = some s →
    base.spool (openSegmentName s.sequence) = none ∧
      base.spool (sealedSegmentName s.sequence) = none
  file : ∀ f, a.writer.warc = some f → base.warc f.name = none
  segments : ∀ n, a.writer.segmentSequence ≤ n → n < 2 ^ 64 →
    base.spool (openSegmentName n) = none ∧ base.spool (sealedSegmentName n) = none
  files : ∀ n, a.writer.warcSequence ≤ n → n < 2 ^ 64 → base.warc (warcName n) = none
  segmentFits : a.writer.segmentSequence < 2 ^ 64
  warcFits : a.writer.warcSequence < 2 ^ 64

namespace Opened.KeepsFiles

variable {config : StorageConfig} {tools : Tools} {base : Disk} {a : Opened}

/-- A part that leaves the spool alone, and of the archives only touches the open file or
creates the next one. -/
theorem spool_same {b : Opened} (h : a.KeepsFiles base) (hsame : SpoolSame a b)
    (hwarc : Keeps base.warc b.disk.warc) (hfile : ∀ f, b.writer.warc = some f →
      base.warc f.name = none) (hle : a.writer.warcSequence ≤ b.writer.warcSequence)
    (hfits : b.writer.warcSequence < 2 ^ 64) : b.KeepsFiles base where
  spool := by
    rw [hsame.spool]
    exact h.spool
  warc := hwarc
  segment := by
    rw [hsame.segment]
    exact h.segment
  file := hfile
  segments := by
    rw [hsame.sequence]
    exact h.segments
  files n hn hlt := h.files n (le_trans hle hn) hlt
  segmentFits := by
    rw [hsame.sequence]
    exact h.segmentFits
  warcFits := hfits

/-- The same for a part that leaves the archives alone. -/
theorem warc_same {b : Opened} (h : a.KeepsFiles base) (hsame : WarcSame a b)
    (hspool : Keeps base.spool b.disk.spool) (hsegment : ∀ s, b.writer.segment = some s →
      base.spool (openSegmentName s.sequence) = none ∧
        base.spool (sealedSegmentName s.sequence) = none)
    (hle : a.writer.segmentSequence ≤ b.writer.segmentSequence)
    (hfits : b.writer.segmentSequence < 2 ^ 64) : b.KeepsFiles base where
  spool := hspool
  warc := by
    rw [hsame.warc]
    exact h.warc
  segment := hsegment
  file := by
    rw [hsame.file]
    exact h.file
  segments n hn hlt := h.segments n (le_trans hle hn) hlt
  files := by
    rw [hsame.sequence]
    exact h.files
  segmentFits := hfits
  warcFits := by
    rw [hsame.sequence]
    exact h.warcFits

theorem openWarc (h : a.KeepsFiles base) (now : ℤ) (faults : WarcFaults) :
    (Archive.openWarc tools now faults a).2.KeepsFiles base := by
  have hnew := h.files _ le_rfl h.warcFits
  rw [Archive.openWarc]
  dsimp only
  split
  · rename_i hfit
    split
    · exact h.spool_same ⟨rfl, rfl, rfl⟩ h.warc h.file (Nat.le_succ _) hfit
    · split
      · rename_i left _
        exact h.spool_same ⟨rfl, rfl, rfl⟩ ((h.warc.create hnew).place hnew left) h.file
          (Nat.le_succ _) hfit
      · refine h.spool_same ⟨rfl, rfl, rfl⟩ (h.warc.create hnew) (fun f hf => ?_)
          (Nat.le_succ _) hfit
        cases hf
        exact hnew
  · exact h

theorem finishWarc (h : a.KeepsFiles base) (config : StorageConfig) (tools : Tools)
    (faults : WarcFaults) :
    (Archive.finishWarc config tools faults a).2.KeepsFiles base := by
  rw [Archive.finishWarc]
  split
  · exact h
  · rename_i f hf
    have hnew := h.file f hf
    dsimp only
    split
    · exact h.spool_same ⟨rfl, rfl, rfl⟩ (h.warc.place hnew _) (fun _ hc => by cases hc) le_rfl
        h.warcFits
    · exact h.spool_same ⟨rfl, rfl, rfl⟩ (h.warc.place hnew _) (fun _ hc => by cases hc) le_rfl
        h.warcFits

theorem writeWarcRecord (h : a.KeepsFiles base) (config : StorageConfig) (tools : Tools)
    (now : ℤ) (faults : WarcFaults) (page : FetchedPage) (document : Document) :
    (Archive.writeWarcRecord config tools now faults page document a).2.KeepsFiles base := by
  rw [Archive.writeWarcRecord]
  split
  · exact h
  · rename_i f hf
    -- the record goes into the open file
    have hmore : ∀ (written : List UInt8) (stats : ArchiveStats), Opened.KeepsFiles base
        { a with writer := { a.writer with warc := some { f with written }, stats } } := by
      intro written stats
      refine h.spool_same ⟨rfl, rfl, rfl⟩ h.warc (fun g hg => ?_) le_rfl h.warcFits
      cases hg
      exact h.file f hf
    dsimp only
    split
    · exact hmore _ _
    · split
      · refine Called.andThen_keeps ((hmore _ _).finishWarc config tools faults) fun b hb => ?_
        exact hb.openWarc now faults
      · exact hmore _ _

theorem openSegment (h : a.KeepsFiles base) (faults : Faults) :
    (Archive.openSegment faults a).2.KeepsFiles base := by
  have hnew := h.segments _ le_rfl h.segmentFits
  have hsegment : ∀ s, some (SpoolSegment.create a.writer.segmentSequence) = some s →
      base.spool (openSegmentName s.sequence) = none ∧
        base.spool (sealedSegmentName s.sequence) = none := by
    intro s hs
    cases hs
    exact hnew
  rw [Archive.openSegment]
  dsimp only
  split
  · exact h
  · split
    · rename_i hfit
      exact h.warc_same ⟨rfl, rfl, rfl⟩ (h.spool.create hnew.1) hsegment (Nat.le_succ _) hfit
    · exact h.warc_same ⟨rfl, rfl, rfl⟩ (h.spool.create hnew.1) hsegment le_rfl h.segmentFits

theorem sealSegment (h : a.KeepsFiles base) (faults : Faults) :
    (Archive.sealSegment faults a).2.KeepsFiles base := by
  rw [Archive.sealSegment]
  split
  · exact h
  · rename_i s hs
    obtain ⟨hopen, hsealed⟩ := h.segment s hs
    rcases s.seal_spec faults.seal a.disk.spool with hok | ⟨e, bytes, herror⟩
    · rw [hok]
      exact h.warc_same ⟨rfl, rfl, rfl⟩ (@Keeps.seal _ _ h.spool s.whole hopen hsealed)
        (fun _ hc => by cases hc) le_rfl h.segmentFits
    · rw [herror]
      exact h.warc_same ⟨rfl, rfl, rfl⟩ (h.spool.place hopen bytes) (fun _ hc => by cases hc) le_rfl
        h.segmentFits

theorem writeSpoolFrame (h : a.KeepsFiles base) (faults : Faults) (document : Document) :
    (Archive.writeSpoolFrame config tools faults document a).2.KeepsFiles base := by
  rw [Archive.writeSpoolFrame]
  dsimp only
  cases hs : a.writer.segment with
  | none => exact h
  | some s =>
    obtain ⟨hopen, hsealed⟩ := h.segment s hs
    obtain ⟨result, s', hwrite⟩ : ∃ result s',
      s.write tools.codec faults.frame document = (result, s') := ⟨_, _, rfl⟩
    have hsequence : s'.sequence = s.sequence := by
      have hkept := SpoolSegment.write_sequence tools.codec faults.frame s document
      rwa [hwrite] at hkept
    -- the frame goes into the open segment
    have hmore : ∀ stats : ArchiveStats, Opened.KeepsFiles base
        { writer := { a.writer with segment := some s', stats }
          disk := { a.disk with
            spool := a.disk.spool.place s'.openName s'.writer.file } } := by
      intro stats
      rw [SpoolSegment.openName, hsequence]
      refine h.warc_same ⟨rfl, rfl, rfl⟩ (h.spool.place hopen _) (fun t ht => ?_) le_rfl
        h.segmentFits
      cases ht
      rw [hsequence]
      exact ⟨hopen, hsealed⟩
    dsimp only
    rw [hwrite]
    cases result with
    | error e => exact hmore _
    | ok =>
      dsimp only
      split
      · exact Called.andThen_keeps ((hmore _).sealSegment faults) fun b hb => hb.openSegment faults
      · exact hmore _

theorem writePage (h : a.KeepsFiles base) (config : StorageConfig) (tools : Tools) (now : ℤ)
    (faults : Faults) (page : FetchedPage) (document : Document) :
    (Archive.writePage config tools now faults page document a).2.KeepsFiles base :=
  Called.andThen_keeps (h.writeWarcRecord config tools now faults.warc page document)
    fun _ hb => hb.writeSpoolFrame faults document

theorem «seal» (h : a.KeepsFiles base) (config : StorageConfig) (tools : Tools)
    (faults : Faults) :
    (Archive.seal config tools faults a).2.KeepsFiles base :=
  Called.andThen_keeps (h.sealSegment faults) fun _ hb => hb.finishWarc config tools faults.warc

theorem drop (h : a.KeepsFiles base) (config : StorageConfig) (tools : Tools)
    (faults : Faults) :
    Keeps base.spool (Archive.drop config tools faults a).spool ∧
      Keeps base.warc (Archive.drop config tools faults a).warc :=
  have hdropped := (h.sealSegment faults).finishWarc config tools faults.warc
  ⟨hdropped.spool, hdropped.warc⟩

end Opened.KeepsFiles

/-! ### Over every run -/

section

variable {config : StorageConfig} {tools : Tools}

/-- The files of `base` are there, and the writer knows what it must. -/
structure System.KeepsFiles (base : Disk) (S : System) : Prop where
  spool : Keeps base.spool S.disk.spool
  warc : Keeps base.warc S.disk.warc
  writer : ∀ w, S.writer = some w → Opened.KeepsFiles base { writer := w, disk := S.disk }

theorem Opened.KeepsFiles.system {base : Disk} {a : Opened} (h : a.KeepsFiles base) :
    System.KeepsFiles base { disk := a.disk, writer := some a.writer } where
  spool := h.spool
  warc := h.warc
  writer w hw := by
    cases hw
    exact h

/-- What is kept by a data directory is kept by what is opened on it. -/
theorem System.KeepsFiles.opening {base : Disk} {S : System} (h : S.KeepsFiles base)
    {warcListing spoolListing : List Str} {m n : ℕ} (hwarc : S.disk.warc.Lists warcListing)
    (hspool : S.disk.spool.Lists spoolListing) (hm : nextWarcSequence warcListing = some m)
    (hn : nextSpoolSequence spoolListing = some n) :
    Opened.KeepsFiles base { writer := .new m n, disk := S.disk } where
  spool := h.spool
  warc := h.warc
  segment _ hs := by cases hs
  file _ hf := by cases hf
  segments k hk hlt := by
    obtain ⟨hopen, hsealed⟩ := nextSpoolSequence_free hspool hn hk hlt
    exact ⟨h.spool.free hopen, h.spool.free hsealed⟩
  files k hk hlt := h.warc.free (nextWarcSequence_free hwarc hm hk hlt)
  segmentFits := nextSpoolSequence_lt hn
  warcFits := nextWarcSequence_lt hm

/-- A call keeps every file. -/
theorem Step.keepsFiles {base : Disk} {S T : System} {e : Event} (hstep : Step config tools S e T)
    (h : S.KeepsFiles base) : T.KeepsFiles base := by
  rcases hstep.cases with ⟨warcListing, spoolListing, -, hw, hwarc, hspool, hopen⟩ |
    ⟨page, document, writer, archive, -, hw, hwrite, rfl⟩ |
    ⟨writer, archive, -, hw, hseal, rfl⟩ | ⟨writer, -, hw, -, rfl⟩
  · have hnew : ∀ m n, nextWarcSequence warcListing = some m →
        nextSpoolSequence spoolListing = some n → ((openWarc tools e.now e.faults.warc
          { writer := .new m n, disk := S.disk }).andThen
            (openSegment e.faults)).2.KeepsFiles base := by
      intro m n hm hn
      refine Called.andThen_keeps ?_ fun b hb => hb.openSegment e.faults
      exact (h.opening hwarc hspool hm hn).openWarc e.now e.faults.warc
    rcases hopen with ⟨writer, disk, hopen, -, rfl⟩ | ⟨error, disk, hopen, -, rfl⟩
    · rcases open_spec hopen with ⟨_, hc, -⟩ | ⟨m, n, hm, hn, called, hcalled, hresult⟩
      · cases hc
      · have hkept := hnew m n hm hn
        rw [← hcalled] at hkept
        rcases hresult with ⟨a, rfl, hok, rfl⟩ | ⟨_, _, -, hc, -⟩
        · cases hok
          exact hkept.system
        · cases hc
    · rcases open_spec hopen with ⟨_, -, rfl⟩ | ⟨m, n, hm, hn, called, hcalled, hresult⟩
      · exact ⟨h.spool, h.warc, fun _ hc => by cases hc⟩
      · have hkept := hnew m n hm hn
        rw [← hcalled] at hkept
        rcases hresult with ⟨_, -, hc, -⟩ | ⟨_, a, rfl, -, rfl⟩
        · cases hc
        · obtain ⟨hdisk, hdisk'⟩ := hkept.drop config tools e.faults
          exact ⟨hdisk, hdisk', fun _ hc => by cases hc⟩
  · have hnext := (h.writer writer hw).writePage config tools e.now e.faults page document
    rw [hwrite] at hnext
    exact hnext.system
  · have hnext := (h.writer writer hw).seal config tools e.faults
    rw [hseal] at hnext
    exact hnext.system
  · obtain ⟨hdisk, hdisk'⟩ := (h.writer writer hw).drop config tools e.faults
    exact ⟨hdisk, hdisk', fun _ hc => by cases hc⟩

/-- Before the run there is nothing to know. -/
theorem System.keepsFiles_self {S : System} (hoff : S.writer = none) : S.KeepsFiles S.disk :=
  ⟨fun _ _ h => h, fun _ _ h => h, fun w hw => by rw [hoff] at hw; cases hw⟩

end

end Archive
