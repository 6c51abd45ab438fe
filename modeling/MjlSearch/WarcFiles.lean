/-
The WARC files of a run read back.

Whatever the limit on their size, the files of a run hold the pages in the order in which
they were written: the records of a file are never cut by a rotation, which finishes one
file and opens the next.  `Archives` is what holds in between, `Finishing` a call in which
nothing fails.

* `Step.archives` — a call that succeeds adds its page, and loses none;
* `warc_reads_back` — once the archive is sealed, each file is decompressed and read as one
  `warcinfo` record and its responses, and over all the files the responses are the pages.
-/
import MjlSearch.KeptFiles

open Text Spool Warc Runs

namespace Archive

/-- A finished file: its number, when it was opened, and the pages in it. -/
structure WarcPart where
  number : ℕ
  opened : ℤ
  pages : List (FetchedPage × Document)

/-- What its compressor was handed. -/
def WarcPart.bytes (tools : Tools) (part : WarcPart) : List UInt8 :=
  fileBytes tools.contentHash part.opened (warcName part.number) part.pages

/-- The open file: the pages in it, and where it stands. -/
structure HoldsWarc (tools : Tools) (base : Directory) (parts : List WarcPart)
    (current : List (FetchedPage × Document)) (next number : ℕ) (opened : ℤ) (f : WarcFile) :
    Prop where
  name : f.name = warcName number
  written : f.written = fileBytes tools.contentHash opened (warcName number) current
  new : base (warcName number) = none
  above : ∀ p ∈ parts, p.number < number
  below : number < next

/-- The new files are the finished `parts`, and the open one with `current` in it. -/
structure Archives (config : StorageConfig) (tools : Tools) (base warc : Directory)
    (parts : List WarcPart) (current : List (FetchedPage × Document)) (file : Option WarcFile)
    (next : ℕ) : Prop where
  sorted : parts.Pairwise fun p q => p.number < q.number
  bounded : ∀ p ∈ parts, p.number < 2 ^ 64
  finished : ∀ p ∈ parts, base (warcName p.number) = none ∧
    warc (warcName p.number) = some (tools.compress config.compressionLevel (p.bytes tools))
  above : ∀ p ∈ parts, p.number < next
  complete : ∀ name, base name = none → warc name ≠ none →
    (∃ p ∈ parts, name = warcName p.number) ∨ ∃ f, file = some f ∧ name = f.name
  closed : file = none → current = []
  holds : ∀ f, file = some f → ∃ number opened,
    HoldsWarc tools base parts current next number opened f

section

variable {config : StorageConfig} {tools : Tools} {base warc : Directory} {parts : List WarcPart}
  {current : List (FetchedPage × Document)} {next : ℕ}

/-- The open file is finished. -/
theorem Archives.finish {f : WarcFile}
    (h : Archives config tools base warc parts current (some f) next) (hfits : next < 2 ^ 64) :
    ∃ parts', Archives config tools base
        (warc.place f.name (tools.compress config.compressionLevel f.written)) parts' [] none next ∧
      parts'.flatMap WarcPart.pages = parts.flatMap WarcPart.pages ++ current := by
  obtain ⟨number, opened, hopen⟩ := h.holds f rfl
  have hnumber : number < 2 ^ 64 := lt_trans hopen.below hfits
  refine ⟨parts ++ [⟨number, opened, current⟩], ⟨?_, ?_, ?_, ?_, ?_, fun _ => rfl,
    fun _ hc => by cases hc⟩, ?_⟩
  · rw [List.pairwise_append]
    refine ⟨h.sorted, List.pairwise_singleton _ _, fun p hp q hq => ?_⟩
    rw [List.mem_singleton.mp hq]
    exact hopen.above p hp
  · intro p hp
    rcases List.mem_append.mp hp with hp | hp
    · exact h.bounded p hp
    · rw [List.mem_singleton.mp hp]
      exact hnumber
  · intro p hp
    rcases List.mem_append.mp hp with hp | hp
    · obtain ⟨hnew, hbytes⟩ := h.finished p hp
      refine ⟨hnew, ?_⟩
      rw [Directory.place_of_ne, hbytes]
      -- an earlier file has a smaller number
      rw [hopen.name]
      intro hsame
      have hlt := hopen.above p hp
      rw [warcName_injective (h.bounded p hp) hnumber hsame] at hlt
      exact lt_irrefl _ hlt
    · rw [List.mem_singleton.mp hp]
      refine ⟨hopen.new, ?_⟩
      rw [WarcPart.bytes, ← hopen.written]
      show warc.place f.name _ (warcName number) = _
      rw [← hopen.name]
      exact Directory.place_self ..
  · intro p hp
    rcases List.mem_append.mp hp with hp | hp
    · exact h.above p hp
    · rw [List.mem_singleton.mp hp]
      exact hopen.below
  · intro name hnew hname
    left
    by_cases hself : name = f.name
    · refine ⟨⟨number, opened, current⟩, List.mem_append_right _ (List.mem_singleton_self _), ?_⟩
      rw [hself, hopen.name]
    · rw [Directory.place_of_ne _ _ hself] at hname
      rcases h.complete name hnew hname with ⟨p, hp, hpart⟩ | ⟨g, hg, hfile⟩
      · exact ⟨p, List.mem_append_left _ hp, hpart⟩
      · cases hg
        exact absurd hfile hself
  · rw [List.flatMap_append, List.flatMap_singleton]

/-- A file is opened behind the finished ones. -/
theorem Archives.open (h : Archives config tools base warc parts [] none next) (now : ℤ)
    (hfits : next < 2 ^ 64) (hnew : base (warcName next) = none) :
    Archives config tools base (warc.create (warcName next)) parts []
      (some { name := warcName next
              written := fileBytes tools.contentHash now (warcName next) [] }) (next + 1) := by
  refine ⟨h.sorted, h.bounded, fun p hp => ?_, fun p hp => ?_, fun name hname hdir => ?_,
    fun _ => rfl, fun f hf => ?_⟩
  · obtain ⟨hbase, hbytes⟩ := h.finished p hp
    refine ⟨hbase, ?_⟩
    rw [Directory.create_of_ne, hbytes]
    intro hsame
    have hlt := h.above p hp
    rw [warcName_injective (h.bounded p hp) hfits hsame] at hlt
    exact lt_irrefl _ hlt
  · exact Nat.lt_succ_of_lt (h.above p hp)
  · by_cases hself : name = warcName next
    · exact .inr ⟨_, rfl, hself⟩
    · rw [Directory.create_of_ne _ hself] at hdir
      rcases h.complete name hname hdir with hpart | ⟨g, hg, -⟩
      · exact .inl hpart
      · cases hg
  · cases hf
    exact ⟨next, now, rfl, rfl, hnew, h.above, Nat.lt_succ_self next⟩

/-- A record is written to the open file. -/
theorem Archives.write {f : WarcFile}
    (h : Archives config tools base warc parts current (some f) next) (page : FetchedPage)
    (document : Document) :
    Archives config tools base warc parts (current ++ [(page, document)])
      (some { f with written := f.written ++ responseBytes tools.contentHash page document })
      next := by
  refine ⟨h.sorted, h.bounded, h.finished, h.above, fun name hname hdir => ?_,
    fun hc => (by cases hc), fun g hg => ?_⟩
  · rcases h.complete name hname hdir with hpart | ⟨g, hg, hfile⟩
    · exact .inl hpart
    · cases hg
      exact .inr ⟨_, rfl, hfile⟩
  · cases hg
    obtain ⟨number, opened, hopen⟩ := h.holds f rfl
    refine ⟨number, opened, hopen.name, ?_, hopen.new, hopen.above, hopen.below⟩
    rw [hopen.written, fileBytes, fileBytes, List.flatMap_append, List.flatMap_singleton,
      List.append_assoc]

end

/-! ### The parts of a call -/

/-- The WARC half of an archive. -/
def Opened.Archives (config : StorageConfig) (tools : Tools) (base : Directory)
    (parts : List WarcPart) (current : List (FetchedPage × Document)) (a : Opened) : Prop :=
  Archive.Archives config tools base a.disk.warc parts current a.writer.warc a.writer.warcSequence

section

variable {config : StorageConfig} {tools : Tools} {base : Directory} {parts : List WarcPart}
  {current : List (FetchedPage × Document)} {a b : Opened}

theorem Opened.Archives.same (h : a.Archives config tools base parts current)
    (hsame : WarcSame a b) : b.Archives config tools base parts current := by
  rw [Opened.Archives, hsame.warc, hsame.file, hsame.sequence]
  exact h

/-- The open file, if there is one, is finished. -/
theorem Opened.Archives.finishWarc (h : a.Archives config tools base parts current)
    (hfits : a.writer.warcSequence < 2 ^ 64) {faults : WarcFaults}
    (hfinish : Archive.finishWarc config tools faults a = (.ok (), b)) :
    b.writer.warc = none ∧ ∃ parts', b.Archives config tools base parts' [] ∧
      parts'.flatMap WarcPart.pages = parts.flatMap WarcPart.pages ++ current := by
  obtain ⟨hnone, hsequence, hcase⟩ := finishWarc_ok hfinish
  refine ⟨hnone, ?_⟩
  rw [Opened.Archives] at h
  simp only [Opened.Archives, hnone, hsequence]
  rcases hcase with ⟨hclosed, hwarc⟩ | ⟨f, hf, hwarc⟩
  · have hempty := h.closed hclosed
    subst hempty
    rw [hwarc, List.append_nil]
    rw [hclosed] at h
    exact ⟨parts, h, rfl⟩
  · rw [hf] at h
    rw [hwarc]
    exact h.finish hfits

theorem Opened.Archives.openWarc (h : a.Archives config tools base parts [])
    (hclosed : a.writer.warc = none) (hnew : base (warcName a.writer.warcSequence) = none)
    {now : ℤ} {faults : WarcFaults}
    (hopen : Archive.openWarc tools now faults a = (.ok (), b)) :
    b.Archives config tools base parts [] := by
  obtain ⟨hfit, hwarc, hfile, hsequence⟩ := openWarc_ok hopen
  rw [Opened.Archives, hclosed] at h
  rw [Opened.Archives, hwarc, hfile, hsequence]
  exact h.open now (Nat.lt_of_succ_lt hfit) hnew

/-- A record goes into the open file, which is finished if it has become long enough. -/
theorem Opened.Archives.writeWarcRecord (h : a.Archives config tools base parts current)
    {disk : Disk} (hbase : base = disk.warc) (hkept : a.KeepsFiles disk) {now : ℤ}
    {faults : WarcFaults} {page : FetchedPage} {document : Document}
    (hwrite : Archive.writeWarcRecord config tools now faults page document a = (.ok (), b)) :
    ∃ parts' current', b.Archives config tools base parts' current' ∧
      parts'.flatMap WarcPart.pages ++ current' =
        parts.flatMap WarcPart.pages ++ current ++ [(page, document)] := by
  obtain ⟨f, c, hf, hfile, hsequence, hwarc, hcase⟩ := writeWarcRecord_ok hwrite
  rw [Opened.Archives, hf] at h
  have hmore : c.Archives config tools base parts (current ++ [(page, document)]) := by
    rw [Opened.Archives, hfile, hsequence, hwarc]
    exact h.write page document
  rcases hcase with rfl | ⟨d, hfinish, hopen⟩
  · exact ⟨parts, _, hmore, (List.append_assoc ..).symm⟩
  · have hfits : c.writer.warcSequence < 2 ^ 64 := by
      rw [hsequence]
      exact hkept.warcFits
    obtain ⟨hclosed, parts', hfinished, hpages⟩ := hmore.finishWarc hfits hfinish
    have hnext : d.writer.warcSequence = a.writer.warcSequence :=
      ((finishWarc_ok hfinish).2.1).trans hsequence
    have hnew : base (warcName d.writer.warcSequence) = none := by
      rw [hnext, hbase]
      exact hkept.files _ le_rfl hkept.warcFits
    refine ⟨parts', [], hfinished.openWarc hclosed hnew hopen, ?_⟩
    rw [List.append_nil, hpages, List.append_assoc]

end

/-! ### Over every run -/

/-- The WARC files of a data directory: everything written is in them, in order. -/
def System.Archives (config : StorageConfig) (tools : Tools) (base : Directory)
    (written : List (FetchedPage × Document)) (S : System) : Prop :=
  ∃ parts current next, Archive.Archives config tools base S.disk.warc parts current
      (S.writer.bind ArchiveWriter.warc) next ∧
    (∀ w, S.writer = some w → w.warcSequence = next) ∧
    parts.flatMap WarcPart.pages ++ current = written

/-- A call that succeeds.  Dropping reports no error, so of a drop it says that the WARC file
could be finished. -/
def Finishing (config : StorageConfig) (tools : Tools) (S : System) (e : Event) : Prop :=
  e.result = .ok () ∧ ∀ w, S.writer = some w → e.call = .drop →
    (finishWarc config tools e.faults.warc
      (sealSegment e.faults { writer := w, disk := S.disk }).2).1 = .ok ()

section

variable {config : StorageConfig} {tools : Tools} {base : Disk} {S T : System} {e : Event}
  {written : List (FetchedPage × Document)}

/-- What an archive holds, of the data directory that has it open. -/
theorem Opened.Archives.system {base : Directory} {parts : List WarcPart}
    {current : List (FetchedPage × Document)} {a : Opened}
    (h : a.Archives config tools base parts current) :
    System.Archives config tools base (parts.flatMap WarcPart.pages ++ current)
      { disk := a.disk, writer := some a.writer } :=
  ⟨parts, current, _, h, fun _ hw => congrArg _ (Option.some.inj hw).symm, rfl⟩

theorem System.Archives.opened {base : Directory} {w : ArchiveWriter}
    (h : S.Archives config tools base written) (hw : S.writer = some w) :
    ∃ parts current, Opened.Archives config tools base parts current
        { writer := w, disk := S.disk } ∧
      parts.flatMap WarcPart.pages ++ current = written := by
  obtain ⟨parts, current, next, harchives, hnext, hwritten⟩ := h
  rw [hw] at harchives
  rw [← hnext w hw] at harchives
  exact ⟨parts, current, harchives, hwritten⟩

/-- Numbering is resumed behind every file there is. -/
theorem Archives.opening {base warc : Directory} {parts : List WarcPart}
    {current : List (FetchedPage × Document)} {next m : ℕ} {listing : List Str}
    (h : Archives config tools base warc parts current none next) (hkept : Keeps base warc)
    (hl : warc.Lists listing) (hm : nextWarcSequence listing = some m) (now : ℤ) :
    Archives config tools base (warc.create (warcName m)) parts []
      (some { name := warcName m, written := fileBytes tools.contentHash now (warcName m) [] })
      (m + 1) := by
  have hfits := nextWarcSequence_lt hm
  have habove : ∀ p ∈ parts, p.number < m := by
    intro p hp
    have hmem : warcName p.number ∈ listing :=
      (hl.2 _).mpr (by rw [(h.finished p hp).2]; exact Option.some_ne_none _)
    exact nextWarcSequence_gt hm hmem (parseWarcSequence_warcName (h.bounded p hp))
  have hempty := h.closed rfl
  subst hempty
  have hbehind : Archives config tools base warc parts [] none m :=
    { h with above := habove, holds := fun _ hc => by cases hc }
  exact hbehind.open now hfits (hkept.free (nextWarcSequence_free hl hm le_rfl hfits))

/-- **A call that succeeds adds its page and loses none.** -/
theorem Step.archives (hstep : Step config tools S e T) (hfinishing : Finishing config tools S e)
    (hkept : S.KeepsFiles base) (h : S.Archives config tools base.warc written) :
    T.Archives config tools base.warc (written ++ e.pages) := by
  obtain ⟨hok, hdrop⟩ := hfinishing
  rcases hstep.cases with ⟨warcListing, spoolListing, hcall, hw, hlists, -, hopen⟩ |
    ⟨page, document, writer, archive, hcall, hw, hwrite, rfl⟩ |
    ⟨writer, archive, hcall, hw, hseal, rfl⟩ | ⟨writer, hcall, hw, -, rfl⟩
  · have hpages : e.pages = [] := by rw [Event.pages, hcall]
    rw [hpages, List.append_nil]
    rcases hopen with ⟨writer, disk, hopen, -, rfl⟩ | ⟨error, disk, -, herror, -⟩
    · obtain ⟨m, n, hm, -, -, -, hwarc, hfile, hsequence, -⟩ := open_ok hopen
      obtain ⟨parts, current, next, harchives, -, hwritten⟩ := h
      rw [hw] at harchives
      have hnew : Opened.Archives config tools base.warc parts [] { writer, disk } := by
        rw [Opened.Archives]
        dsimp only
        rw [hwarc, hfile, hsequence]
        exact harchives.opening hkept.warc hlists hm e.now
      rw [← hwritten, harchives.closed rfl]
      exact hnew.system
    · rw [hok] at herror
      cases herror
  · have hpages : e.pages = [(page, document)] := by rw [Event.pages, hcall]
    rw [hok] at hwrite
    obtain ⟨parts, current, harchives, rfl⟩ := h.opened hw
    obtain ⟨a, hrecord, hframe⟩ := Called.andThen_ok hwrite
    obtain ⟨parts', current', hmore, hwritten⟩ :=
      harchives.writeWarcRecord rfl (hkept.writer writer hw) hrecord
    -- the record comes first, and the spool frame after it leaves the archive files alone
    have hsame := writeSpoolFrame_warc config tools e.faults document a
    rw [hframe] at hsame
    rw [hpages, ← hwritten]
    exact (hmore.same hsame).system
  · have hpages : e.pages = [] := by rw [Event.pages, hcall]
    rw [hok] at hseal
    obtain ⟨parts, current, harchives, rfl⟩ := h.opened hw
    obtain ⟨a, hsealed, hfinished⟩ := Called.andThen_ok hseal
    -- sealing the segment leaves the archive files alone; finishing them closes the last one
    have hsame := sealSegment_warc e.faults { writer, disk := S.disk }
    rw [hsealed] at hsame
    have hfits : a.writer.warcSequence < 2 ^ 64 := by
      rw [hsame.sequence]
      exact (hkept.writer writer hw).warcFits
    obtain ⟨-, parts', hmore, hwritten⟩ := (harchives.same hsame).finishWarc hfits hfinished
    rw [hpages, List.append_nil, ← hwritten, ← List.append_nil (parts'.flatMap _)]
    exact hmore.system
  · have hpages : e.pages = [] := by rw [Event.pages, hcall]
    obtain ⟨parts, current, harchives, rfl⟩ := h.opened hw
    have hsame := sealSegment_warc e.faults { writer, disk := S.disk }
    obtain ⟨result, a, hfinished⟩ : ∃ result a, finishWarc config tools e.faults.warc
      (sealSegment e.faults { writer, disk := S.disk }).2 = (result, a) := ⟨_, _, rfl⟩
    have hresult := hdrop writer hw hcall
    rw [hfinished] at hresult
    cases hresult
    have hfits : (sealSegment e.faults
        { writer, disk := S.disk }).2.writer.warcSequence < 2 ^ 64 := by
      rw [hsame.sequence]
      exact (hkept.writer writer hw).warcFits
    obtain ⟨hnone, parts', hmore, hwritten⟩ := (harchives.same hsame).finishWarc hfits hfinished
    rw [Opened.Archives, hnone] at hmore
    rw [hpages, List.append_nil, ← hwritten]
    refine ⟨parts', [], a.writer.warcSequence, ?_, fun _ hc => (by cases hc), List.append_nil _⟩
    dsimp only
    rw [show drop config tools e.faults { writer, disk := S.disk } = a.disk by rw [drop, hfinished]]
    exact hmore

/-- Before the run nothing is new. -/
theorem System.archives_self {S : System} (hoff : S.writer = none) :
    S.Archives config tools S.disk.warc [] := by
  refine ⟨[], [], 0, ⟨List.Pairwise.nil, ?_, ?_, ?_, ?_, fun _ => rfl, ?_⟩, ?_, rfl⟩
  · intro p hp
    cases hp
  · intro p hp
    cases hp
  · intro p hp
    cases hp
  · intro name hnew hname
    exact absurd hnew hname
  · intro f hf
    rw [hoff] at hf
    cases hf
  · intro w hw
    rw [hoff] at hw
    cases hw

theorem archiving_run {S₀ S : System} {es : List Event} (hoff : S₀.writer = none)
    (h : Run (fun S e T => Step config tools S e T ∧ Finishing config tools S e) S₀ es S) :
    S.KeepsFiles S₀.disk ∧ S.Archives config tools S₀.disk.warc (writtenPages es) := by
  refine h.invariant_trace (I := fun es S => S.KeepsFiles S₀.disk ∧
    S.Archives config tools S₀.disk.warc (writtenPages es))
    ⟨System.keepsFiles_self hoff, System.archives_self hoff⟩ fun fs a e b ha hstep => ?_
  rw [writtenPages_snoc]
  exact ⟨hstep.1.keepsFiles ha.1, hstep.1.archives hstep.2 ha.1 ha.2⟩

end

/-! ### Reading the files back -/

/-- The records of a file, decompressed. -/
def readWarc (decompress : List UInt8 → Option (List UInt8)) (warc : Directory) (name : Str) :
    Option (List Block) :=
  ((warc name).bind decompress).bind readRecords

/-- A response record that describes a page, and whose payload gives back the body of the page
and nothing after it. -/
structure HoldsPage (block : Block) (page : FetchedPage) (document : Document) : Prop where
  describes : Describes block page document
  body : ∃ lines, takeBlock block.content = some ({ lines, content := utf8 page.body }, [])

theorem responseBlock_holdsPage (contentHash : Str → ℕ) {page : FetchedPage} {document : Document}
    (h : Recordable page document) :
    HoldsPage (responseBlock contentHash page document) page document :=
  ⟨responseBlock_describes contentHash page document, _, takeBlock_httpPayload h.2⟩

/-- A file that was read back: its number, its first record, and the others. -/
structure WarcReading where
  number : ℕ
  info : Block
  responses : List Block

section

variable (config : StorageConfig) (tools : Tools)

/-- What is read from a finished file. -/
def WarcPart.reading (part : WarcPart) : WarcReading :=
  { number := part.number
    info := warcinfoBlock tools.contentHash part.opened (warcName part.number)
    responses := part.pages.map fun p => responseBlock tools.contentHash p.1 p.2 }

theorem WarcPart.readRecords_bytes {part : WarcPart}
    (hpages : ∀ p ∈ part.pages, Recordable p.1 p.2) :
    readRecords (part.bytes tools)
      = some ((part.reading tools).info :: (part.reading tools).responses) :=
  readRecords_file tools.contentHash part.opened (plain_warcName part.number) hpages

/-- After a call of `seal` that succeeds no file is open. -/
theorem Step.seal_closes {config : StorageConfig} {tools : Tools} {S T : System} {e : Event}
    (hstep : Step config tools S e T) (hcall : e.call = .seal) (hok : e.result = .ok ()) :
    T.writer.bind ArchiveWriter.warc = none := by
  rcases hstep.cases with ⟨_, _, hc, -⟩ | ⟨_, _, _, _, hc, -⟩ |
    ⟨writer, archive, -, -, hseal, rfl⟩ | ⟨_, hc, -⟩
  · rw [hcall] at hc
    cases hc
  · rw [hcall] at hc
    cases hc
  · rw [hok] at hseal
    obtain ⟨a, -, hfinished⟩ := Called.andThen_ok hseal
    exact (finishWarc_ok hfinished).1
  · rw [hcall] at hc
    cases hc

/-- **The WARC files of a run read back**, over every run of calls that succeed and ends with
`seal`, whatever the limits and whatever the directories held before: the new files, by
increasing number, decompressed and read, are each one `warcinfo` record and its responses,
and over all of them the responses are the pages in the order in which they were written. -/
theorem warc_reads_back (decompress : List UInt8 → Option (List UInt8))
    (hzstd : ∀ level bytes, decompress (tools.compress level bytes) = some bytes)
    {S₀ S : System} {es : List Event} {z : Event} (hoff : S₀.writer = none)
    (hseal : z.call = .seal)
    (h : Run (fun S e T => Step config tools S e T ∧ Finishing config tools S e) S₀ (es ++ [z]) S)
    (hpages : ∀ p ∈ writtenPages es, Recordable p.1 p.2) :
    ∃ files : List WarcReading, files.Pairwise (fun f g => f.number < g.number) ∧
      (∀ name, (∃ f ∈ files, name = warcName f.number) ↔
        S₀.disk.warc name = none ∧ S.disk.warc name ≠ none) ∧
      (∀ f ∈ files, readWarc decompress S.disk.warc (warcName f.number)
          = some (f.info :: f.responses) ∧
        fieldValue "WARC-Type".toList f.info.lines = some (utf8 "warcinfo".toList)) ∧
      List.Forall₂ (fun block p => HoldsPage block p.1 p.2)
        (files.flatMap WarcReading.responses) (writtenPages es) := by
  obtain ⟨A, -, hstep, hok, -⟩ := h.last
  -- after the sealing call no file is open, so every page is in a finished part
  have hclosed := hstep.seal_closes hseal hok
  obtain ⟨-, parts, current, next, harchives, -, hwritten⟩ := archiving_run hoff h
  rw [hclosed] at harchives
  have hwritten' : parts.flatMap WarcPart.pages = writtenPages es := by
    rw [harchives.closed rfl, List.append_nil, writtenPages_snoc, Event.pages, hseal] at hwritten
    exact hwritten.trans (List.append_nil _)
  have hrecordable : ∀ part ∈ parts, ∀ p ∈ part.pages, Recordable p.1 p.2 := by
    intro part hpart p hp
    refine hpages p ?_
    rw [← hwritten']
    exact List.mem_flatMap.mpr ⟨part, hpart, hp⟩
  refine ⟨parts.map (WarcPart.reading tools), ?_, fun name => ?_, fun f hf => ?_, ?_⟩
  · rw [List.pairwise_map]
    exact harchives.sorted
  · constructor
    · rintro ⟨f, hf, rfl⟩
      obtain ⟨part, hpart, rfl⟩ := List.mem_map.mp hf
      obtain ⟨hnew, hbytes⟩ := harchives.finished part hpart
      refine ⟨hnew, ?_⟩
      show S.disk.warc (warcName part.number) ≠ none
      rw [hbytes]
      exact Option.some_ne_none _
    · rintro ⟨hnew, hname⟩
      rcases harchives.complete name hnew hname with ⟨part, hpart, rfl⟩ | ⟨f, hf, -⟩
      · exact ⟨_, List.mem_map_of_mem hpart, rfl⟩
      · cases hf
  · obtain ⟨part, hpart, rfl⟩ := List.mem_map.mp hf
    refine ⟨?_, warcinfoBlock_type ..⟩
    show readWarc decompress S.disk.warc (warcName part.number) = _
    -- decompressing gives back the concatenated records, which then read back one by one
    rw [readWarc, (harchives.finished part hpart).2, Option.bind_some, hzstd, Option.bind_some]
    exact part.readRecords_bytes tools (hrecordable part hpart)
  · rw [← hwritten', List.flatMap_map]
    have hresponses : (parts.flatMap fun part => (part.reading tools).responses) =
        (parts.flatMap WarcPart.pages).map fun p => responseBlock tools.contentHash p.1 p.2 := by
      rw [List.map_flatMap]
      rfl
    rw [hresponses, List.forall₂_map_left_iff, List.forall₂_same]
    intro p hp
    rw [hwritten'] at hp
    exact responseBlock_holdsPage _ (hpages p hp)

end

/-- Two pages, each read back from a file of its own. -/
theorem warc_reads_back_sample :
    Run (fun S e T => Step smallConfig sampleTools S e T ∧ Finishing smallConfig sampleTools S e)
        emptySystem sampleRun.1 sampleRun.2 ∧
      (∀ n, 1 ≤ n → n ≤ 3 → (sampleRun.2.disk.warc (warcName n)).isSome) ∧
      ∃ files : List WarcReading, files.Pairwise (fun f g => f.number < g.number) ∧
        (∀ f ∈ files, readWarc ofRawFrames sampleRun.2.disk.warc (warcName f.number)
          = some (f.info :: f.responses)) ∧
        List.Forall₂ (fun block p => HoldsPage block p.1 p.2)
          (files.flatMap WarcReading.responses)
          [(sampleFetched, samplePage), (otherFetched, otherPage)] := by
  have hfinishing : Run (fun S e T => Step smallConfig sampleTools S e T ∧
      Finishing smallConfig sampleTools S e) emptySystem sampleRun.1 sampleRun.2 :=
    sampleRun_run.imp fun _ _ _ hstep =>
      ⟨hstep.1, hstep.2.1, fun _ _ hdrop => absurd hdrop hstep.2.2⟩
  have hwritten : writtenPages sampleRun.1.dropLast
      = [(sampleFetched, samplePage), (otherFetched, otherPage)] := by decide +kernel
  obtain ⟨z, hlast⟩ : ∃ z, sampleRun.1.getLast? = some z := by
    refine Option.isSome_iff_exists.mp ?_
    decide +kernel
  have hsplit := List.dropLast_append_getLast? z hlast
  have hseal : z.call = .seal := by
    have hcalls : (sampleRun.1.getLast?.any fun e => match e.call with
      | .seal => true
      | _ => false) = true := by decide +kernel
    rw [hlast, Option.any_some] at hcalls
    split at hcalls
    · assumption
    · cases hcalls
  have hrecordable : ∀ p ∈ writtenPages sampleRun.1.dropLast, Recordable p.1 p.2 := by
    rw [hwritten]
    intro p hp
    rcases List.mem_cons.mp hp with rfl | hp
    · refine ⟨by decide, fun contentType hc => ?_⟩
      cases hc
      decide
    · obtain rfl := List.mem_singleton.mp hp
      refine ⟨by decide, fun contentType hc => ?_⟩
      cases hc
      decide
  have hrun := hfinishing
  rw [← hsplit] at hrun
  obtain ⟨files, hsorted, -, hread, hheld⟩ := warc_reads_back smallConfig sampleTools ofRawFrames
    (fun _ => ofRawFrames_rawFrames) rfl hseal hrun hrecordable
  rw [hwritten] at hheld
  exact ⟨hfinishing, sampleRun_disk.2.2.2, files, hsorted, fun f hf => (hread f hf).1, hheld⟩

end Archive
