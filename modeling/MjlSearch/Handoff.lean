/-
The hand-off as a whole: the crawler's writer and the indexer's drain, taking
steps in any order on one spool directory.

The spool holds numbered segments `segs` in every reachable state, and three
facts about them carry the argument:

* `Numbered` — the writer's open segment has a larger number than all of them,
  so sealing it appends to `segs`;
* `Tracks` — the drain works on the first of them, and what it has committed of
  that segment is a run of its documents upserted in order;
* `replay` — upserting the documents of `segs` into the index gives the same
  table as upserting every document ever sealed into nothing.
-/
import MjlSearch.Drain
import MjlSearch.Postcard
import MjlSearch.Runs
import MjlSearch.Storage

open Text Spool IndexWriter LastWriter Storage Drain Runs

namespace Handoff

variable {σ η : Type}

/-- Both processes and everything they share. -/
structure System (σ η : Type) where
  spool : Directory
  writer : Writer
  log : Log
  index : Drain.State σ η

/-- What either process does. -/
inductive Event
  | crawl (event : Storage.Event)
  | drain (event : Drain.Event)

/-- The crawler's part of the system. -/
def System.crawl (S : System σ η) : Storage.State :=
  { spool := S.spool, writer := S.writer, log := S.log }

/-- The parameters of both processes. -/
structure Settings (σ η : Type) where
  codec : Codec Document
  segmentBytes : ℕ
  config : DrainConfig
  sidecars : Sidecars σ η

/-- One step of either process. -/
inductive Step (settings : Settings σ η) : System σ η → Event → System σ η → Prop
  | crawl {S : System σ η} {event : Storage.Event} {T : Storage.State}
      (h : WriterStep settings.codec settings.segmentBytes S.crawl event T) :
      Step settings S (.crawl event)
        { spool := T.spool, writer := T.writer, log := T.log, index := S.index }
  | drain {S : System σ η} {event : Drain.Event} {spool : Directory} {T : Drain.State σ η}
      (h : DrainStep settings.codec settings.config settings.sidecars
        S.spool S.index event spool T) :
      Step settings S (.drain event) { S with spool, index := T }

/-- Nothing has been crawled or indexed yet, and no process is running.  Files
that are not readable segments may lie in the spool directory. -/
structure Fresh (S : System σ η) : Prop where
  spool : ∀ name, isSealed name = true → S.spool name = none
  writer : S.writer = none
  log : S.log = { current := [], written := [], sealed := [] }
  rows : S.index.rows = []
  process : S.index.process = none

/-! ### The writer's side -/

/-- The number the next segment to be sealed will have, or a smaller one. -/
def ArchiveWriter.number (w : ArchiveWriter) : ℕ :=
  match w.segment with
  | none => w.segmentSequence
  | some segment => segment.sequence

/-- The readable segments are numbered below the one being written, which holds
the documents it should. -/
structure Numbered (codec : Codec Document) (S : Storage.State)
    (segs : List (ℕ × List Document)) : Prop where
  segments : Segments codec S.spool segs
  below : ∀ phase w, S.writer = some (phase, w) → ∀ p ∈ segs, p.1 < ArchiveWriter.number w
  holds : ∀ phase w segment, S.writer = some (phase, w) → w.segment = some segment →
    segment.sequence < 2 ^ 64 ∧ segment.sequence < w.segmentSequence ∧
      Holds codec S.log.current segment.contents ∧
      (phase = .idle → HoldsWhole codec S.log.current segment.contents)

variable {codec : Codec Document} {segmentBytes : ℕ}

theorem Numbered.of_off {S : Storage.State} {segs : List (ℕ × List Document)}
    (h : Segments codec S.spool segs) (hoff : S.writer = none) : Numbered codec S segs where
  segments := h
  below phase w hw := by rw [hoff] at hw; cases hw
  holds phase w segment hw := by rw [hoff] at hw; cases hw

/-- `create` and `flush` touch an open name only. -/
theorem segments_of_open {dir dir' : Directory} {segs : List (ℕ × List Document)} {n : ℕ}
    (h : Segments codec dir segs)
    (hagree : ∀ name, name ≠ openSegmentName n → dir' name = dir name) :
    Segments codec dir' segs := by
  refine h.of_agree fun name hname => hagree name ?_
  rintro rfl
  rw [isSealed_openSegmentName] at hname
  cases hname

/-- Sealing puts the segment's bytes under its readable name. -/
theorem seal_apply (segment : SpoolSegment) (spool : Directory) (name : Str)
    (hname : isSealed name = true) :
    segment.seal spool name
      = if name = segment.sealedName then some segment.contents else spool name := by
  have hopen : name ≠ segment.openName := by
    rintro rfl
    rw [SpoolSegment.openName, isSealed_openSegmentName] at hname
    cases hname
  rw [SpoolSegment.seal, Directory.rename_apply (Directory.place_self ..), if_neg hopen]
  congr 1
  exact Directory.place_of_ne spool _ hopen

/-- **One step of the writer.**  The readable segments stay as they are, or the
open segment is appended to them. -/
theorem writerStep_numbered {S T : Storage.State} {event : Storage.Event}
    {segs : List (ℕ × List Document)} (h : WriterStep codec segmentBytes S event T)
    (hS : Numbered codec S segs) :
    (Numbered codec T segs ∧ T.log.sealed = S.log.sealed) ∨
      ∃ n, Numbered codec T (segs ++ [(n, S.log.current)]) ∧
        T.log.sealed = S.log.sealed ++ S.log.current := by
  cases h with
  | @«open» listing n hoff hlist hnext =>
    refine Or.inl ⟨⟨hS.segments, ?_, ?_⟩, rfl⟩
    · intro phase w hw p hp
      cases hw
      -- a sealed segment is on the disk, so the listing the number was chosen from had it
      obtain ⟨bytes, hbytes, _⟩ := hS.segments.present p hp
      have hmem : sealedSegmentName p.1 ∈ listing :=
        (hlist.2 _).mpr (by rw [hbytes]; exact Option.some_ne_none _)
      exact nextSpoolSequence_gt hnext hmem
        (parseSegmentSequence_sealedSegmentName (hS.segments.bounded p hp))
    · intro phase w segment hw hseg
      cases hw
      cases hseg
  | @createSegment w hw hfit =>
    refine Or.inl ⟨⟨?_, ?_, ?_⟩, rfl⟩
    · exact segments_of_open hS.segments fun name hname => Directory.create_of_ne _ hname
    · intro phase w' hw' p hp
      cases hw'
      have hlt := hS.below _ _ hw p hp
      -- `number` is the open segment's while there is one, and the next free one otherwise
      cases hseg : w.segment with
      | none => rwa [ArchiveWriter.number, hseg] at hlt
      | some segment =>
        rw [ArchiveWriter.number, hseg] at hlt
        exact lt_trans hlt (hS.holds _ _ _ hw hseg).2.1
    · intro phase w' segment hw' hseg
      cases hw'
      cases hseg
      have hwhole : HoldsWhole codec [] (SpoolSegment.create w.segmentSequence).contents := rfl
      exact ⟨Nat.lt_of_succ_lt hfit, Nat.lt_succ_self _, hwhole.holds, fun _ => hwhole⟩
  | @createFails w hw => exact Or.inl ⟨Numbered.of_off hS.segments rfl, rfl⟩
  | @writePage w segment segment' document hw hseg hwrite =>
    obtain ⟨hfit, hlt, _, hwhole⟩ := hS.holds _ _ _ hw hseg
    obtain ⟨hnum, hwhole'⟩ := write_holdsWhole (hwhole rfl) hwrite
    refine Or.inl ⟨⟨hS.segments, ?_, ?_⟩, rfl⟩
    · intro phase w' hw' p hp
      cases hw'
      have hbelow := hS.below _ _ hw p hp
      rw [ArchiveWriter.number, hseg] at hbelow
      show p.1 < segment'.sequence
      rwa [hnum]
    · intro phase w' s hw' hs
      cases hw'
      cases hs
      exact ⟨hnum ▸ hfit, hnum ▸ hlt, hwhole'.holds, fun _ => hwhole'⟩
  | @writeFails w segment document part hw hseg hpart =>
    obtain ⟨hfit, hlt, _, hwhole⟩ := hS.holds _ _ _ hw hseg
    refine Or.inl ⟨⟨hS.segments, ?_, ?_⟩, rfl⟩
    · intro phase w' hw' p hp
      cases hw'
      have hbelow := hS.below _ _ hw p hp
      rwa [ArchiveWriter.number, hseg] at hbelow
    · intro phase w' s hw' hs
      cases hw'
      cases hs
      exact ⟨hfit, hlt, ⟨_, part, hwhole rfl, Or.inr ⟨document, hpart⟩, rfl⟩,
        fun hphase => by cases hphase⟩
  | @flush phase w segment part hw hseg hpart =>
    refine Or.inl ⟨⟨?_, hS.below, hS.holds⟩, rfl⟩
    exact segments_of_open hS.segments fun name hname => Directory.place_of_ne _ _ hname
  | @close phase w hw hphase =>
    refine Or.inl ⟨⟨hS.segments, ?_, ?_⟩, rfl⟩
    · intro phase' w' hw' p hp
      cases hw'
      exact hS.below _ _ hw p hp
    · intro phase' w' s hw' hs
      cases hw'
      obtain ⟨hfit, hlt, hholds, _⟩ := hS.holds _ _ _ hw hs
      exact ⟨hfit, hlt, hholds, fun hphase => by cases hphase⟩
  | @sealSegment reopen w segment hw hseg =>
    -- the only step that adds a segment: under the writer's own number, above all the others
    obtain ⟨hfit, hlt, hholds, _⟩ := hS.holds _ _ _ hw hseg
    have hbelow : ∀ p ∈ segs, p.1 < segment.sequence := by
      intro p hp
      have := hS.below _ _ hw p hp
      rwa [ArchiveWriter.number, hseg] at this
    refine Or.inr ⟨segment.sequence, ⟨?_, ?_, ?_⟩, rfl⟩
    · refine hS.segments.snoc hfit hbelow (forEachDocument_holds hholds) ?_ ?_
      · exact (seal_apply segment S.spool _ (isSealed_sealedSegmentName _)).trans (if_pos rfl)
      · intro name hname hne
        exact (seal_apply segment S.spool name hname).trans (if_neg hne)
    · intro phase w' hw' p hp
      cases reopen with
      | false => cases hw'
      | true =>
        cases hw'
        show p.1 < w.segmentSequence
        rcases List.mem_append.mp hp with hp | hp
        · exact lt_trans (hbelow p hp) hlt
        · rw [List.mem_singleton.mp hp]
          exact hlt
    · intro phase w' s hw' hs
      cases reopen with
      | false => cases hw'
      | true =>
        cases hw'
        cases hs
  | @sealFails reopen w hw => exact Or.inl ⟨Numbered.of_off hS.segments rfl, rfl⟩
  | @kill phase w hw => exact Or.inl ⟨Numbered.of_off hS.segments rfl, rfl⟩

/-- What is sealed was written, in that order; what is in the open segment was
written after it. -/
theorem writerStep_log {S T : Storage.State} {event : Storage.Event}
    (h : WriterStep codec segmentBytes S event T)
    (hS : List.Sublist (S.log.sealed ++ S.log.current) S.log.written) :
    List.Sublist (T.log.sealed ++ T.log.current) T.log.written := by
  cases h with
  | createSegment =>
    show List.Sublist (S.log.sealed ++ []) S.log.written
    rw [List.append_nil]
    exact (List.sublist_append_left _ _).trans hS
  | @writePage _ _ _ document =>
    show List.Sublist (S.log.sealed ++ (S.log.current ++ [document])) (S.log.written ++ [document])
    rw [← List.append_assoc]
    exact hS.append (List.Sublist.refl _)
  | sealSegment =>
    show List.Sublist (S.log.sealed ++ S.log.current ++ []) S.log.written
    rwa [List.append_nil]
  | «open» | createFails | writeFails | flush | close | sealFails | kill => exact hS

/-! ### The drain's side -/

/-- What the drain has in hand, in each place it can be: the paths it still has to
take are the first of the readable segments' names, and of the segment it works
on some documents have been added and the last of them may not be committed. -/
def Tracks (segs : List (ℕ × List Document)) (index : Drain.State σ η) : Prop :=
  match index.process with
  | none => True
  | some p =>
    match p.phase with
    | .listing => Queued p.writer []
    | .done => True
    | .scoring ready => Queued p.writer [] ∧ ready <+: segmentNames segs
    | .choosing pass => Queued p.writer [] ∧ pass.ready <+: segmentNames segs
    | .recording pass _ _ => Queued p.writer [] ∧ pass.ready <+: segmentNames segs
    | .reading pass reading _ =>
      ∃ seg tail added pending earlier, segs = seg :: tail ∧
        reading.path = sealedSegmentName seg.1 ∧ pass.ready <+: segmentNames tail ∧
        seg.2 = added ++ reading.rest ∧ pending <:+ added ∧ Queued p.writer pending ∧
        upsertAll (table index.rows) (entries pending) = upsertAll earlier (entries added)
    | .retiring pass reading =>
      ∃ seg tail earlier, segs = seg :: tail ∧
        reading.path = sealedSegmentName seg.1 ∧ pass.ready <+: segmentNames tail ∧
        Queued p.writer [] ∧ table index.rows = upsertAll earlier (entries seg.2)

/-- The table that upserting the documents of the segments into the index gives. -/
def replayed (segs : List (ℕ × List Document)) (rows : List Row) : Table Str Page :=
  upsertAll (table rows) (entries (segs.flatMap Prod.snd))

/-- A segment that is sealed meanwhile does not concern the drain. -/
theorem Tracks.snoc {segs : List (ℕ × List Document)} {index : Drain.State σ η}
    (h : Tracks segs index) (seg : ℕ × List Document) : Tracks (segs ++ [seg]) index := by
  have hnames : ∀ {ready : List Str} {l : List (ℕ × List Document)},
      ready <+: segmentNames l → ready <+: segmentNames (l ++ [seg]) := by
    intro ready l hready
    rw [segmentNames, List.map_append]
    exact hready.trans (List.prefix_append _ _)
  unfold Tracks at h ⊢
  split
  · trivial
  · rename_i p hp
    rw [hp] at h
    simp only at h
    split <;> rename_i hphase <;> rw [hphase] at h
    · exact h
    · trivial
    · exact ⟨h.1, hnames h.2⟩
    · exact ⟨h.1, hnames h.2⟩
    · exact ⟨h.1, hnames h.2⟩
    · obtain ⟨s, tail, added, pending, earlier, rfl, hpath, hready, hrest⟩ := h
      exact ⟨s, tail ++ [seg], added, pending, earlier, rfl, hpath, hnames hready, hrest⟩
    · obtain ⟨s, tail, earlier, rfl, hpath, hready, hrest⟩ := h
      exact ⟨s, tail ++ [seg], earlier, rfl, hpath, hnames hready, hrest⟩

/-- A commit of documents that the segments hold changes nothing in the replay. -/
theorem replayed_commit {segs : List (ℕ × List Document)} {rows : List Row}
    {writer : DocWriter} {pending : List Document} (hq : Queued writer pending)
    (hsub : ∀ d ∈ pending, d ∈ segs.flatMap Prod.snd) :
    replayed segs (writer.commit rows).2 = replayed segs rows := by
  rw [replayed, table_commit hq, replayed]
  refine upsertAll_absorb _ fun k hk => ?_
  rw [map_fst_entries, List.mem_map] at hk ⊢
  obtain ⟨d, hd, rfl⟩ := hk
  exact ⟨d, hsub d hd, rfl⟩

/-- Once a segment's documents are the last that were written, removing it changes
nothing in the replay. -/
theorem replayed_retire {seg : ℕ × List Document} {tail : List (ℕ × List Document)}
    {rows : List Row} {earlier : Table Str Page}
    (h : table rows = upsertAll earlier (entries seg.2)) :
    replayed tail rows = replayed (seg :: tail) rows := by
  rw [replayed, replayed, List.flatMap_cons, entries_append, upsertAll_append, h,
    upsertAll_idem]

variable {config : DrainConfig} {sidecars : Sidecars σ η}

/-- The segments of a listing, with the first taken off. -/
theorem segmentNames_cons_prefix {segs : List (ℕ × List Document)} {path : Str}
    {ready : List Str} (h : path :: ready <+: segmentNames segs) :
    ∃ seg tail, segs = seg :: tail ∧ path = sealedSegmentName seg.1 ∧
      ready <+: segmentNames tail := by
  cases segs with
  | nil => exact absurd (List.prefix_nil.mp h) (List.cons_ne_nil _ _)
  | cons seg tail =>
    rw [segmentNames, List.map_cons, List.cons_prefix_cons] at h
    exact ⟨seg, tail, rfl, h.1, h.2⟩

/-- **One step of the drain.**  The readable segments stay as they are or lose the
first, the drain keeps track of them, no URL gets a second row, and the replay
stays the same. -/
theorem drainStep_replays {spool spool' : Directory} {S T : Drain.State σ η}
    {event : Drain.Event} {segs : List (ℕ × List Document)}
    (h : DrainStep codec config sidecars spool S event spool' T)
    (hsegs : Segments codec spool segs) (hS : Tracks segs S)
    (hrows : (S.rows.map Row.url).Nodup) :
    ∃ segs', Segments codec spool' segs' ∧ segs' <:+ segs ∧ Tracks segs' T ∧
      (T.rows.map Row.url).Nodup ∧ replayed segs' T.rows = replayed segs S.rows := by
  -- every step but `retire` keeps the segments
  have keep : spool' = spool → Tracks segs T → T.rows = S.rows →
      ∃ segs', Segments codec spool' segs' ∧ segs' <:+ segs ∧ Tracks segs' T ∧
        (T.rows.map Row.url).Nodup ∧ replayed segs' T.rows = replayed segs S.rows := by
    intro hspool htracks heq
    refine ⟨segs, hspool ▸ hsegs, List.suffix_refl _, htracks, ?_, ?_⟩
    · rwa [heq]
    · rw [heq]
  cases h with
  | start hoff => exact keep rfl queued_open rfl
  | sleep hp hphase hlist hready honce => exact keep rfl hS rfl
  | finish hp hphase hlist hready honce => exact keep rfl trivial rfl
  | list hp hphase hlist hready =>
    simp only [Tracks, hp, hphase] at hS
    exact keep rfl ⟨hS, sealedSegments_eq hsegs hlist ▸ List.prefix_refl _⟩ rfl
  | score hp hphase hread =>
    simp only [Tracks, hp, hphase] at hS
    exact keep rfl hS rfl
  | passDone hp hphase hready =>
    simp only [Tracks, hp, hphase] at hS
    exact keep rfl hS.1 rfl
  | take hp hphase hready hfile =>
    simp only [Tracks, hp, hphase, hready] at hS
    obtain ⟨seg, tail, rfl, rfl, hrest⟩ := segmentNames_cons_prefix hS.2
    obtain ⟨bytes', hbytes, hdocs⟩ := hsegs.present seg List.mem_cons_self
    rw [hfile] at hbytes
    cases hbytes
    exact keep rfl ⟨seg, tail, [], [], table S.rows, rfl, rfl, hrest, hdocs.symm,
      List.suffix_refl _, hS.1, rfl⟩ rfl
  | @add p pass reading document rest hp hphase hrest =>
    simp only [Tracks, hp, hphase] at hS
    obtain ⟨seg, tail, added, pending, earlier, rfl, hpath, hready, hadded, hsuffix, hq,
      htable⟩ := hS
    refine keep rfl ⟨seg, tail, added ++ [document], pending ++ [document], earlier, rfl, hpath,
      hready, ?_, ?_, hq.addOrUpdate document _, ?_⟩ rfl
    · rw [hadded, hrest, List.append_assoc, List.singleton_append]
    · obtain ⟨front, rfl⟩ := hsuffix
      exact ⟨front, (List.append_assoc _ _ _).symm⟩
    · show upsertAll (table S.rows) (entries (pending ++ [document])) = _
      rw [entries_append, upsertAll_append, htable, ← upsertAll_append, ← entries_append]
  | @commit p pass reading hp hphase =>
    simp only [Tracks, hp, hphase] at hS
    obtain ⟨seg, tail, added, pending, earlier, rfl, hpath, hready, hadded, hsuffix, hq,
      htable⟩ := hS
    refine ⟨seg :: tail, hsegs, List.suffix_refl _, ?_, keys_nodup_commit hq hrows,
      replayed_commit hq fun d hd => ?_⟩
    · refine ⟨seg, tail, added, [], earlier, rfl, hpath, hready, hadded, List.nil_suffix,
        queued_commit p.writer S.rows, ?_⟩
      show table (p.writer.commit S.rows).2 = _
      rw [table_commit hq, htable]
    · rw [List.flatMap_cons, hadded]
      exact List.mem_append_left _ (List.mem_append_left _ (hsuffix.subset hd))
  | @segmentDone p pass reading hp hphase hrest hstop =>
    simp only [Tracks, hp, hphase] at hS
    obtain ⟨seg, tail, added, pending, earlier, rfl, hpath, hready, hadded, hsuffix, hq,
      htable⟩ := hS
    rw [hrest, List.append_nil] at hadded
    refine ⟨seg :: tail, hsegs, List.suffix_refl _, ?_, keys_nodup_commit hq hrows,
      replayed_commit hq fun d hd => ?_⟩
    · refine ⟨seg, tail, earlier, rfl, hpath, hready, queued_commit p.writer S.rows, ?_⟩
      show table (p.writer.commit S.rows).2 = _
      rw [table_commit hq, htable, hadded]
    · rw [List.flatMap_cons, hadded]
      exact List.mem_append_left _ (hsuffix.subset hd)
  | @retire p pass reading bytes hp hphase hfile =>
    simp only [Tracks, hp, hphase] at hS
    obtain ⟨seg, tail, earlier, rfl, hpath, hready, hq, htable⟩ := hS
    refine ⟨tail, ?_, List.suffix_cons _ _, ⟨hq, hready⟩, hrows, replayed_retire htable⟩
    show Segments codec (spool.remove reading.path) tail
    rw [hpath]
    exact hsegs.tail
  | record hp hphase =>
    simp only [Tracks, hp, hphase] at hS
    exact keep rfl hS rfl
  | stop hp => exact keep rfl trivial rfl

/-! ### Runs -/

/-- What holds in every state of a run. -/
structure Sound (settings : Settings σ η) (S : System σ η) (segs : List (ℕ × List Document)) :
    Prop where
  numbered : Numbered settings.codec S.crawl segs
  tracks : Tracks segs S.index
  rows : (S.index.rows.map Row.url).Nodup
  replay : replayed segs S.index.rows = upsertAll noPages (entries S.log.sealed)
  log : List.Sublist (S.log.sealed ++ S.log.current) S.log.written

variable {settings : Settings σ η}

theorem Fresh.sound {S : System σ η} (h : Fresh S) : Sound settings S [] where
  numbered := by
    refine Numbered.of_off ⟨List.Pairwise.nil, by simp, by simp, ?_⟩ h.writer
    intro name hname hdir
    exact absurd (h.spool name hname) hdir
  tracks := by
    rw [Tracks, h.process]
    trivial
  rows := by
    rw [h.rows]
    exact List.nodup_nil
  replay := by
    rw [h.rows, h.log]
    rfl
  log := by
    rw [h.log]
    exact List.Sublist.refl _

/-- **The step lemma of the hand-off.** -/
theorem Step.sound {S T : System σ η} {event : Event} (h : Step settings S event T)
    {segs : List (ℕ × List Document)} (hS : Sound settings S segs) :
    ∃ segs', Sound settings T segs' := by
  cases h with
  | @crawl event U h =>
    have hlog := writerStep_log h hS.log
    rcases writerStep_numbered h hS.numbered with ⟨hnum, hsealed⟩ | ⟨n, hnum, hsealed⟩
    · refine ⟨segs, hnum, hS.tracks, hS.rows, ?_, hlog⟩
      show replayed segs S.index.rows = upsertAll noPages (entries U.log.sealed)
      rw [hsealed]
      exact hS.replay
    · -- the sealed documents are upserted last, on both sides
      refine ⟨segs ++ [(n, S.log.current)], hnum, hS.tracks.snoc _, hS.rows, ?_, hlog⟩
      show replayed (segs ++ [(n, S.log.current)]) S.index.rows
        = upsertAll noPages (entries U.log.sealed)
      rw [hsealed]
      show _ = upsertAll noPages (entries (S.log.sealed ++ S.log.current))
      rw [entries_append, upsertAll_append, ← hS.replay, replayed, replayed,
        List.flatMap_append, entries_append, upsertAll_append, List.flatMap_cons,
        List.flatMap_nil, List.append_nil]
  | @drain event spool U h =>
    obtain ⟨segs', hsegs, hsuffix, htracks, hrows, hreplay⟩ :=
      drainStep_replays h hS.numbered.segments hS.tracks hS.rows
    refine ⟨segs', ⟨hsegs, ?_, hS.numbered.holds⟩, htracks, hrows, ?_, hS.log⟩
    · intro phase w hw p hp
      exact hS.numbered.below phase w hw p (hsuffix.subset hp)
    · exact hreplay.trans hS.replay

theorem run_sound {S₀ S : System σ η} {events : List Event} (h₀ : Fresh S₀)
    (h : Run (Step settings) S₀ events S) : ∃ segs, Sound settings S segs := by
  refine h.invariant (I := fun S => ∃ segs, Sound settings S segs) ⟨[], h₀.sound⟩ ?_
  rintro T event U ⟨segs, hT⟩ hstep
  exact hstep.sound hT

/-- Upserting the documents of the spool, as they are listed, gives what upserting every
sealed document does. -/
theorem Sound.spool_replays {S : System σ η} {segs : List (ℕ × List Document)}
    (h : Sound settings S segs) {listing : List Str} (hlist : S.spool.Lists listing) :
    upsertAll (table S.index.rows) (entries (spoolDocuments settings.codec S.spool listing))
      = upsertAll noPages (entries S.log.sealed) := by
  have hdocs : spoolDocuments settings.codec S.spool listing = segs.flatMap Prod.snd :=
    spoolDocuments_eq h.numbered.segments hlist
  rw [hdocs]
  exact h.replay

/-- A sealed document's URL is in the index or in the spool. -/
theorem Sound.sealed_kept {S : System σ η} {segs : List (ℕ × List Document)}
    (h : Sound settings S segs) {listing : List Str} (hlist : S.spool.Lists listing)
    {d : Document} (hd : d ∈ S.log.sealed) :
    d.url ∈ S.index.rows.map Row.url ∨
      d.url ∈ (spoolDocuments settings.codec S.spool listing).map Document.url := by
  have hmem : d.url ∈ (entries S.log.sealed).map Prod.fst := by
    rw [map_fst_entries]
    exact List.mem_map_of_mem hd
  have hsome : (upsertAll noPages (entries S.log.sealed) d.url).isSome := by
    rw [upsertAll_apply, Option.isSome_or, lastWrite_isSome.mpr hmem, Bool.true_or]
  rw [← h.spool_replays hlist, upsertAll_apply, Option.isSome_or, Bool.or_eq_true] at hsome
  rcases hsome with hspool | hindex
  · right
    rwa [lastWrite_isSome, map_fst_entries] at hspool
  · left
    rwa [table, view_isSome, map_fst_entry] at hindex

/-- **The hand-off loses nothing, duplicates nothing and rolls nothing back.**  In
every state of every run of the two processes, upserting the documents of the
spool, as they are listed, into the committed index gives the same pages as
upserting every document ever sealed, in the order it was written, into nothing.
No URL has two rows, every sealed URL is in the index or in the spool, and with
an empty spool the index is exactly the sealed documents. -/
theorem replay_invariant (settings : Settings σ η) (S₀ S : System σ η) (events : List Event)
    (h₀ : Fresh S₀) (h : Run (Step settings) S₀ events S) :
    List.Sublist S.log.sealed S.log.written ∧
    (S.index.rows.map Row.url).Nodup ∧
    ∀ listing, S.spool.Lists listing →
      upsertAll (table S.index.rows) (entries (spoolDocuments settings.codec S.spool listing))
        = upsertAll noPages (entries S.log.sealed) ∧
      (∀ d ∈ S.log.sealed, d.url ∈ S.index.rows.map Row.url ∨
        d.url ∈ (spoolDocuments settings.codec S.spool listing).map Document.url) ∧
      (sealedSegments listing = [] →
        table S.index.rows = upsertAll noPages (entries S.log.sealed)) := by
  obtain ⟨segs, hsound⟩ := run_sound h₀ h
  refine ⟨(List.sublist_append_left _ _).trans hsound.log, hsound.rows, fun listing hlist => ?_⟩
  have hreplay := hsound.spool_replays hlist
  refine ⟨hreplay, fun d hd => hsound.sealed_kept hlist hd, fun hempty => ?_⟩
  rw [spoolDocuments, hempty] at hreplay
  exact hreplay

/-! ### A segment that is created and sealed -/

/-- It is a file of the directory, and the other files are as they were. -/
theorem seal_create_apply (segment : SpoolSegment) (spool : Directory) (name : Str) :
    segment.seal (spool.create segment.openName) name
      = if name = segment.sealedName then some segment.contents
        else if name = segment.openName then none else spool name := by
  rw [SpoolSegment.seal, Directory.rename_apply (Directory.place_self ..)]
  by_cases hopen : name = segment.openName
  · rw [if_pos hopen, if_pos hopen]
  · rw [if_neg hopen, if_neg hopen]
    exact congrArg _ ((Directory.place_of_ne _ _ hopen).trans (Directory.create_of_ne _ hopen))

/-- A listing goes on with it, when neither of its names was in use. -/
theorem seal_create_lists (segment : SpoolSegment) {spool : Directory} {listing : List Str}
    (h : spool.Lists listing) (hsealed : segment.sealedName ∉ listing)
    (hopen : segment.openName ∉ listing) :
    (segment.seal (spool.create segment.openName)).Lists (listing ++ [segment.sealedName]) := by
  refine ⟨List.nodup_append.mpr ⟨h.1, List.nodup_singleton _, ?_⟩, fun name => ?_⟩
  · rintro name hname _ hself rfl
    exact hsealed (List.mem_singleton.mp hself ▸ hname)
  · rw [List.mem_append, List.mem_singleton, seal_create_apply, h.2]
    by_cases hname : name = segment.sealedName
    · simp [hname]
    · rw [if_neg hname, or_iff_left hname]
      split
      · -- the open name is gone, and the listing never had it
        rename_i heq
        have hthere : spool name ≠ none ↔ False := by
          rw [← h.2, heq]
          exact iff_of_false hopen id
        simpa using hthere
      · rfl

/-- In an empty directory it is the only file. -/
theorem sealed_apply (segment : SpoolSegment) (name : Str) :
    segment.seal (Directory.create (fun _ => none) segment.openName) name
      = if name = segment.sealedName then some segment.contents else none := by
  rw [seal_create_apply, ite_self]

theorem sealed_lists (segment : SpoolSegment) :
    (segment.seal (Directory.create (fun _ => none) segment.openName)).Lists
      [segment.sealedName] := by
  exact seal_create_lists segment ⟨List.nodup_nil, by simp⟩ List.not_mem_nil List.not_mem_nil

/-- Once it is retired, the directory is empty. -/
theorem sealed_removed (segment : SpoolSegment) :
    ((segment.seal (Directory.create (fun _ => none) segment.openName)).remove
      segment.sealedName).Lists [] := by
  refine ⟨List.nodup_nil, fun name => ?_⟩
  by_cases hname : name = segment.sealedName
  · rw [hname, Directory.remove_self]
    simp
  · rw [Directory.remove_of_ne _ hname, sealed_apply, if_neg hname]
    simp

/-- Nothing has happened yet. -/
def emptySystem : System Unit Unit :=
  { spool := fun _ => none
    writer := none
    log := { current := [], written := [], sealed := [] }
    index :=
      { rows := [], archive := fun _ => none, hostInlinks := (), history := (),
        process := none } }

def sampleSettings : Settings Unit Unit :=
  { codec := sampleCodec
    segmentBytes := 1000
    config := { commitDocs := 2, once := true, archives := false }
    sidecars :=
      { buildAuthority := fun _ _ => (fun _ => none, ()), record := fun _ _ _ _ => () } }

/-- A segment with one page in it. -/
def sampleSegment : SpoolSegment :=
  { sequence := 1, contents := 16 :: 0 :: 0 :: 0 :: samplePayload, bytes := 20 }

/-- The spool with that segment sealed. -/
def sampleSpool : Directory :=
  sampleSegment.seal (Directory.create (fun _ => none) (openSegmentName 1))

/-- The page has been written and sealed. -/
def sealedSystem : System Unit Unit :=
  { emptySystem with
    spool := sampleSpool
    log := { current := [], written := [samplePage], sealed := [samplePage] } }

theorem sealedSystem_run : Run (Step sampleSettings) emptySystem
    [.crawl (.open []), .crawl .createSegment, .crawl (.writePage samplePage), .crawl .close,
      .crawl .sealSegment] sealedSystem := by
  have hwrite : SpoolSegment.write sampleCodec (SpoolSegment.create 1) samplePage
      = .ok sampleSegment := rfl
  -- the state is read off the steps, and only then compared
  have hrun : Run (Step sampleSettings) emptySystem _ _ :=
    Run.cons (.crawl (.open rfl ⟨List.nodup_nil, by simp [System.crawl, emptySystem]⟩ rfl)) <|
    Run.cons (.crawl (.createSegment rfl (by decide))) <|
    Run.cons (.crawl (.writePage rfl rfl hwrite)) <|
    Run.cons (.crawl (.close rfl (Or.inl rfl))) <|
    Run.single (.crawl (@WriterStep.sealSegment _ _ _ false _ _ rfl rfl))
  exact hrun

theorem sampleSpool_apply (name : Str) :
    sampleSpool name
      = if name = sealedSegmentName 1 then some sampleSegment.contents else none :=
  sealed_apply sampleSegment name

theorem sampleSpool_lists : sampleSpool.Lists [sealedSegmentName 1] := sealed_lists sampleSegment

/-! ### Two pages, in a segment each -/

/-- Every page fills a segment. -/
def rotatingSettings : Settings Unit Unit :=
  { sampleSettings with codec := Postcard.documentFormat.toCodec, segmentBytes := 20 }

/-- The second page's segment. -/
def otherSegment : SpoolSegment :=
  { sequence := 2, contents := 17 :: 0 :: 0 :: 0 :: 3 :: 104 :: 58 :: 120 :: samplePayload.drop 3,
    bytes := 21 }

def rotatedSpool : Directory := otherSegment.seal (sampleSpool.create (openSegmentName 2))

/-- Both pages have been written and sealed. -/
def rotatedSystem : System Unit Unit :=
  { emptySystem with
    spool := rotatedSpool
    log :=
      { current := [], written := [samplePage, otherPage], sealed := [samplePage, otherPage] } }

/-- The drain has committed the first page and was stopped before retiring its segment. -/
def stoppedSystem : System Unit Unit :=
  { rotatedSystem with
    index := { emptySystem.index with rows := [rowOf samplePage default] } }

theorem rotatedSpool_first : rotatedSpool (sealedSegmentName 1) = some sampleSegment.contents := by
  refine (seal_create_apply otherSegment _ _).trans ?_
  rw [if_neg (by decide), if_neg (by decide), sampleSpool_apply, if_pos rfl]

theorem rotatedSpool_second : rotatedSpool (sealedSegmentName 2) = some otherSegment.contents :=
  (seal_create_apply otherSegment _ _).trans (if_pos rfl)

/-- What the spool holds. -/
def rotatedListing : List Str := [sealedSegmentName 1, sealedSegmentName 2]

theorem rotatedSpool_lists : rotatedSpool.Lists rotatedListing :=
  seal_create_lists otherSegment sampleSpool_lists (by decide) (by decide)

theorem rotated_ready : sealedSegments rotatedListing = rotatedListing := by decide

/-- The writer rotates twice, and is killed before it opens a third segment. -/
theorem rotatedSystem_run : Run (Step rotatingSettings) emptySystem
    [.crawl (.open []), .crawl .createSegment, .crawl (.writePage samplePage),
      .crawl .sealSegment, .crawl .createSegment, .crawl (.writePage otherPage),
      .crawl .sealSegment, .crawl .kill] rotatedSystem := by
  have hfirst : SpoolSegment.write rotatingSettings.codec (SpoolSegment.create 1) samplePage
      = .ok sampleSegment := rfl
  have hsecond : SpoolSegment.write rotatingSettings.codec (SpoolSegment.create 2) otherPage
      = .ok otherSegment := rfl
  have hrun : Run (Step rotatingSettings) emptySystem _ _ :=
    Run.cons (.crawl (.open rfl ⟨List.nodup_nil, by simp [System.crawl, emptySystem]⟩ rfl)) <|
    Run.cons (.crawl (.createSegment rfl (by decide))) <|
    Run.cons (.crawl (.writePage rfl rfl hfirst)) <|
    Run.cons (.crawl (@WriterStep.sealSegment _ _ _ true _ _ rfl rfl)) <|
    Run.cons (.crawl (.createSegment rfl (by decide))) <|
    Run.cons (.crawl (.writePage rfl rfl hsecond)) <|
    Run.cons (.crawl (@WriterStep.sealSegment _ _ _ true _ _ rfl rfl)) <|
    Run.single (.crawl (.kill rfl))
  exact hrun

theorem rotated_documents :
    forEachDocument Postcard.documentFormat.toCodec sampleSegment.contents
        = ([samplePage], .clean) ∧
      forEachDocument Postcard.documentFormat.toCodec otherSegment.contents
        = ([otherPage], .clean) := by
  decide +kernel

theorem rotated_read : readAll Postcard.documentFormat.toCodec rotatedSpool
    (sealedSegments rotatedListing) = some [samplePage, otherPage] := by
  rw [rotated_ready]
  exact readAll_cons rotatedSpool_first rotated_documents.1
    (readAll_cons rotatedSpool_second rotated_documents.2 rfl)

theorem stoppedSystem_run : Run (Step rotatingSettings) rotatedSystem
    [.drain .start, .drain (.list rotatedListing), .drain (.score [samplePage, otherPage] true),
      .drain .take, .drain (.add samplePage), .drain .segmentDone, .drain .stop]
    stoppedSystem := by
  have hne : sealedSegments rotatedListing ≠ [] := rotated_ready ▸ List.cons_ne_nil _ _
  have hfirst := rotated_documents.1
  exact Run.cons (.drain (.start rfl)) <|
    Run.cons (.drain (.list rfl rfl rotatedSpool_lists hne)) <|
    Run.cons (.drain (.score rfl rfl rotated_read)) <|
    Run.cons (.drain (.take rfl rfl rotated_ready rotatedSpool_first)) <|
    Run.cons (.drain (.add rfl rfl (congrArg Prod.fst hfirst))) <|
    Run.cons (.drain (.segmentDone rfl rfl rfl (congrArg Prod.snd hfirst))) <|
    Run.single (.drain (.stop rfl))

/-- What is left in the spool repeats the first page, and adds the second. -/
theorem replay_invariant_sample :
    upsertAll (table stoppedSystem.index.rows)
        (entries (spoolDocuments Postcard.documentFormat.toCodec stoppedSystem.spool
          rotatedListing))
      = upsertAll noPages (entries [samplePage, otherPage]) := by
  have hfresh : Fresh emptySystem := ⟨fun _ _ => rfl, rfl, rfl, rfl, rfl⟩
  have hrun := rotatedSystem_run.append stoppedSystem_run
  exact ((replay_invariant rotatingSettings emptySystem stoppedSystem _ hfresh hrun).2.2 _
    rotatedSpool_lists).1

end Handoff
