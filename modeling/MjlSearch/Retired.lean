/-
The segments the indexer has moved into the archive directory.

A retired segment keeps its name.  The crawler numbers its segments by what lies in the
spool, and the spool forgets a segment once it is retired, so a crawl that starts on an
empty spool begins with a number that is already in the archive.

* `NumberFree` — the number of a segment is not in use in the archive, when it is opened;
* `Unarchived.step` — then no readable segment shares its name with a retired one;
* `archive_kept` — and no retired segment is ever replaced;
* `archive_overwritten` — else one is.
-/
import MjlSearch.Handoff

open Text Spool IndexWriter Storage Drain Runs

namespace Handoff

variable {σ η : Type} {settings : Settings σ η} {S T : System σ η} {event : Event}

/-- A segment that is opened has a number that no retired segment has. -/
def NumberFree (S : System σ η) (event : Event) : Prop :=
  event = .crawl .createSegment → ∀ w, S.writer = some (.opening, w) →
    S.index.archive (sealedSegmentName w.segmentSequence) = none

/-- No segment that can still be retired has the name of one that is. -/
structure Unarchived (S : System σ η) : Prop where
  spool : ∀ name, isSealed name = true → S.spool name ≠ none → S.index.archive name = none
  opened : ∀ phase w segment, S.writer = some (phase, w) → w.segment = some segment →
    S.index.archive segment.sealedName = none

/-- What the drain does to the archive: nothing, but for a retired segment. -/
theorem drainStep_archive {codec : Codec Document} {config : DrainConfig}
    {sidecars : Sidecars σ η} {spool spool' : Directory} {I J : Drain.State σ η}
    {event : Drain.Event} (h : DrainStep codec config sidecars spool I event spool' J) :
    (spool' = spool ∧ J.archive = I.archive) ∨
      ∃ p pass reading bytes, I.process = some p ∧ p.phase = .retiring pass reading ∧
        spool reading.path = some bytes ∧ event = .retire ∧
        spool' = spool.remove reading.path ∧
        J.archive = if config.archives then I.archive.place reading.path bytes else I.archive := by
  cases h with
  | @retire p pass reading bytes hp hphase hfile =>
    exact Or.inr ⟨p, pass, reading, bytes, hp, hphase, hfile, rfl, rfl, rfl⟩
  | _ => exact Or.inl ⟨rfl, rfl⟩

/-- The segment being retired is a readable one, and not the one that is open. -/
theorem retiring_path {segs : List (ℕ × List Document)} (hsound : Sound settings S segs)
    {p : Drain.Process} {pass : Pass} {reading : Reading} (hp : S.index.process = some p)
    (hphase : p.phase = .retiring pass reading) :
    isSealed reading.path = true ∧ ∀ phase w segment, S.writer = some (phase, w) →
      w.segment = some segment → segment.sealedName ≠ reading.path := by
  have htracks := hsound.tracks
  simp only [Tracks, hp, hphase] at htracks
  obtain ⟨seg, tail, earlier, hsegs, hpath, _⟩ := htracks
  have hmem : seg ∈ segs := by
    rw [hsegs]
    exact List.mem_cons_self
  refine ⟨by rw [hpath]; exact isSealed_sealedSegmentName seg.1, ?_⟩
  intro phase w segment hw hseg heq
  have hbelow := hsound.numbered.below phase w hw seg hmem
  obtain ⟨hfit, _⟩ := hsound.numbered.holds phase w segment hw hseg
  rw [hpath] at heq
  have hnumber := sealedSegmentName_injective hfit (hsound.numbered.segments.bounded seg hmem) heq
  rw [ArchiveWriter.number, hseg] at hbelow
  dsimp only at hbelow
  omega

/-- A step of the writer. -/
theorem Unarchived.crawl {codec : Codec Document} {segmentBytes : ℕ} {U : Storage.State}
    {e : Storage.Event} (hfree : NumberFree S (.crawl e))
    (h : Unarchived S) (hstep : WriterStep codec segmentBytes S.crawl e U) :
    Unarchived { spool := U.spool, writer := U.writer, log := U.log, index := S.index } := by
  generalize hS : S.crawl = S₀ at hstep
  have hwas : S₀.spool = S.spool ∧ S₀.writer = S.writer := by
    rw [← hS]
    exact ⟨rfl, rfl⟩
  obtain ⟨hspool, hwriter⟩ := hwas
  -- a file with the name of an open segment is not readable
  have hkeep : ∀ (U : Directory) n, (∀ name, name ≠ openSegmentName n → U name = S₀.spool name) →
      ∀ name, isSealed name = true → U name ≠ none → S.index.archive name = none := by
    intro U n hagree name hname hthere
    have hne : name ≠ openSegmentName n := by
      rintro rfl
      rw [isSealed_openSegmentName] at hname
      cases hname
    rw [hagree name hne, hspool] at hthere
    exact h.spool name hname hthere
  have hsame : ∀ name, isSealed name = true → S₀.spool name ≠ none →
      S.index.archive name = none := by
    intro name hname hthere
    rw [hspool] at hthere
    exact h.spool name hname hthere
  have hoff : ∀ phase w segment, (none : Writer) = some (phase, w) → w.segment = some segment →
      S.index.archive (SpoolSegment.sealedName segment) = none := fun _ _ _ hc => by cases hc
  cases hstep with
  | «open» hoff hlist hnext =>
    refine ⟨hsame, fun phase w segment hw hseg => ?_⟩
    cases hw
    cases hseg
  | @createSegment w hw hfit =>
    rw [hwriter] at hw
    refine ⟨hkeep _ _ fun name hname => Directory.create_of_ne _ hname,
      fun phase w' segment hw' hseg => ?_⟩
    cases hw'
    cases hseg
    exact hfree rfl w hw
  | createFails => exact ⟨hsame, hoff⟩
  | @writePage w segment segment' document hw hseg hwrite =>
    rw [hwriter] at hw
    refine ⟨hsame, fun phase w' segment'' hw' hseg' => ?_⟩
    cases hw'
    cases hseg'
    have hsequence : segment'.sequence = segment.sequence := by
      rw [SpoolSegment.write] at hwrite
      split at hwrite
      · cases hwrite
      · cases hwrite
        rfl
    rw [SpoolSegment.sealedName, hsequence]
    exact h.opened _ w segment hw hseg
  | @writeFails w segment document part hw hseg hpart =>
    rw [hwriter] at hw
    refine ⟨hsame, fun phase w' segment' hw' hseg' => ?_⟩
    cases hw'
    cases hseg'
    exact h.opened _ w segment hw hseg
  | @flush phase w segment part hw hseg hpart =>
    rw [hwriter] at hw
    refine ⟨hkeep _ _ fun name hname => Directory.place_of_ne _ _ hname,
      fun phase' w' segment' hw' hseg' => ?_⟩
    exact h.opened phase' w' segment' (hwriter.symm.trans hw') hseg'
  | @close phase w hw hphase =>
    rw [hwriter] at hw
    refine ⟨hsame, fun phase' w' segment hw' hseg => ?_⟩
    cases hw'
    exact h.opened _ w segment hw hseg
  | @sealSegment reopen w segment hw hseg =>
    rw [hwriter] at hw
    refine ⟨fun name hname hthere => ?_, fun phase w' segment' hw' hseg' => ?_⟩
    · dsimp only at hthere
      rw [seal_apply _ _ _ hname] at hthere
      split at hthere
      · rename_i heq
        show S.index.archive name = none
        rw [heq]
        exact h.opened _ w segment hw hseg
      · exact hsame name hname hthere
    · dsimp only at hw'
      split at hw'
      · cases hw'
        cases hseg'
      · cases hw'
  | sealFails => exact ⟨hsame, hoff⟩
  | kill => exact ⟨hsame, hoff⟩

/-- **One step of the two processes.** -/
theorem Unarchived.step {segs : List (ℕ × List Document)} (hsound : Sound settings S segs)
    (hfree : NumberFree S event) (h : Unarchived S) (hstep : Step settings S event T) :
    Unarchived T := by
  cases hstep with
  | crawl hwriter => exact h.crawl hfree hwriter
  | @drain e spool J hdrain =>
    rcases drainStep_archive hdrain with
      ⟨rfl, harchive⟩ | ⟨p, pass, reading, bytes, hp, hphase, hfile, _, rfl, harchive⟩
    · refine ⟨fun name hname hthere => ?_, fun phase w segment hw hseg => ?_⟩
      · show J.archive name = none
        rw [harchive]
        exact h.spool name hname hthere
      · show J.archive segment.sealedName = none
        rw [harchive]
        exact h.opened phase w segment hw hseg
    · obtain ⟨_, hopened⟩ := retiring_path hsound hp hphase
      have hother : ∀ name, name ≠ reading.path → J.archive name = S.index.archive name := by
        intro name hne
        rw [harchive]
        split
        · exact Directory.place_of_ne _ _ hne
        · rfl
      refine ⟨fun name hname hthere => ?_, fun phase w segment hw hseg => ?_⟩
      · have hne : name ≠ reading.path := by
          rintro rfl
          exact hthere (Directory.remove_self _ _)
        have hthere' : S.spool.remove reading.path name ≠ none := hthere
        rw [Directory.remove_of_ne _ hne] at hthere'
        exact (hother name hne).trans (h.spool name hname hthere')
      · exact (hother _ (hopened phase w segment hw hseg)).trans (h.opened phase w segment hw hseg)

/-- What is known of every state of such a run. -/
def Kept (settings : Settings σ η) (S : System σ η) : Prop :=
  (∃ segs, Sound settings S segs) ∧ Unarchived S

theorem Kept.step (h : Kept settings S)
    (hstep : Step settings S event T ∧ NumberFree S event) : Kept settings T := by
  obtain ⟨⟨segs, hsound⟩, hunarchived⟩ := h
  exact ⟨hstep.1.sound hsound, hunarchived.step hsound hstep.2 hstep.1⟩

theorem Fresh.kept (h : Fresh S) : Kept settings S := by
  refine ⟨⟨[], h.sound⟩, fun name hname hthere => ?_, fun phase w segment hw => ?_⟩
  · exact absurd (h.spool name hname) hthere
  · rw [h.writer] at hw
    cases hw

/-- What is in the archive stays there, unchanged. -/
theorem Kept.archive (h : Kept settings S) (hstep : Step settings S event T) {name : Str}
    {bytes : List UInt8} (hname : S.index.archive name = some bytes) :
    T.index.archive name = some bytes := by
  obtain ⟨⟨segs, hsound⟩, hunarchived⟩ := h
  cases hstep with
  | crawl => exact hname
  | @drain e spool J hdrain =>
    rcases drainStep_archive hdrain with
      ⟨_, harchive⟩ | ⟨p, pass, reading, bytes', hp, hphase, hfile, _, _, harchive⟩
    · show J.archive name = some bytes
      rw [harchive]
      exact hname
    · have hne : name ≠ reading.path := by
        rintro rfl
        have hnone := hunarchived.spool _ (retiring_path hsound hp hphase).1
          (by rw [hfile]; exact Option.some_ne_none _)
        rw [hname] at hnone
        cases hnone
      show J.archive name = some bytes
      rw [harchive]
      split
      · exact (Directory.place_of_ne _ _ hne).trans hname
      · exact hname

/-- **Retired segments are kept**, in every run in which each segment is opened under a
number that no retired one has: retiring a segment replaces no file of the archive, and
from then on the archive holds it unchanged. -/
theorem archive_kept (settings : Settings σ η) (harchives : settings.config.archives = true)
    (S₀ A B S : System σ η) (before after : List Event) (h₀ : Fresh S₀)
    (hbefore : Run (fun S event T => Step settings S event T ∧ NumberFree S event) S₀ before A)
    (hretire : Step settings A (.drain .retire) B)
    (hafter : Run (fun S event T => Step settings S event T ∧ NumberFree S event) B after S) :
    ∃ name bytes, A.spool name = some bytes ∧ A.index.archive name = none ∧
      B.spool = A.spool.remove name ∧ S.index.archive name = some bytes := by
  have hA : Kept settings A := hbefore.invariant h₀.kept fun _ _ _ h hstep => h.step hstep
  have hB : Kept settings B := hA.step ⟨hretire, fun hc => (by cases hc)⟩
  obtain ⟨⟨segs, hsound⟩, hunarchived⟩ := hA
  generalize he : Event.drain .retire = event at hretire
  cases hretire with
  | crawl => cases he
  | @drain e spool J hdrain =>
    cases he
    cases hdrain with
    | @retire p pass reading bytes hp hphase hfile =>
      refine ⟨reading.path, bytes, hfile, ?_, rfl, ?_⟩
      · exact hunarchived.spool _ (retiring_path hsound hp hphase).1
          (by rw [hfile]; exact Option.some_ne_none _)
      · refine (hafter.invariant (I := fun S => Kept settings S ∧
          S.index.archive reading.path = some bytes) ⟨hB, ?_⟩ ?_).2
        · show (if settings.config.archives then A.index.archive.place reading.path bytes
            else A.index.archive) reading.path = some bytes
          rw [harchives, if_pos rfl]
          exact Directory.place_self _ _ _
        · rintro U event V ⟨hU, hname⟩ hstep
          exact ⟨hU.step hstep, hU.archive hstep.1 hname⟩

/-! ### A name that is used twice -/

/-- The drain moves what it has processed into the archive. -/
def archivingSettings : Settings Unit Unit :=
  { sampleSettings with config := { sampleSettings.config with archives := true } }

theorem sealedSystem_archives : Run (Step archivingSettings) emptySystem
    [.crawl (.open []), .crawl .createSegment, .crawl (.writePage samplePage), .crawl .close,
      .crawl .sealSegment] sealedSystem := by
  have hwrite : SpoolSegment.write sampleCodec (SpoolSegment.create 1) samplePage
      = .ok sampleSegment := rfl
  have hrun : Run (Step archivingSettings) emptySystem _ _ :=
    Run.cons (.crawl (.open rfl ⟨List.nodup_nil, by simp [System.crawl, emptySystem]⟩ rfl)) <|
    Run.cons (.crawl (.createSegment rfl (by decide))) <|
    Run.cons (.crawl (.writePage rfl rfl hwrite)) <|
    Run.cons (.crawl (.close rfl (Or.inl rfl))) <|
    Run.single (.crawl (@WriterStep.sealSegment _ _ _ false _ _ rfl rfl))
  exact hrun

/-- A drain has come to the point where it retires this segment. -/
structure Retiring (A : System Unit Unit) (name : Str) : Prop where
  process : ∃ p pass reading, A.index.process = some p ∧ p.phase = .retiring pass reading ∧
    reading.path = name

/-- A drain of a spool of one segment, with at most one page in it. -/
theorem retiring_run {S : System Unit Unit} {name : Str} {bytes : List UInt8}
    {documents : List Document} (hoff : S.index.process = none) (hlist : S.spool.Lists [name])
    (hready : sealedSegments [name] = [name]) (hfile : S.spool name = some bytes)
    (hdocs : forEachDocument sampleCodec bytes = (documents, .clean))
    (hfew : documents = [] ∨ ∃ d, documents = [d]) :
    ∃ events A, Run (Step archivingSettings) S events A ∧ .drain .retire ∉ events ∧
      Retiring A name ∧ A.spool = S.spool ∧ A.writer = S.writer ∧
      A.index.archive = S.index.archive := by
  have hne : sealedSegments [name] ≠ [] := by
    rw [hready]
    exact List.cons_ne_nil _ _
  have hread : readAll sampleCodec S.spool (sealedSegments [name]) = some (documents ++ []) := by
    rw [hready]
    exact readAll_cons hfile hdocs rfl
  have htaken := @Run.cons _ _ (Step archivingSettings) _ _ _ _ _ (.drain (.start hoff)) <|
    Run.cons (.drain (.list rfl rfl hlist hne)) <|
    Run.cons (.drain (@DrainStep.score _ _ _ _ _ _ _ _ _ _ true rfl rfl hread)) <|
    Run.single (.drain (.take rfl rfl hready hfile))
  have hrest := congrArg Prod.fst hdocs
  have hclean := congrArg Prod.snd hdocs
  rcases hfew with rfl | ⟨d, rfl⟩
  · exact ⟨_, _, htaken.snoc (.drain (.segmentDone rfl rfl hrest hclean)), by simp,
      ⟨_, _, _, rfl, rfl, rfl⟩, rfl, rfl, rfl⟩
  · exact ⟨_, _, (htaken.snoc (.drain (.add rfl rfl hrest))).snoc
      (.drain (.segmentDone rfl rfl rfl hclean)), by simp, ⟨_, _, _, rfl, rfl, rfl⟩, rfl, rfl, rfl⟩

/-- It is retired, and the drain ends. -/
theorem retired_run {A : System Unit Unit} {name : Str} {bytes : List UInt8}
    (h : Retiring A name) (hfile : A.spool name = some bytes) :
    ∃ B C, Step archivingSettings A (.drain .retire) B ∧
      Step archivingSettings B (.drain .stop) C ∧
      B.index.archive = A.index.archive.place name bytes ∧ C.spool = A.spool.remove name ∧ C.writer = A.writer ∧ C.index.process = none ∧
      C.index.archive = B.index.archive := by
  obtain ⟨p, pass, reading, hp, hphase, rfl⟩ := h.process
  exact ⟨_, _, .drain (.retire hp hphase hfile), .drain (.stop rfl), rfl, rfl, rfl, rfl, rfl⟩

/-- A crawl of no pages, on a spool that is empty. -/
theorem sealEmpty_run {S : System Unit Unit} (hoff : S.writer = none) (hempty : S.spool.Lists []) :
    ∃ events B, Run (Step archivingSettings) S events B ∧ B.index = S.index ∧ B.writer = none ∧
      B.spool.Lists [sealedSegmentName 1] ∧ B.spool (sealedSegmentName 1) = some [] := by
  have hrun := @Run.cons _ _ (Step archivingSettings) S _ _ _ _ (.crawl (.open hoff hempty rfl)) <|
    Run.cons (.crawl (.createSegment rfl (by decide))) <|
    Run.cons (.crawl (.close rfl (Or.inl rfl))) <|
    Run.single (.crawl (@WriterStep.sealSegment _ _ _ false _ _ rfl rfl))
  exact ⟨_, _, hrun, rfl, rfl, seal_create_lists (.create 1) hempty List.not_mem_nil
    List.not_mem_nil, (seal_create_apply (.create 1) S.spool _).trans (if_pos rfl)⟩

/-- The first drain retires the sample's segment. -/
theorem firstRetired : ∃ events A B C, Run (Step archivingSettings) emptySystem events A ∧
    .drain .retire ∉ events ∧ Step archivingSettings A (.drain .retire) B ∧
    Step archivingSettings B (.drain .stop) C ∧
    B.index.archive (sealedSegmentName 1) = some sampleSegment.contents ∧
    C.index.archive = B.index.archive ∧ C.spool.Lists [] ∧ C.writer = none ∧
    C.index.process = none := by
  have hfile : sealedSystem.spool (sealedSegmentName 1) = some sampleSegment.contents :=
    (sampleSpool_apply _).trans (if_pos rfl)
  obtain ⟨events, A, hA, hnone, hretiring, hspool, hwriter, _⟩ := @retiring_run sealedSystem _ _
    [samplePage] rfl sampleSpool_lists (by decide) hfile (by decide) (Or.inr ⟨_, rfl⟩)
  obtain ⟨B, C, hretire, hstop, harchive, hremoved, hoff, hprocess, hsame⟩ :=
    retired_run hretiring (by rw [hspool]; exact hfile)
  refine ⟨_, A, B, C, sealedSystem_archives.append hA, by simpa using hnone, hretire, hstop, ?_,
    hsame, ?_, ?_, hprocess⟩
  · rw [harchive]
    exact Directory.place_self _ _ _
  · rw [hremoved, hspool]
    exact sealed_removed sampleSegment
  · rw [hoff, hwriter]
    rfl

/-- **A retired segment can be replaced**: a crawl that starts on an empty spool numbers its
segments from one again, and what it seals is archived over the first. -/
theorem archive_overwritten : ∃ events A B,
    Run (Step archivingSettings) emptySystem events A ∧
    Step archivingSettings A (.drain .retire) B ∧
    A.index.archive (sealedSegmentName 1) = some sampleSegment.contents ∧
    B.index.archive (sealedSegmentName 1) = some [] := by
  obtain ⟨events, A, B, C, hA, _, hretire, hstop, hkept, hsame, hempty, hoff, hprocess⟩ :=
    firstRetired
  obtain ⟨sealing, D, hD, hindex, _, hlist, hfile⟩ := sealEmpty_run hoff hempty
  obtain ⟨drain, E, hE, _, hretiring, hspool, _, harchive⟩ := @retiring_run D _ _ []
    (by rw [hindex]; exact hprocess) hlist (by decide) hfile (by decide) (Or.inl rfl)
  obtain ⟨F, _, hagain, _, hreplaced, _⟩ := retired_run hretiring (by rw [hspool]; exact hfile)
  refine ⟨_, E, F, (((hA.snoc hretire).snoc hstop).append hD).append hE, hagain, ?_, ?_⟩
  · rw [harchive, hindex, hsame]
    exact hkept
  · rw [hreplaced]
    exact Directory.place_self _ _ _

/-- Until a segment is retired, every number is free. -/
theorem free_run {S T : System Unit Unit} {events : List Event}
    (h : Run (Step archivingSettings) S events T) (hnone : S.index.archive = fun _ => none)
    (hretire : .drain .retire ∉ events) :
    Run (fun S event T => Step archivingSettings S event T ∧ NumberFree S event) S events T := by
  have hrun := h.restrict (Q := fun event => event ≠ .drain .retire) fun e he hc =>
    hretire (hc ▸ he)
  refine (hrun.invariant_trace (I := fun events T => Run (fun S event T =>
    Step archivingSettings S event T ∧ NumberFree S event) S events T ∧
    T.index.archive = fun _ => none) ⟨Run.refl, hnone⟩ ?_).1
  rintro before U event V ⟨hbefore, hempty⟩ ⟨hstep, hne⟩
  refine ⟨hbefore.snoc ⟨hstep, fun _ w _ => by rw [hempty]⟩, ?_⟩
  cases hstep with
  | crawl => exact hempty
  | drain hdrain =>
    rcases drainStep_archive hdrain with ⟨_, harchive⟩ | ⟨_, _, _, _, _, _, _, hevent, _⟩
    · exact harchive.trans hempty
    · exact absurd (congrArg Event.drain hevent) hne

theorem archive_kept_sample : ∃ events A B,
    Run (Step archivingSettings) emptySystem events A ∧
    Step archivingSettings A (.drain .retire) B ∧
    ∃ name bytes, A.spool name = some bytes ∧ A.index.archive name = none ∧
      B.spool = A.spool.remove name ∧ B.index.archive name = some bytes := by
  obtain ⟨events, A, B, _, hA, hnone, hretire, _⟩ := firstRetired
  have hfresh : Fresh emptySystem := ⟨fun _ _ => rfl, rfl, rfl, rfl, rfl⟩
  exact ⟨events, A, B, hA, hretire, archive_kept archivingSettings rfl emptySystem A B B events []
    hfresh (free_run hA rfl hnone) hretire Run.refl⟩

end Handoff
