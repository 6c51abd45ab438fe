/-
The growth timeline beside the index: it never claims more than the index holds.

A run is one history of an index: the indexer's steps, process after process, while others
change the spool directory as they like and the timeline's file may be lost or become
unreadable at any time.

* `Consistent` — what the timeline leaves room for: the gain of a segment is the rest of
  the count, from where it stood before the segment;
* `drainStep_consistent` — every step of the indexer keeps it;
* `timeline_within` — in every state the buckets sum to no more than the total, and the
  total is no more than the committed documents;
* `handoff_within` — so it is beside the crawler.
-/
import MjlSearch.Handoff
import MjlSearch.HistoryJson

open Text Spool IndexWriter Drain Runs IndexHistory

namespace Timeline

variable {σ : Type}

/-- The files beside the index, with the timeline that `history::record` keeps. -/
def sidecars (json : Codec IndexHistory)
    (buildAuthority : σ → List Document → (Str → Option DocScores) × σ) : Sidecars σ File :=
  { buildAuthority, record := record json }

/-- The spool directory and the indexer's part of the system. -/
structure System (σ : Type) where
  spool : Directory
  index : Drain.State σ File

/-- What happens. -/
inductive Event
  | drain (event : Drain.Event)
  /-- Someone changes the spool directory. -/
  | spool
  /-- The timeline's file is lost, or becomes unreadable. -/
  | spoil

/-- One step: of the indexer, or of what is around it. -/
inductive Step (codec : Codec Document) (config : DrainConfig) (json : Codec IndexHistory)
    (buildAuthority : σ → List Document → (Str → Option DocScores) × σ) :
    System σ → Event → System σ → Prop
  | drain {S : System σ} {event : Drain.Event} {spool : Directory} {T : Drain.State σ File}
      (h : DrainStep codec config (sidecars json buildAuthority) S.spool S.index event spool T) :
      Step codec config json buildAuthority S (.drain event) { spool, index := T }
  | spool {S : System σ} (spool : Directory) :
      Step codec config json buildAuthority S .spool { S with spool }
  | spoil {S : System σ} {file : File} (h : file.bind json.decode = none) :
      Step codec config json buildAuthority S .spoil
        { S with index := { S.index with history := file } }

/-- Nothing has been indexed yet, there is no timeline, and no process is running. -/
structure Fresh (json : Codec IndexHistory) (S : System σ) : Prop where
  rows : S.index.rows = []
  history : S.index.history.bind json.decode = none
  process : S.index.process = none

variable {codec : Codec Document} {config : DrainConfig} {json : Codec IndexHistory}
  {buildAuthority : σ → List Document → (Str → Option DocScores) × σ}

/-! ### The file -/

theorem load_none {file : File} (h : file.bind json.decode = none) : load json file = default := by
  rw [load, h]
  rfl

/-- What is recorded is loaded, or an empty timeline where it cannot be written. -/
theorem load_recorded (hempty : json.decode (utf8 "\x7b\x7d".toList) = some default)
    (file : File) (now : ℤ) (documents total : ℕ) :
    load json (record json file now documents total)
        = (load json file).add now documents total ∨
      load json (record json file now documents total) = default := by
  by_cases hencode : json.encode ((load json file).add now documents total) = none
  · right
    rw [record, hencode, load, Option.getD_none, Option.bind_some, hempty, Option.getD_some]
  · exact Or.inl (load_record hencode)

/-! ### The invariant -/

/-- What a phase says of the timeline and of the count. -/
def PhaseOk (history : IndexHistory) (count : ℕ) : Phase → Prop
  | .reading _ reading _ =>
    history.counted ≤ reading.documentsBefore ∧ reading.documentsBefore ≤ count
  | .retiring _ reading =>
    history.counted ≤ reading.documentsBefore ∧ reading.documentsBefore ≤ count
  | .recording _ gained docCount => docCount = count ∧ history.counted + gained ≤ count
  | _ => True

/-- What holds in every state of every run. -/
structure Consistent (json : Codec IndexHistory) (S : Drain.State σ File) : Prop where
  rows : (S.rows.map Row.url).Nodup
  within : Within (docCount S.rows) (load json S.history)
  queued : ∀ p, S.process = some p → ∃ documents, Queued p.writer documents
  phase : ∀ p, S.process = some p → PhaseOk (load json S.history) (docCount S.rows) p.phase

/-- A phase that is fine stays so while the count grows and the file is the same. -/
theorem PhaseOk.mono {history : IndexHistory} {count count' : ℕ} {pass : Pass}
    {reading : Reading} {due due' : Bool}
    (h : PhaseOk history count (.reading pass reading due)) (hle : count ≤ count') :
    PhaseOk history count' (.reading pass reading due') :=
  ⟨h.1, h.2.trans hle⟩

/-- An empty timeline leaves room for everything. -/
theorem PhaseOk.emptied {history : IndexHistory} {count : ℕ} {phase : Phase}
    (h : PhaseOk history count phase) : PhaseOk default count phase := by
  rcases phase with _ | _ | _ | ⟨pass, reading, due⟩ | ⟨pass, reading⟩ | ⟨pass, gained, n⟩ | _
  · trivial
  · trivial
  · trivial
  · exact ⟨Nat.zero_le _, h.2⟩
  · exact ⟨Nat.zero_le _, h.2⟩
  · refine ⟨h.1, ?_⟩
    have hgained := h.2
    show 0 + gained ≤ count
    omega
  · trivial

/-- What is to be shown while a process is running. -/
theorem Consistent.running {S : Drain.State σ File} {p : Process} (hp : S.process = some p)
    (hrows : (S.rows.map Row.url).Nodup) (hwithin : Within (docCount S.rows) (load json S.history))
    (hqueued : ∃ documents, Queued p.writer documents)
    (hphase : PhaseOk (load json S.history) (docCount S.rows) p.phase) : Consistent json S := by
  refine ⟨hrows, hwithin, fun q hq => ?_, fun q hq => ?_⟩
  · rw [hp] at hq
    cases hq
    exact hqueued
  · rw [hp] at hq
    cases hq
    exact hphase

/-- A commit lets the timeline within the count, and leaves nothing queued. -/
theorem Consistent.committed {S T : Drain.State σ File} {p q : Process} (hS : Consistent json S)
    (hp : S.process = some p) (hq : T.process = some q)
    (hrows : T.rows = (p.writer.commit S.rows).2) (hhistory : T.history = S.history)
    (hwriter : q.writer = (p.writer.commit S.rows).1)
    (hphase : docCount S.rows ≤ docCount T.rows →
      PhaseOk (load json S.history) (docCount T.rows) q.phase) : Consistent json T := by
  obtain ⟨documents, hdocuments⟩ := hS.queued p hp
  have hle : docCount S.rows ≤ docCount T.rows := by
    rw [hrows]
    exact docCount_le_commit hdocuments hS.rows
  refine .running hq ?_ ?_ ⟨[], ?_⟩ ?_
  · rw [hrows]
    exact keys_nodup_commit hdocuments hS.rows
  · rw [hhistory]
    exact hS.within.mono hle
  · rw [hwriter]
    exact queued_commit p.writer S.rows
  · rw [hhistory]
    exact hphase hle

/-- **Every step of the indexer keeps the timeline consistent.** -/
theorem drainStep_consistent (hempty : json.decode (utf8 "\x7b\x7d".toList) = some default)
    {spool spool' : Directory} {S T : Drain.State σ File} {event : Drain.Event}
    (h : DrainStep codec config (sidecars json buildAuthority) spool S event spool' T)
    (hS : Consistent json S) : Consistent json T := by
  cases h with
  | start hoff => exact .running rfl hS.rows hS.within ⟨[], queued_open⟩ trivial
  | sleep hp hphase hlist hready honce => exact hS
  | @finish p listing hp hphase hlist hready honce =>
    exact .running rfl hS.rows hS.within (hS.queued p hp) trivial
  | @list p listing hp hphase hlist hready =>
    exact .running rfl hS.rows hS.within (hS.queued p hp) trivial
  | @score p ready documents saved hp hphase hread =>
    exact .running rfl hS.rows hS.within (hS.queued p hp) trivial
  | @passDone p pass hp hphase hready =>
    exact .running rfl hS.rows hS.within (hS.queued p hp) trivial
  | @take p pass path ready bytes hp hphase hready hfile =>
    -- the count is read before anything of the segment is written
    have hbefore : (load json S.history).counted ≤ docCount S.rows :=
      hS.within.counted.trans hS.within.total
    exact .running rfl hS.rows hS.within (hS.queued p hp) ⟨hbefore, Nat.le_refl _⟩
  | @add p pass reading document rest hp hphase hrest =>
    have hok := hS.phase p hp
    rw [hphase] at hok
    obtain ⟨documents, hdocuments⟩ := hS.queued p hp
    exact .running rfl hS.rows hS.within ⟨_, hdocuments.addOrUpdate document _⟩ hok
  | @commit p pass reading hp hphase =>
    have hok := hS.phase p hp
    rw [hphase] at hok
    exact hS.committed hp rfl rfl rfl rfl hok.mono
  | @segmentDone p pass reading hp hphase hrest hstop =>
    have hok := hS.phase p hp
    rw [hphase] at hok
    exact hS.committed hp rfl rfl rfl rfl fun hle => ⟨hok.1, hok.2.trans hle⟩
  | @retire p pass reading bytes hp hphase hfile =>
    have hok := hS.phase p hp
    rw [hphase] at hok
    obtain ⟨hcounted, hbefore⟩ := hok
    have hgained : (load json S.history).counted + (docCount S.rows - reading.documentsBefore)
        ≤ docCount S.rows := by
      omega
    exact .running rfl hS.rows hS.within (hS.queued p hp) ⟨rfl, hgained⟩
  | @record p pass gained count now written hp hphase =>
    have hok := hS.phase p hp
    rw [hphase] at hok
    obtain ⟨rfl, hgained⟩ := hok
    refine .running rfl hS.rows ?_ (hS.queued p hp) trivial
    show Within (docCount S.rows) (load json
      (if written then record json S.history now gained (docCount S.rows) else S.history))
    split
    · rcases load_recorded hempty S.history now gained (docCount S.rows) with hload | hload
      · rw [hload]
        exact Within.add now hgained
      · rw [hload]
        exact within_default _
    · exact hS.within
  | stop hp =>
    refine ⟨hS.rows, hS.within, fun q hq => ?_, fun q hq => ?_⟩
    · cases hq
    · cases hq

/-! ### Runs -/

theorem Fresh.consistent {S : System σ} (h : Fresh json S) : Consistent json S.index where
  rows := by
    rw [h.rows]
    exact List.nodup_nil
  within := by
    rw [load_none h.history]
    exact within_default _
  queued p hp := by
    rw [h.process] at hp
    cases hp
  phase p hp := by
    rw [h.process] at hp
    cases hp

/-- **The step lemma of the timeline.** -/
theorem Step.consistent (hempty : json.decode (utf8 "\x7b\x7d".toList) = some default)
    {S T : System σ} {event : Event} (h : Step codec config json buildAuthority S event T)
    (hS : Consistent json S.index) : Consistent json T.index := by
  rcases h with h | spool | hfile
  · exact drainStep_consistent hempty h hS
  · exact hS
  · refine ⟨hS.rows, ?_, hS.queued, fun p hp => ?_⟩
    · rw [load_none hfile]
      exact within_default _
    · rw [load_none hfile]
      exact (hS.phase p hp).emptied

/-- **The timeline never claims more than the index holds.**  In every state of every run on
an index that is not wiped, the buckets sum to no more than the total, the total is no more
than the committed documents, and there are no more buckets than are kept. -/
theorem timeline_within (hempty : json.decode (utf8 "\x7b\x7d".toList) = some default)
    {S₀ S : System σ} {events : List Event} (hfresh : Fresh json S₀)
    (hrun : Run (Step codec config json buildAuthority) S₀ events S) :
    Within (docCount S.index.rows) (load json S.index.history) := by
  have hconsistent : Consistent json S.index :=
    hrun.invariant (I := fun S => Consistent json S.index) hfresh.consistent
      fun _ _ _ hS hstep => hstep.consistent hempty hS
  exact hconsistent.within

/-! ### Beside the crawler -/

/-- What a step of the hand-off is to the timeline. -/
def eventOf : Handoff.Event → Event
  | .crawl _ => .spool
  | .drain event => .drain event

/-- The part of the hand-off that the timeline is about. -/
def systemOf (S : Handoff.System σ File) : System σ := { spool := S.spool, index := S.index }

theorem step_handoff {segmentBytes : ℕ} {S T : Handoff.System σ File} {event : Handoff.Event}
    (h : Handoff.Step { codec, segmentBytes, config, sidecars := sidecars json buildAuthority }
      S event T) :
    Step codec config json buildAuthority (systemOf S) (eventOf event) (systemOf T) := by
  rcases h with h | h
  · exact Step.spool _
  · exact Step.drain h

/-- **Beside the crawler**, the timeline never claims more than the index holds. -/
theorem handoff_within (hempty : json.decode (utf8 "\x7b\x7d".toList) = some default)
    {segmentBytes : ℕ} {S₀ S : Handoff.System σ File} {events : List Handoff.Event}
    (hfresh : Handoff.Fresh S₀) (hhistory : S₀.index.history.bind json.decode = none)
    (hrun : Run (Handoff.Step
      { codec, segmentBytes, config, sidecars := sidecars json buildAuthority }) S₀ events S) :
    Within (docCount S.index.rows) (load json S.index.history) := by
  exact timeline_within hempty ⟨hfresh.rows, hhistory, hfresh.process⟩
    (hrun.image systemOf eventOf fun _ _ _ => step_handoff)

/-! ### Two pages, and a stop between the commit and the record -/

/-- An empty index without a timeline. -/
def emptySystem : System Unit :=
  { spool := fun _ => none
    index := { Handoff.emptySystem.index with history := none } }

def sampleConfig : DrainConfig := Handoff.rotatingSettings.config

def noScores : Unit → List Document → (Str → Option DocScores) × Unit :=
  fun _ _ => (fun _ => none, ())

/-- The first page is committed, and nothing is recorded. -/
def unrecordedSystem : System Unit :=
  { spool := Handoff.rotatedSpool
    index := { emptySystem.index with rows := [rowOf samplePage default] } }

/-- Both pages are committed, their segments are gone, and two minutes are recorded. -/
def recordedSystem : System Unit :=
  { spool := (Handoff.rotatedSpool.remove (sealedSegmentName 1)).remove (sealedSegmentName 2)
    index :=
      { emptySystem.index with
        rows := [rowOf samplePage default, rowOf otherPage default]
        history := record historyJson (record historyJson none 61 0 1) 130 1 2 } }

theorem unrecordedSystem_run :
    Run (Step Postcard.documentFormat.toCodec sampleConfig historyJson noScores) emptySystem
      [.spool, .drain .start, .drain (.list Handoff.rotatedListing),
        .drain (.score [samplePage, otherPage] true), .drain .take, .drain (.add samplePage),
        .drain .segmentDone, .drain .stop] unrecordedSystem := by
  have hne : sealedSegments Handoff.rotatedListing ≠ [] :=
    Handoff.rotated_ready ▸ List.cons_ne_nil _ _
  have hfirst := Handoff.rotated_documents.1
  exact Run.cons (.spool Handoff.rotatedSpool) <|
    Run.cons (.drain (.start rfl)) <|
    Run.cons (.drain (.list rfl rfl Handoff.rotatedSpool_lists hne)) <|
    Run.cons (.drain (.score rfl rfl Handoff.rotated_read)) <|
    Run.cons (.drain (.take rfl rfl Handoff.rotated_ready Handoff.rotatedSpool_first)) <|
    Run.cons (.drain (.add rfl rfl (congrArg Prod.fst hfirst))) <|
    Run.cons (.drain (.segmentDone rfl rfl rfl (congrArg Prod.snd hfirst))) <|
    Run.single (.drain (.stop rfl))

/-- The next process indexes the first page again, which adds nothing to the count. -/
theorem recordedSystem_run :
    Run (Step Postcard.documentFormat.toCodec sampleConfig historyJson noScores) unrecordedSystem
      [.drain .start, .drain (.list Handoff.rotatedListing),
        .drain (.score [samplePage, otherPage] true), .drain .take, .drain (.add samplePage),
        .drain .segmentDone, .drain .retire, .drain (.record 61 true), .drain .take,
        .drain (.add otherPage), .drain .segmentDone, .drain .retire, .drain (.record 130 true),
        .drain .stop] recordedSystem := by
  have hne : sealedSegments Handoff.rotatedListing ≠ [] :=
    Handoff.rotated_ready ▸ List.cons_ne_nil _ _
  obtain ⟨hfirst, hsecond⟩ := Handoff.rotated_documents
  have hleft : Handoff.rotatedSpool.remove (sealedSegmentName 1) (sealedSegmentName 2)
      = some Handoff.otherSegment.contents :=
    (Directory.remove_of_ne _ (by decide)).trans Handoff.rotatedSpool_second
  have hrun : Run (Step Postcard.documentFormat.toCodec sampleConfig historyJson noScores)
      unrecordedSystem _ _ :=
    Run.cons (.drain (.start rfl)) <|
    Run.cons (.drain (.list rfl rfl Handoff.rotatedSpool_lists hne)) <|
    Run.cons (.drain (@DrainStep.score _ _ _ _ _ _ _ _ _ _ true rfl rfl Handoff.rotated_read)) <|
    Run.cons (.drain (.take rfl rfl Handoff.rotated_ready Handoff.rotatedSpool_first)) <|
    Run.cons (.drain (.add rfl rfl (congrArg Prod.fst hfirst))) <|
    Run.cons (.drain (.segmentDone rfl rfl rfl (congrArg Prod.snd hfirst))) <|
    Run.cons (.drain (.retire rfl rfl Handoff.rotatedSpool_first)) <|
    -- the count is what it was when the segment was taken, so the gain is nought
    Run.cons (.drain (@DrainStep.record _ _ _ _ _ _ _ _ _ _ _ 61 true rfl rfl)) <|
    Run.cons (.drain (.take rfl rfl rfl hleft)) <|
    Run.cons (.drain (.add rfl rfl (congrArg Prod.fst hsecond))) <|
    Run.cons (.drain (.segmentDone rfl rfl rfl (congrArg Prod.snd hsecond))) <|
    Run.cons (.drain (.retire rfl rfl hleft)) <|
    Run.cons (.drain (@DrainStep.record _ _ _ _ _ _ _ _ _ _ _ 130 true rfl rfl)) <|
    Run.single (.drain (.stop rfl))
  exact hrun

/-- The recorded timeline never saw the first page come, and claims one of the two pages that
the index holds. -/
theorem timeline_within_sample :
    load historyJson recordedSystem.index.history
        = { updatedAt := 130, totalDocuments := 2, buckets := [⟨60, 0⟩, ⟨120, 1⟩] } ∧
      Within 2 (load historyJson recordedSystem.index.history) := by
  refine ⟨?_, timeline_within historyJson_empty ⟨rfl, rfl, rfl⟩
    (unrecordedSystem_run.append recordedSystem_run)⟩
  show load historyJson (record historyJson (record historyJson none 61 0 1) 130 1 2) = _
  have hfirst : load historyJson (record historyJson none 61 0 1)
      = { updatedAt := 61, totalDocuments := 1, buckets := [⟨60, 0⟩] } := by
    rw [load_record (by decide)]
    decide
  rw [load_record (by rw [hfirst]; decide), hfirst]
  decide

end Timeline
