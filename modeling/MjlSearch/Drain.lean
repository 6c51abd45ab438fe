/-
The drain loop (`indexer::drain`): list, score, write, commit, retire.

`DrainStep` is one step of the indexer's process against the spool directory.
The process may stop at any point, by an error or by being killed; what it had
queued and not committed is then gone.

The link-graph scores and the growth timeline are kept in files of their own.
They enter as `Sidecars`: the functions that compute them, over any type of
state.
-/
import MjlSearch.IndexWriter
import MjlSearch.SpoolDir

open Text Spool IndexWriter

namespace Drain

/-- Configuration for a drain run: the fields that decide what it does. -/
structure DrainConfig where
  commitDocs : ℕ
  once : Bool
  /-- Processed segments are moved to the archive directory, not deleted. -/
  archives : Bool

/-- What a drain run did. -/
structure DrainReport where
  segments : ℕ
  documents : ℕ
  docCount : ℕ

/-- The state kept beside the index: the host counts that `build_authority`
reads and saves, and the timeline that `history::record` extends. -/
structure Sidecars (σ η : Type) where
  buildAuthority : σ → List Document → (Str → Option DocScores) × σ
  record : η → ℤ → ℕ → ℕ → η

/-- One pass over a listing: the paths not yet processed, and the scores. -/
structure Pass where
  ready : List Str
  scores : Str → Option DocScores

/-- A segment being read: what is still to come of it, and how the read ends. -/
structure Reading where
  path : Str
  documentsBefore : ℕ
  rest : List Document
  stop : ReadEnd
  read : ℕ

/-- Where the process stands in `run`. -/
inductive Phase
  /-- At the head of the loop. -/
  | listing
  /-- Before `build_authority`. -/
  | scoring (ready : List Str)
  /-- At the head of the loop over the ready paths. -/
  | choosing (pass : Pass)
  /-- In `for_each_document`; a commit may be due before the next document. -/
  | reading (pass : Pass) (reading : Reading) (commitDue : Bool)
  /-- After the commit that ends a segment. -/
  | retiring (pass : Pass) (reading : Reading)
  /-- After `retire`. -/
  | recording (pass : Pass) (gained : ℕ) (docCount : ℕ)
  /-- `run` has returned its report. -/
  | done

structure Process where
  phase : Phase
  writer : DocWriter
  report : DrainReport

/-- The committed index, the files beside it, and the process when there is one. -/
structure State (σ η : Type) where
  rows : List Row
  archive : Directory
  hostInlinks : σ
  history : η
  process : Option Process

inductive Event
  | start
  | sleep (listing : List Str)
  | finish (listing : List Str)
  | list (listing : List Str)
  | score (documents : List Document) (saved : Bool)
  | passDone
  | take
  | add (document : Document)
  | commit
  | segmentDone
  | retire
  | record (now : ℤ) (written : Bool)
  | stop

/-- All documents of the listed files, when each is there and reads to a clean end. -/
def readAll (codec : Codec Document) (spool : Directory) : List Str → Option (List Document)
  | [] => some []
  | path :: paths => do
    let bytes ← spool path
    let (documents, stop) := forEachDocument codec bytes
    if stop = .clean then
      let more ← readAll codec spool paths
      some (documents ++ more)
    else none

theorem readAll_cons {codec : Codec Document} {spool : Directory} {path : Str}
    {paths : List Str} {bytes : List UInt8} {documents more : List Document}
    (hfile : spool path = some bytes)
    (hread : forEachDocument codec bytes = (documents, .clean))
    (hmore : readAll codec spool paths = some more) :
    readAll codec spool (path :: paths) = some (documents ++ more) := by
  rw [readAll, hfile]
  simp only [Option.bind_eq_bind, Option.bind_some, hread, if_true, hmore]

/-- `spool::retire`: what becomes of the spool directory and of the archive. -/
def retire (config : DrainConfig) (spool archive : Directory) (path : Str)
    (bytes : List UInt8) : Directory × Directory :=
  (spool.remove path, if config.archives then archive.place path bytes else archive)

variable {σ η : Type}

/-- One step of the indexer's process. -/
inductive DrainStep (codec : Codec Document) (config : DrainConfig) (sidecars : Sidecars σ η) :
    Directory → State σ η → Event → Directory → State σ η → Prop
  | start {spool : Directory} {S : State σ η} (hoff : S.process = none) :
      DrainStep codec config sidecars spool S .start spool
        { S with
          process := some
            { phase := .listing, writer := DocWriter.open,
              report := { segments := 0, documents := 0, docCount := 0 } } }
  | sleep {spool : Directory} {S : State σ η} {p : Process} {listing : List Str}
      (hp : S.process = some p) (hphase : p.phase = .listing)
      (hlist : spool.Lists listing) (hready : sealedSegments listing = [])
      (honce : config.once = false) :
      DrainStep codec config sidecars spool S (.sleep listing) spool S
  | finish {spool : Directory} {S : State σ η} {p : Process} {listing : List Str}
      (hp : S.process = some p) (hphase : p.phase = .listing)
      (hlist : spool.Lists listing) (hready : sealedSegments listing = [])
      (honce : config.once = true) :
      DrainStep codec config sidecars spool S (.finish listing) spool
        { S with
          process := some
            { p with phase := .done, report := { p.report with docCount := docCount S.rows } } }
  | list {spool : Directory} {S : State σ η} {p : Process} {listing : List Str}
      (hp : S.process = some p) (hphase : p.phase = .listing)
      (hlist : spool.Lists listing) (hready : sealedSegments listing ≠ []) :
      DrainStep codec config sidecars spool S (.list listing) spool
        { S with process := some { p with phase := .scoring (sealedSegments listing) } }
  /-- `build_authority`; saving the counts may fail, and is then passed over. -/
  | score {spool : Directory} {S : State σ η} {p : Process} {ready : List Str}
      {documents : List Document} {saved : Bool}
      (hp : S.process = some p) (hphase : p.phase = .scoring ready)
      (hread : readAll codec spool ready = some documents) :
      DrainStep codec config sidecars spool S (.score documents saved) spool
        { S with
          hostInlinks :=
            if saved then (sidecars.buildAuthority S.hostInlinks documents).2
            else S.hostInlinks
          process := some
            { p with
              phase := .choosing
                { ready, scores := (sidecars.buildAuthority S.hostInlinks documents).1 } } }
  | passDone {spool : Directory} {S : State σ η} {p : Process} {pass : Pass}
      (hp : S.process = some p) (hphase : p.phase = .choosing pass)
      (hready : pass.ready = []) :
      DrainStep codec config sidecars spool S .passDone spool
        { S with process := some { p with phase := .listing } }
  | take {spool : Directory} {S : State σ η} {p : Process} {pass : Pass} {path : Str}
      {ready : List Str} {bytes : List UInt8}
      (hp : S.process = some p) (hphase : p.phase = .choosing pass)
      (hready : pass.ready = path :: ready) (hfile : spool path = some bytes) :
      DrainStep codec config sidecars spool S .take spool
        { S with
          process := some
            { p with
              phase := .reading { pass with ready }
                { path, documentsBefore := docCount S.rows,
                  rest := (forEachDocument codec bytes).1,
                  stop := (forEachDocument codec bytes).2, read := 0 } false } }
  | add {spool : Directory} {S : State σ η} {p : Process} {pass : Pass} {reading : Reading}
      {document : Document} {rest : List Document}
      (hp : S.process = some p) (hphase : p.phase = .reading pass reading false)
      (hrest : reading.rest = document :: rest) :
      DrainStep codec config sidecars spool S (.add document) spool
        { S with
          process := some
            { p with
              writer := p.writer.addOrUpdate document ((pass.scores document.url).getD default)
              phase := .reading pass { reading with rest, read := reading.read + 1 }
                (decide (config.commitDocs ≤ p.writer.pending + 1)) } }
  /-- The batch has grown to `commit_docs`. -/
  | commit {spool : Directory} {S : State σ η} {p : Process} {pass : Pass}
      {reading : Reading}
      (hp : S.process = some p) (hphase : p.phase = .reading pass reading true) :
      DrainStep codec config sidecars spool S .commit spool
        { S with
          rows := (p.writer.commit S.rows).2
          process := some
            { p with
              writer := (p.writer.commit S.rows).1
              phase := .reading pass reading false } }
  /-- The segment has been read to its end: commit what is left. -/
  | segmentDone {spool : Directory} {S : State σ η} {p : Process} {pass : Pass}
      {reading : Reading}
      (hp : S.process = some p) (hphase : p.phase = .reading pass reading false)
      (hrest : reading.rest = []) (hstop : reading.stop = .clean) :
      DrainStep codec config sidecars spool S .segmentDone spool
        { S with
          rows := (p.writer.commit S.rows).2
          process := some
            { p with
              writer := (p.writer.commit S.rows).1
              phase := .retiring pass reading } }
  | retire {spool : Directory} {S : State σ η} {p : Process} {pass : Pass}
      {reading : Reading} {bytes : List UInt8}
      (hp : S.process = some p) (hphase : p.phase = .retiring pass reading)
      (hfile : spool reading.path = some bytes) :
      DrainStep codec config sidecars spool S .retire
        (retire config spool S.archive reading.path bytes).1
        { S with
          archive := (retire config spool S.archive reading.path bytes).2
          process := some
            { p with
              report :=
                { p.report with
                  segments := p.report.segments + 1
                  documents := p.report.documents + reading.read }
              phase := .recording pass (docCount S.rows - reading.documentsBefore)
                (docCount S.rows) } }
  /-- `history::record`; a failure is passed over. -/
  | record {spool : Directory} {S : State σ η} {p : Process} {pass : Pass}
      {gained count : ℕ} {now : ℤ} {written : Bool}
      (hp : S.process = some p) (hphase : p.phase = .recording pass gained count) :
      DrainStep codec config sidecars spool S (.record now written) spool
        { S with
          history := if written then sidecars.record S.history now gained count else S.history
          process := some { p with phase := .choosing pass } }
  /-- An error, or the end of the process for any other reason. -/
  | stop {spool : Directory} {S : State σ η} {p : Process} (hp : S.process = some p) :
      DrainStep codec config sidecars spool S .stop spool { S with process := none }

end Drain
