/-
A drain that is asked for one pass (`indexer::drain`, `DrainConfig::once`).

Nobody else writes to the spool, and nothing stops the process.  Each step then leaves less to
do, and there is a step to take until the report is made:

* `StandsAt` — what the process has in hand, with just these segments in the spool;
* `remaining` — the steps that are left from there;
* `Unstopped.step` — each step keeps the one and lowers the other;
* `drain_once_completes` — so the drain ends, with nothing left in the spool, every document
  that was sealed in the index, and a report of just what it did.
-/
import Mathlib.Data.List.Dedup
import MjlSearch.Handoff
import MjlSearch.Terminates

open Text Spool IndexWriter LastWriter Storage Drain Runs

namespace Handoff

variable {σ η : Type} {settings : Settings σ η} {S T : System σ η} {e : Drain.Event}
  {segs : List (ℕ × List Document)}

/-- The drain takes a step, and is not stopped. -/
def Unstopped (settings : Settings σ η) (S : System σ η) (e : Drain.Event) (T : System σ η) :
    Prop :=
  Step settings S (.drain e) T ∧ e ≠ .stop

/-- What the drain finds in the spool: these segments, each of which can be read to its end. -/
structure Spooled (codec : Codec Document) (spool : Directory)
    (segs : List (ℕ × List Document)) : Prop where
  segments : Segments codec spool segs
  readable : ∀ seg ∈ segs, ∃ bytes, spool (sealedSegmentName seg.1) = some bytes ∧
    forEachDocument codec bytes = (seg.2, .clean)
  listed : ∃ listing, spool.Lists listing

/-- Where the process stands, with these segments in the spool. -/
def StandsAt (segs : List (ℕ × List Document)) : Drain.Phase → Prop
  | .listing => True
  | .scoring ready => ready = segmentNames segs ∧ segs ≠ []
  | .choosing pass => pass.ready = segmentNames segs
  | .recording pass _ _ => pass.ready = segmentNames segs
  | .reading pass reading _ => ∃ seg tail, segs = seg :: tail ∧
      reading.path = sealedSegmentName seg.1 ∧ pass.ready = segmentNames tail ∧
      reading.stop = .clean ∧ reading.read + reading.rest.length = seg.2.length
  | .retiring pass reading => ∃ seg tail, segs = seg :: tail ∧
      reading.path = sealedSegmentName seg.1 ∧ pass.ready = segmentNames tail ∧
      reading.read = seg.2.length
  | .done => segs = []

/-- The steps that the segments take, at most: each document can be followed by a commit. -/
def work (segs : List (ℕ × List Document)) : ℕ :=
  (segs.map fun seg => 2 * seg.2.length + 4).sum

/-- The steps that are left, at most. -/
def remaining (segs : List (ℕ × List Document)) : Drain.Phase → ℕ
  | .listing => if segs.isEmpty then 1 else work segs + 4
  | .scoring _ => work segs + 3
  | .choosing _ => work segs + 2
  | .reading _ reading due =>
    work segs.tail + 2 * reading.rest.length + (if due then 1 else 0) + 5
  | .retiring _ _ => work segs.tail + 4
  | .recording _ _ _ => work segs + 3
  | .done => 0

/-- The documents of the segments. -/
def documentsIn (segs : List (ℕ × List Document)) : ℕ := (segs.flatMap Prod.snd).length

/-- What holds of the process: `all` was in the spool when it started, and what it has retired
of that it has reported. -/
structure Draining (all segs : List (ℕ × List Document)) (p : Process) (rows : List Row) :
    Prop where
  stands : StandsAt segs p.phase
  segments : p.report.segments + segs.length = all.length
  documents : p.report.documents + documentsIn segs = documentsIn all
  counted : p.phase = .done → p.report.docCount = docCount rows

/-- What holds in every state of a drain that is not stopped, with `n` steps left at most. -/
structure Sinking (settings : Settings σ η) (all : List (ℕ × List Document)) (log : Log)
    (S : System σ η) (n : ℕ) : Prop where
  log : S.log = log
  spool : ∃ segs, Spooled settings.codec S.spool segs ∧
    ((S.index.process = none ∧ segs = all ∧ n = remaining all .listing + 1) ∨
      ∃ p, S.index.process = some p ∧ Draining all segs p S.index.rows ∧
        n = remaining segs p.phase)

/-! ### The spool -/

theorem work_cons (seg : ℕ × List Document) (tail : List (ℕ × List Document)) :
    work (seg :: tail) = 2 * seg.2.length + 4 + work tail := rfl

theorem documentsIn_cons (seg : ℕ × List Document) (tail : List (ℕ × List Document)) :
    documentsIn (seg :: tail) = seg.2.length + documentsIn tail := by
  rw [documentsIn, List.flatMap_cons, List.length_append]
  rfl

theorem segmentNames_eq_nil : segmentNames segs = [] ↔ segs = [] := by
  rw [segmentNames, List.map_eq_nil_iff]

/-- The documents of all segments can be read. -/
theorem readAll_segments {codec : Codec Document} {spool : Directory}
    {segs : List (ℕ × List Document)}
    (h : ∀ seg ∈ segs, ∃ bytes, spool (sealedSegmentName seg.1) = some bytes ∧
      forEachDocument codec bytes = (seg.2, .clean)) :
    readAll codec spool (segmentNames segs) = some (segs.flatMap Prod.snd) := by
  induction segs with
  | nil => rfl
  | cons seg tail ih =>
    obtain ⟨bytes, hfile, hread⟩ := h seg List.mem_cons_self
    exact readAll_cons hfile hread (ih fun seg hseg => h seg (List.mem_cons_of_mem _ hseg))

/-- What can be read of the first segment. -/
theorem Spooled.head {codec : Codec Document} {spool : Directory} {seg : ℕ × List Document}
    {tail : List (ℕ × List Document)} (h : Spooled codec spool (seg :: tail)) :
    ∃ bytes, spool (sealedSegmentName seg.1) = some bytes ∧
      forEachDocument codec bytes = (seg.2, .clean) :=
  h.readable seg List.mem_cons_self

/-- The first segment is removed. -/
theorem Spooled.tail {codec : Codec Document} {spool : Directory} {seg : ℕ × List Document}
    {tail : List (ℕ × List Document)} (h : Spooled codec spool (seg :: tail)) :
    Spooled codec (spool.remove (sealedSegmentName seg.1)) tail where
  segments := h.segments.tail
  readable seg' hseg' := by
    obtain ⟨bytes, hfile, hread⟩ := h.readable seg' (List.mem_cons_of_mem _ hseg')
    refine ⟨bytes, ?_, hread⟩
    rw [Directory.remove_of_ne, hfile]
    intro heq
    have hlt := (List.pairwise_cons.mp h.segments.sorted).1 seg' hseg'
    have hnumber := sealedSegmentName_injective
      (h.segments.bounded seg' (List.mem_cons_of_mem _ hseg'))
      (h.segments.bounded seg List.mem_cons_self) heq
    omega
  listed := by
    obtain ⟨listing, hnodup, hmem⟩ := h.listed
    refine ⟨listing.erase (sealedSegmentName seg.1), hnodup.erase _, fun name => ?_⟩
    rw [hnodup.mem_erase_iff, hmem]
    by_cases hname : name = sealedSegmentName seg.1
    · rw [hname, Directory.remove_self]
      simp
    · rw [Directory.remove_of_ne _ hname]
      simp [hname]

/-! ### Step by step -/

/-- Where the process goes on, and has not made its report. -/
theorem Sinking.goesOn {all : List (ℕ × List Document)} {log : Log} {spool : Directory}
    {index : Drain.State σ η} {p : Process} (hlog : S.log = log)
    (hspool : Spooled settings.codec spool segs) (hp : index.process = some p)
    (hstands : StandsAt segs p.phase) (hgoing : p.phase ≠ .done)
    (hsegments : p.report.segments + segs.length = all.length)
    (hdocuments : p.report.documents + documentsIn segs = documentsIn all) :
    Sinking settings all log { S with spool, index } (remaining segs p.phase) :=
  ⟨hlog, segs, hspool,
    .inr ⟨p, hp, ⟨hstands, hsegments, hdocuments, fun h => absurd h hgoing⟩, rfl⟩⟩

/-- **Each step leaves less to do**, and the process stands where it should after it. -/
theorem Unstopped.step {all : List (ℕ × List Document)} {log : Log}
    (honce : settings.config.once = true) :
    Decreases (Unstopped settings) (Sinking settings all log) := by
  rintro S e T n ⟨hlog, segs, hspool, hprocess⟩ ⟨hstep, hstop⟩
  cases hstep with
  | @drain _ spool T h =>
  rcases hprocess with ⟨hoff, rfl, rfl⟩ | ⟨q, hq, hdraining, rfl⟩
  · -- it has not started
    cases h with
    | start =>
      refine ⟨_, ?_, Sinking.goesOn hlog hspool rfl ?_ Drain.Phase.noConfusion ?_ ?_⟩
      · exact Nat.lt_succ_self _
      · trivial
      · exact Nat.zero_add _
      · exact Nat.zero_add _
    | sleep hp | finish hp | list hp | score hp | passDone hp | take hp | add hp | commit hp
    | segmentDone hp | retire hp | record hp | stop hp => cases hoff.symm.trans hp
  · obtain ⟨hstands, hsegments, hdocuments, -⟩ := hdraining
    cases h with
    | start hoff => cases hoff.symm.trans hq
    | sleep hp hphase hlist hready hnot => cases honce.symm.trans hnot
    | finish hp hphase hlist hready =>
      cases hq.symm.trans hp
      have hnil : segs = [] := by
        rw [sealedSegments_eq hspool.segments hlist] at hready
        exact segmentNames_eq_nil.mp hready
      subst hnil
      rw [hphase]
      exact ⟨_, Nat.zero_lt_one, hlog, [], hspool,
        .inr ⟨_, rfl, ⟨rfl, hsegments, hdocuments, fun _ => rfl⟩, rfl⟩⟩
    | list hp hphase hlist hready =>
      cases hq.symm.trans hp
      rw [sealedSegments_eq hspool.segments hlist] at hready ⊢
      have hne : segs ≠ [] := fun hnil => hready (segmentNames_eq_nil.mpr hnil)
      rw [hphase]
      refine ⟨_, ?_, Sinking.goesOn hlog hspool rfl ⟨rfl, hne⟩ Drain.Phase.noConfusion hsegments
        hdocuments⟩
      simp only [remaining, List.isEmpty_iff, hne, if_false]
      omega
    | score hp hphase hread =>
      cases hq.symm.trans hp
      rw [hphase] at hstands ⊢
      refine ⟨_, ?_, Sinking.goesOn hlog hspool rfl ?_ Drain.Phase.noConfusion hsegments
        hdocuments⟩
      · exact Nat.lt_succ_self _
      · exact hstands.1
    | passDone hp hphase hready =>
      cases hq.symm.trans hp
      rw [hphase] at hstands ⊢
      have hnil : segs = [] := segmentNames_eq_nil.mp (hstands.symm.trans hready)
      subst hnil
      refine ⟨_, ?_, Sinking.goesOn hlog hspool rfl ?_ Drain.Phase.noConfusion hsegments
        hdocuments⟩
      · exact Nat.lt_succ_self _
      · trivial
    | @take p pass path ready bytes hp hphase hready hfile =>
      cases hq.symm.trans hp
      rw [hphase] at hstands ⊢
      have hnames : path :: ready = segmentNames segs := hready.symm.trans hstands
      cases segs with
      | nil => cases hnames
      | cons seg tail =>
        obtain ⟨hpath, htail⟩ := List.cons.inj hnames
        obtain ⟨bytes', hfile', hread⟩ := hspool.head
        rw [hpath, hfile'] at hfile
        cases hfile
        refine ⟨_, ?_, Sinking.goesOn hlog hspool rfl
          ⟨seg, tail, rfl, hpath, htail, congrArg Prod.snd hread, ?_⟩ Drain.Phase.noConfusion
          hsegments hdocuments⟩
        · simp only [remaining, hread, work_cons, List.tail_cons, Bool.false_eq_true, if_false]
          omega
        · simp [hread]
    | @add p pass reading document rest hp hphase hrest =>
      cases hq.symm.trans hp
      rw [hphase] at hstands ⊢
      obtain ⟨seg, tail, rfl, hpath, htail, hclean, hlength⟩ := hstands
      rw [hrest, List.length_cons] at hlength
      refine ⟨_, ?_, Sinking.goesOn hlog hspool rfl
        ⟨seg, tail, rfl, hpath, htail, hclean, ?_⟩ Drain.Phase.noConfusion hsegments hdocuments⟩
      · -- a commit may be due now, but there is a document less
        simp only [remaining, hrest, List.length_cons, Bool.false_eq_true, if_false]
        split <;> omega
      · show reading.read + 1 + rest.length = _
        omega
    | commit hp hphase =>
      cases hq.symm.trans hp
      rw [hphase] at hstands ⊢
      refine ⟨_, ?_, Sinking.goesOn hlog hspool rfl hstands Drain.Phase.noConfusion hsegments
        hdocuments⟩
      simp only [remaining, if_true, Bool.false_eq_true, if_false]
      omega
    | @segmentDone p pass reading hp hphase hrest =>
      cases hq.symm.trans hp
      rw [hphase] at hstands ⊢
      obtain ⟨seg, tail, rfl, hpath, htail, -, hlength⟩ := hstands
      rw [hrest, List.length_nil] at hlength
      refine ⟨_, ?_, Sinking.goesOn hlog hspool rfl ⟨seg, tail, rfl, hpath, htail, hlength⟩
        Drain.Phase.noConfusion hsegments hdocuments⟩
      simp only [remaining, hrest, List.length_nil, Bool.false_eq_true, if_false]
      omega
    | @retire p pass reading bytes hp hphase hfile =>
      cases hq.symm.trans hp
      rw [hphase] at hstands ⊢
      obtain ⟨seg, tail, rfl, hpath, htail, hread⟩ := hstands
      rw [List.length_cons] at hsegments
      rw [documentsIn_cons] at hdocuments
      have hleft : Spooled settings.codec (S.spool.remove reading.path) tail := by
        rw [hpath]
        exact hspool.tail
      refine ⟨_, ?_, Sinking.goesOn hlog hleft rfl ?_ Drain.Phase.noConfusion ?_ ?_⟩
      · exact Nat.lt_succ_self _
      · exact htail
      · show q.report.segments + 1 + tail.length = _
        omega
      · show q.report.documents + reading.read + documentsIn tail = _
        omega
    | record hp hphase =>
      cases hq.symm.trans hp
      rw [hphase] at hstands ⊢
      refine ⟨_, ?_, Sinking.goesOn hlog hspool rfl ?_ Drain.Phase.noConfusion hsegments
        hdocuments⟩
      · exact Nat.lt_succ_self _
      · exact hstands
    | stop => exact absurd rfl hstop

/-- The process has made its report. -/
def Finished (S : System σ η) (report : DrainReport) : Prop :=
  ∃ p, S.index.process = some p ∧ p.phase = .done ∧ p.report = report

/-- **Until the report is made there is a step to take.** -/
theorem Sinking.progress {all : List (ℕ × List Document)} {log : Log} {n : ℕ}
    (honce : settings.config.once = true) (h : Sinking settings all log S n)
    (hdone : ¬ ∃ report, Finished S report) : ∃ e T, Unstopped settings S e T := by
  obtain ⟨-, segs, hspool, hprocess⟩ := h
  obtain ⟨listing, hlist⟩ := hspool.listed
  have hsealed := sealedSegments_eq hspool.segments hlist
  rcases hprocess with ⟨hoff, -, -⟩ | ⟨p, hp, ⟨hstands, -, -, -⟩, -⟩
  · exact ⟨_, _, .drain (.start hoff), Drain.Event.noConfusion⟩
  · cases hphase : p.phase <;> rw [hphase] at hstands
    case listing =>
      by_cases hnil : segs = []
      · rw [hnil] at hsealed
        exact ⟨_, _, .drain (.finish hp hphase hlist hsealed honce), Drain.Event.noConfusion⟩
      · have hne : sealedSegments listing ≠ [] := by
          rwa [hsealed, Ne, segmentNames_eq_nil]
        exact ⟨_, _, .drain (.list hp hphase hlist hne), Drain.Event.noConfusion⟩
    case scoring ready =>
      have hread := readAll_segments hspool.readable
      rw [← hstands.1] at hread
      exact ⟨.score _ true, _, .drain (.score hp hphase hread), Drain.Event.noConfusion⟩
    case choosing pass =>
      cases segs with
      | nil => exact ⟨_, _, .drain (.passDone hp hphase hstands), Drain.Event.noConfusion⟩
      | cons seg tail =>
        obtain ⟨bytes, hfile, -⟩ := hspool.head
        exact ⟨_, _, .drain (.take hp hphase hstands hfile), Drain.Event.noConfusion⟩
    case reading pass reading due =>
      obtain ⟨seg, tail, rfl, -, -, hclean, -⟩ := hstands
      cases due with
      | true => exact ⟨_, _, .drain (.commit hp hphase), Drain.Event.noConfusion⟩
      | false =>
        cases hrest : reading.rest with
        | nil => exact ⟨_, _, .drain (.segmentDone hp hphase hrest hclean), Drain.Event.noConfusion⟩
        | cons document rest => exact ⟨_, _, .drain (.add hp hphase hrest), Drain.Event.noConfusion⟩
    case retiring pass reading =>
      obtain ⟨seg, tail, rfl, hpath, -, -⟩ := hstands
      obtain ⟨bytes, hfile, -⟩ := hspool.head
      rw [← hpath] at hfile
      exact ⟨_, _, .drain (.retire hp hphase hfile), Drain.Event.noConfusion⟩
    case recording pass gained count =>
      exact ⟨.record 0 true, _, .drain (.record hp hphase), Drain.Event.noConfusion⟩
    case done => exact absurd ⟨p.report, p, hp, hphase, rfl⟩ hdone

/-! ### Whole drains -/

theorem work_eq (segs : List (ℕ × List Document)) :
    work segs = 4 * segs.length + 2 * documentsIn segs := by
  induction segs with
  | nil => rfl
  | cons seg tail ih =>
    rw [work_cons, ih, documentsIn_cons, List.length_cons]
    omega

/-- A drain takes four steps for each segment at most, two for each document, and five. -/
theorem remaining_le (segs : List (ℕ × List Document)) :
    remaining segs .listing + 1 ≤ 4 * segs.length + 2 * documentsIn segs + 5 := by
  rw [remaining, work_eq]
  split <;> omega

/-- A drain that has not started, over a spool whose segments read to their ends. -/
theorem Sound.sinking (hsound : Sound settings S segs) (hoff : S.index.process = none)
    {listing : List Str} (hlist : S.spool.Lists listing)
    (hclean : ∀ name ∈ sealedSegments listing, ∀ bytes, S.spool name = some bytes →
      (forEachDocument settings.codec bytes).2 = .clean) :
    Sinking settings segs S.log S (remaining segs .listing + 1) := by
  have hsegs := hsound.numbered.segments
  refine ⟨rfl, segs, ⟨hsegs, ?_, listing, hlist⟩, .inl ⟨hoff, rfl, rfl⟩⟩
  intro seg hseg
  obtain ⟨bytes, hfile, hdocs⟩ := hsegs.present seg hseg
  have hname : sealedSegmentName seg.1 ∈ sealedSegments listing := by
    rw [sealedSegments_eq hsegs hlist]
    exact List.mem_map_of_mem hseg
  exact ⟨bytes, hfile, Prod.ext hdocs (hclean _ hname bytes hfile)⟩

/-- A run of a drain that is not stopped is part of a history. -/
theorem unstopped_run {es : List Drain.Event} (h : Run (Unstopped settings) S es T) :
    Run (Step settings) S (es.map Event.drain) T :=
  h.image id Event.drain fun _ _ _ hstep => hstep.1

/-- An index that holds the sealed documents has a row for each of their URLs. -/
theorem docCount_eq {rows : List Row} {sealed : List Document}
    (hrows : (rows.map Row.url).Nodup)
    (htable : table rows = upsertAll noPages (entries sealed)) :
    docCount rows = (sealed.map Document.url).dedup.length := by
  have hperm : (rows.map Row.url).Perm (sealed.map Document.url).dedup := by
    refine (List.perm_ext_iff_of_nodup hrows (List.nodup_dedup _)).mpr fun url => ?_
    have hsome := congrArg (fun t => (t url).isSome = true) htable
    simp only [upsertAll_apply, noPages, Option.or_none, table] at hsome
    rw [← map_fst_entry, ← view_isSome, hsome, lastWrite_isSome, map_fst_entries, List.mem_dedup]
  rw [docCount, ← List.length_map Row.url, hperm.length_eq]

/-- **A drain of one pass completes.** Whatever has happened before, when the segments in the
spool can be read to their ends and nothing disturbs the drain, it takes no more than so many
steps; it can always be carried on until its report is made; and then nothing is left in the
spool, the index holds just what upserting all documents ever sealed gives, and the report says
how many segments and documents there were, and how many URLs were ever sealed. -/
theorem drain_once_completes (settings : Settings σ η) (honce : settings.config.once = true)
    (S₀ S : System σ η) (events : List Event) (h₀ : Fresh S₀)
    (h : Run (Step settings) S₀ events S) (hoff : S.index.process = none) (listing : List Str)
    (hlist : S.spool.Lists listing)
    (hclean : ∀ name ∈ sealedSegments listing, ∀ bytes, S.spool name = some bytes →
      (forEachDocument settings.codec bytes).2 = .clean)
    (steps : List Drain.Event) (T : System σ η) (hrun : Run (Unstopped settings) S steps T) :
    steps.length ≤ 4 * (sealedSegments listing).length +
      2 * (spoolDocuments settings.codec S.spool listing).length + 5 ∧
    (∃ more U report, Run (Unstopped settings) T more U ∧ Finished U report) ∧
    ∀ report, Finished T report →
      report.segments = (sealedSegments listing).length ∧
      report.documents = (spoolDocuments settings.codec S.spool listing).length ∧
      report.docCount = (S.log.sealed.map Document.url).dedup.length ∧
      table T.index.rows = upsertAll noPages (entries S.log.sealed) ∧
      ∀ left, T.spool.Lists left → sealedSegments left = [] := by
  obtain ⟨segs, hsound⟩ := run_sound h₀ h
  have hsegs : Segments settings.codec S.spool segs := hsound.numbered.segments
  have hstart := hsound.sinking hoff hlist hclean
  have hsegments : (sealedSegments listing).length = segs.length := by
    rw [sealedSegments_eq hsegs hlist, segmentNames, List.length_map]
  have hdocuments : (spoolDocuments settings.codec S.spool listing).length = documentsIn segs := by
    rw [spoolDocuments_eq hsegs hlist, documentsIn]
  rw [hsegments, hdocuments]
  refine ⟨?_, ?_, ?_⟩
  · obtain ⟨m, -, hle⟩ := hrun.length_add_le (Unstopped.step honce) hstart
    have hbound := remaining_le segs
    omega
  · obtain ⟨more, U, hmore, report, hdone⟩ := hrun.completes
      (D := fun U => ∃ report, Finished U report) (Unstopped.step honce)
      (fun _ _ => Sinking.progress honce) hstart
    exact ⟨more, U, report, hmore, hdone⟩
  · rintro report ⟨p, hp, hphase, rfl⟩
    obtain ⟨m, ⟨hlog, rest, hspool, hprocess⟩, -⟩ :=
      hrun.length_add_le (Unstopped.step honce) hstart
    rcases hprocess with ⟨hnone, -, -⟩ | ⟨q, hq, hdraining, -⟩
    · cases hnone.symm.trans hp
    · cases hq.symm.trans hp
      -- the report is made when the spool is empty
      have hnil : rest = [] := by
        have hstands := hdraining.stands
        rwa [hphase] at hstands
      subst hnil
      have hempty : ∀ left, T.spool.Lists left → sealedSegments left = [] := fun left hleft =>
        sealedSegments_eq hspool.segments hleft
      obtain ⟨left, hleft⟩ := hspool.listed
      obtain ⟨segs', hsound'⟩ := run_sound h₀ (h.append (unstopped_run hrun))
      have htable := hsound'.spool_replays hleft
      rw [spoolDocuments, hempty left hleft, hlog] at htable
      refine ⟨hdraining.segments, hdraining.documents, ?_, htable, hempty⟩
      rw [hdraining.counted hphase]
      exact docCount_eq hsound'.rows htable

/-- A drain was stopped after it had committed the first of two pages: the next one drains
both. -/
theorem drain_once_completes_sample : ∃ steps T report,
    Run (Unstopped rotatingSettings) stoppedSystem steps T ∧ steps.length ≤ 17 ∧
    Finished T report ∧ report.segments = 2 ∧ report.documents = 2 ∧ report.docCount = 2 := by
  have hfresh : Fresh emptySystem := ⟨fun _ _ => rfl, rfl, rfl, rfl, rfl⟩
  obtain ⟨hfirst, hsecond⟩ := rotated_documents
  have hone : stoppedSystem.spool (sealedSegmentName 1) = some sampleSegment.contents :=
    rotatedSpool_first
  have htwo : stoppedSystem.spool (sealedSegmentName 2) = some otherSegment.contents :=
    rotatedSpool_second
  have hclean : ∀ name ∈ sealedSegments rotatedListing, ∀ bytes,
      stoppedSystem.spool name = some bytes →
        (forEachDocument rotatingSettings.codec bytes).2 = .clean := by
    intro name hname bytes hbytes
    rw [rotated_ready, rotatedListing, List.mem_pair] at hname
    rcases hname with rfl | rfl
    · cases hone.symm.trans hbytes
      exact congrArg Prod.snd hfirst
    · cases htwo.symm.trans hbytes
      exact congrArg Prod.snd hsecond
  have hread : spoolDocuments rotatingSettings.codec stoppedSystem.spool rotatedListing
      = [samplePage, otherPage] := by
    rw [spoolDocuments, rotated_ready, rotatedListing, List.flatMap_cons, List.flatMap_singleton,
      fileDocuments, fileDocuments, hone, htwo]
    exact congrArg₂ (· ++ ·) (congrArg Prod.fst hfirst) (congrArg Prod.fst hsecond)
  have hall := drain_once_completes rotatingSettings rfl emptySystem stoppedSystem _ hfresh
    (rotatedSystem_run.append stoppedSystem_run) rfl _ rotatedSpool_lists hclean
  obtain ⟨-, ⟨steps, T, report, hrun, hdone⟩, -⟩ := hall [] stoppedSystem Run.refl
  obtain ⟨hle, -, hreport⟩ := hall steps T hrun
  obtain ⟨hsegments, hdocuments, hcount, -, -⟩ := hreport report hdone
  rw [rotated_ready, hread] at hle
  rw [hread] at hdocuments
  rw [rotated_ready] at hsegments
  exact ⟨steps, T, report, hrun, hle, hdone, hsegments, hdocuments, hcount⟩

end Handoff
