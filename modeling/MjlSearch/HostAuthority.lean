/-
The host counts that outlive a drain (`indexer::drain`, `indexer::graph`).

A drain counts the links of a batch and saves the counts before it has written a single
document of it; its segments are retired one at a time afterwards.

* `Ledger` — which documents were counted together, and which of them were retired then;
* `Booked.step` — what every step keeps of the ledger and the counts;
* `host_counts` — when no drain stops over a page that credits another host, every segment
  is counted in one batch, the one that retires it;
* `host_counts_doubled` — else its links can be counted again.
-/
import MjlSearch.Handoff
import MjlSearch.LinkGraph

open Text Spool IndexWriter Storage Drain Runs Graph

namespace Handoff

variable {η : Type}

/-! ### What a history counts -/

/-- The documents that were counted together, and those of them that were retired under
the scores of this batch. -/
structure Batch where
  scored : List Document
  retired : List Document

/-- The batches, the last one first, and the documents read of the segment in hand. -/
structure Ledger where
  batches : List Batch
  segment : List Document

def Ledger.note (ledger : Ledger) : Event → Ledger
  | .drain (.score documents _) =>
    { ledger with batches := { scored := documents, retired := [] } :: ledger.batches }
  | .drain .take => { ledger with segment := [] }
  | .drain (.add document) => { ledger with segment := ledger.segment ++ [document] }
  | .drain .retire =>
    match ledger.batches with
    | [] => ledger
    | batch :: older =>
      { ledger with batches := { batch with retired := batch.retired ++ ledger.segment } :: older }
  | _ => ledger

/-- The ledger of a history. -/
def ledgerOf (events : List Event) : Ledger :=
  events.foldl Ledger.note { batches := [], segment := [] }

theorem ledgerOf_snoc (events : List Event) (event : Event) :
    ledgerOf (events ++ [event]) = (ledgerOf events).note event := by
  rw [ledgerOf, List.foldl_append]
  rfl

/-- The documents retired, in the order of the batches. -/
def Ledger.retired (ledger : Ledger) : List Document :=
  (ledger.batches.reverse.map Batch.retired).flatten

/-- The links into a host that the batches have recorded. -/
def Ledger.credited (limits : GraphLimits) (ledger : Ledger) (host : Str) : ℕ :=
  (ledger.batches.map fun batch =>
    (buildGraph limits (fun _ => 0) batch.scored).crossSiteLinks.count host).sum

/-- What a batch retired it counted first, and the pages it has left to a later batch
credit nobody. -/
structure Settled (limits : GraphLimits) (batch : Batch) : Prop where
  retired : batch.retired <+: batch.scored
  left : ∀ page, Standing batch.scored page → page ∉ batch.retired →
    (buildGraph limits (fun _ => 0) batch.scored).creditsOf page.url = []

theorem settled_of_left {limits : GraphLimits} {scored retired rest : List Document}
    (hscored : scored = retired ++ rest)
    (hfull : (buildGraph limits (fun _ => 0) scored).truncated = false)
    (hrest : ∀ page, Standing rest page → StaysOnHost page) :
    Settled limits { scored, retired } := by
  refine ⟨⟨rest, hscored.symm⟩, fun page hpage hnew => ?_⟩
  have hstanding : Standing rest page := by
    rw [hscored] at hpage
    exact hpage.of_append hnew
  exact (hrest page hstanding).creditsOf hpage hfull

/-! ### The segments a drain has scored and not retired -/

/-- The paths of the batch in hand that are not retired; `none` when there is no such batch. -/
def unretired {σ : Type} (index : Drain.State σ η) : Option (List Str) :=
  match index.process with
  | none => none
  | some p =>
    match p.phase with
    | .choosing pass => some pass.ready
    | .recording pass _ _ => some pass.ready
    | .reading pass reading _ => some (reading.path :: pass.ready)
    | .retiring pass reading => some (reading.path :: pass.ready)
    | .listing | .scoring _ | .done => none

/-- What is still to be read of the segment in hand. -/
def unread {σ : Type} (index : Drain.State σ η) : Option (List Document) :=
  match index.process with
  | none => none
  | some p =>
    match p.phase with
    | .reading _ reading _ => some reading.rest
    | .retiring _ _ => some []
    | .choosing _ | .recording _ _ _ | .listing | .scoring _ | .done => none

/-- A drain that stops leaves no page that credits another host to be counted again. -/
def Undisturbed {σ : Type} (codec : Codec Document) (S : System σ η) (event : Event) : Prop :=
  event = .drain .stop → ∀ paths, unretired S.index = some paths →
    ∀ page, Standing (paths.flatMap (fileDocuments codec S.spool)) page → StaysOnHost page

/-- The counts can be saved, and the batch fits into the graph. -/
def Counting (limits : GraphLimits) (event : Event) : Prop :=
  ∀ documents saved, event = .drain (.score documents saved) →
    saved = true ∧ (buildGraph limits (fun _ => 0) documents).truncated = false

/-- The settings under which a drain keeps the counts. -/
def authoritySettings (codec : Codec Document) (segmentBytes : ℕ) (config : DrainConfig)
    (limits : GraphLimits) (rank : LinkGraph → Str → Option DocScores)
    (record : η → ℤ → ℕ → ℕ → η) : Settings (Str → ℕ) η :=
  { codec, segmentBytes, config, sidecars := authoritySidecars limits rank record }

variable {codec : Codec Document} {segs : List (ℕ × List Document)}

theorem unretired_eq {σ : Type} {index : Drain.State σ η} (h : Tracks segs index)
    {paths : List Str} (hpaths : unretired index = some paths) :
    paths = segmentNames (segs.take paths.length) := by
  have hprefix : paths <+: segmentNames segs := by
    unfold Tracks at h
    unfold unretired at hpaths
    split at hpaths
    · cases hpaths
    · rename_i p hp
      rw [hp] at h
      simp only at h
      split at hpaths <;> rename_i hphase <;> rw [hphase] at h <;> cases hpaths
      · exact h.2
      · exact h.2
      · obtain ⟨seg, tail, added, pending, earlier, rfl, hpath, hready, -⟩ := h
        rw [hpath]
        exact List.cons_prefix_cons.mpr ⟨rfl, hready⟩
      · obtain ⟨seg, tail, earlier, rfl, hpath, hready, -⟩ := h
        rw [hpath]
        exact List.cons_prefix_cons.mpr ⟨rfl, hready⟩
  rw [segmentNames, List.map_take]
  exact List.prefix_iff_eq_take.mp hprefix

theorem readAll_eq {spool : Directory} {paths : List Str} {documents : List Document}
    (h : readAll codec spool paths = some documents) :
    documents = paths.flatMap (fileDocuments codec spool) := by
  induction paths generalizing documents with
  | nil =>
    cases h
    rfl
  | cons path paths ih =>
    simp only [readAll, Option.bind_eq_bind, Option.bind_eq_some_iff] at h
    obtain ⟨bytes, hbytes, h⟩ := h
    split at h
    · obtain ⟨more, hmore, heq⟩ := Option.bind_eq_some_iff.mp h
      cases heq
      rw [List.flatMap_cons, fileDocuments, hbytes, ← ih hmore]
    · cases h

theorem fileDocuments_names {dir : Directory} (h : Segments codec dir segs)
    (taken : List (ℕ × List Document)) (htaken : ∀ seg ∈ taken, seg ∈ segs) :
    (segmentNames taken).flatMap (fileDocuments codec dir) = taken.flatMap Prod.snd := by
  rw [segmentNames, List.flatMap_map]
  exact List.flatMap_congr fun seg hseg => fileDocuments_segment h (htaken seg hseg)

/-- The readable files of a directory are numbered in one way. -/
theorem segments_unique {dir : Directory} {segs' : List (ℕ × List Document)}
    (h : Segments codec dir segs) (h' : Segments codec dir segs') : segs = segs' := by
  have hsub : ∀ {l l' : List (ℕ × List Document)}, Segments codec dir l → Segments codec dir l' →
      ∀ seg ∈ l, seg ∈ l' := by
    intro l l' hl hl' seg hseg
    obtain ⟨bytes, hbytes, hdocs⟩ := hl.present seg hseg
    obtain ⟨seg', hseg', hname⟩ := hl'.complete _ (isSealed_sealedSegmentName seg.1)
      (by rw [hbytes]; exact Option.some_ne_none _)
    have hnumber := sealedSegmentName_injective (hl.bounded seg hseg) (hl'.bounded seg' hseg') hname
    have hdocs' := fileDocuments_segment hl' hseg'
    rw [← hname, fileDocuments_segment hl hseg] at hdocs'
    have hsame : seg = seg' := Prod.ext hnumber hdocs'
    exact hsame ▸ hseg'
  have hnodup : ∀ {l : List (ℕ × List Document)}, Segments codec dir l → l.Nodup := fun hl =>
    hl.sorted.imp fun hlt heq => absurd hlt (by rw [heq]; exact lt_irrefl _)
  have hperm : segs.Perm segs' := (List.perm_ext_iff_of_nodup (hnodup h) (hnodup h')).mpr
    fun seg => ⟨hsub h h' seg, hsub h' h seg⟩
  refine hperm.eq_of_pairwise ?_ h.sorted h'.sorted
  intro a b _ _ hab hba
  exact absurd (lt_trans hab hba) (lt_irrefl _)

/-! ### Step by step -/

/-- What holds of the ledger in every state: the counts are those of the batches, what is
sealed is retired or in the spool, all batches are settled but for the one in hand, which
counted what is left of it, and the drain has read what it should of the segment in hand. -/
structure Booked (limits : GraphLimits) (base : Str → ℕ) (S : System (Str → ℕ) η)
    (ledger : Ledger) (segs : List (ℕ × List Document)) : Prop where
  counts : ∀ host, S.index.hostInlinks host = base host + ledger.credited limits host
  sealed : ledger.retired ++ segs.flatMap Prod.snd = S.log.sealed
  outside : unretired S.index = none → ∀ batch ∈ ledger.batches, Settled limits batch
  inside : ∀ paths, unretired S.index = some paths → ∃ batch older,
    ledger.batches = batch :: older ∧ (∀ earlier ∈ older, Settled limits earlier) ∧
    batch.scored = batch.retired ++ (segs.take paths.length).flatMap Prod.snd ∧
    (buildGraph limits (fun _ => 0) batch.scored).truncated = false
  reading : ∀ rest, unread S.index = some rest → ∃ seg tail,
    segs = seg :: tail ∧ seg.2 = ledger.segment ++ rest

variable {limits : GraphLimits} {base : Str → ℕ} {S T : System (Str → ℕ) η} {ledger : Ledger}

/-- The writer's steps do not concern the ledger. -/
theorem Booked.crawl {segmentBytes : ℕ} {e : Storage.Event} {U : Storage.State}
    (h : Booked limits base S ledger segs) (htracks : Tracks segs S.index)
    (hnumbered : Numbered codec S.crawl segs)
    (hstep : WriterStep codec segmentBytes S.crawl e U) :
    ∃ segs', Numbered codec U segs' ∧ Booked limits base
      { spool := U.spool, writer := U.writer, log := U.log, index := S.index } ledger segs' := by
  rcases writerStep_numbered hstep hnumbered with ⟨hnum, hsealed⟩ | ⟨n, hnum, hsealed⟩
  · exact ⟨segs, hnum, h.counts, h.sealed.trans hsealed.symm, h.outside, h.inside, h.reading⟩
  · refine ⟨segs ++ [(n, S.log.current)], hnum, h.counts, ?_, h.outside, fun paths hpaths => ?_,
      fun rest hrest => ?_⟩
    · show ledger.retired ++ (segs ++ [(n, S.log.current)]).flatMap Prod.snd = U.log.sealed
      rw [hsealed, List.flatMap_append, ← List.append_assoc, h.sealed]
      exact congrArg _ (List.append_nil _)
    · -- the batch in hand is older than the new segment
      obtain ⟨batch, older, hbatches, hsettled, hscored, hfull⟩ := h.inside paths hpaths
      refine ⟨batch, older, hbatches, hsettled, ?_, hfull⟩
      have hle : paths.length ≤ segs.length := by
        have hlength := congrArg List.length (unretired_eq htracks hpaths)
        rw [segmentNames, List.length_map, List.length_take] at hlength
        omega
      rw [List.take_append_of_le_length hle]
      exact hscored
    · obtain ⟨seg, tail, rfl, hseg⟩ := h.reading rest hrest
      exact ⟨seg, tail ++ [(n, S.log.current)], rfl, hseg⟩

/-- A step that leaves the batch and the segment in hand as they are. -/
theorem Booked.same (h : Booked limits base S ledger segs) {spool : Directory}
    {J : Drain.State (Str → ℕ) η} (hcounts : J.hostInlinks = S.index.hostInlinks)
    (hunretired : unretired J = unretired S.index) (hunread : unread J = unread S.index) :
    Booked limits base { S with spool, index := J } ledger segs := by
  refine ⟨fun host => ?_, h.sealed, fun hout => ?_, fun paths hpaths => ?_, fun rest hrest => ?_⟩
  · show J.hostInlinks host = _
    rw [hcounts]
    exact h.counts host
  · exact h.outside (hunretired ▸ hout)
  · exact h.inside paths (hunretired ▸ hpaths)
  · exact h.reading rest (hunread ▸ hrest)

/-- A batch is counted. -/
theorem Booked.score (h : Booked limits base S ledger segs) {spool : Directory}
    {J : Drain.State (Str → ℕ) η} {documents : List Document} {paths : List Str}
    (hcounts : ∀ host, J.hostInlinks host = S.index.hostInlinks host +
      (buildGraph limits (fun _ => 0) documents).crossSiteLinks.count host)
    (hout : unretired S.index = none) (hunretired : unretired J = some paths)
    (hunread : unread J = none) (hdocuments : documents = (segs.take paths.length).flatMap Prod.snd)
    (hfull : (buildGraph limits (fun _ => 0) documents).truncated = false) (saved : Bool) :
    Booked limits base { S with spool, index := J }
      (ledger.note (.drain (.score documents saved))) segs := by
  refine ⟨fun host => ?_, ?_, fun hc => ?_, fun paths' hpaths' => ?_, fun rest hrest => ?_⟩
  · have hcredited : Ledger.credited limits (ledger.note (.drain (.score documents saved))) host =
        (buildGraph limits (fun _ => 0) documents).crossSiteLinks.count host +
          ledger.credited limits host := by
      rw [Ledger.credited, Ledger.note, List.map_cons, List.sum_cons]
      rfl
    show J.hostInlinks host = _
    rw [hcounts, h.counts, hcredited]
    omega
  · show (ledger.note _).retired ++ _ = S.log.sealed
    rw [← h.sealed, Ledger.retired, Ledger.note, List.reverse_cons, List.map_append,
      List.flatten_append]
    exact congrArg (· ++ _) (List.append_nil _)
  · exact absurd (hunretired.symm.trans hc) (Option.some_ne_none _)
  · have heq : some paths = some paths' := hunretired.symm.trans hpaths'
    cases heq
    exact ⟨_, ledger.batches, rfl, h.outside hout, hdocuments, hfull⟩
  · exact absurd (hunread.symm.trans hrest) (Option.some_ne_none _).symm

/-- The batch in hand is put away: it is all retired, or what is left credits nobody. -/
theorem Booked.putAway (h : Booked limits base S ledger segs) {spool : Directory}
    {J : Drain.State (Str → ℕ) η} (hcounts : J.hostInlinks = S.index.hostInlinks)
    (hunretired : unretired J = none) (hunread : unread J = none)
    (hleft : ∀ paths, unretired S.index = some paths →
      ∀ page, Standing ((segs.take paths.length).flatMap Prod.snd) page → StaysOnHost page) :
    Booked limits base { S with spool, index := J } ledger segs := by
  refine ⟨fun host => ?_, h.sealed, fun _ batch hbatch => ?_, fun paths hpaths => ?_,
    fun rest hrest => ?_⟩
  · show J.hostInlinks host = _
    rw [hcounts]
    exact h.counts host
  · cases hwas : unretired S.index with
    | none => exact h.outside hwas batch hbatch
    | some paths =>
      obtain ⟨last, older, hbatches, hsettled, hscored, hfull⟩ := h.inside paths hwas
      rw [hbatches] at hbatch
      rcases List.mem_cons.mp hbatch with rfl | hbatch
      · exact settled_of_left hscored hfull (hleft paths hwas)
      · exact hsettled batch hbatch
  · exact absurd (hunretired.symm.trans hpaths) (Option.some_ne_none _).symm
  · exact absurd (hunread.symm.trans hrest) (Option.some_ne_none _).symm

/-- The segment in hand is read: from the start, or on by a document. -/
theorem Booked.read (h : Booked limits base S ledger segs) (rest : List Document)
    {segment : List Document} {spool : Directory} {J : Drain.State (Str → ℕ) η}
    (hcounts : J.hostInlinks = S.index.hostInlinks)
    (hunretired : unretired J = unretired S.index)
    (hunread : unread J = some rest) {seg : ℕ × List Document} {tail : List (ℕ × List Document)}
    (hsegs : segs = seg :: tail) (hsegment : seg.2 = segment ++ rest) :
    Booked limits base { S with spool, index := J } { ledger with segment } segs := by
  refine ⟨fun host => ?_, h.sealed, fun hout => ?_, fun paths hpaths => ?_, fun rest' hrest' => ?_⟩
  · show J.hostInlinks host = _
    rw [hcounts]
    exact h.counts host
  · exact h.outside (hunretired ▸ hout)
  · exact h.inside paths (hunretired ▸ hpaths)
  · have heq : some rest = some rest' := hunread.symm.trans hrest'
    cases heq
    exact ⟨seg, tail, hsegs, hsegment⟩

/-- The first segment of the spool is retired. -/
theorem Booked.retire {seg : ℕ × List Document} {tail : List (ℕ × List Document)}
    (h : Booked limits base S ledger (seg :: tail)) {spool : Directory}
    {J : Drain.State (Str → ℕ) η} (hcounts : J.hostInlinks = S.index.hostInlinks)
    {path : Str} {paths : List Str} (hwas : unretired S.index = some (path :: paths))
    (hunretired : unretired J = some paths) (hread : unread S.index = some [])
    (hunread : unread J = none) :
    Booked limits base { S with spool, index := J } (ledger.note (.drain .retire)) tail := by
  obtain ⟨batch, older, hbatches, hsettled, hscored, hfull⟩ := h.inside _ hwas
  obtain ⟨seg', tail', hcons, hsegment⟩ := h.reading [] hread
  cases hcons
  rw [List.append_nil] at hsegment
  have hnote : ledger.note (.drain .retire) = { ledger with
      batches := { batch with retired := batch.retired ++ ledger.segment } :: older } := by
    rw [Ledger.note, hbatches]
  rw [hnote]
  refine ⟨fun host => ?_, ?_, fun hc => ?_, fun paths' hpaths' => ?_, fun rest hrest => ?_⟩
  · show J.hostInlinks host = _
    rw [hcounts, h.counts, Ledger.credited, hbatches]
    rfl
  · show Ledger.retired _ ++ tail.flatMap Prod.snd = S.log.sealed
    rw [← h.sealed, Ledger.retired, Ledger.retired, hbatches]
    simp only [List.reverse_cons, List.map_append, List.map_cons, List.map_nil,
      List.flatten_append, List.flatten_cons, List.flatten_nil, List.append_nil,
      List.append_assoc, List.flatMap_cons, hsegment]
  · exact absurd (hunretired.symm.trans hc) (Option.some_ne_none _)
  · have heq : some paths = some paths' := hunretired.symm.trans hpaths'
    cases heq
    refine ⟨_, older, rfl, hsettled, ?_, hfull⟩
    show batch.scored = batch.retired ++ ledger.segment ++ (tail.take paths.length).flatMap Prod.snd
    rw [hscored, List.length_cons, List.take_succ_cons, List.flatMap_cons, hsegment,
      List.append_assoc]
  · exact absurd (hunread.symm.trans hrest) (Option.some_ne_none _).symm

/-- **One step of the drain.** -/
theorem Booked.drain {config : DrainConfig} {rank : LinkGraph → Str → Option DocScores}
    {record : η → ℤ → ℕ → ℕ → η} {spool : Directory} {J : Drain.State (Str → ℕ) η}
    {e : Drain.Event} (h : Booked limits base S ledger segs) (htracks : Tracks segs S.index)
    (hsegs : Segments codec S.spool segs) (hcounting : Counting limits (.drain e))
    (hundisturbed : Undisturbed codec S (.drain e))
    (hstep : DrainStep codec config (authoritySidecars limits rank record) S.spool S.index e spool J) :
    ∃ segs', Segments codec spool segs' ∧
      Booked limits base { S with spool, index := J } (ledger.note (.drain e)) segs' := by
  -- what is listed for the batch in hand is what the spool holds
  have hlisted : ∀ paths, unretired S.index = some paths →
      paths.flatMap (fileDocuments codec S.spool) = (segs.take paths.length).flatMap Prod.snd := by
    intro paths hpaths
    conv_lhs => rw [unretired_eq htracks hpaths]
    exact fileDocuments_names hsegs _ fun seg hseg => List.mem_of_mem_take hseg
  cases hstep with
  | start hoff =>
    refine ⟨segs, hsegs, h.same rfl ?_ ?_⟩
    · simp only [unretired, hoff]
    · simp only [unread, hoff]
  | sleep hp hphase => exact ⟨segs, hsegs, h⟩
  | finish hp hphase =>
    refine ⟨segs, hsegs, h.same rfl ?_ ?_⟩
    · simp only [unretired, hp, hphase]
    · simp only [unread, hp, hphase]
  | list hp hphase =>
    refine ⟨segs, hsegs, h.same rfl ?_ ?_⟩
    · simp only [unretired, hp, hphase]
    · simp only [unread, hp, hphase]
  | @score p ready documents saved hp hphase hread =>
    obtain ⟨hsaved, hfull⟩ := hcounting documents saved rfl
    have htracks' := htracks
    simp only [Tracks, hp, hphase] at htracks'
    have hready : ready = segmentNames (segs.take ready.length) := by
      rw [segmentNames, List.map_take]
      exact List.prefix_iff_eq_take.mp htracks'.2
    refine ⟨segs, hsegs, h.score (fun host => ?_) ?_ rfl rfl ?_ hfull saved⟩
    · rw [hsaved, if_pos rfl]
      exact buildAuthority_counts limits rank _ documents host
    · simp only [unretired, hp, hphase]
    · rw [readAll_eq hread]
      conv_lhs => rw [hready]
      exact fileDocuments_names hsegs _ fun seg hseg => List.mem_of_mem_take hseg
  | @passDone p pass hp hphase hready =>
    refine ⟨segs, hsegs, h.putAway rfl rfl rfl fun paths hpaths page hpage => ?_⟩
    simp only [unretired, hp, hphase, hready] at hpaths
    cases hpaths
    obtain ⟨before, after, heq, -⟩ := hpage
    cases before <;> cases heq
  | @take p pass path ready bytes hp hphase hready hfile =>
    simp only [Tracks, hp, hphase, hready] at htracks
    obtain ⟨seg, tail, rfl, rfl, -⟩ := segmentNames_cons_prefix htracks.2
    have hdocs := fileDocuments_segment hsegs (List.mem_cons_self (a := seg) (l := tail))
    rw [fileDocuments, hfile] at hdocs
    refine ⟨seg :: tail, hsegs, h.read (forEachDocument codec bytes).1 ?_ ?_ ?_ rfl ?_⟩
    · rfl
    · simp only [unretired, hp, hphase, hready]
    · rfl
    · exact hdocs.symm
  | @add p pass reading document rest hp hphase hrest =>
    have hunread : unread S.index = some reading.rest := by simp only [unread, hp, hphase]
    obtain ⟨seg, tail, hcons, hsegment⟩ := h.reading _ hunread
    refine ⟨segs, hsegs, h.read rest ?_ ?_ ?_ hcons ?_⟩
    · rfl
    · simp only [unretired, hp, hphase]
    · rfl
    · rw [hsegment, hrest, List.append_assoc]
      rfl
  | commit hp hphase =>
    refine ⟨segs, hsegs, h.same rfl ?_ ?_⟩
    · simp only [unretired, hp, hphase]
    · simp only [unread, hp, hphase]
  | segmentDone hp hphase hrest =>
    refine ⟨segs, hsegs, h.same rfl ?_ ?_⟩
    · simp only [unretired, hp, hphase]
    · simp only [unread, hp, hphase, hrest]
  | @retire p pass reading bytes hp hphase hfile =>
    simp only [Tracks, hp, hphase] at htracks
    obtain ⟨seg, tail, earlier, rfl, hpath, -⟩ := htracks
    have hwas : unretired S.index = some (reading.path :: pass.ready) := by
      simp only [unretired, hp, hphase]
    refine ⟨tail, ?_, h.retire ?_ hwas ?_ ?_ ?_⟩
    · show Segments codec (S.spool.remove reading.path) tail
      rw [hpath]
      exact hsegs.tail
    · rfl
    · rfl
    · simp only [unread, hp, hphase]
    · rfl
  | record hp hphase =>
    refine ⟨segs, hsegs, h.same rfl ?_ ?_⟩
    · simp only [unretired, hp, hphase]
    · simp only [unread, hp, hphase]
  | stop hp =>
    refine ⟨segs, hsegs, h.putAway rfl rfl rfl fun paths hpaths page hpage => ?_⟩
    rw [← hlisted paths hpaths] at hpage
    exact hundisturbed rfl paths hpaths page hpage

/-! ### Runs -/

section

variable {segmentBytes : ℕ} {config : DrainConfig} {rank : LinkGraph → Str → Option DocScores}
  {record : η → ℤ → ℕ → ℕ → η}

theorem Booked.step {event : Event} {segs : List (ℕ × List Document)}
    (hsound : Sound (authoritySettings codec segmentBytes config limits rank record) S segs)
    (h : Booked limits base S ledger segs)
    (hstep : Step (authoritySettings codec segmentBytes config limits rank record) S event T)
    (hcounting : Counting limits event) (hundisturbed : Undisturbed codec S event) :
    ∃ segs', Sound (authoritySettings codec segmentBytes config limits rank record) T segs' ∧
      Booked limits base T (ledger.note event) segs' := by
  obtain ⟨segs', hsound'⟩ := hstep.sound hsound
  refine ⟨segs', hsound', ?_⟩
  cases hstep with
  | crawl hwriter =>
    obtain ⟨segs'', hnum, hbooked⟩ := h.crawl hsound.tracks hsound.numbered hwriter
    rw [segments_unique hsound'.numbered.segments hnum.segments]
    exact hbooked
  | drain hdrain =>
    obtain ⟨segs'', hsegs, hbooked⟩ :=
      h.drain hsound.tracks hsound.numbered.segments hcounting hundisturbed hdrain
    rw [segments_unique hsound'.numbered.segments hsegs]
    exact hbooked

theorem Fresh.booked (h : Fresh S) :
    Booked limits S.index.hostInlinks S { batches := [], segment := [] } [] where
  counts _ := rfl
  sealed := by
    rw [h.log]
    rfl
  outside _ _ hc := by cases hc
  inside paths hc := by
    rw [unretired, h.process] at hc
    cases hc
  reading rest hc := by
    rw [unread, h.process] at hc
    cases hc

end

/-- **Every sealed segment is counted once**, in every run in which no drain stops over a
page that credits another host: once the spool holds no sealed segment, the documents that
the batches have retired are the sealed ones, in order, the pages that a batch has left to
a later one credit nobody, and the counts are the links into a host that the batches have
recorded. -/
theorem host_counts (codec : Codec Document) (segmentBytes : ℕ) (config : DrainConfig)
    (limits : GraphLimits) (rank : LinkGraph → Str → Option DocScores)
    (record : η → ℤ → ℕ → ℕ → η) (S₀ S : System (Str → ℕ) η) (events : List Event)
    (h₀ : Fresh S₀)
    (h : Run (fun S event T =>
        Step (authoritySettings codec segmentBytes config limits rank record) S event T ∧
          Counting limits event ∧ Undisturbed codec S event) S₀ events S)
    (listing : List Str) (hlist : S.spool.Lists listing) (hempty : sealedSegments listing = []) :
    (ledgerOf events).retired = S.log.sealed ∧
      (∀ batch ∈ (ledgerOf events).batches, Settled limits batch) ∧
      ∀ host, S.index.hostInlinks host =
        S₀.index.hostInlinks host + (ledgerOf events).credited limits host := by
  obtain ⟨segs, hsound, hbooked⟩ := h.invariant_trace
    (I := fun events S => ∃ segs,
      Sound (authoritySettings codec segmentBytes config limits rank record) S segs ∧
        Booked limits S₀.index.hostInlinks S (ledgerOf events) segs)
    ⟨[], h₀.sound, h₀.booked⟩ (by
      rintro events U event V ⟨segs, hsound, hbooked⟩ ⟨hstep, hcounting, hundisturbed⟩
      rw [ledgerOf_snoc]
      exact hbooked.step hsound hstep hcounting hundisturbed)
  -- no segment is left
  have hnames := sealedSegments_eq hsound.numbered.segments hlist
  rw [hempty] at hnames
  have hnone : segs = [] := List.map_eq_nil_iff.mp hnames.symm
  subst hnone
  refine ⟨?_, fun batch hbatch => ?_, hbooked.counts⟩
  · have hsealed := hbooked.sealed
    rw [List.flatMap_nil, List.append_nil] at hsealed
    exact hsealed
  · cases hpaths : unretired S.index with
    | none => exact hbooked.outside hpaths batch hbatch
    | some paths =>
      obtain ⟨last, older, hbatches, hsettled, hscored, hfull⟩ := hbooked.inside paths hpaths
      rw [hbatches] at hbatch
      rcases List.mem_cons.mp hbatch with rfl | hbatch
      · rw [List.take_nil, List.flatMap_nil] at hscored
        refine settled_of_left hscored hfull fun page hpage => ?_
        obtain ⟨before, after, heq, -⟩ := hpage
        cases before <;> cases heq
      · exact hsettled batch hbatch

/-! ### One link to another host -/

/-- A page that links to another host, and its postcard bytes. -/
def citingPage : Document :=
  { samplePage with url := "http://b.c/".toList, outlinks := ["http://d.e/".toList] }

def citingPayload : List UInt8 :=
  [11, 104, 116, 116, 112, 58, 47, 47, 98, 46, 99, 47, 0, 0, 0, 194, 169, 206, 198, 211, 128, 160,
    131, 45, 1, 11, 104, 116, 116, 112, 58, 47, 47, 100, 46, 101, 47]

def citingCodec : Codec Document where
  encode d := if d = citingPage then some citingPayload else none
  decode bs := if bs = citingPayload then some citingPage else none
  decode_encode := by
    intro a bs h
    split at h
    · rename_i ha
      cases h
      rw [if_pos rfl, ha]
    · cases h

def roomyGraph : GraphLimits := { maxNodes := 250000, maxEdges := 2000000 }

def citingSettings : Settings (Str → ℕ) Unit :=
  authoritySettings citingCodec 1000 { commitDocs := 2, once := true, archives := false } roomyGraph
    (fun _ _ => none) fun _ _ _ _ => ()

/-- Nothing has been crawled or counted yet. -/
def uncountedSystem : System (Str → ℕ) Unit :=
  { spool := fun _ => none
    writer := none
    log := { current := [], written := [], sealed := [] }
    index :=
      { rows := [], archive := fun _ => none, hostInlinks := fun _ => 0, history := (),
        process := none } }

def citingSegment : SpoolSegment :=
  { sequence := 1, contents := 37 :: 0 :: 0 :: 0 :: citingPayload, bytes := 41 }

def citingSpool : Directory :=
  citingSegment.seal (Directory.create (fun _ => none) citingSegment.openName)

/-- The page has been written and sealed. -/
def citedSystem (counts : Str → ℕ) : System (Str → ℕ) Unit :=
  { uncountedSystem with
    spool := citingSpool
    log := { current := [], written := [citingPage], sealed := [citingPage] }
    index := { uncountedSystem.index with hostInlinks := counts } }

/-- The counts after the page's batch is counted. -/
def recount (counts : Str → ℕ) : Str → ℕ :=
  (buildAuthority roomyGraph (fun _ _ => none) counts [citingPage]).2

theorem citedSystem_run : Run (Step citingSettings) uncountedSystem
    [.crawl (.open []), .crawl .createSegment, .crawl (.writePage citingPage), .crawl .close,
      .crawl .sealSegment] (citedSystem fun _ => 0) := by
  have hwrite : SpoolSegment.write citingCodec (SpoolSegment.create 1) citingPage
      = .ok citingSegment := rfl
  have hrun : Run (Step citingSettings) uncountedSystem _ _ :=
    Run.cons (.crawl (.open rfl ⟨List.nodup_nil, by simp [System.crawl, uncountedSystem]⟩ rfl)) <|
    Run.cons (.crawl (.createSegment rfl (by decide))) <|
    Run.cons (.crawl (.writePage rfl rfl hwrite)) <|
    Run.cons (.crawl (.close rfl (Or.inl rfl))) <|
    Run.single (.crawl (@WriterStep.sealSegment _ _ _ false _ _ rfl rfl))
  exact hrun

theorem citingSpool_file : citingSpool (sealedSegmentName 1) = some citingSegment.contents :=
  (sealed_apply citingSegment _).trans (if_pos rfl)

theorem citingSpool_ready : sealedSegments [sealedSegmentName 1] = [sealedSegmentName 1] := by
  decide

theorem citingSpool_documents :
    forEachDocument citingCodec citingSegment.contents = ([citingPage], .clean) := by
  decide

theorem citingSpool_read :
    readAll citingCodec citingSpool (sealedSegments [sealedSegmentName 1]) = some [citingPage] := by
  rw [citingSpool_ready]
  exact readAll_cons citingSpool_file citingSpool_documents rfl

/-- A drain counts the page and stops. -/
theorem stopped_run (counts : Str → ℕ) : Run (Step citingSettings) (citedSystem counts)
    [.drain .start, .drain (.list [sealedSegmentName 1]), .drain (.score [citingPage] true),
      .drain .stop] (citedSystem (recount counts)) := by
  have hrun := @Run.cons _ _ (Step citingSettings) (citedSystem counts) _ _ _ _
      (.drain (.start rfl)) <|
    Run.cons (.drain (.list rfl rfl (sealed_lists citingSegment)
      (citingSpool_ready ▸ List.cons_ne_nil _ _))) <|
    Run.cons (.drain (@DrainStep.score _ _ _ _ _ _ _ _ _ _ true rfl rfl citingSpool_read)) <|
    Run.single (.drain (.stop rfl))
  exact hrun

/-- A drain counts the page, writes it and retires its segment. -/
theorem drained_run (counts : Str → ℕ) : ∃ S, Run (Step citingSettings) (citedSystem counts)
    [.drain .start, .drain (.list [sealedSegmentName 1]), .drain (.score [citingPage] true),
      .drain .take, .drain (.add citingPage), .drain .segmentDone, .drain .retire] S ∧
    S.spool.Lists [] ∧ S.log.sealed = [citingPage] ∧ S.index.hostInlinks = recount counts := by
  have hrun := @Run.cons _ _ (Step citingSettings) (citedSystem counts) _ _ _ _
      (.drain (.start rfl)) <|
    Run.cons (.drain (.list rfl rfl (sealed_lists citingSegment)
      (citingSpool_ready ▸ List.cons_ne_nil _ _))) <|
    Run.cons (.drain (@DrainStep.score _ _ _ _ _ _ _ _ _ _ true rfl rfl citingSpool_read)) <|
    Run.cons (.drain (.take rfl rfl citingSpool_ready citingSpool_file)) <|
    Run.cons (.drain (.add rfl rfl (congrArg Prod.fst citingSpool_documents))) <|
    Run.cons (.drain (.segmentDone rfl rfl rfl (congrArg Prod.snd citingSpool_documents))) <|
    Run.single (.drain (.retire rfl rfl citingSpool_file))
  exact ⟨_, hrun, sealed_removed citingSegment, rfl, rfl⟩

theorem uncountedSystem_fresh : Fresh uncountedSystem := ⟨fun _ _ => rfl, rfl, rfl, rfl, rfl⟩

/-- The samples' batches are saved and fit. -/
theorem citing_counting {events : List Event}
    (hscore : ∀ documents saved, .drain (.score documents saved) ∈ events →
      documents = [citingPage] ∧ saved = true) :
    ∀ event ∈ events, Counting roomyGraph event := by
  rintro event hevent documents saved rfl
  obtain ⟨rfl, rfl⟩ := hscore documents saved hevent
  exact ⟨rfl, by decide⟩

/-- **A link can be counted twice**: a drain that stops after it has counted a batch leaves
the batch to be counted again. -/
theorem host_counts_doubled : Fresh uncountedSystem ∧ ∃ events S,
    Run (fun S event T => Step citingSettings S event T ∧ Counting roomyGraph event)
      uncountedSystem events S ∧
    S.spool.Lists [] ∧ S.log.sealed = [citingPage] ∧
    S.index.hostInlinks "d.e".toList = 2 ∧
    (((ledgerOf events).batches.filter fun batch => batch.retired ≠ []).map fun batch =>
      (buildGraph roomyGraph (fun _ => 0) batch.scored).crossSiteLinks.count "d.e".toList).sum
      = 1 := by
  obtain ⟨S, hdrained, hlist, hsealed, hcounts⟩ := drained_run (recount fun _ => 0)
  have hrun := (citedSystem_run.append (stopped_run _)).append hdrained
  refine ⟨uncountedSystem_fresh, _, S, hrun.restrict (citing_counting fun documents saved h => ?_),
    hlist, hsealed, ?_, by decide⟩
  · simpa using h
  · rw [hcounts]
    decide

/-- A drain that goes on to the end counts it once. -/
theorem host_counts_sample : ∃ events S,
    Run (Step citingSettings) uncountedSystem events S ∧
    (ledgerOf events).retired = [citingPage] ∧
    S.index.hostInlinks "d.e".toList = (ledgerOf events).credited roomyGraph "d.e".toList := by
  obtain ⟨S, hdrained, hlist, hsealed, hcounts⟩ := drained_run fun _ => 0
  have hrun := citedSystem_run.append hdrained
  have hquiet := hrun.restrict (Q := fun event => Counting roomyGraph event ∧
    event ≠ .drain .stop) fun event hevent => by
      refine ⟨citing_counting (fun documents saved h => by simpa using h) event hevent, ?_⟩
      rintro rfl
      simp at hevent
  have hundisturbed : Run (fun S event T => Step citingSettings S event T ∧
      Counting roomyGraph event ∧ Undisturbed citingCodec S event) uncountedSystem _ S :=
    hquiet.imp fun _ _ _ h => ⟨h.1, h.2.1, fun hc => absurd hc h.2.2⟩
  obtain ⟨hretired, -, hcredited⟩ := host_counts citingCodec 1000
    { commitDocs := 2, once := true, archives := false } roomyGraph (fun _ _ => none)
    (fun _ _ _ _ => ()) uncountedSystem S _ uncountedSystem_fresh hundisturbed [] hlist rfl
  refine ⟨_, S, hrun, hretired.trans hsealed, ?_⟩
  rw [hcredited]
  exact Nat.zero_add _

end Handoff
