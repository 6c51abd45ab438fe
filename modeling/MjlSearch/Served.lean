/-
What a reader is shown, from end to end: the crawler's writer, the indexer's drain and the
threads of the query engine, all on one spool and one index.

Tantivy enters as in the query engine, with what it keeps of the rows that are committed to it
(`Keeps`).

* `Sourced` — every row of the index is a page that was sealed, as it was sealed;
* `World.Agrees` — what is committed for the engine holds the rows of the index;
* `served_pages_were_crawled` — every answer shows the index as it was committed at some moment
  between the call and the answer, and every hit is a page that was sealed by then.
-/
import MjlSearch.DrainOnce
import MjlSearch.HostAuthority
import MjlSearch.QueryCache

open Text Spool IndexWriter LastWriter Storage Drain Runs

namespace Served

variable {σ η : Type} {tantivy : QueryCache.Tantivy}

/-! ### Where the rows come from -/

/-- The readable segments hold sealed documents, and so does the index. -/
structure Sourced (settings : Handoff.Settings σ η) (S : Handoff.System σ η)
    (segs : List (ℕ × List Document)) : Prop where
  sound : Handoff.Sound settings S segs
  waiting : ∀ d ∈ segs.flatMap Prod.snd, d ∈ S.log.sealed
  rows : ∀ row ∈ S.index.rows, row.entry ∈ entries S.log.sealed

theorem mem_foldl_replaceRow {e : Str × Page} {l m : List (Str × Page)}
    (h : e ∈ l.foldl replaceRow m) : e ∈ m ∨ e ∈ l := by
  induction l generalizing m with
  | nil => exact Or.inl h
  | cons a l ih =>
    rcases ih h with hm | hl
    · rw [replaceRow, List.mem_append, List.mem_singleton] at hm
      rcases hm with hold | rfl
      · exact Or.inl (List.mem_filter.mp hold).1
      · exact Or.inr List.mem_cons_self
    · exact Or.inr (List.mem_cons_of_mem _ hl)

/-- A commit keeps rows, and adds rows of the documents it was given. -/
theorem entry_of_commit {writer : DocWriter} {pending : List Document} (hq : Queued writer pending)
    {rows : List Row} {row : Row} (h : row ∈ (writer.commit rows).2) :
    row.entry ∈ rows.map Row.entry ∨ row.entry ∈ entries pending := by
  obtain ⟨scored, rfl, hqueue⟩ := hq
  have hmem : row.entry ∈ (writer.commit rows).2.map Row.entry := List.mem_map_of_mem h
  rw [DocWriter.commit, hqueue, entry_foldl] at hmem
  exact mem_foldl_replaceRow hmem

/-- The rows that a step of the drain leaves: those there were, and documents of the spool. -/
theorem entry_of_drainStep {codec : Codec Document} {config : DrainConfig}
    {sidecars : Sidecars σ η} {spool spool' : Directory} {S T : Drain.State σ η}
    {event : Drain.Event} {segs : List (ℕ × List Document)}
    (h : DrainStep codec config sidecars spool S event spool' T) (hS : Handoff.Tracks segs S)
    {row : Row} (hrow : row ∈ T.rows) :
    row.entry ∈ S.rows.map Row.entry ∨ row.entry ∈ entries (segs.flatMap Prod.snd) := by
  -- what is queued is of the segment in hand
  have hcommit : ∀ {p : Process} {pass : Pass} {reading : Reading} {due : Bool},
      S.process = some p → p.phase = .reading pass reading due →
      row ∈ (p.writer.commit S.rows).2 →
      row.entry ∈ S.rows.map Row.entry ∨ row.entry ∈ entries (segs.flatMap Prod.snd) := by
    intro p pass reading due hp hphase hmem
    simp only [Handoff.Tracks, hp, hphase] at hS
    obtain ⟨seg, tail, added, pending, earlier, rfl, -, -, hadded, hsuffix, hq, -⟩ := hS
    refine (entry_of_commit hq hmem).imp_right fun hpending => ?_
    obtain ⟨d, hd, heq⟩ := List.mem_map.mp hpending
    refine List.mem_map.mpr ⟨d, ?_, heq⟩
    rw [List.flatMap_cons, hadded]
    exact List.mem_append_left _ (List.mem_append_left _ (hsuffix.subset hd))
  cases h with
  | commit hp hphase => exact hcommit hp hphase hrow
  | segmentDone hp hphase => exact hcommit hp hphase hrow
  | _ => exact Or.inl (List.mem_map_of_mem hrow)

variable {settings : Handoff.Settings σ η}

theorem Sourced.of_fresh {S : Handoff.System σ η} (h : Handoff.Fresh S) :
    Sourced settings S [] where
  sound := h.sound
  waiting d hd := by cases hd
  rows row hrow := by
    rw [h.rows] at hrow
    cases hrow

theorem entries_mono {l l' : List Document} (h : ∀ d ∈ l, d ∈ l') {e : Str × Page}
    (he : e ∈ entries l) : e ∈ entries l' := by
  obtain ⟨d, hd, rfl⟩ := List.mem_map.mp he
  exact List.mem_map_of_mem (h d hd)

/-- **Every step of the hand-off keeps the index to sealed pages.** -/
theorem Sourced.step {S T : Handoff.System σ η} {event : Handoff.Event}
    {segs : List (ℕ × List Document)} (hS : Sourced settings S segs)
    (h : Handoff.Step settings S event T) : ∃ segs', Sourced settings T segs' := by
  obtain ⟨segs', hT⟩ := h.sound hS.sound
  refine ⟨segs', hT, ?_, ?_⟩
  · cases h with
    | @crawl event U h =>
      have hsegs : Segments settings.codec U.spool segs' := hT.numbered.segments
      rcases Handoff.writerStep_numbered h hS.sound.numbered with ⟨hnum, hsealed⟩ |
        ⟨n, hnum, hsealed⟩
      · obtain rfl := Handoff.segments_unique hsegs hnum.segments
        show ∀ d ∈ segs'.flatMap Prod.snd, d ∈ U.log.sealed
        rw [hsealed]
        exact hS.waiting
      · obtain rfl := Handoff.segments_unique hsegs hnum.segments
        intro d hd
        show d ∈ U.log.sealed
        rw [hsealed]
        rw [List.flatMap_append, List.flatMap_singleton, List.mem_append] at hd
        exact List.mem_append.mpr (hd.imp_left (hS.waiting d))
    | @drain event spool U h =>
      have hsegs : Segments settings.codec spool segs' := hT.numbered.segments
      obtain ⟨segs'', hsegs'', hsuffix, -, -, -⟩ := Handoff.drainStep_replays h
        hS.sound.numbered.segments hS.sound.tracks hS.sound.rows
      obtain rfl := Handoff.segments_unique hsegs hsegs''
      intro d hd
      obtain ⟨seg, hseg, hmem⟩ := List.mem_flatMap.mp hd
      exact hS.waiting d (List.mem_flatMap.mpr ⟨seg, hsuffix.subset hseg, hmem⟩)
  · cases h with
    | @crawl event U h =>
      intro row hrow
      refine entries_mono (fun d hd => ?_) (hS.rows row hrow)
      show d ∈ U.log.sealed
      rcases Handoff.writerStep_numbered h hS.sound.numbered with ⟨-, hsealed⟩ | ⟨n, -, hsealed⟩
      · rw [hsealed]
        exact hd
      · rw [hsealed]
        exact List.mem_append_left _ hd
    | @drain event spool U h =>
      intro row hrow
      rcases entry_of_drainStep h hS.sound.tracks hrow with hold | hnew
      · obtain ⟨row', hrow', heq⟩ := List.mem_map.mp hold
        exact heq ▸ hS.rows row' hrow'
      · exact entries_mono hS.waiting hnew

theorem run_sourced {S₀ S : Handoff.System σ η} {events : List Handoff.Event}
    (h₀ : Handoff.Fresh S₀) (h : Run (Handoff.Step settings) S₀ events S) :
    ∃ segs, Sourced settings S segs := by
  refine h.invariant (I := fun S => ∃ segs, Sourced settings S segs)
    ⟨[], Sourced.of_fresh h₀⟩ ?_
  rintro T event U ⟨segs, hT⟩ hstep
  exact hT.step hstep

/-! ### The processes together -/

/-- What a stored document has of a row. -/
structure StoredAs (toF32 : ℚ → tantivy.F32) (document : tantivy.Document) (row : Row) : Prop where
  url : tantivy.firstText document .url = some row.url
  title : tantivy.firstText document .title = some row.title
  fetchedAt : tantivy.firstI64 document .fetchedAt = some row.fetchedAt
  authority : tantivy.firstF32 document .authority = some (toF32 row.authority)
  hostAuthority : tantivy.firstF32 document .hostAuthority = some (toF32 row.hostAuthority)

/-- What the index keeps: `holds` says of a committed state which rows were committed to it.
It has as many documents as rows, and every match is one of them. -/
structure Keeps (tantivy : QueryCache.Tantivy) (toF32 : ℚ → tantivy.F32)
    (holds : tantivy.Segments → List Row → Prop) : Prop where
  numDocs : ∀ segments rows, holds segments rows → tantivy.numDocs segments = docCount rows
  topDocs : ∀ segments rows query limit offset score address, holds segments rows →
    (score, address) ∈ tantivy.topDocs segments query limit offset →
    ∃ row ∈ rows, StoredAs toF32 (tantivy.doc segments address) row

/-- The crawler and the indexer, and an engine that is open on the index. -/
structure World (σ η : Type) (tantivy : QueryCache.Tantivy) where
  handoff : Handoff.System σ η
  engine : QueryCache.System tantivy

inductive Action (tantivy : QueryCache.Tantivy)
  | handoff (event : Handoff.Event)
  | commit (event : Handoff.Event) (segments : tantivy.Segments)
  | engine (event : QueryCache.Event tantivy)

/-- The steps of the drain that commit. -/
def Commits (event : Handoff.Event) : Prop :=
  event = .drain .commit ∨ event = .drain .segmentDone

/-- One step of any of them.  What a commit leaves on the disk holds the rows it has made. -/
inductive Step (settings : Handoff.Settings σ η) (contentHash : Str → ℕ)
    (holds : tantivy.Segments → List Row → Prop) :
    World σ η tantivy → Action tantivy → World σ η tantivy → Prop
  | handoff {w : World σ η tantivy} {event : Handoff.Event} {T : Handoff.System σ η}
      (h : Handoff.Step settings w.handoff event T) (hquiet : ¬ Commits event) :
      Step settings contentHash holds w (.handoff event) { w with handoff := T }
  | commit {w : World σ η tantivy} {event : Handoff.Event} {T : Handoff.System σ η}
      {segments : tantivy.Segments} (h : Handoff.Step settings w.handoff event T)
      (hcommits : Commits event) (hholds : holds segments T.index.rows) :
      Step settings contentHash holds w (.commit event segments)
        { handoff := T, engine := { w.engine with committed := segments } }
  | engine {w : World σ η tantivy} {event : QueryCache.Event tantivy}
      {s : QueryCache.System tantivy} (h : QueryCache.Step contentHash w.engine event s)
      (hquiet : ∀ segments, event ≠ .committed segments) :
      Step settings contentHash holds w (.engine event) { w with engine := s }

/-- What the crawler and the indexer have of an action. -/
def Action.handoffEvent : Action tantivy → Option Handoff.Event
  | .handoff event => some event
  | .commit event _ => some event
  | .engine _ => none

/-- What the engine sees of an action. -/
def Action.engineEvent : Action tantivy → Option (QueryCache.Event tantivy)
  | .handoff _ => none
  | .commit _ segments => some (.committed segments)
  | .engine event => some event

variable {contentHash : Str → ℕ} {holds : tantivy.Segments → List Row → Prop}
  {w v : World σ η tantivy} {actions : List (Action tantivy)}

theorem run_handoff (h : Run (Step settings contentHash holds) w actions v) :
    Run (Handoff.Step settings) w.handoff (actions.filterMap Action.handoffEvent) v.handoff := by
  refine h.filterMap World.handoff Action.handoffEvent ?_ ?_
  · intro a e b e' hstep he
    cases hstep with
    | handoff h => cases he; exact h
    | commit h => cases he; exact h
    | engine h => cases he
  · intro a e b hstep he
    cases hstep with
    | handoff h => cases he
    | commit h => cases he
    | engine h => rfl

theorem run_engine (h : Run (Step settings contentHash holds) w actions v) :
    Run (QueryCache.Step contentHash) w.engine (actions.filterMap Action.engineEvent)
      v.engine := by
  refine h.filterMap World.engine Action.engineEvent ?_ ?_
  · intro a e b e' hstep he
    cases hstep with
    | handoff h => cases he
    | commit h => cases he; exact ⟨.commit _, rfl⟩
    | engine h => cases he; exact h
  · intro a e b hstep he
    cases hstep with
    | handoff h => rfl
    | commit h => cases he
    | engine h => cases he

/-- Only a commit changes the rows. -/
theorem rows_eq {S T : Handoff.System σ η} {event : Handoff.Event}
    (h : Handoff.Step settings S event T) (hquiet : ¬ Commits event) :
    T.index.rows = S.index.rows := by
  cases h with
  | crawl h => rfl
  | drain h =>
    cases h with
    | commit => exact absurd (Or.inl rfl) hquiet
    | segmentDone => exact absurd (Or.inr rfl) hquiet
    | _ => rfl

/-- An engine changes what is committed at a commit only. -/
theorem committed_eq {s t : QueryCache.System tantivy} {event : QueryCache.Event tantivy}
    (h : QueryCache.Step contentHash s event t) (hquiet : ∀ segments, event ≠ .committed segments) :
    t.committed = s.committed := by
  obtain ⟨choice, h⟩ := h
  rcases choice with segments | key | _ | request | ⟨i, action⟩
  · cases h
    exact absurd rfl (hquiet segments)
  · cases h
    rfl
  · cases h
    rfl
  · cases h
    rfl
  · simp only [QueryCache.step] at h
    split at h
    · rcases QueryCache.advance_cases h <;> rfl
    · cases h

/-- **What is committed for the engine holds the rows of the index**, in every state. -/
theorem run_agrees (hw : holds w.engine.committed w.handoff.index.rows)
    (h : Run (Step settings contentHash holds) w actions v) :
    holds v.engine.committed v.handoff.index.rows := by
  refine h.invariant (I := fun v => holds v.engine.committed v.handoff.index.rows) hw ?_
  intro a e b ha hstep
  cases hstep with
  | @handoff _ T h hquiet =>
    show holds a.engine.committed T.index.rows
    rwa [rows_eq h hquiet]
  | commit h hcommits hholds => exact hholds
  | @engine _ s h hquiet =>
    show holds s.committed a.handoff.index.rows
    rwa [committed_eq h hquiet]

/-! ### What is shown -/

/-- A hit is read from a stored document that matched. -/
theorem mem_readHits {faults : QueryCache.Faults} {segments : tantivy.Segments}
    {generator : tantivy.Generator} {top : List (tantivy.F32 × tantivy.Address)} {n : ℕ}
    {hits : List (QueryCache.Hit tantivy.F32)}
    (h : QueryCache.readHits tantivy faults segments generator n top = .ok hits)
    {hit : QueryCache.Hit tantivy.F32} (hhit : hit ∈ hits) :
    ∃ score address, (score, address) ∈ top ∧
      hit = QueryCache.hitOf tantivy generator score (tantivy.doc segments address) := by
  induction top generalizing n hits with
  | nil =>
    cases h
    cases hhit
  | cons first top ih =>
    obtain ⟨document, hdocument, h⟩ := QueryCache.bind_ok h
    obtain rfl := QueryCache.read_ok hdocument
    obtain ⟨rest, hrest, h⟩ := QueryCache.bind_ok h
    cases h
    rcases List.mem_cons.mp hhit with rfl | hhit
    · exact ⟨first.1, first.2, List.mem_cons_self, rfl⟩
    · obtain ⟨score, address, hmem, heq⟩ := ih hrest hhit
      exact ⟨score, address, List.mem_cons_of_mem _ hmem, heq⟩

theorem hit_of_evaluate {segments : tantivy.Segments} {request : QueryCache.Request}
    {page : QueryCache.CachedPage tantivy.F32}
    (h : QueryCache.evaluate tantivy segments request = .ok page)
    {hit : QueryCache.Hit tantivy.F32} (hhit : hit ∈ page.hits) :
    ∃ query limit offset generator score address,
      (score, address) ∈ tantivy.topDocs segments query limit offset ∧
      hit = QueryCache.hitOf tantivy generator score (tantivy.doc segments address) := by
  obtain ⟨⟨parsed, total, relaxed⟩, -, h⟩ := QueryCache.bind_ok h
  obtain ⟨top, htop, h⟩ := QueryCache.bind_ok h
  obtain rfl := QueryCache.read_ok htop
  obtain ⟨generator, -, h⟩ := QueryCache.bind_ok h
  obtain ⟨hits, hhits, h⟩ := QueryCache.bind_ok h
  cases h
  obtain ⟨score, address, hmem, heq⟩ := mem_readHits hhits hhit
  exact ⟨parsed, _, _, generator, score, address, hmem, heq⟩

/-- A hit shows a row of the index, and a page that was sealed. -/
def Crawled (toF32 : ℚ → tantivy.F32) (S : Handoff.System σ η)
    (hit : QueryCache.Hit tantivy.F32) : Prop :=
  ∃ row ∈ S.index.rows, ∃ d ∈ S.log.sealed, row.url = d.url ∧
    hit.url = d.url ∧ hit.title = d.title ∧ hit.fetchedAt = d.fetchedAt ∧
    hit.authority = toF32 row.authority ∧ hit.hostAuthority = toF32 row.hostAuthority

/-- What is evaluated on the rows of an index shows pages that were sealed. -/
theorem Sourced.crawled {toF32 : ℚ → tantivy.F32} (hkeeps : Keeps tantivy toF32 holds)
    {S : Handoff.System σ η} {segs : List (ℕ × List Document)} (hS : Sourced settings S segs)
    {segments : tantivy.Segments} (hholds : holds segments S.index.rows)
    {request : QueryCache.Request} {page : QueryCache.CachedPage tantivy.F32}
    (h : QueryCache.evaluate tantivy segments request = .ok page)
    {hit : QueryCache.Hit tantivy.F32} (hhit : hit ∈ page.hits) : Crawled toF32 S hit := by
  obtain ⟨query, limit, offset, generator, score, address, hmem, rfl⟩ := hit_of_evaluate h hhit
  obtain ⟨row, hrow, hstored⟩ := hkeeps.topDocs _ _ _ _ _ _ _ hholds hmem
  obtain ⟨d, hd, heq⟩ := List.mem_map.mp (hS.rows row hrow)
  simp only [Row.entry, entry, Prod.mk.injEq, Page.mk.injEq] at heq
  obtain ⟨hurl, htitle, -, hfetched⟩ := heq
  refine ⟨row, hrow, d, hd, hurl.symm, ?_, ?_, ?_, ?_, ?_⟩
  · rw [QueryCache.hitOf, hstored.url, hurl]
    rfl
  · rw [QueryCache.hitOf, hstored.title, htitle]
    rfl
  · rw [QueryCache.hitOf, hstored.fetchedAt, hfetched]
    rfl
  · rw [QueryCache.hitOf, hstored.authority]
    rfl
  · rw [QueryCache.hitOf, hstored.hostAuthority]
    rfl

/-- The state a call was answered on was committed at some point after the call came. -/
theorem Opened.committed {start : tantivy.Segments} {es : List (QueryCache.Event tantivy)}
    {i : ℕ} {request : QueryCache.Request} {segments : tantivy.Segments}
    (h : QueryCache.Opened start es i request segments) :
    ∃ p q, es = p ++ q ∧ .entered i request ∈ p ∧
      (QueryCache.statesAfter start p).1 = segments := by
  obtain ⟨xs, ys, zs, rfl, hentered, -, hsegments⟩ := h
  rcases QueryCache.reader_fresh start xs ys i with hsame | hlater
  · refine ⟨xs ++ [.reloaded i], ys ++ .opened i :: zs, by simp, List.mem_append_left _ hentered, ?_⟩
    rw [QueryCache.statesAfter_snoc, hsegments, hsame]
    rfl
  · rw [← hsegments] at hlater
    obtain ⟨ys₁, ys₂, rfl⟩ := List.append_of_mem hlater
    refine ⟨(xs ++ .reloaded i :: ys₁) ++ [.committed segments], ys₂ ++ .opened i :: zs, by simp,
      List.mem_append_left _ (List.mem_append_left _ hentered), ?_⟩
    rw [QueryCache.statesAfter_snoc]
    rfl

theorem mem_of_engineEvent {event : QueryCache.Event tantivy}
    (hquiet : ∀ segments, event ≠ .committed segments)
    (h : event ∈ actions.filterMap Action.engineEvent) : .engine event ∈ actions := by
  obtain ⟨action, hmem, heq⟩ := List.mem_filterMap.mp h
  cases action with
  | handoff _ => cases heq
  | commit _ segments =>
    cases heq
    exact absurd rfl (hquiet segments)
  | engine _ =>
    cases heq
    exact hmem

/-- **What is shown was crawled.** Whatever the crawler, the indexer and other threads do
meanwhile, the answer to a call shows the index as it was committed at some moment after the
call came: it counts the URLs of that moment, each of its hits has the title and the time of a
page that was sealed by then, with the scores it was indexed with, and once the spool was empty
the index was just the last version of every page. -/
theorem served_pages_were_crawled (settings : Handoff.Settings σ η) (toF32 : ℚ → tantivy.F32)
    (holds : tantivy.Segments → List Row → Prop) (hkeeps : Keeps tantivy toF32 holds)
    (contentHash : Str → ℕ) (S₀ S : Handoff.System σ η) (events : List Handoff.Event)
    (h₀ : Handoff.Fresh S₀) (h : Run (Handoff.Step settings) S₀ events S)
    (start : tantivy.Segments) (hstart : holds start S.index.rows)
    (before after : List (Action tantivy)) (i : ℕ) (request : QueryCache.Request)
    (outcome : QueryCache.SearchOutcome tantivy.F32) (w : World σ η tantivy)
    (hrun : Run (Step settings contentHash holds)
      { handoff := S, engine := QueryCache.fresh start }
      (before ++ .engine (.answered i request (.ok outcome)) :: after) w)
    (hinjective : Set.InjOn (QueryCache.indexFingerprint tantivy contentHash)
      (QueryCache.committedStates start (before.filterMap Action.engineEvent))) :
    ∃ first second v, before = first ++ second ∧ .engine (.entered i request) ∈ first ∧
      Run (Step settings contentHash holds)
        { handoff := S, engine := QueryCache.fresh start } first v ∧
      QueryCache.Shows tantivy v.engine.committed request outcome ∧
      outcome.docCount = docCount v.handoff.index.rows ∧
      (v.handoff.index.rows.map Row.url).Nodup ∧
      (∀ hit ∈ outcome.hits, Crawled toF32 v.handoff hit) ∧
      ∀ listing, v.handoff.spool.Lists listing → sealedSegments listing = [] →
        table v.handoff.index.rows = upsertAll noPages (entries v.handoff.log.sealed) := by
  obtain ⟨a, b, hbefore, hstep, -⟩ := hrun.split
  cases hstep with
  | engine hengine hquiet =>
    obtain ⟨segments, hopened, hshows⟩ :=
      (QueryCache.run_invariant (run_engine hbefore)).answer hinjective hengine
    obtain ⟨p, q, hpq, hentered, hcommitted⟩ := Opened.committed hopened
    obtain ⟨first, second, rfl, hfirst, -⟩ := List.filterMap_eq_append_iff.mp hpq
    obtain ⟨v, hv, -⟩ := hbefore.of_append
    have hmoment : v.engine.committed = segments := by
      rw [(QueryCache.run_invariant (run_engine hv)).committed, hfirst, hcommitted]
    have hagrees : holds v.engine.committed v.handoff.index.rows := run_agrees hstart hv
    obtain ⟨segs, hsourced⟩ := run_sourced h₀ (h.append (run_handoff hv))
    rw [← hmoment] at hshows
    refine ⟨first, second, v, rfl, ?_, hv, hshows, ?_, hsourced.sound.rows, ?_, ?_⟩
    · refine mem_of_engineEvent (fun segments hc => by cases hc) ?_
      rwa [hfirst]
    · obtain ⟨page, -, -, -, -, hcount⟩ := hshows
      rw [hcount, hkeeps.numDocs _ _ hagrees]
    · obtain ⟨page, hpage, hhits, -⟩ := hshows
      intro hit hhit
      rw [hhits] at hhit
      exact hsourced.crawled hkeeps hagrees hpage hhit
    · intro listing hlist hempty
      have htable := hsourced.sound.spool_replays hlist
      rwa [spoolDocuments, hempty] at htable

/-! ### An index of rows -/

/-- The rows whose URL has all of some words, or any of them. -/
def matchesIn (rows : List Row) (query : Bool × List Str) : List ℕ :=
  QueryCache.wordMatches (rows.map Row.url) query

/-- An index that is its rows, each its own address, and matches the words of URLs. -/
def rowTantivy : QueryCache.Tantivy where
  Segments := List Row
  Query := Bool × List Str
  Address := ℕ
  Document := Option Row
  Generator := Unit
  F32 := ℚ
  describe rows := rows.flatMap fun row => row.url ++ ['\n']
  numDocs := docCount
  parseQuery _ conjunction query := .ok (conjunction, splitWhitespace query)
  count rows query := (matchesIn rows query).length
  topDocs rows query limit offset :=
    (((matchesIn rows query).drop offset).take limit).map fun i => (1, i)
  createGenerator _ _ _ _ := ()
  doc rows i := rows[i]?
  snippetHtml _ _ := []
  firstText row
    | .url => row.map Row.url
    | .title => row.map Row.title
    | .body => row.map Row.body
    | _ => none
  firstI64 row
    | .fetchedAt => row.map Row.fetchedAt
    | _ => none
  firstF32 row
    | .authority => row.map Row.authority
    | .hostAuthority => row.map Row.hostAuthority
    | _ => none
  zero := 0

def holdsRows (segments : rowTantivy.Segments) (rows : List Row) : Prop := segments = rows

/-- A match is the number of a row. -/
theorem stored_match {rows : List Row} {query : Bool × List Str} {i : ℕ}
    (h : i ∈ matchesIn rows query) : ∃ row ∈ rows, rowTantivy.doc rows i = some row := by
  have hlt : i < (rows.map Row.url).length := List.mem_range.mp (List.mem_filter.mp h).1
  rw [List.length_map] at hlt
  exact ⟨rows.get ⟨i, hlt⟩, List.get_mem _ _, List.getElem?_eq_getElem hlt⟩

theorem rowTantivy_keeps : Keeps rowTantivy id holdsRows where
  numDocs segments rows h := by
    rw [show segments = rows from h]
    rfl
  topDocs segments rows query limit offset score address h hmem := by
    obtain rfl : segments = rows := h
    obtain ⟨i, hi, heq⟩ := List.mem_map.mp hmem
    obtain rfl : i = address := congrArg Prod.snd heq
    obtain ⟨row, hrow, hdoc⟩ := stored_match (List.mem_of_mem_drop (List.mem_of_mem_take hi))
    refine ⟨row, hrow, ?_, ?_, ?_, ?_, ?_⟩ <;> rw [hdoc] <;> rfl

def urlRequest : QueryCache.Request := { query := "h:".toList, limit := 10, offset := 0 }

/-- The sealed page is drained, and then searched for. -/
def drainAndSearch : List (Action rowTantivy) :=
  [.handoff (.drain .start), .handoff (.drain (.list [sealedSegmentName 1])),
    .handoff (.drain (.score [samplePage] true)), .handoff (.drain .take),
    .handoff (.drain (.add samplePage)),
    .commit (.drain .segmentDone) [rowOf samplePage default],
    .engine (.entered 0 urlRequest), .engine (.reloaded 0), .engine (.opened 0),
    .engine .quiet, .engine .quiet]

/-- What the call returns. -/
def pageFound : QueryCache.SearchOutcome rowTantivy.F32 where
  hits := [{ url := "h:".toList, title := [], snippet := [], fetchedAt := 0, score := (1 : ℚ),
             authority := (0 : ℚ), hostAuthority := (0 : ℚ) }]
  totalMatches := 1
  docCount := 1
  cached := false
  relaxed := false

/-- An engine that is opened before anything is indexed. -/
def openedEarly : World Unit Unit rowTantivy :=
  { handoff := Handoff.sealedSystem, engine := QueryCache.fresh [] }

theorem drainAndSearch_run : ∃ w,
    Run (Step Handoff.sampleSettings QueryCache.plainHash holdsRows) openedEarly
      (drainAndSearch ++ [.engine (.answered 0 urlRequest (.ok pageFound))]) w := by
  have hfile : Handoff.sealedSystem.spool (sealedSegmentName 1)
      = some Handoff.sampleSegment.contents := (Handoff.sampleSpool_apply _).trans (if_pos rfl)
  have hready : sealedSegments [sealedSegmentName 1] = [sealedSegmentName 1] := by decide
  have hne : sealedSegments [sealedSegmentName 1] ≠ [] := hready ▸ List.cons_ne_nil _ _
  have hdocs : forEachDocument sampleCodec Handoff.sampleSegment.contents
      = ([samplePage], .clean) := by decide
  have hread : readAll sampleCodec Handoff.sealedSystem.spool
      (sealedSegments [sealedSegmentName 1]) = some [samplePage] := by
    rw [hready]
    exact readAll_cons hfile hdocs rfl
  exact ⟨_, Run.cons (.handoff (.drain (.start rfl)) (by simp [Commits])) <|
    Run.cons (.handoff (.drain (.list rfl rfl Handoff.sampleSpool_lists hne)) (by simp [Commits])) <|
    Run.cons (.handoff (.drain (.score rfl rfl hread)) (by simp [Commits])) <|
    Run.cons (.handoff (.drain (.take rfl rfl hready hfile)) (by simp [Commits])) <|
    Run.cons (.handoff (.drain (.add rfl rfl (congrArg Prod.fst hdocs))) (by simp [Commits])) <|
    Run.cons (.commit (.drain (.segmentDone rfl rfl rfl (congrArg Prod.snd hdocs)))
      (.inr rfl) rfl) <|
    Run.cons (.engine ⟨.enter urlRequest, rfl⟩ (by simp)) <|
    Run.cons (.engine ⟨.call 0 (.reload none), rfl⟩ (by simp)) <|
    Run.cons (.engine ⟨.call 0 .open, rfl⟩ (by simp)) <|
    Run.cons (.engine ⟨.call 0 .look, rfl⟩ (by simp)) <|
    Run.cons (.engine ⟨.call 0 (.compute QueryCache.noFaults), rfl⟩ (by simp)) <|
    Run.single (.engine ⟨.call 0 .store, rfl⟩ (by simp))⟩

/-- The page is found, and is the one that was crawled. -/
theorem served_pages_were_crawled_sample : ∃ v : World Unit Unit rowTantivy,
    pageFound.docCount = docCount v.handoff.index.rows ∧
    ∀ hit ∈ pageFound.hits, Crawled id v.handoff hit := by
  obtain ⟨w, hrun⟩ := drainAndSearch_run
  have hfresh : Handoff.Fresh Handoff.emptySystem := ⟨fun _ _ => rfl, rfl, rfl, rfl, rfl⟩
  have hinjective : Set.InjOn (QueryCache.indexFingerprint rowTantivy QueryCache.plainHash)
      (QueryCache.committedStates [] (drainAndSearch.filterMap Action.engineEvent)) := by
    have hne : QueryCache.indexFingerprint rowTantivy QueryCache.plainHash []
        ≠ QueryCache.indexFingerprint rowTantivy QueryCache.plainHash
          [rowOf samplePage default] := by decide
    have hstates : ∀ segments ∈
        QueryCache.committedStates [] (drainAndSearch.filterMap Action.engineEvent),
        segments = [] ∨ segments = [rowOf samplePage default] := by
      intro segments h
      refine h.imp_right fun h => ?_
      simp only [drainAndSearch, Action.engineEvent, List.filterMap_cons, List.filterMap_nil,
        List.mem_cons, List.not_mem_nil, reduceCtorEq, or_false] at h
      cases h
      rfl
    intro segments h segments' h' heq
    rcases hstates segments h with rfl | rfl <;> rcases hstates segments' h' with rfl | rfl
    · rfl
    · exact absurd heq hne
    · exact absurd heq.symm hne
    · rfl
  obtain ⟨-, -, v, -, -, -, -, hcount, -, hcrawled, -⟩ :=
    served_pages_were_crawled Handoff.sampleSettings id holdsRows rowTantivy_keeps
      QueryCache.plainHash Handoff.emptySystem Handoff.sealedSystem _ hfresh
      Handoff.sealedSystem_run [] rfl drainAndSearch [] 0 urlRequest pageFound w hrun hinjective
  exact ⟨v, hcount, hcrawled⟩

end Served
