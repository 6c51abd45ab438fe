/-
Where the URLs of the persisted filter are.

Three stores advance at different moments: the frontier gives up a job when it is popped,
a document can be read once its segment is sealed, and the seen-URL filter is written
when a crawl ends cleanly.  A `World` is the crawler's data directory together with the
spool and the indexer that drains it, and a step of it is a step of the crawler with the
calls it makes to the archive, while the indexer goes on.  Any process may be killed
anywhere, and any call may fail.

* `run_orderly`, `run_sealed` — what the archive does with its documents, call by call;
* `Located` — the places a URL can be at;
* `Located.step` — no step moves a URL to nowhere;
* `seen_urls_located` — so every URL of the persisted filter is at one of them;
* `seen_urls_lost` — and which of them are out of reach of the crawl.
-/
import MjlSearch.Accounting
import MjlSearch.Admission
import MjlSearch.DepthBound
import MjlSearch.Handoff

open Text Machine Policy Runs CrawlDb

namespace Crawler

variable {lib : Libraries} {cli : Cli} {σ η : Type}

/-! ### The archive, call by call -/

/-- The calls of the crawler to the archive among these events all have `P`. -/
def Calls (P : Storage.Event → Bool) (events : List Handoff.Event) : Prop :=
  ∀ event, Handoff.Event.crawl event ∈ events → P event = true

/-- The documents written. -/
def writtenBy (events : List Handoff.Event) : List Document :=
  events.filterMap fun
    | .crawl (.writePage document) => some document
    | _ => none

/-- What opening the archive does. -/
def opening : Storage.Event → Bool
  | .open _ | .createSegment | .flush _ => true
  | _ => false

/-- What writing a page does: its segment may be rotated. -/
def writing : Storage.Event → Bool
  | .writePage _ | .sealSegment | .createSegment | .flush _ => true
  | _ => false

/-- What sealing the archive does. -/
def sealing : Storage.Event → Bool
  | .close | .sealSegment | .flush _ => true
  | _ => false

/-- All that does not fail. -/
def orderly : Storage.Event → Bool
  | .createFails | .writeFails _ _ | .sealFails | .kill => false
  | _ => true

theorem Calls.orderly_of {P : Storage.Event → Bool} {events : List Handoff.Event}
    (hP : ∀ event, P event = true → orderly event = true) (h : Calls P events) :
    Calls orderly events :=
  fun event hevent => hP event (h event hevent)

theorem writing_orderly (event : Storage.Event) (h : writing event = true) :
    orderly event = true := by
  cases event <;> first | rfl | cases h

theorem sealing_orderly (event : Storage.Event) (h : sealing event = true) :
    orderly event = true := by
  cases event <;> first | rfl | cases h

/-- The writer waits for the next call. -/
def Idle (S : Handoff.System σ η) : Prop := ∃ w, S.writer = some (.idle, w)

/-- No document is left over where no segment is open. -/
structure Settled (S : Handoff.System σ η) : Prop where
  off : S.writer = none → S.log.current = []
  opening : ∀ w, S.writer = some (.opening, w) → S.log.current = []

theorem Idle.settled {S : Handoff.System σ η} (h : Idle S) : Settled S := by
  obtain ⟨w, hw⟩ := h
  refine ⟨fun hc => ?_, fun w' hc => ?_⟩
  · rw [hw] at hc
    cases hc
  · rw [hw] at hc
    cases hc

variable {settings : Handoff.Settings σ η} {S T : Handoff.System σ η}
  {events : List Handoff.Event}

/-- One step of the hand-off that does not fail. -/
theorem Settled.step {event : Handoff.Event} (h : Settled S)
    (horderly : ∀ e, event = .crawl e → orderly e = true)
    (hstep : Handoff.Step settings S event T) :
    Settled T ∧ T.log.sealed ++ T.log.current
      = S.log.sealed ++ S.log.current ++ writtenBy [event] := by
  cases hstep with
  | drain _ => exact ⟨⟨h.off, h.opening⟩, (List.append_nil _).symm⟩
  | @crawl e U hwriter =>
    have hok := horderly e rfl
    generalize hS : S.crawl = S₀ at hwriter
    have hwas : S₀.writer = S.writer ∧ S₀.log = S.log := by
      rw [← hS]
      exact ⟨rfl, rfl⟩
    obtain ⟨hw₀, hlog⟩ := hwas
    cases hwriter with
    | «open» hoff hlist hnext =>
      rw [hw₀] at hoff
      have hnone := h.off hoff
      refine ⟨⟨fun hc => (by cases hc), fun w _ => ?_⟩, ?_⟩
      · show S₀.log.current = []
        rw [hlog]
        exact hnone
      · show S₀.log.sealed ++ S₀.log.current = _
        rw [hlog]
        exact (List.append_nil _).symm
    | createSegment hw hfit =>
      rw [hw₀] at hw
      have hnone := h.opening _ hw
      refine ⟨⟨fun hc => (by cases hc), fun w hc => (by cases hc)⟩, ?_⟩
      show S₀.log.sealed ++ [] = _
      rw [hlog, hnone]
      exact (List.append_nil _).symm
    | @writePage w segment segment' document hw hseg hwrite =>
      refine ⟨⟨fun hc => (by cases hc), fun w hc => ?_⟩, ?_⟩
      · -- an idle writer goes on to be idle, or to seal
        dsimp only at hc
        split at hc <;> cases hc
      · show S₀.log.sealed ++ (S₀.log.current ++ [document]) = _
        rw [hlog, ← List.append_assoc]
        rfl
    | @flush phase w segment part hw hseg hpart =>
      rw [hw₀] at hw
      refine ⟨⟨fun hc => ?_, fun w' hc => ?_⟩, ?_⟩
      · show S₀.log.current = []
        rw [hlog]
        exact h.off (hw₀.symm.trans hc)
      · show S₀.log.current = []
        rw [hlog]
        exact h.opening w' (hw₀.symm.trans hc)
      · show S₀.log.sealed ++ S₀.log.current = _
        rw [hlog]
        exact (List.append_nil _).symm
    | close hw hphase =>
      refine ⟨⟨fun hc => (by cases hc), fun w hc => (by cases hc)⟩, ?_⟩
      show S₀.log.sealed ++ S₀.log.current = _
      rw [hlog]
      exact (List.append_nil _).symm
    | @sealSegment reopen w segment hw hseg =>
      refine ⟨⟨fun _ => rfl, fun _ _ => rfl⟩, ?_⟩
      show S₀.log.sealed ++ S₀.log.current ++ [] = _
      rw [hlog]
      rfl
    | createFails => cases hok
    | writeFails => cases hok
    | sealFails => cases hok
    | kill => cases hok

/-- **As long as no call fails, what is written is in a sealed segment or in the open
one**, in the order it was written. -/
theorem run_orderly (h : Run (Handoff.Step settings) S events T) (hcalls : Calls orderly events)
    (hS : Settled S) :
    Settled T ∧ T.log.sealed ++ T.log.current
      = S.log.sealed ++ S.log.current ++ writtenBy events := by
  have hrun := h.restrict (Q := fun event => ∀ e, event = .crawl e → orderly e = true) ?_
  · refine hrun.invariant_trace (I := fun events T => Settled T ∧ T.log.sealed ++ T.log.current
      = S.log.sealed ++ S.log.current ++ writtenBy events) ⟨hS, (List.append_nil _).symm⟩ ?_
    rintro events U event V ⟨hU, hlog⟩ ⟨hstep, horderly⟩
    obtain ⟨hV, hlog'⟩ := hU.step horderly hstep
    refine ⟨hV, ?_⟩
    rw [hlog', hlog, List.append_assoc]
    exact congrArg _ List.filterMap_append.symm
  · intro event hevent e he
    exact hcalls e (he ▸ hevent)

/-- **What is sealed stays sealed**, whatever happens. -/
theorem run_sealed (h : Run (Handoff.Step settings) S events T) :
    ∀ document ∈ S.log.sealed, document ∈ T.log.sealed := by
  refine h.invariant (I := fun T => ∀ document ∈ S.log.sealed, document ∈ T.log.sealed)
    (fun _ hd => hd) ?_
  intro U event V hU hstep document hd
  have hmem := hU document hd
  cases hstep with
  | drain _ => exact hmem
  | @crawl e W hwriter =>
    cases hwriter with
    | sealSegment => exact List.mem_append_left _ hmem
    | _ => exact hmem

/-! ### The world -/

/-- How a visit ended. -/
inductive Ending
  | failed (e : CrawlError)
  | sitemap
  | dropped
  | page (document : Document)
  deriving DecidableEq

/-- How the visit of an outcome ended. -/
def ending (lib : Libraries) (cli : Cli) (nowMs : ℤ) (outcome : Outcome) : Ending :=
  match outcome.result with
  | .error e => .failed e
  | .ok (.sitemap url links) =>
    if Dropped lib cli (.sitemap url links) then .dropped else .sitemap
  | .ok (.page page parsed) =>
    if Dropped lib cli (.page page parsed) then .dropped
    else .page (documentOf lib nowMs page parsed)

/-- The document to archive. -/
def Ending.documents : Ending → List Document
  | .page document => [document]
  | _ => []

/-- A URL whose visit is over, and how it ended. -/
abbrev Visit.End := Str × Ending

/-- What a step absorbs. -/
def absorbedBy (lib : Libraries) (cli : Cli) : Event → List Visit.End
  | .absorbed nowMs outcome => [(outcome.job.url, ending lib cli nowMs outcome)]
  | _ => []

/-- The documents a step has to archive. -/
def documentsOf (ends : List Visit.End) : List Document := ends.flatMap fun e => e.2.documents

/-- The crawler's data directory, the spool and the indexer, and what became of the
visits: how those ended that were absorbed, and which URLs were in the hands of a process
when it was killed or failed. -/
structure World (lib : Libraries) (σ η : Type) where
  cli : Cli
  crawl : System lib
  handoff : Handoff.System σ η
  ended : List Visit.End
  abandoned : List Str

/-- The URLs in the queue. -/
def pendingUrls (lib : Libraries) (db : CrawlDb) : List Str :=
  db.pending.entries.filterMap fun e => (lib.codecs.job.decode e.2).map CrawlJob.url

/-- The URLs in flight. -/
def inFlightUrls (s : System lib) : List Str :=
  match s.process with
  | some p => (inFlightJobs p).map CrawlJob.url
  | none => []

/-- The URLs whose document is in the open segment. -/
def unsealedUrls (w : World lib σ η) : List Str :=
  (w.ended.filter fun e => e.2.documents.any fun d => w.handoff.log.current.contains d).map Prod.fst

/-- What a process has in its hands as it ends with the crawler in the state `t`: what is
in flight or just popped, and what is not sealed. -/
def inHands (w : World lib σ η) (t : System lib) : List Str :=
  inFlightUrls w.crawl ++ (pushedJobs lib t.database w.crawl.database).map CrawlJob.url ++
    unsealedUrls w

/-- What is done in the world. -/
inductive Action
  | crawl (choice : Choice) (events : List Handoff.Event)
  | handoff (event : Handoff.Event)

/-- A step of the crawler and the calls it makes, or a step of the indexer. -/
inductive WorldStep (settings : Handoff.Settings σ η) (w : World lib σ η) :
    Action → World lib σ η → Prop
  /-- A crawl is started, with a command line of its own. -/
  | started {cli : Cli} {choice : Choice} {e : Event} {t : System lib}
      {events : List Handoff.Event} {H : Handoff.System σ η} (hoff : w.crawl.process = none)
      (hstep : step cli w.crawl choice = some (e, t)) (hon : t.process ≠ none)
      (hrun : Run (Handoff.Step settings) w.handoff events H) (hcalls : Calls opening events)
      (hidle : Idle H) :
      WorldStep settings w (.crawl choice events) { w with cli, crawl := t, handoff := H }
  /-- It is not: a call of it fails. -/
  | notStarted {cli : Cli} {choice : Choice} {e : Event} {t : System lib}
      {events : List Handoff.Event} {H : Handoff.System σ η} (hoff : w.crawl.process = none)
      (hstep : step cli w.crawl choice = some (e, t)) (hoff' : t.process = none)
      (hrun : Run (Handoff.Step settings) w.handoff events H) (hwritten : writtenBy events = [])
      (hnone : H.writer = none) :
      WorldStep settings w (.crawl choice events) { w with cli, crawl := t, handoff := H }
  /-- The crawl goes on, and archives what it absorbs. -/
  | goesOn {p q : Process lib} {choice : Choice} {e : Event} {t : System lib}
      {events : List Handoff.Event} {H : Handoff.System σ η} (hon : w.crawl.process = some p)
      (hstep : step w.cli w.crawl choice = some (e, t)) (hon' : t.process = some q)
      (hrun : Run (Handoff.Step settings) w.handoff events H) (hcalls : Calls writing events)
      (hwritten : writtenBy events = documentsOf (absorbedBy lib w.cli e)) (hidle : Idle H) :
      WorldStep settings w (.crawl choice events)
        { w with crawl := t, handoff := H, ended := w.ended ++ absorbedBy lib w.cli e }
  /-- The crawl is over: the archive is sealed, and the filter saved. -/
  | closed {p : Process lib} {e : Event} {t : System lib} {events : List Handoff.Event}
      {H : Handoff.System σ η} (hon : w.crawl.process = some p)
      (hstep : step w.cli w.crawl (.close true) = some (e, t))
      (hrun : Run (Handoff.Step settings) w.handoff events H) (hcalls : Calls sealing events)
      (hnone : H.writer = none) :
      WorldStep settings w (.crawl (.close true) events) { w with crawl := t, handoff := H }
  /-- The process is killed, or a call of it fails: it may have archived what it was about
  to, and seals the open segment if it can. -/
  | stopped {p : Process lib} {choice : Choice} {e : Event} {t : System lib}
      {events : List Handoff.Event} {H : Handoff.System σ η} (hon : w.crawl.process = some p)
      (hstep : step w.cli w.crawl choice = some (e, t)) (hoff : t.process = none)
      (hunsaved : choice ≠ .close true) (hrun : Run (Handoff.Step settings) w.handoff events H)
      (hopen : ∀ listing, .crawl (.open listing) ∉ events)
      (hwritten : writtenBy events <+: documentsOf (absorbedBy lib w.cli e))
      (hnone : H.writer = none) :
      WorldStep settings w (.crawl choice events)
        { w with
          crawl := t
          handoff := H
          ended := w.ended ++ absorbedBy lib w.cli e
          abandoned := w.abandoned ++ inHands w t }
  /-- The indexer takes a step. -/
  | drained {event : Drain.Event} {H : Handoff.System σ η}
      (hstep : Handoff.Step settings w.handoff (.drain event) H) :
      WorldStep settings w (.handoff (.drain event)) { w with handoff := H }
  /-- The buffered writer passes some of its bytes on. -/
  | flushed {part : List UInt8} {H : Handoff.System σ η}
      (hstep : Handoff.Step settings w.handoff (.crawl (.flush part)) H) :
      WorldStep settings w (.handoff (.crawl (.flush part))) { w with handoff := H }

/-- Nothing has been crawled or indexed yet. -/
structure World.Fresh (w : World lib σ η) : Prop where
  crawl : w.crawl = fresh
  handoff : Handoff.Fresh w.handoff

/-! ### Where a URL is -/

/-- The places a URL can be at. -/
inductive Located (w : World lib σ η) (url : Str) : Prop
  /-- It is in the queue. -/
  | pending (h : url ∈ pendingUrls lib w.crawl.database)
  /-- The running process is visiting it. -/
  | inFlight (h : url ∈ inFlightUrls w.crawl)
  /-- Its visit failed, or was disallowed. -/
  | failed (e : CrawlError) (h : (url, .failed e) ∈ w.ended)
  /-- It is a sitemap. -/
  | sitemap (h : (url, .sitemap) ∈ w.ended)
  /-- It redirects out of scope. -/
  | dropped (h : (url, .dropped) ∈ w.ended)
  /-- Its document is in the open segment of the running process. -/
  | unsealed (hon : w.crawl.process ≠ none) (h : url ∈ unsealedUrls w)
  /-- Its document is in a sealed segment, or was drained from one. -/
  | sealed (document : Document) (h : (url, .page document) ∈ w.ended)
      (hsealed : document ∈ w.handoff.log.sealed)
  /-- It was in the hands of a process when that was killed or failed. -/
  | abandoned (h : url ∈ w.abandoned)

variable {w w' : World lib σ η} {url : Str}

theorem mem_pendingUrls {db : CrawlDb} : url ∈ pendingUrls lib db ↔
    ∃ e ∈ db.pending.entries, ∃ job, lib.codecs.job.decode e.2 = some job ∧ job.url = url := by
  simp [pendingUrls, List.mem_filterMap]

/-- A URL that was in the queue still is, or it was taken off. -/
theorem pending_or_taken {before after : CrawlDb} (h : url ∈ pendingUrls lib before) :
    url ∈ pendingUrls lib after ∨ url ∈ (pushedJobs lib after before).map CrawlJob.url := by
  obtain ⟨e, he, job, hjob, hurl⟩ := mem_pendingUrls.mp h
  by_cases hkept : e ∈ after.pending.entries
  · exact Or.inl (mem_pendingUrls.mpr ⟨e, hkept, job, hjob, hurl⟩)
  · refine Or.inr (List.mem_map.mpr ⟨job, ?_, hurl⟩)
    refine List.mem_filterMap.mpr ⟨e, ?_, hjob⟩
    exact List.mem_filter.mpr ⟨he, decide_eq_true hkept⟩

/-- A URL that was pushed is in the queue. -/
theorem pushed_pending {before after : CrawlDb} {job : CrawlJob}
    (h : job ∈ pushedJobs lib before after) : job.url ∈ pendingUrls lib after := by
  obtain ⟨e, he, hjob⟩ := List.mem_filterMap.mp h
  exact mem_pendingUrls.mpr ⟨e, (List.mem_filter.mp he).1, job, hjob, rfl⟩

theorem pendingUrls_congr {db db' : CrawlDb} (h : db'.pending = db.pending) :
    pendingUrls lib db' = pendingUrls lib db := by
  rw [pendingUrls, h, pendingUrls]

theorem mem_unsealedUrls : url ∈ unsealedUrls w ↔
    ∃ document, (url, Ending.page document) ∈ w.ended ∧ document ∈ w.handoff.log.current := by
  constructor
  · intro h
    obtain ⟨⟨url', done⟩, hmem, rfl⟩ := List.mem_map.mp h
    obtain ⟨hended, hopen⟩ := List.mem_filter.mp hmem
    cases done with
    | page document =>
      refine ⟨document, hended, ?_⟩
      simpa [Ending.documents] using hopen
    | _ => simp [Ending.documents] at hopen
  · rintro ⟨document, hended, hopen⟩
    refine List.mem_map.mpr ⟨(url, .page document), List.mem_filter.mpr ⟨hended, ?_⟩, rfl⟩
    simpa [Ending.documents] using hopen

/-- A URL stays where its visit has ended, as long as what was sealed stays sealed. -/
theorem Located.settled (h : Located w url)
    (hended : ∀ e ∈ w.ended, e ∈ w'.ended)
    (habandoned : ∀ url ∈ w.abandoned, url ∈ w'.abandoned)
    (hsealed : ∀ document ∈ w.handoff.log.sealed, document ∈ w'.handoff.log.sealed)
    (hpending : url ∈ pendingUrls lib w.crawl.database → Located w' url)
    (hflight : url ∈ inFlightUrls w.crawl → Located w' url)
    (hunsealed : w.crawl.process ≠ none → url ∈ unsealedUrls w → Located w' url) :
    Located w' url := by
  cases h with
  | pending h => exact hpending h
  | inFlight h => exact hflight h
  | failed e h => exact .failed e (hended _ h)
  | sitemap h => exact .sitemap (hended _ h)
  | dropped h => exact .dropped (hended _ h)
  | unsealed hon h => exact hunsealed hon h
  | sealed document h hd => exact .sealed document (hended _ h) (hsealed _ hd)
  | abandoned h => exact .abandoned (habandoned _ h)

/-- What is done with a visit whose outcome is absorbed. -/
theorem Located.absorbed {e : Event} (hended : ∀ v ∈ absorbedBy lib cli e, v ∈ w'.ended)
    (hwritten : ∀ document ∈ documentsOf (absorbedBy lib cli e),
      document ∈ w'.handoff.log.sealed ++ w'.handoff.log.current)
    (hon : w'.crawl.process ≠ none) {nowMs : ℤ} {outcome : Outcome}
    (he : e = .absorbed nowMs outcome) : Located w' outcome.job.url := by
  subst he
  have hmem := hended _ (List.mem_singleton_self _)
  cases hending : ending lib cli nowMs outcome with
  | failed e =>
    rw [hending] at hmem
    exact .failed e hmem
  | sitemap =>
    rw [hending] at hmem
    exact .sitemap hmem
  | dropped =>
    rw [hending] at hmem
    exact .dropped hmem
  | page document =>
    rw [hending] at hmem
    have hdocument := hwritten document (by simp [documentsOf, absorbedBy, hending, Ending.documents])
    rcases List.mem_append.mp hdocument with hd | hd
    · exact .sealed document hmem hd
    · exact .unsealed hon (mem_unsealedUrls.mpr ⟨document, hmem, hd⟩)

/-! ### The filters -/

/-- The filter is a new one with URLs inserted, and each of them is at a place. -/
def Marks (w : World lib σ η) (filter : lib.seen.Filter) : Prop :=
  ∃ urls : List Str, filter = urls.foldl lib.seen.insert lib.seen.fresh ∧
    ∀ url ∈ urls, Located w url

theorem Marks.fresh : Marks w lib.seen.fresh := ⟨[], rfl, fun _ hc => by cases hc⟩

theorem Marks.imp {filter : lib.seen.Filter} (h : Marks w filter)
    (hlocated : ∀ url, Located w url → Located w' url) : Marks w' filter := by
  obtain ⟨urls, hfilter, hurls⟩ := h
  exact ⟨urls, hfilter, fun url hurl => hlocated url (hurls url hurl)⟩

/-- The owner's filter after some pushes. -/
theorem Admits.seen {P : CrawlJob → Prop} {o o' : Owner lib} {jobs : List CrawlJob}
    (h : Admits P o jobs o') :
    o'.seen = (jobs.map CrawlJob.url).foldl lib.seen.insert o.seen := by
  induction h with
  | refl => rfl
  | keep _ _ ih => exact ih
  | push _ _ _ _ ih =>
    show lib.seen.insert _ _ = _
    rw [ih, List.map_append, List.foldl_append]
    rfl

theorem Marks.gains {filter filter' : lib.seen.Filter} {jobs : List Str} (h : Marks w filter)
    (hfilter : filter' = jobs.foldl lib.seen.insert filter)
    (hjobs : ∀ url ∈ jobs, Located w url) : Marks w filter' := by
  obtain ⟨urls, rfl, hurls⟩ := h
  refine ⟨urls ++ jobs, by rw [hfilter, List.foldl_append], fun url hurl => ?_⟩
  rcases List.mem_append.mp hurl with hurl | hurl
  · exact hurls url hurl
  · exact hjobs url hurl

/-! ### Steps of the crawler -/

/-- What a process starts with. -/
theorem Turn.starts {s t : System lib} {e : Event} (hturn : Turn cli s e t)
    (hoff : s.process = none) :
    t.bloom = s.bloom ∧ pendingUrls lib t.database = pendingUrls lib s.database ∧
      inFlightUrls t = [] ∧ ∀ q, t.process = some q →
        e = .started ∧ (q.owner.seen = lib.seen.fresh ∨ s.bloom = some q.owner.seen) := by
  cases hturn with
  | @notStarted faults _ =>
    have hnone : ({ s with db := (Frontier.open faults s.db).2 } : System lib).process = none := hoff
    refine ⟨rfl, ?_, by rw [inFlightUrls, hnone], fun q hq => ?_⟩
    · simp only [System.database, hoff]
      exact pendingUrls_congr (open_frame faults s.db).1
    · rw [hnone] at hq
      cases hq
  | @started faults frontier reads _ hopen =>
    refine ⟨rfl, ?_, rfl, fun q hq => ?_⟩
    · have hdb : (System.database s).pending = s.db.pending := by
        rw [System.database, hoff]
      refine pendingUrls_congr ?_
      show frontier.db.pending = _
      rw [hdb, (open_frame faults s.db).2.2.2 frontier hopen]
      exact (open_frame faults s.db).1
    · cases hq
      refine ⟨rfl, ?_⟩
      show (if reads then s.bloom.getD lib.seen.fresh else lib.seen.fresh) = _ ∨
        s.bloom = some (if reads then s.bloom.getD lib.seen.fresh else lib.seen.fresh)
      by_cases hreads : reads = true
      · rw [if_pos hreads]
        rcases hbloom : s.bloom with _ | filter
        · exact Or.inl rfl
        · exact Or.inr rfl
      · rw [if_neg hreads]
        exact Or.inl rfl
  | _ => simp_all

/-- A process that goes on does not start. -/
theorem Turn.not_started {s t : System lib} {e : Event} (hturn : Turn cli s e t)
    {p : Process lib} (hon : s.process = some p) : e ≠ .started := by
  intro he
  subst he
  generalize he : Event.started = e at hturn
  cases hturn with
  | started hoff =>
    rw [hon] at hoff
    cases hoff
  | checked _ _ _ => split at he <;> cases he
  | _ => cases he

/-- The filter is written by closing the crawl, and by nothing else. -/
theorem Turn.bloom {s t : System lib} {e : Event} (hturn : Turn cli s e t) :
    t.bloom = s.bloom ∨ t.process = none := by
  cases hturn with
  | closed => exact Or.inr rfl
  | @seeded p seed rest faults =>
    left
    rcases queueSeed faults p.owner seed with ⟨_ | _, owner⟩ <;> rfl
  | @absorbed p nowMs faults outcome =>
    left
    rcases absorb cli faults p.owner nowMs outcome with ⟨_ | _, owner⟩ <;> rfl
  | _ => exact Or.inl rfl

theorem proceed_bloom (s : System lib) (p : Process lib) (called : Called lib) :
    (s.proceed p called).bloom = s.bloom := by
  rcases called with ⟨_ | _, owner⟩ <;> rfl

/-- Closing a crawl that saves its filter. -/
theorem close_saves {s t : System lib} {e : Event} {p : Process lib} (hon : s.process = some p)
    (h : step cli s (.close true) = some (e, t)) :
    p.phase = .closing ∧ t = { s.halt p.owner with bloom := some p.owner.seen } := by
  simp only [step, hon] at h
  split at h
  · rename_i hphase
    cases h
    exact ⟨hphase, rfl⟩
  · cases h

/-- A step of a running crawl moves each of its jobs at most from the queue into flight,
and from there to the absorbed ones. -/
theorem Crawl.flights (hlaws : UrlLaws lib.urls) {s : System lib} {log : List Logged}
    {a b : System lib} (h : Crawl cli s log a) {p q : Process lib} (hp : a.process = some p)
    (hq : b.process = some q) {e : Event} (hstep : Step cli a e b) :
    ∀ url, url ∈ inFlightUrls a ++ (pushedJobs lib b.database a.database).map CrawlJob.url →
      url ∈ inFlightUrls b ∨ ∃ nowMs outcome, e = .absorbed nowMs outcome ∧
        outcome.job.url = url := by
  have hne : e ≠ .started := (step_turn hstep).not_started hp
  have hmore := h.snoc hstep hne trivial
  have hbefore := crawl_accounts hlaws h p hp
  have hafter := crawl_accounts hlaws hmore q hq
  generalize hentry : Logged.mk e (pushedJobs lib a.database b.database)
    (pushedJobs lib b.database a.database) = entry at hmore hafter
  have hjobs : (inFlightJobs p ++ entry.popped).Perm (absorbedJobs [entry] ++ inFlightJobs q) := by
    have hpops := hafter.popped
    rw [pops_snoc, hbefore.popped] at hpops
    have hboth := hafter.absorbed
    rw [← hpops, absorbedJobs_snoc, List.append_assoc] at hboth
    have hleft := (hbefore.absorbed.append_right entry.popped).symm.trans hboth
    rw [List.append_assoc] at hleft
    exact (List.perm_append_left_iff _).mp hleft
  intro url hurl
  have hmem : url ∈ (inFlightJobs p ++ entry.popped).map CrawlJob.url := by
    rw [← hentry, List.map_append]
    rwa [inFlightUrls, hp] at hurl
  obtain ⟨job, hjob, rfl⟩ := List.mem_map.mp hmem
  rcases List.mem_append.mp (hjobs.mem_iff.mp hjob) with hjob | hjob
  · right
    rw [← hentry, absorbedJobs] at hjob
    obtain ⟨entry', hmem', habsorbed⟩ := List.mem_filterMap.mp hjob
    rw [List.mem_singleton.mp hmem'] at habsorbed
    dsimp only at habsorbed
    split at habsorbed
    · rename_i nowMs outcome
      cases habsorbed
      exact ⟨nowMs, outcome, rfl, rfl⟩
    · cases habsorbed
  · left
    rw [inFlightUrls, hq]
    exact List.mem_map_of_mem hjob

/-! ### Steps of the world -/

/-- What is known of a world: where its crawl comes from, and that the URLs of both
filters, the saved one and that of the running process, are at their places. -/
structure Tracked (w : World lib σ η) : Prop where
  off : w.crawl.process = none → DataDirectory lib w.crawl
  on : ∀ p, w.crawl.process = some p →
    (∃ s log, Crawl w.cli s log w.crawl) ∧ Idle w.handoff ∧ Marks w p.owner.seen
  saved : ∀ filter, w.crawl.bloom = some filter → Marks w filter

/-- While no crawl is running, nothing moves. -/
theorem Located.rests (h : Located w url) (hoff : w.crawl.process = none)
    (hpending : pendingUrls lib w'.crawl.database = pendingUrls lib w.crawl.database)
    (hended : w'.ended = w.ended) (habandoned : w'.abandoned = w.abandoned)
    (hsealed : ∀ document ∈ w.handoff.log.sealed, document ∈ w'.handoff.log.sealed) :
    Located w' url := by
  refine h.settled (fun e he => by rwa [hended]) (fun u hu => by rwa [habandoned]) hsealed
    (fun hp => .pending (by rwa [hpending])) (fun hf => ?_) (fun hon _ => absurd hoff hon)
  rw [inFlightUrls, hoff] at hf
  cases hf

/-- The crawler stays as it is. -/
theorem Located.same (h : Located w url) (hcrawl : w'.crawl = w.crawl)
    (hended : w'.ended = w.ended) (habandoned : w'.abandoned = w.abandoned)
    (hlog : w'.handoff.log = w.handoff.log) : Located w' url := by
  have hunsealed : unsealedUrls w' = unsealedUrls w := by
    rw [unsealedUrls, hended, hlog, unsealedUrls]
  cases h with
  | pending h => exact .pending (by rwa [hcrawl])
  | inFlight h => exact .inFlight (by rwa [hcrawl])
  | failed e h => exact .failed e (by rwa [hended])
  | sitemap h => exact .sitemap (by rwa [hended])
  | dropped h => exact .dropped (by rwa [hended])
  | unsealed hon h => exact .unsealed (by rwa [hcrawl]) (by rwa [hunsealed])
  | sealed document h hd => exact .sealed document (by rwa [hended]) (by rwa [hlog])
  | abandoned h => exact .abandoned (by rwa [habandoned])

theorem Tracked.same (h : Tracked w) (hcli : w'.cli = w.cli) (hcrawl : w'.crawl = w.crawl)
    (hended : w'.ended = w.ended) (habandoned : w'.abandoned = w.abandoned)
    (hlog : w'.handoff.log = w.handoff.log) (hidle : Idle w.handoff → Idle w'.handoff) :
    Tracked w' := by
  have hlocated : ∀ url, Located w url → Located w' url := fun url hurl =>
    hurl.same hcrawl hended habandoned hlog
  refine ⟨?_, ?_, ?_⟩
  · rw [hcrawl]
    exact h.off
  · rw [hcrawl, hcli]
    intro p hp
    obtain ⟨hfrom, hwriter, hmarks⟩ := h.on p hp
    exact ⟨hfrom, hidle hwriter, hmarks.imp hlocated⟩
  · rw [hcrawl]
    exact fun filter hfilter => (h.saved filter hfilter).imp hlocated

/-- Where the URLs are after a step of the crawl. -/
theorem Located.goesOn (hlaws : UrlLaws lib.urls) {s : System lib} {log : List Logged}
    (hcrawl : Crawl w.cli s log w.crawl) {p q : Process lib} (hp : w.crawl.process = some p)
    {e : Event} {t : System lib} (hq : t.process = some q) (hstep : Step w.cli w.crawl e t)
    {H : Handoff.System σ η} {events : List Handoff.Event}
    (hrun : Run (Handoff.Step settings) w.handoff events H) (hcalls : Calls writing events)
    (hwritten : writtenBy events = documentsOf (absorbedBy lib w.cli e)) (hidle : Idle w.handoff)
    (h : Located w url) :
    Located { w with crawl := t, handoff := H, ended := w.ended ++ absorbedBy lib w.cli e } url := by
  generalize hw' : World.mk w.cli t H (w.ended ++ absorbedBy lib w.cli e) w.abandoned = w'
  have hcrawl' : w'.crawl = t := by rw [← hw']
  have hhandoff : w'.handoff = H := by rw [← hw']
  have hended : w'.ended = w.ended ++ absorbedBy lib w.cli e := by rw [← hw']
  have hon : w'.crawl.process ≠ none := by
    rw [hcrawl', hq]
    exact Option.some_ne_none q
  have hlog := (run_orderly hrun (hcalls.orderly_of writing_orderly) hidle.settled).2
  have hkept : ∀ document ∈ w.handoff.log.sealed ++ w.handoff.log.current,
      document ∈ w'.handoff.log.sealed ++ w'.handoff.log.current := by
    intro document hd
    rw [hhandoff, hlog]
    exact List.mem_append_left _ hd
  -- what was in flight or popped still is in flight, or has ended
  have hmoved : ∀ url, url ∈ inFlightUrls w.crawl ++
      (pushedJobs lib t.database w.crawl.database).map CrawlJob.url → Located w' url := by
    intro url hurl
    rcases Crawl.flights hlaws hcrawl hp hq hstep url hurl with hflight | ⟨nowMs, outcome, he, rfl⟩
    · refine .inFlight ?_
      rw [hcrawl']
      exact hflight
    · refine @Located.absorbed lib w.cli σ η w' e (fun v hv => ?_) (fun document hd => ?_) hon
        nowMs outcome he
      · rw [hended]
        exact List.mem_append_right _ hv
      · rw [hhandoff, hlog, hwritten]
        exact List.mem_append_right _ hd
  refine h.settled (fun v hv => ?_) (fun u hu => ?_) (fun document hd => ?_) (fun hpending => ?_)
    (fun hflight => hmoved url (List.mem_append_left _ hflight)) (fun _ hunsealed => ?_)
  · rw [hended]
    exact List.mem_append_left _ hv
  · rw [← hw']
    exact hu
  · rw [hhandoff]
    exact run_sealed hrun document hd
  · have htaken := @pending_or_taken lib url _ t.database hpending
    rcases htaken with hstill | htaken
    · refine .pending ?_
      rw [hcrawl']
      exact hstill
    · exact hmoved url (List.mem_append_right _ htaken)
  · obtain ⟨document, hend, hd⟩ := mem_unsealedUrls.mp hunsealed
    have hend' : (url, Ending.page document) ∈ w'.ended := by
      rw [hended]
      exact List.mem_append_left _ hend
    rcases List.mem_append.mp (hkept document (List.mem_append_right _ hd)) with hd | hd
    · exact .sealed document hend' hd
    · exact .unsealed hon (mem_unsealedUrls.mpr ⟨document, hend', hd⟩)

/-- The URLs of the running filter, after a step of the crawl. -/
theorem Marks.goesOn (hlaws : UrlLaws lib.urls) {p q : Process lib}
    (hp : w.crawl.process = some p) (hsound : SoundIn lib w.crawl) {e : Event} {t : System lib}
    (hq : t.process = some q) (hturn : Turn cli w.crawl e t) (hcrawl : w'.crawl = t)
    (hlocated : ∀ url, Located w url → Located w' url) (h : Marks w p.owner.seen) :
    Marks w' q.owner.seen := by
  obtain ⟨jobs, hgains⟩ := hturn.gains hlaws hsound hp
  obtain ⟨F, o, hadmits, hafter⟩ := hgains.admits
  refine (h.imp hlocated).gains ((hafter q hq).1.trans hadmits.seen) fun url hurl => ?_
  obtain ⟨job, hjob, rfl⟩ := List.mem_map.mp hurl
  refine .pending ?_
  rw [hcrawl]
  exact pushed_pending (hgains.perm.mem_iff.mpr hjob)

/-- Where the URLs are once a crawl is closed. -/
theorem Located.closed (hlaws : UrlLaws lib.urls) {s : System lib} {log : List Logged}
    (hcrawl : Crawl w.cli s log w.crawl) {p : Process lib} (hp : w.crawl.process = some p)
    (hphase : p.phase = .closing) {H : Handoff.System σ η} {events : List Handoff.Event}
    (hrun : Run (Handoff.Step settings) w.handoff events H) (hcalls : Calls sealing events)
    (hnone : H.writer = none) (hidle : Idle w.handoff) (hhandoff : w'.handoff = H)
    (hended : w'.ended = w.ended) (habandoned : w'.abandoned = w.abandoned)
    (hdatabase : w'.crawl.database = w.crawl.database) (h : Located w url) : Located w' url := by
  refine h.settled (fun v hv => by rwa [hended]) (fun u hu => by rwa [habandoned])
    (fun document hd => ?_) (fun hpending => .pending (by rwa [hdatabase])) (fun hflight => ?_)
    (fun _ hunsealed => ?_)
  · rw [hhandoff]
    exact run_sealed hrun document hd
  · -- nothing is in flight any more
    have haccounts := crawl_accounts hlaws hcrawl p hp
    have htotal := haccounts.total
    rw [haccounts.closing hphase, eq_comm, List.length_eq_zero_iff] at htotal
    rw [inFlightUrls, hp] at hflight
    dsimp only at hflight
    rw [inFlightJobs, htotal] at hflight
    cases hflight
  · -- and the open segment is sealed
    obtain ⟨document, hend, hd⟩ := mem_unsealedUrls.mp hunsealed
    obtain ⟨hsettled, hlog⟩ :=
      run_orderly hrun (hcalls.orderly_of sealing_orderly) hidle.settled
    rw [hsettled.off hnone, List.append_nil] at hlog
    refine .sealed document (by rwa [hended]) ?_
    rw [hhandoff, hlog]
    exact List.mem_append_left _ (List.mem_append_right _ hd)

/-- Where the URLs are once the process is gone. -/
theorem Located.stopped {t : System lib} {H : Handoff.System σ η} {events : List Handoff.Event}
    (hrun : Run (Handoff.Step settings) w.handoff events H) (hcrawl : w'.crawl = t)
    (hhandoff : w'.handoff = H) (hended : ∀ v ∈ w.ended, v ∈ w'.ended)
    (habandoned : w'.abandoned = w.abandoned ++ inHands w t) (h : Located w url) :
    Located w' url := by
  have hhands : url ∈ inHands w t → Located w' url := by
    intro hurl
    refine .abandoned ?_
    rw [habandoned]
    exact List.mem_append_right _ hurl
  refine h.settled hended (fun u hu => ?_) (fun document hd => ?_) (fun hpending => ?_)
    (fun hflight => hhands ?_) (fun _ hunsealed => hhands (List.mem_append_right _ hunsealed))
  · rw [habandoned]
    exact List.mem_append_left _ hu
  · rw [hhandoff]
    exact run_sealed hrun document hd
  · have hkept := @pending_or_taken lib url _ t.database hpending
    rcases hkept with hstill | htaken
    · refine .pending ?_
      rw [hcrawl]
      exact hstill
    · exact hhands (List.mem_append_left _ (List.mem_append_right _ htaken))
  · exact List.mem_append_left _ (List.mem_append_left _ hflight)

/-- Only a crawl that is closed writes the filter. -/
theorem step_bloom {s t : System lib} {choice : Choice} {e : Event}
    (h : step cli s choice = some (e, t)) (hchoice : choice ≠ .close true) :
    t.bloom = s.bloom := by
  -- only a close that saves writes the filter; every other branch keeps the file, by computation
  rcases hprocess : s.process with _ | p
  · exact ((step_turn ⟨choice, h⟩).starts hprocess).1
  · cases choice with
    | start faults archive reads =>
      simp only [step, start, hprocess] at h
      cases h
    | seed faults =>
      simp only [step, hprocess] at h
      split at h
      · cases h
        exact proceed_bloom _ _ _
      · cases h
    | go =>
      simp only [step, hprocess, go] at h
      split at h
      · cases h
        rfl
      · split at h <;> cases h
        rfl
      · cases h
        rfl
      · split at h <;> cases h
        rfl
      · split at h <;> cases h <;> rfl
      · cases h
    | receive nowMs faults =>
      simp only [step, hprocess, receive] at h
      split at h
      · split at h
        · cases h
        · cases h
          exact proceed_bloom _ _ _
      · cases h
    | dispatch nowMs pop get =>
      simp only [step, hprocess, dispatch] at h
      split at h
      · split at h
        · cases h
        · cases h
          rfl
        · cases h
          rfl
        · split at h
          · cases h
            rfl
          · split at h <;> cases h <;> rfl
      · cases h
    | check i answer =>
      simp only [step, hprocess] at h
      split at h
      · cases h
      · split at h <;> cases h
        rfl
    | fetch i answer =>
      simp only [step, hprocess] at h
      split at h
      · cases h
      · split at h <;> cases h
        rfl
    | send i =>
      simp only [step, hprocess] at h
      split at h
      · cases h
      · split at h <;> cases h
        rfl
    | interrupt =>
      simp only [step, hprocess] at h
      split at h <;> cases h
      rfl
    | close saves =>
      cases saves with
      | true => exact absurd rfl hchoice
      | false =>
        simp only [step, hprocess] at h
        split at h <;> cases h
        rfl
    | kill =>
      simp only [step, hprocess] at h
      cases h
      rfl

/-! ### Runs of the world -/

/-- **No step moves a URL to nowhere.** -/
theorem Tracked.step (hlaws : UrlLaws lib.urls) {action : Action} (h : Tracked w)
    (hstep : WorldStep settings w action w') : Tracked w' := by
  -- between processes a saved filter vouches for the urls; in a process the one in memory does
  cases hstep with
  | @started cli choice e t events H hoff hstep hon hrun hcalls hidle =>
    obtain ⟨hbloom, hpending, _, hseen⟩ := (step_turn ⟨choice, hstep⟩).starts hoff
    have hlocated : ∀ url, Located w url →
        Located { w with cli, crawl := t, handoff := H } url := fun url hurl =>
      hurl.rests hoff hpending rfl rfl (run_sealed hrun)
    refine ⟨fun hc => absurd hc hon, fun q hq => ?_, fun filter hfilter => ?_⟩
    · obtain ⟨he, hfilter⟩ := hseen q hq
      subst he
      refine ⟨⟨w.crawl, [], h.off hoff, t, ⟨choice, hstep⟩, Run.refl⟩, hidle, ?_⟩
      rcases hfilter with hfresh | hsaved
      · rw [hfresh]
        exact Marks.fresh
      · exact (h.saved _ hsaved).imp hlocated
    · exact (h.saved filter (hbloom.symm.trans hfilter)).imp hlocated
  | @notStarted cli choice e t events H hoff hstep hoff' hrun hwritten hnone =>
    obtain ⟨hbloom, hpending, _, _⟩ := (step_turn ⟨choice, hstep⟩).starts hoff
    refine ⟨fun _ => ?_, fun q hq => ?_, fun filter hfilter => ?_⟩
    · exact .crawled (h.off hoff) (Run.single ⟨choice, hstep⟩) hoff'
    · rw [show t.process = some q from hq] at hoff'
      cases hoff'
    · exact (h.saved filter (hbloom.symm.trans hfilter)).imp fun url hurl =>
        hurl.rests hoff hpending rfl rfl (run_sealed hrun)
  | @goesOn p q choice e t events H hp hstep hq hrun hcalls hwritten hidle =>
    obtain ⟨⟨s, log, hcrawl⟩, hwasIdle, hmarks⟩ := h.on p hp
    have hturn := step_turn ⟨choice, hstep⟩
    have hlocated : ∀ url, Located w url → Located { w with
        crawl := t, handoff := H, ended := w.ended ++ absorbedBy lib w.cli e } url := fun url hurl =>
      hurl.goesOn hlaws hcrawl hp hq ⟨choice, hstep⟩ hrun hcalls hwritten hwasIdle
    refine ⟨fun hc => ?_, fun q' hq' => ?_, fun filter hfilter => ?_⟩
    · rw [show t.process = none from hc] at hq
      cases hq
    · rw [show t.process = some q' from hq'] at hq
      cases hq
      exact ⟨⟨s, _, hcrawl.snoc ⟨choice, hstep⟩ (hturn.not_started hp) trivial⟩, hidle,
        hmarks.goesOn hlaws hp (hcrawl.sound hlaws) hq' hturn rfl hlocated⟩
    · refine (h.saved filter ?_).imp hlocated
      rcases hturn.bloom with hsame | hoff
      · exact hsame.symm.trans hfilter
      · rw [hoff] at hq
        cases hq
  | @closed p e t events H hp hstep hrun hcalls hnone =>
    obtain ⟨⟨s, log, hcrawl⟩, hwasIdle, hmarks⟩ := h.on p hp
    obtain ⟨hphase, rfl⟩ := close_saves hp hstep
    have hdatabase : @System.database lib
        { w.crawl.halt p.owner with bloom := some p.owner.seen } = w.crawl.database := by
      rw [System.database, System.database, hp]
      rfl
    have hlocated : ∀ url, Located w url → Located { w with
        crawl := { w.crawl.halt p.owner with bloom := some p.owner.seen }, handoff := H } url :=
      fun url hurl => hurl.closed hlaws hcrawl hp hphase hrun hcalls hnone hwasIdle rfl rfl rfl
        hdatabase
    refine ⟨fun _ => ?_, fun q hq => (by cases hq), fun filter hfilter => ?_⟩
    · have hmore := hcrawl.snoc ⟨_, hstep⟩ ((step_turn ⟨_, hstep⟩).not_started hp) trivial
      exact hmore.leaves rfl
    · cases hfilter
      exact hmarks.imp hlocated
  | @stopped p choice e t events H hp hstep hoff hunsaved hrun hopen hwritten hnone =>
    obtain ⟨⟨s, log, hcrawl⟩, _, _⟩ := h.on p hp
    refine ⟨fun _ => ?_, fun q hq => ?_, fun filter hfilter => ?_⟩
    · have hmore := hcrawl.snoc ⟨_, hstep⟩ ((step_turn ⟨_, hstep⟩).not_started hp) trivial
      exact hmore.leaves hoff
    · rw [show t.process = some q from hq] at hoff
      cases hoff
    · refine (h.saved filter ((step_bloom hstep hunsaved).symm.trans hfilter)).imp fun url hurl => ?_
      exact hurl.stopped hrun rfl rfl (fun v hv => List.mem_append_left _ hv) rfl
  | @drained event H hstep =>
    cases hstep
    exact h.same rfl rfl rfl rfl rfl fun hidle => hidle
  | @flushed part H hstep =>
    cases hstep with
    | crawl hwriter =>
      cases hwriter
      exact h.same rfl rfl rfl rfl rfl fun hidle => hidle

theorem World.Fresh.tracked (h : w.Fresh) : Tracked w := by
  refine ⟨fun _ => ?_, fun p hp => ?_, fun filter hfilter => ?_⟩
  · rw [h.crawl]
    exact .fresh
  · rw [h.crawl] at hp
    cases hp
  · rw [h.crawl] at hfilter
    cases hfilter

/-- The hand-off's share of a run of the world. -/
theorem world_handoff {w₀ : World lib σ η} {actions : List Action}
    (h : Run (WorldStep settings) w₀ actions w) :
    ∃ events, Run (Handoff.Step settings) w₀.handoff events w.handoff := by
  refine h.invariant (I := fun w => ∃ events,
    Run (Handoff.Step settings) w₀.handoff events w.handoff) ⟨[], Run.refl⟩ ?_
  rintro a action b ⟨before, hbefore⟩ hstep
  cases hstep with
  | started _ _ _ hrun => exact ⟨_, hbefore.append hrun⟩
  | notStarted _ _ _ hrun => exact ⟨_, hbefore.append hrun⟩
  | goesOn _ _ _ hrun => exact ⟨_, hbefore.append hrun⟩
  | closed _ _ hrun => exact ⟨_, hbefore.append hrun⟩
  | stopped _ _ _ _ hrun => exact ⟨_, hbefore.append hrun⟩
  | drained hstep => exact ⟨_, hbefore.snoc hstep⟩
  | flushed hstep => exact ⟨_, hbefore.snoc hstep⟩

/-- **Where the URLs of the persisted filter are.**  In every history of crawls and
drains, with processes killed and calls failing anywhere, the filter is a new one with
URLs inserted, and each of these is queued, with the running process, or its visit is over
and its document, if it has one, is sealed; or it was in the hands of a process that was
killed or failed.  What is sealed is in the index, or in the spool. -/
theorem seen_urls_located (lib : Libraries) (settings : Handoff.Settings σ η)
    (hlaws : UrlLaws lib.urls) (w₀ w : World lib σ η) (actions : List Action) (h₀ : w₀.Fresh)
    (h : Run (WorldStep settings) w₀ actions w) :
    (∀ filter, w.crawl.bloom = some filter → ∃ urls : List Str,
      filter = urls.foldl lib.seen.insert lib.seen.fresh ∧ ∀ url ∈ urls, Located w url) ∧
    ∀ document ∈ w.handoff.log.sealed, ∀ listing, w.handoff.spool.Lists listing →
      document.url ∈ w.handoff.index.rows.map IndexWriter.Row.url ∨
      document.url ∈ (Spool.spoolDocuments settings.codec w.handoff.spool listing).map
        Document.url := by
  constructor
  · have htracked : Tracked w :=
      h.invariant h₀.tracked fun _ _ _ ha hstep => ha.step hlaws hstep
    exact htracked.saved
  · obtain ⟨events, hrun⟩ := world_handoff h
    obtain ⟨segs, hsound⟩ := Handoff.run_sound h₀.handoff hrun
    exact fun document hd listing hlist => hsound.sealed_kept hlist hd

/-! ### Lost URLs -/

/-- Executing the choices, the process goes on, and has nothing to archive. -/
def quietly (cli : Cli) (s : System lib) : List Choice → Bool
  | [] => true
  | choice :: choices =>
    match step cli s choice with
    | none => quietly cli s choices
    | some (e, t) =>
      t.process.isSome && (documentsOf (absorbedBy lib cli e)).isEmpty && quietly cli t choices

theorem quietly_run (w : World lib σ η) (hidle : Idle w.handoff)
    (hon : w.crawl.process.isSome = true) {choices : List Choice}
    (h : quietly w.cli w.crawl choices = true) :
    ∃ actions, Run (WorldStep settings) w actions { w with
      crawl := (exec w.cli w.crawl choices).2
      ended := w.ended ++ (exec w.cli w.crawl choices).1.flatMap (absorbedBy lib w.cli) } := by
  induction choices generalizing w with
  | nil =>
    refine ⟨[], ?_⟩
    simp only [exec, List.flatMap_nil, List.append_nil]
    exact Run.refl
  | cons choice choices ih =>
    rw [quietly] at h
    rw [exec]
    cases hstep : step w.cli w.crawl choice with
    | none =>
      rw [hstep] at h
      exact ih w hidle hon h
    | some next =>
      obtain ⟨e, t⟩ := next
      rw [hstep] at h
      dsimp only at h ⊢
      rw [Bool.and_eq_true, Bool.and_eq_true] at h
      obtain ⟨⟨hon', hnothing⟩, hrest⟩ := h
      obtain ⟨p, hp⟩ := Option.isSome_iff_exists.mp hon
      obtain ⟨q, hq⟩ := Option.isSome_iff_exists.mp hon'
      have hfirst : WorldStep settings w (.crawl choice [])
          { w with crawl := t, ended := w.ended ++ absorbedBy lib w.cli e } := by
        refine .goesOn hp hstep hq Run.refl (fun _ hc => (by cases hc)) ?_ hidle
        rw [List.isEmpty_iff.mp hnothing]
        rfl
      obtain ⟨actions, hactions⟩ :=
        ih { w with crawl := t, ended := w.ended ++ absorbedBy lib w.cli e } hidle hon' hrest
      refine ⟨.crawl choice [] :: actions, Run.cons hfirst ?_⟩
      rw [List.flatMap_cons, ← List.append_assoc]
      exact hactions

/-- Nothing has happened yet. -/
def newWorld (lib : Libraries) (cli : Cli) : World lib Unit Unit :=
  { cli, crawl := fresh, handoff := Handoff.emptySystem, ended := [], abandoned := [] }

theorem newWorld_fresh (lib : Libraries) (cli : Cli) : (newWorld lib cli).Fresh :=
  ⟨rfl, fun _ _ => rfl, rfl, rfl, rfl, rfl⟩

/-- The spool of a process that has just opened segment `n`. -/
def openedHandoff (S : Handoff.System Unit Unit) (n : ℕ) : Handoff.System Unit Unit :=
  { S with
    spool := S.spool.create (Spool.openSegmentName n)
    writer := some (.idle, { segment := some (.create n), segmentSequence := n + 1 })
    log := { S.log with current := [] } }

theorem openedHandoff_run {S : Handoff.System Unit Unit} {n : ℕ} {listing : List Str}
    (hoff : S.writer = none) (hlist : S.spool.Lists listing)
    (hnext : Spool.nextSpoolSequence listing = some n) (hfit : n + 1 < 2 ^ 64) :
    Run (Handoff.Step Handoff.sampleSettings) S
      [.crawl (.open listing), .crawl .createSegment] (openedHandoff S n) := by
  have hrun : Run (Handoff.Step Handoff.sampleSettings) S _ _ :=
    Run.cons (.crawl (.open hoff hlist hnext)) <|
    Run.single (.crawl (@Storage.WriterStep.createSegment _ _ _
      { segment := none, segmentSequence := n } rfl hfit))
  exact hrun

/-- The spool in which the first segment is sealed, empty. -/
def sealedSpool : Directory :=
  (Storage.SpoolSegment.create 1).seal (openedHandoff Handoff.emptySystem 1).spool

/-- The writer that sealed it is gone. -/
def sealedHandoff : Handoff.System Unit Unit := { Handoff.emptySystem with spool := sealedSpool }

theorem sealedHandoff_run : Run (Handoff.Step Handoff.sampleSettings)
    (openedHandoff Handoff.emptySystem 1) [.crawl .close, .crawl .sealSegment] sealedHandoff := by
  have hrun : Run (Handoff.Step Handoff.sampleSettings) (openedHandoff Handoff.emptySystem 1) _ _ :=
    Run.cons (.crawl (.close rfl (Or.inl rfl))) <|
    Run.single (.crawl (@Storage.WriterStep.sealSegment _ _ _ false _ _ rfl rfl))
  exact hrun

theorem sealedHandoff_lists : sealedHandoff.spool.Lists [Spool.sealedSegmentName 1] := by
  refine ⟨List.nodup_singleton _, fun name => ?_⟩
  have hspool : sealedSpool name = if name = Spool.sealedSegmentName 1 then some [] else none := by
    rw [sealedSpool, Storage.SpoolSegment.seal, Directory.rename_apply (Directory.place_self ..)]
    show (if name = Spool.sealedSegmentName 1 then _
      else if name = Spool.openSegmentName 1 then _ else _) = _
    by_cases hopen : name = Spool.openSegmentName 1
    · rw [if_pos hopen]
      rfl
    · rw [if_neg hopen]
      exact congrArg _ ((Directory.place_of_ne _ _ hopen).trans (Directory.create_of_ne _ hopen))
  show name ∈ _ ↔ sealedSpool name ≠ none
  rw [hspool, List.mem_singleton]
  by_cases hname : name = Spool.sealedSegmentName 1 <;> simp [hname]

/-- The crawler after a choice, if that is possible. -/
def after (cli : Cli) (s : System lib) (choice : Choice) : System lib :=
  (step cli s choice).elim s Prod.snd

theorem after_step {s : System lib} {choice : Choice} (h : (step cli s choice).isSome = true) :
    ∃ e, step cli s choice = some (e, after cli s choice) := by
  obtain ⟨⟨e, t⟩, hstep⟩ := Option.isSome_iff_exists.mp h
  refine ⟨e, ?_⟩
  rw [after, hstep]
  rfl

/-- A crawl that starts on a new data directory, and comes to its end. -/
def crawled (lib : Libraries) (cli : Cli) (choices : List Choice) : List Event × System lib :=
  exec cli (startedFresh lib cli) choices

/-- It has been closed. -/
def closedWorld (lib : Libraries) (cli : Cli) (choices : List Choice) : World lib Unit Unit :=
  { cli
    crawl := after cli (crawled lib cli choices).2 (.close true)
    handoff := sealedHandoff
    ended := (crawled lib cli choices).1.flatMap (absorbedBy lib cli)
    abandoned := [] }

theorem closedWorld_run {choices : List Choice}
    (hstart : step cli (fresh : System lib) (.start noFaults true true)
      = some (.started, startedFresh lib cli))
    (hon : (startedFresh lib cli).process.isSome = true)
    (hquiet : quietly cli (startedFresh lib cli) choices = true)
    (hrunning : (crawled lib cli choices).2.process.isSome = true)
    (hclose : (step cli (crawled lib cli choices).2 (.close true)).isSome = true) :
    ∃ actions, Run (WorldStep Handoff.sampleSettings) (newWorld lib cli) actions
      (closedWorld lib cli choices) := by
  have hopened : WorldStep Handoff.sampleSettings (newWorld lib cli)
      (.crawl (.start noFaults true true) [.crawl (.open []), .crawl .createSegment])
      { newWorld lib cli with
        crawl := startedFresh lib cli, handoff := openedHandoff Handoff.emptySystem 1 } := by
    refine @WorldStep.started lib Unit Unit _ _ cli _ _ _ _ _ rfl hstart ?_
      (@openedHandoff_run Handoff.emptySystem 1 [] rfl
        ⟨List.nodup_nil, by simp [Handoff.emptySystem]⟩ rfl (by decide)) ?_ ⟨_, rfl⟩
    · exact Option.isSome_iff_ne_none.mp hon
    · intro event hevent
      rcases List.mem_cons.mp hevent with he | hevent
      · cases he
        rfl
      · cases List.mem_singleton.mp hevent
        rfl
  obtain ⟨actions, hactions⟩ := @quietly_run lib Unit Unit Handoff.sampleSettings
    { newWorld lib cli with
      crawl := startedFresh lib cli, handoff := openedHandoff Handoff.emptySystem 1 }
    ⟨_, rfl⟩ hon choices hquiet
  obtain ⟨p, hp⟩ := Option.isSome_iff_exists.mp hrunning
  obtain ⟨e, hstep⟩ := after_step hclose
  refine ⟨_, Run.snoc (Run.cons hopened hactions) (.closed hp hstep sealedHandoff_run ?_ rfl)⟩
  intro event hevent
  rcases List.mem_cons.mp hevent with he | hevent
  · cases he
    rfl
  · cases List.mem_singleton.mp hevent
    rfl

/-- The next crawl of the data directory, before it is killed. -/
def resumedWorld (w : World lib Unit Unit) (choices : List Choice) : World lib Unit Unit :=
  { w with
    crawl := (exec w.cli (after w.cli w.crawl (.start noFaults true true)) choices).2
    handoff := openedHandoff w.handoff 2
    ended := w.ended ++
      (exec w.cli (after w.cli w.crawl (.start noFaults true true)) choices).1.flatMap
        (absorbedBy lib w.cli) }

/-- It has been killed. -/
def killedWorld (w : World lib Unit Unit) : World lib Unit Unit :=
  { w with
    crawl := after w.cli w.crawl .kill
    handoff := { w.handoff with writer := none }
    ended := w.ended ++ []
    abandoned := w.abandoned ++ inHands w (after w.cli w.crawl .kill) }

theorem resumedWorld_run {w : World lib Unit Unit} {choices : List Choice}
    (hhandoff : w.handoff = sealedHandoff) (hoff : w.crawl.process = none)
    (hstart : (step w.cli w.crawl (.start noFaults true true)).isSome = true)
    (hon : (after w.cli w.crawl (.start noFaults true true)).process.isSome = true)
    (hquiet : quietly w.cli (after w.cli w.crawl (.start noFaults true true)) choices = true) :
    ∃ actions, Run (WorldStep Handoff.sampleSettings) w actions (resumedWorld w choices) := by
  obtain ⟨e, hstep⟩ := after_step hstart
  have hrun : Run (Handoff.Step Handoff.sampleSettings) w.handoff
      [.crawl (.open [Spool.sealedSegmentName 1]), .crawl .createSegment]
      (openedHandoff w.handoff 2) := by
    rw [hhandoff]
    exact openedHandoff_run rfl sealedHandoff_lists (by decide) (by decide)
  have hopened : WorldStep Handoff.sampleSettings w (.crawl (.start noFaults true true)
      [.crawl (.open [Spool.sealedSegmentName 1]), .crawl .createSegment])
      { w with
        crawl := after w.cli w.crawl (.start noFaults true true)
        handoff := openedHandoff w.handoff 2 } := by
    refine .started hoff hstep (Option.isSome_iff_ne_none.mp hon) hrun ?_ ⟨_, rfl⟩
    intro event hevent
    rcases List.mem_cons.mp hevent with he | hevent
    · cases he
      rfl
    · cases List.mem_singleton.mp hevent
      rfl
  obtain ⟨actions, hactions⟩ := @quietly_run lib Unit Unit Handoff.sampleSettings
    { w with
      crawl := after w.cli w.crawl (.start noFaults true true)
      handoff := openedHandoff w.handoff 2 } ⟨_, rfl⟩ hon choices hquiet
  exact ⟨_, Run.cons hopened hactions⟩

theorem killedWorld_run {w : World lib Unit Unit} (hidle : Idle w.handoff)
    (hon : w.crawl.process.isSome = true) :
    ∃ actions, Run (WorldStep Handoff.sampleSettings) w actions (killedWorld w) := by
  obtain ⟨p, hp⟩ := Option.isSome_iff_exists.mp hon
  obtain ⟨writer, hwriter⟩ := hidle
  have hkill : step w.cli w.crawl .kill = some (.quiet, w.crawl.halt p.owner) := by
    simp only [step, hp]
  have hstep : step w.cli w.crawl .kill = some (.quiet, after w.cli w.crawl .kill) := by
    rw [after, hkill]
    rfl
  have hgone : (after w.cli w.crawl .kill).process = none := by
    rw [after, hkill]
    rfl
  have hrun : Run (Handoff.Step Handoff.sampleSettings) w.handoff [.crawl .kill]
      { w.handoff with writer := none } := Run.single (.crawl (.kill hwriter))
  refine ⟨_, Run.single (.stopped hp hstep hgone (fun hc => (by cases hc)) hrun ?_ ?_ rfl)⟩
  · intro listing hc
    cases List.mem_singleton.mp hc
  · exact List.nil_prefix

/-- What one might ask of the saved filter: each URL that it contains is queued, or its
visit failed, or its document is sealed. -/
def NoneLost (w : World lib σ η) : Prop :=
  ∀ filter, w.crawl.bloom = some filter → ∀ url, lib.seen.contains filter url = true →
    url ∈ pendingUrls lib w.crawl.database ∨ (∃ e, (url, .failed e) ∈ w.ended) ∨
      ∃ document, (url, .page document) ∈ w.ended ∧ document ∈ w.handoff.log.sealed

/-- A crawl that is interrupted while it waits for the answer to its first request. -/
def visitOnce (answer : Answer) : List Choice :=
  [.seed noFaults, .go, .go, .go] ++ dispatchOne 1000 ++
    [.check 0 (robotsPage []), .fetch 0 answer, .send 0, .interrupt, .receive 2000 noAbsorbFaults,
      .go, .go]

/-- The same, while another URL of the host waits for its turn. -/
def visitFirst : List Choice :=
  [.seed noFaults, .seed noFaults, .go, .go, .go] ++ dispatchOne 1000 ++
    [.check 0 unavailable, .send 0, .interrupt, .receive 2000 noAbsorbFaults, .go, .go]

/-- The next crawl hands out the URL that waited. -/
def visitSecond : List Choice :=
  [.seed noFaults, .seed noFaults, .go, .go, .go, .dispatch 10000 noFaults noFaults]

/-- A crawl of two URLs of one host, one at a time. -/
def twoUrlsCli : Cli := plainCli ["http://b.c/".toList, "http://b.c/x".toList] 1

/-- The libraries, with a filter that takes URLs of the same length for the same. -/
def coarseLibraries : Libraries :=
  { plainLibraries with
    seen := { Filter := List Str, fresh := [],
              contains := fun seen url => seen.any fun other => other.length == url.length,
              insert := fun seen url => url :: seen } }

/-- A URL that the filter contains, and that is at none of the places. -/
theorem not_noneLost {w : World lib σ η} {filter : lib.seen.Filter} (url : Str)
    (hfilter : w.crawl.bloom = some filter) (hcontains : lib.seen.contains filter url = true)
    (hpending : url ∉ pendingUrls lib w.crawl.database)
    (hended : ∀ v ∈ w.ended, v.1 = url → v.2 = .sitemap ∨ v.2 = .dropped) : ¬ NoneLost w := by
  intro h
  rcases h filter hfilter url hcontains with hc | ⟨e, hc⟩ | ⟨document, hc, _⟩
  · exact hpending hc
  · rcases hended _ hc rfl with hc | hc <;> cases hc
  · rcases hended _ hc rfl with hc | hc <;> cases hc

/-- **A URL can be lost**: a process is killed while it has the URL in its hands.  And not
every URL is there to be lost: the filter contains URLs that are sitemaps, URLs that were
dropped for where they redirect to, and URLs that it only takes for seen. -/
theorem seen_urls_lost :
    (∃ w : World plainLibraries Unit Unit, ∃ actions,
      Run (WorldStep Handoff.sampleSettings) (newWorld plainLibraries twoUrlsCli) actions w ∧
      w.abandoned = ["http://b.c/x".toList] ∧ ¬ NoneLost w) ∧
    (∃ w : World sitemapLibraries Unit Unit, ∃ actions,
      Run (WorldStep Handoff.sampleSettings) (newWorld sitemapLibraries (sitemapCli 1)) actions w ∧
      w.ended = [("http://b.c/sitemap.xml".toList, .sitemap)] ∧ ¬ NoneLost w) ∧
    (∃ w : World plainLibraries Unit Unit, ∃ actions,
      Run (WorldStep Handoff.sampleSettings) (newWorld plainLibraries siteCli) actions w ∧
      w.ended = [("http://b.c/".toList, .dropped)] ∧ ¬ NoneLost w) ∧
    (∃ w : World coarseLibraries Unit Unit, ∃ actions,
      Run (WorldStep Handoff.sampleSettings) (newWorld coarseLibraries siteCli) actions w ∧
      w.ended.map Prod.fst = ["http://b.c/".toList] ∧ ¬ NoneLost w) := by
  refine ⟨?_, ?_, ?_, ?_⟩
  · obtain ⟨first, hfirst⟩ := @closedWorld_run plainLibraries twoUrlsCli visitFirst rfl (by decide)
      (by decide) (by decide) (by decide)
    obtain ⟨second, hsecond⟩ := @resumedWorld_run plainLibraries
      (closedWorld plainLibraries twoUrlsCli visitFirst) visitSecond rfl rfl (by decide)
      (by decide) (by decide)
    obtain ⟨third, hthird⟩ := @killedWorld_run plainLibraries
      (resumedWorld (closedWorld plainLibraries twoUrlsCli visitFirst) visitSecond) ⟨_, rfl⟩
      (by decide)
    exact ⟨_, _, (hfirst.append hsecond).append hthird, by decide,
      not_noneLost "http://b.c/x".toList rfl (by decide) (by decide) (by decide)⟩
  · obtain ⟨actions, hactions⟩ := @closedWorld_run sitemapLibraries (sitemapCli 1)
      (visitOnce (.ok { blankPage "http://b.c/sitemap.xml".toList with body := oneSitemap })) rfl
      (by decide) (by decide) (by decide) (by decide)
    exact ⟨_, actions, hactions, by decide,
      not_noneLost "http://b.c/sitemap.xml".toList rfl (by decide) (by decide) (by decide)⟩
  · obtain ⟨actions, hactions⟩ := @closedWorld_run plainLibraries siteCli
      (visitOnce (.ok (blankPage "http://d.e/".toList))) rfl
      (by decide) (by decide) (by decide) (by decide)
    exact ⟨_, actions, hactions, by decide,
      not_noneLost "http://b.c/".toList rfl (by decide) (by decide) (by decide)⟩
  · obtain ⟨actions, hactions⟩ := @closedWorld_run coarseLibraries siteCli
      (visitOnce unavailable) rfl (by decide) (by decide) (by decide) (by decide)
    exact ⟨_, actions, hactions, by decide,
      not_noneLost "http://b.d/".toList rfl (by decide) (by decide) (by decide)⟩

theorem seen_urls_located_sample : ∃ w : World plainLibraries Unit Unit, ∃ actions,
    Run (WorldStep Handoff.sampleSettings) (newWorld plainLibraries twoUrlsCli) actions w ∧
    w.crawl.bloom = some ["http://b.c/x".toList, "http://b.c/".toList] ∧
    ∀ filter, w.crawl.bloom = some filter → ∃ urls : List Str,
      filter = urls.foldl plainLibraries.seen.insert plainLibraries.seen.fresh ∧
      ∀ url ∈ urls, Located w url := by
  obtain ⟨actions, hactions⟩ := @closedWorld_run plainLibraries twoUrlsCli visitFirst rfl
    (by decide) (by decide) (by decide) (by decide)
  exact ⟨_, actions, hactions, rfl, (seen_urls_located plainLibraries Handoff.sampleSettings
    plainUrls_laws _ _ actions (newWorld_fresh _ _) hactions).1⟩

end Crawler
