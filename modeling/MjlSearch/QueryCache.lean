/-
The query engine (`search_core::search`): queries answered through a cache.

Tantivy enters as what it computes from the segments of a committed state.  The calls of
any number of threads go on side by side, with commits, reloads and evictions in between:
`step` is the part of a call between two points where another thread may come in.

* `evaluate` — the answer to a query, computed without the cache;
* `Reloaded`, `Opened` — what the history says of a call that has come so far;
* `step_invariant` — every cached page is the evaluation its key names;
* `search_transparent` — whatever is returned is the evaluation, at the state that was
  reloaded last when the call took its searcher.
-/
import Mathlib.Data.List.Induction
import Mathlib.Data.Set.Function
import MjlSearch.Runs
import MjlSearch.Text

open Text Runs

namespace QueryCache

/-- The fields of the schema. -/
inductive Field
  | url
  | title
  | body
  | fetchedAt
  | authority
  | hostAuthority
  deriving DecidableEq, Repr

/-- What Tantivy computes.  `Segments` is the segment map of a committed state, with its
delete stamps, and `describe` writes it out. -/
structure Tantivy where
  Segments : Type
  Query : Type
  Address : Type
  Document : Type
  Generator : Type
  F32 : Type
  describe : Segments → Str
  numDocs : Segments → ℕ
  /-- Parses a query over some fields; `conjunction` says whether every term must appear. -/
  parseQuery : List Field → (conjunction : Bool) → Str → Except Str Query
  count : Segments → Query → ℕ
  /-- The matches by descending score, from an offset on. -/
  topDocs : Segments → Query → (limit offset : ℕ) → List (F32 × Address)
  createGenerator : Segments → Query → Field → (maxNumChars : ℕ) → Generator
  doc : Segments → Address → Document
  snippetHtml : Generator → Document → Str
  firstText : Document → Field → Option Str
  firstI64 : Document → Field → Option ℤ
  firstF32 : Document → Field → Option F32
  zero : F32

/-- Characters of context in a snippet. -/
def snippetChars : ℕ := 240

/-- A single search result. -/
structure Hit (F32 : Type) where
  url : Str
  title : Str
  snippet : Str
  fetchedAt : ℤ
  score : F32
  authority : F32
  hostAuthority : F32
  deriving DecidableEq

/-- Errors raised by the query path. -/
inductive SearchError
  | index (message : Str)
  | queryParse (query source : Str)
  deriving DecidableEq, Repr

/-- A cached query result: the page, plus the total it was computed with. -/
structure CachedPage (F32 : Type) where
  hits : List (Hit F32)
  totalMatches : ℕ
  relaxed : Bool
  deriving DecidableEq

/-- The result of one query. -/
structure SearchOutcome (F32 : Type) where
  hits : List (Hit F32)
  totalMatches : ℕ
  docCount : ℕ
  cached : Bool
  relaxed : Bool
  deriving DecidableEq

/-- What a query asks for. -/
structure Request where
  query : Str
  limit : ℕ
  offset : ℕ
  deriving DecidableEq, Repr

/-- The reads of an evaluation that may fail. -/
inductive Fallible
  | countStrict
  | countWide
  | top
  | snippets
  | doc (i : ℕ)
  deriving DecidableEq, Repr

/-- Which reads fail, and with what message. -/
abbrev Faults := Fallible → Option Str

def noFaults : Faults := fun _ => none

/-- A read, which may fail. -/
def read {α : Type} (faults : Faults) (at_ : Fallible) (value : α) : Except SearchError α :=
  match faults at_ with
  | some message => .error (.index message)
  | none => .ok value

/-- Whether a query holds more than one term. -/
def isMultiTerm (query : Str) : Bool := ((splitWhitespace query)[1]?).isSome

/-! ### Evaluating a query -/

variable (tantivy : Tantivy) (contentHash : Str → ℕ)

/-- Fingerprint of the segments and their delete stamps. -/
def indexFingerprint (segments : tantivy.Segments) : ℕ := contentHash (tantivy.describe segments)

/-- The query as parsed, every term being required or any. -/
def parse (conjunction : Bool) (query : Str) : Except SearchError tantivy.Query :=
  match tantivy.parseQuery [.title, .body] conjunction query with
  | .ok parsed => .ok parsed
  | .error source => .error (.queryParse query source)

/-- The query to run: the strict one, or the wide one when the strict one finds nothing. -/
def chooseQuery (faults : Faults) (segments : tantivy.Segments) (query : Str) :
    Except SearchError (tantivy.Query × ℕ × Bool) := do
  let strict ← parse tantivy true query
  let strictTotal ← read faults .countStrict (tantivy.count segments strict)
  if 0 < strictTotal ∨ isMultiTerm query = false then .ok (strict, strictTotal, false)
  else
    let wide ← parse tantivy false query
    let wideTotal ← read faults .countWide (tantivy.count segments wide)
    if wideTotal = 0 then .ok (strict, 0, false) else .ok (wide, wideTotal, true)

/-- One hit, read back from its stored document. -/
def hitOf (generator : tantivy.Generator) (score : tantivy.F32) (document : tantivy.Document) :
    Hit tantivy.F32 :=
  { url := (tantivy.firstText document .url).getD []
    title := (tantivy.firstText document .title).getD []
    snippet := tantivy.snippetHtml generator document
    fetchedAt := (tantivy.firstI64 document .fetchedAt).getD 0
    score
    authority := (tantivy.firstF32 document .authority).getD tantivy.zero
    hostAuthority := (tantivy.firstF32 document .hostAuthority).getD tantivy.zero }

/-- The hits, in order; `i` counts the documents read. -/
def readHits (faults : Faults) (segments : tantivy.Segments) (generator : tantivy.Generator) :
    ℕ → List (tantivy.F32 × tantivy.Address) → Except SearchError (List (Hit tantivy.F32))
  | _, [] => .ok []
  | i, (score, address) :: top => do
    let document ← read faults (.doc i) (tantivy.doc segments address)
    let hits ← readHits faults segments generator (i + 1) top
    .ok (hitOf tantivy generator score document :: hits)

/-- The page a query is answered with, computed from the segments. -/
def computePage (faults : Faults) (segments : tantivy.Segments) (request : Request) :
    Except SearchError (CachedPage tantivy.F32) := do
  let (parsed, totalMatches, relaxed) ← chooseQuery tantivy faults segments request.query
  let top ← read faults .top
    (tantivy.topDocs segments parsed (max request.limit 1) request.offset)
  let generator ← read faults .snippets
    (tantivy.createGenerator segments parsed .body snippetChars)
  let hits ← readHits tantivy faults segments generator 0 top
  .ok { hits, totalMatches, relaxed }

/-- An uncached evaluation. -/
def evaluate (segments : tantivy.Segments) (request : Request) :
    Except SearchError (CachedPage tantivy.F32) :=
  computePage tantivy noFaults segments request

/-- The outcome made of a page. -/
def outcomeOf (segments : tantivy.Segments) (cached : Bool) (page : CachedPage tantivy.F32) :
    SearchOutcome tantivy.F32 :=
  { hits := page.hits, totalMatches := page.totalMatches, docCount := tantivy.numDocs segments,
    cached, relaxed := page.relaxed }

/-! ### The engine -/

/-- The key of a page: the request, and the fingerprint of what it was computed from. -/
abbrev Key := Request × ℕ

/-- Where a call of `search` stands. -/
inductive Stage
  | entered
  | reloaded
  /-- It holds a searcher. -/
  | opened (segments : tantivy.Segments)
  /-- The cache does not have its page. -/
  | missed (segments : tantivy.Segments)
  | computed (segments : tantivy.Segments) (page : CachedPage tantivy.F32)
  | finished

/-- A call of `search`. -/
structure Call where
  request : Request
  stage : Stage tantivy

/-- The index on disk, and an open engine. -/
structure System where
  committed : tantivy.Segments
  reader : tantivy.Segments
  cache : Key → Option (CachedPage tantivy.F32)
  calls : List (Call tantivy)

/-- How a call goes on. -/
inductive Action
  | reload (fails : Option Str)
  | open
  | look
  | compute (faults : Faults)
  | store

/-- What the indexer, the cache and the threads do next. -/
inductive Choice
  | commit (segments : tantivy.Segments)
  | evict (key : Key)
  /-- Another accessor reloads the reader. -/
  | refresh
  | enter (request : Request)
  | call (i : ℕ) (action : Action)

/-- What can be seen of a step. -/
inductive Event
  | committed (segments : tantivy.Segments)
  | refreshed
  | entered (i : ℕ) (request : Request)
  | reloaded (i : ℕ)
  | opened (i : ℕ)
  | answered (i : ℕ) (request : Request)
      (result : Except SearchError (SearchOutcome tantivy.F32))
  | quiet

variable {tantivy} in
/-- The call at a place goes on to its next stage. -/
def System.move (s : System tantivy) (i : ℕ) (call : Call tantivy) (stage : Stage tantivy) :
    System tantivy :=
  { s with calls := s.calls.set i { call with stage } }

variable {tantivy} in
/-- A call goes on. -/
def advance (s : System tantivy) (i : ℕ) (call : Call tantivy) (action : Action) :
    Option (Event tantivy × System tantivy) :=
  match call.stage, action with
  | .entered, .reload none =>
    some (.reloaded i, { s.move i call .reloaded with reader := s.committed })
  | .entered, .reload (some message) =>
    some (.answered i call.request (.error (.index message)), s.move i call .finished)
  | .reloaded, .open => some (.opened i, s.move i call (.opened s.reader))
  | .opened segments, .look =>
    match s.cache (call.request, indexFingerprint tantivy contentHash segments) with
    | some page =>
      some (.answered i call.request (.ok (outcomeOf tantivy segments true page)),
        s.move i call .finished)
    | none => some (.quiet, s.move i call (.missed segments))
  | .missed segments, .compute faults =>
    match computePage tantivy faults segments call.request with
    | .ok page => some (.quiet, s.move i call (.computed segments page))
    | .error e => some (.answered i call.request (.error e), s.move i call .finished)
  | .computed segments page, .store =>
    let key := (call.request, indexFingerprint tantivy contentHash segments)
    some (.answered i call.request (.ok (outcomeOf tantivy segments false page)),
      { s.move i call .finished with cache := Function.update s.cache key (some page) })
  | _, _ => none

variable {tantivy} in
/-- One step of the system. -/
def step (s : System tantivy) : Choice tantivy → Option (Event tantivy × System tantivy)
  | .commit segments => some (.committed segments, { s with committed := segments })
  | .evict key => some (.quiet, { s with cache := Function.update s.cache key none })
  | .refresh => some (.refreshed, { s with reader := s.committed })
  | .enter request =>
    some (.entered s.calls.length request,
      { s with calls := s.calls ++ [{ request, stage := .entered }] })
  | .call i action =>
    match s.calls[i]? with
    | some call => advance contentHash s i call action
    | none => none

variable {tantivy} in
/-- A step, for some choice. -/
def Step (s : System tantivy) (e : Event tantivy) (t : System tantivy) : Prop :=
  ∃ choice, step contentHash s choice = some (e, t)

variable {tantivy} in
/-- An engine just opened on an index. -/
def fresh (segments : tantivy.Segments) : System tantivy :=
  { committed := segments, reader := segments, cache := fun _ => none, calls := [] }

/-! ### An evaluation that fails nowhere is the uncached one -/

variable {tantivy contentHash}

theorem read_ok {α : Type} {faults : Faults} {at_ : Fallible} {value result : α}
    (h : read faults at_ value = .ok result) : result = value := by
  rw [read] at h
  split at h
  · cases h
  · exact (Except.ok.inj h).symm

theorem bind_ok {α β : Type} {x : Except SearchError α} {f : α → Except SearchError β} {b : β}
    (h : (x >>= f) = .ok b) : ∃ a, x = .ok a ∧ f a = .ok b := by
  rcases x with e | a
  · cases h
  · exact ⟨a, rfl, h⟩

theorem chooseQuery_ok {faults : Faults} {segments : tantivy.Segments} {query : Str}
    {chosen : tantivy.Query × ℕ × Bool}
    (h : chooseQuery tantivy faults segments query = .ok chosen) :
    chooseQuery tantivy noFaults segments query = .ok chosen := by
  obtain ⟨strict, hstrict, h⟩ := bind_ok h
  obtain ⟨total, htotal, h⟩ := bind_ok h
  obtain rfl := read_ok htotal
  simp only [chooseQuery, hstrict, read, noFaults]
  show (if 0 < tantivy.count segments strict ∨ isMultiTerm query = false then _ else _) = _
  split at h
  · rename_i hfound
    rw [if_pos hfound]
    exact h
  · rename_i hfound
    rw [if_neg hfound]
    obtain ⟨wide, hwide, h⟩ := bind_ok h
    obtain ⟨wideTotal, hwideTotal, h⟩ := bind_ok h
    obtain rfl := read_ok hwideTotal
    rw [hwide]
    exact h

theorem readHits_ok {faults : Faults} {segments : tantivy.Segments}
    {generator : tantivy.Generator} {top : List (tantivy.F32 × tantivy.Address)} {i : ℕ}
    {hits : List (Hit tantivy.F32)}
    (h : readHits tantivy faults segments generator i top = .ok hits) :
    readHits tantivy noFaults segments generator i top = .ok hits := by
  induction top generalizing i hits with
  | nil => exact h
  | cons first top ih =>
    obtain ⟨document, hdocument, h⟩ := bind_ok h
    obtain rfl := read_ok hdocument
    obtain ⟨rest, hrest, h⟩ := bind_ok h
    show (readHits tantivy noFaults segments generator (i + 1) top >>= _) = _
    rw [ih hrest]
    exact h

/-- **A page that is computed is the uncached evaluation**, whatever might have failed. -/
theorem computePage_ok {faults : Faults} {segments : tantivy.Segments} {request : Request}
    {page : CachedPage tantivy.F32}
    (h : computePage tantivy faults segments request = .ok page) :
    evaluate tantivy segments request = .ok page := by
  obtain ⟨⟨parsed, total, relaxed⟩, hchosen, h⟩ := bind_ok h
  obtain ⟨top, htop, h⟩ := bind_ok h
  obtain rfl := read_ok htop
  obtain ⟨generator, hgenerator, h⟩ := bind_ok h
  obtain rfl := read_ok hgenerator
  obtain ⟨hits, hhits, h⟩ := bind_ok h
  rw [evaluate, computePage, chooseQuery_ok hchosen]
  show (readHits tantivy noFaults segments _ 0 _ >>= _) = _
  rw [readHits_ok hhits]
  exact h

/-! ### What the history says -/

variable (tantivy) in
/-- The state on disk and the state of the reader, as an event leaves them. -/
def observe (states : tantivy.Segments × tantivy.Segments) :
    Event tantivy → tantivy.Segments × tantivy.Segments
  | .committed segments => (segments, states.2)
  | .refreshed => (states.1, states.1)
  | .reloaded _ => (states.1, states.1)
  | _ => states

/-- The state that is committed, and the one that was reloaded last, after some events. -/
def statesAfter (start : tantivy.Segments) (es : List (Event tantivy)) :
    tantivy.Segments × tantivy.Segments :=
  es.foldl (observe tantivy) (start, start)

/-- The states that were ever committed. -/
def committedStates (start : tantivy.Segments) (es : List (Event tantivy)) :
    Set tantivy.Segments :=
  { segments | segments = start ∨ .committed segments ∈ es }

theorem statesAfter_snoc (start : tantivy.Segments) (es : List (Event tantivy))
    (e : Event tantivy) :
    statesAfter start (es ++ [e]) = observe tantivy (statesAfter start es) e := by
  rw [statesAfter, List.foldl_append]
  rfl

/-- Events that begin with disk and reader in one state lead to it, or to one they commit. -/
theorem observe_mem (start : tantivy.Segments) (es : List (Event tantivy)) :
    (statesAfter start es).1 ∈ committedStates start es ∧
      (statesAfter start es).2 ∈ committedStates start es := by
  induction es using List.reverseRecOn with
  | nil => exact ⟨Or.inl rfl, Or.inl rfl⟩
  | append_singleton es e ih =>
    have hmono : ∀ segments ∈ committedStates start es,
        segments ∈ committedStates start (es ++ [e]) := by
      intro segments h
      exact h.imp_right fun h => List.mem_append_left _ h
    rw [statesAfter_snoc]
    rcases e with segments | _ | _ | _ | _ | _ | _
    · exact ⟨Or.inr (by simp [observe]), hmono _ ih.2⟩
    · exact ⟨hmono _ ih.1, hmono _ ih.1⟩
    · exact ⟨hmono _ ih.1, hmono _ ih.2⟩
    · exact ⟨hmono _ ih.1, hmono _ ih.1⟩
    · exact ⟨hmono _ ih.1, hmono _ ih.2⟩
    · exact ⟨hmono _ ih.1, hmono _ ih.2⟩
    · exact ⟨hmono _ ih.1, hmono _ ih.2⟩

/-- **A reader is never older than its last reload**: it has the state that was committed
then, or one committed since. -/
theorem reader_fresh (start : tantivy.Segments) (a b : List (Event tantivy)) (i : ℕ) :
    (statesAfter start (a ++ .reloaded i :: b)).2 = (statesAfter start a).1 ∨
      .committed (statesAfter start (a ++ .reloaded i :: b)).2 ∈ b := by
  have hsplit : statesAfter start (a ++ .reloaded i :: b)
      = statesAfter (statesAfter start a).1 b := by
    rw [statesAfter, List.foldl_append]
    rfl
  rw [hsplit]
  exact (observe_mem _ b).2

/-- A call was entered and has reloaded the reader. -/
def Reloaded (es : List (Event tantivy)) (i : ℕ) (request : Request) : Prop :=
  ∃ a b, es = a ++ .reloaded i :: b ∧ .entered i request ∈ a

/-- A call was entered, has reloaded the reader and has taken a searcher, on the state that
was reloaded last. -/
def Opened (start : tantivy.Segments) (es : List (Event tantivy)) (i : ℕ) (request : Request)
    (segments : tantivy.Segments) : Prop :=
  ∃ a b c, es = a ++ .reloaded i :: (b ++ .opened i :: c) ∧ .entered i request ∈ a ∧
    .opened i ∉ c ∧ segments = (statesAfter start (a ++ .reloaded i :: b)).2

theorem Reloaded.snoc {es : List (Event tantivy)} {i : ℕ} {request : Request}
    (h : Reloaded es i request) (e : Event tantivy) : Reloaded (es ++ [e]) i request := by
  obtain ⟨a, b, rfl, hentered⟩ := h
  exact ⟨a, b ++ [e], by simp, hentered⟩

theorem Opened.snoc {start : tantivy.Segments} {es : List (Event tantivy)} {i : ℕ}
    {request : Request} {segments : tantivy.Segments} (h : Opened start es i request segments)
    {e : Event tantivy} (he : e ≠ .opened i) : Opened start (es ++ [e]) i request segments := by
  obtain ⟨a, b, c, rfl, hentered, hlast, hsegments⟩ := h
  refine ⟨a, b, c ++ [e], by simp, hentered, ?_, hsegments⟩
  rw [List.mem_append, List.mem_singleton]
  rintro (h | h)
  · exact hlast h
  · exact he h.symm

theorem Opened.mem {start : tantivy.Segments} {es : List (Event tantivy)} {i : ℕ}
    {request : Request} {segments : tantivy.Segments} (h : Opened start es i request segments) :
    segments ∈ committedStates start es := by
  obtain ⟨a, b, c, rfl, _, _, rfl⟩ := h
  refine (observe_mem start (a ++ .reloaded i :: b)).2.imp_right fun h => ?_
  rw [← List.cons_append, ← List.append_assoc]
  exact List.mem_append_left _ h

/-- A page is what its request evaluates to, on a state that was once committed and has the
fingerprint. -/
def Stored (contentHash : Str → ℕ) (start : tantivy.Segments) (es : List (Event tantivy))
    (request : Request) (fingerprint : ℕ) (page : CachedPage tantivy.F32) : Prop :=
  ∃ segments ∈ committedStates start es,
    indexFingerprint tantivy contentHash segments = fingerprint ∧
      evaluate tantivy segments request = .ok page

theorem Stored.snoc {start : tantivy.Segments} {es : List (Event tantivy)} {request : Request}
    {fingerprint : ℕ} {page : CachedPage tantivy.F32}
    (h : Stored contentHash start es request fingerprint page) (e : Event tantivy) :
    Stored contentHash start (es ++ [e]) request fingerprint page := by
  obtain ⟨segments, hmem, hpage⟩ := h
  exact ⟨segments, hmem.imp_right fun h => List.mem_append_left _ h, hpage⟩

/-! ### The invariant -/

/-- What the history says of a call, by its stage. -/
def CallOk (start : tantivy.Segments) (es : List (Event tantivy)) (i : ℕ)
    (call : Call tantivy) : Prop :=
  match call.stage with
  | .entered => .entered i call.request ∈ es
  | .reloaded => Reloaded es i call.request
  | .opened segments => Opened start es i call.request segments
  | .missed segments => Opened start es i call.request segments
  | .computed segments page => Opened start es i call.request segments ∧
      evaluate tantivy segments call.request = .ok page
  | .finished => True

theorem CallOk.snoc {start : tantivy.Segments} {es : List (Event tantivy)} {i : ℕ}
    {call : Call tantivy} (h : CallOk start es i call) {e : Event tantivy} (he : e ≠ .opened i) :
    CallOk start (es ++ [e]) i call := by
  rcases call with ⟨request, stage⟩
  rcases stage with _ | _ | segments | segments | ⟨segments, page⟩ | _
  · exact List.mem_append_left _ h
  · exact Reloaded.snoc h e
  · exact Opened.snoc h he
  · exact Opened.snoc h he
  · exact ⟨Opened.snoc h.1 he, h.2⟩
  · trivial

/-- What holds in every state of every run. -/
structure Inv (contentHash : Str → ℕ) (start : tantivy.Segments) (es : List (Event tantivy))
    (s : System tantivy) : Prop where
  committed : s.committed = (statesAfter start es).1
  reader : s.reader = (statesAfter start es).2
  cache : ∀ request fingerprint page, s.cache (request, fingerprint) = some page →
    Stored contentHash start es request fingerprint page
  calls : ∀ i call, s.calls[i]? = some call → CallOk start es i call

/-- All a call can do next. -/
inductive Advances (contentHash : Str → ℕ) (s : System tantivy) (i : ℕ) (call : Call tantivy) :
    Event tantivy → System tantivy → Prop
  | reloaded (h : call.stage = .entered) :
      Advances contentHash s i call (.reloaded i)
        { s.move i call .reloaded with reader := s.committed }
  | opened (h : call.stage = .reloaded) :
      Advances contentHash s i call (.opened i) (s.move i call (.opened s.reader))
  | hit {segments : tantivy.Segments} {page : CachedPage tantivy.F32}
      (h : call.stage = .opened segments)
      (hpage : s.cache (call.request, indexFingerprint tantivy contentHash segments) = some page) :
      Advances contentHash s i call
        (.answered i call.request (.ok (outcomeOf tantivy segments true page)))
        (s.move i call .finished)
  | missed {segments : tantivy.Segments} (h : call.stage = .opened segments) :
      Advances contentHash s i call .quiet (s.move i call (.missed segments))
  | computed {segments : tantivy.Segments} {page : CachedPage tantivy.F32}
      (h : call.stage = .missed segments)
      (hpage : evaluate tantivy segments call.request = .ok page) :
      Advances contentHash s i call .quiet (s.move i call (.computed segments page))
  | failed (e : SearchError) :
      Advances contentHash s i call (.answered i call.request (.error e))
        (s.move i call .finished)
  | stored {segments : tantivy.Segments} {page : CachedPage tantivy.F32}
      (h : call.stage = .computed segments page) :
      Advances contentHash s i call
        (.answered i call.request (.ok (outcomeOf tantivy segments false page)))
        { s.move i call .finished with
          cache := Function.update s.cache
            (call.request, indexFingerprint tantivy contentHash segments) (some page) }

theorem advance_cases {s t : System tantivy} {i : ℕ} {call : Call tantivy} {action : Action}
    {e : Event tantivy} (h : advance contentHash s i call action = some (e, t)) :
    Advances contentHash s i call e t := by
  rw [advance.eq_def] at h
  split at h
  · rename_i hstage
    cases h
    exact .reloaded hstage
  · cases h
    exact .failed _
  · rename_i hstage
    cases h
    exact .opened hstage
  · rename_i segments hstage
    split at h
    · rename_i page hpage
      cases h
      exact .hit hstage hpage
    · cases h
      exact .missed hstage
  · rename_i segments faults hstage
    split at h
    · rename_i page hpage
      cases h
      exact .computed hstage (computePage_ok hpage)
    · cases h
      exact .failed _
  · rename_i segments page hstage
    cases h
    exact .stored hstage
  · cases h

theorem calls_move {s : System tantivy} {i j : ℕ} {call c : Call tantivy} {stage : Stage tantivy}
    (h : (s.move i call stage).calls[j]? = some c) :
    (j = i ∧ c = { call with stage }) ∨ (j ≠ i ∧ s.calls[j]? = some c) := by
  have hset : (s.calls.set i { call with stage })[j]? = some c := h
  by_cases hij : i = j
  · subst hij
    rw [List.getElem?_set_self'] at hset
    rcases hold : s.calls[i]? with _ | old
    · rw [hold] at hset
      cases hset
    · rw [hold] at hset
      exact Or.inl ⟨rfl, (Option.some.inj hset).symm⟩
  · rw [List.getElem?_set_ne hij] at hset
    exact Or.inr ⟨fun heq => hij heq.symm, hset⟩

/-- What an entry of an updated cache is. -/
theorem update_some {α : Type} {cache : Key → Option α} {key key' : Key} {value : Option α}
    {page : α} (h : Function.update cache key value key' = some page) :
    (key' = key ∧ value = some page) ∨ cache key' = some page := by
  by_cases hkey : key' = key
  · rw [hkey, Function.update_self] at h
    exact Or.inl ⟨hkey, h⟩
  · rw [Function.update_of_ne hkey] at h
    exact Or.inr h

/-- The calls after one of them has moved on. -/
theorem Inv.calls_moved {start : tantivy.Segments} {es : List (Event tantivy)}
    {s : System tantivy} (h : Inv contentHash start es s) {i : ℕ} {call : Call tantivy}
    {stage : Stage tantivy} {e : Event tantivy} (he : ∀ j, j ≠ i → e ≠ .opened j)
    (hcall : CallOk start (es ++ [e]) i { call with stage }) :
    ∀ j c, (s.move i call stage).calls[j]? = some c → CallOk start (es ++ [e]) j c := by
  intro j c hc
  rcases calls_move hc with ⟨rfl, rfl⟩ | ⟨hne, hold⟩
  · exact hcall
  · exact (h.calls j c hold).snoc (he j hne)

theorem Advances.states {s t : System tantivy} {i : ℕ} {call : Call tantivy} {e : Event tantivy}
    (h : Advances contentHash s i call e t) :
    (t.committed, t.reader) = observe tantivy (s.committed, s.reader) e := by
  cases h <;> rfl

/-- Disk and reader hold what the events say, after a step that shows its effect on them. -/
theorem Inv.states {start : tantivy.Segments} {es : List (Event tantivy)} {s t : System tantivy}
    (h : Inv contentHash start es s) {e : Event tantivy}
    (hstates : (t.committed, t.reader) = observe tantivy (s.committed, s.reader) e) :
    t.committed = (statesAfter start (es ++ [e])).1 ∧
      t.reader = (statesAfter start (es ++ [e])).2 := by
  rw [h.committed, h.reader, Prod.mk.eta, ← statesAfter_snoc] at hstates
  exact ⟨congrArg Prod.fst hstates, congrArg Prod.snd hstates⟩

/-- **A call going on keeps the invariant.** -/
theorem Inv.advance {start : tantivy.Segments} {es : List (Event tantivy)} {s t : System tantivy}
    (h : Inv contentHash start es s) {i : ℕ} {call : Call tantivy} {e : Event tantivy}
    (hcall : s.calls[i]? = some call) (ha : Advances contentHash s i call e t) :
    Inv contentHash start (es ++ [e]) t := by
  have hok := h.calls i call hcall
  rw [CallOk.eq_def] at hok
  have hcache : ∀ request fingerprint page, s.cache (request, fingerprint) = some page →
      Stored contentHash start (es ++ [e]) request fingerprint page :=
    fun request fingerprint page hpage => (h.cache request fingerprint page hpage).snoc e
  obtain ⟨hcommitted, hreader⟩ := h.states ha.states
  refine ⟨hcommitted, hreader, ?_, ?_⟩
  · cases ha with
    | stored hstage =>
      -- the entry that is written was computed from the searcher the call holds
      rename_i segments page
      rw [hstage] at hok
      intro request fingerprint page' hpage'
      rcases update_some hpage' with ⟨hkey, hvalue⟩ | hold
      · cases hkey
        cases hvalue
        have hstored : Stored contentHash start es call.request
            (indexFingerprint tantivy contentHash segments) page :=
          ⟨segments, hok.1.mem, rfl, hok.2⟩
        exact hstored.snoc _
      · exact hcache request fingerprint page' hold
    | _ => exact hcache
  · rcases ha with hstage | hstage | _ | hstage | ⟨hstage, hpage⟩ | _ | _
    · rw [hstage] at hok
      exact h.calls_moved (by simp) ⟨es, [], rfl, hok⟩
    · rw [hstage] at hok
      refine h.calls_moved (fun j hj => by simp [Ne.symm hj]) ?_
      obtain ⟨a, b, rfl, hentered⟩ := hok
      exact ⟨a, b, [], by simp, hentered, by simp, h.reader⟩
    · exact h.calls_moved (by simp) trivial
    · rw [hstage] at hok
      exact h.calls_moved (by simp) (Opened.snoc hok (by simp))
    · rw [hstage] at hok
      exact h.calls_moved (by simp) ⟨Opened.snoc hok (by simp), hpage⟩
    · exact h.calls_moved (by simp) trivial
    · exact h.calls_moved (by simp) trivial

/-- **Every step keeps the invariant.** -/
theorem step_invariant {start : tantivy.Segments} {es : List (Event tantivy)}
    {s t : System tantivy} {e : Event tantivy} (h : Inv contentHash start es s)
    (hstep : Step contentHash s e t) : Inv contentHash start (es ++ [e]) t := by
  have hcache : ∀ request fingerprint page, s.cache (request, fingerprint) = some page →
      Stored contentHash start (es ++ [e]) request fingerprint page :=
    fun request fingerprint page hpage => (h.cache request fingerprint page hpage).snoc e
  obtain ⟨choice, hstep⟩ := hstep
  rcases choice with segments | key | _ | request | ⟨i, action⟩
  · cases hstep
    obtain ⟨hcommitted, hreader⟩ := h.states
      (t := { s with committed := segments }) (e := .committed segments) rfl
    exact ⟨hcommitted, hreader, hcache, fun i call hcall => (h.calls i call hcall).snoc (by simp)⟩
  · cases hstep
    obtain ⟨hcommitted, hreader⟩ := h.states (e := .quiet) rfl
    refine ⟨hcommitted, hreader, ?_, fun i call hcall => (h.calls i call hcall).snoc (by simp)⟩
    intro request fingerprint page hpage
    rcases update_some hpage with ⟨_, hvalue⟩ | hold
    · cases hvalue
    · exact hcache request fingerprint page hold
  · cases hstep
    obtain ⟨hcommitted, hreader⟩ := h.states
      (t := { s with reader := s.committed }) (e := .refreshed) rfl
    exact ⟨hcommitted, hreader, hcache, fun i call hcall => (h.calls i call hcall).snoc (by simp)⟩
  · cases hstep
    obtain ⟨hcommitted, hreader⟩ := h.states (e := .entered s.calls.length request) rfl
    refine ⟨hcommitted, hreader, hcache, fun i call hcall => ?_⟩
    have hcall' : (s.calls ++ [{ request, stage := .entered }])[i]? = some call := hcall
    rcases Nat.lt_trichotomy i s.calls.length with hlt | heq | hgt
    · rw [List.getElem?_append_left hlt] at hcall'
      exact (h.calls i call hcall').snoc (by simp)
    · rw [heq, List.getElem?_concat_length] at hcall'
      cases hcall'
      rw [heq]
      exact List.mem_append_right _ (List.mem_singleton_self _)
    · rw [List.getElem?_eq_none (by simp; omega)] at hcall'
      cases hcall'
  · simp only [step] at hstep
    split at hstep
    · rename_i call hcall
      exact h.advance hcall (advance_cases hstep)
    · cases hstep

theorem fresh_invariant (start : tantivy.Segments) :
    Inv contentHash start [] (fresh start) := by
  refine ⟨rfl, rfl, ?_, ?_⟩
  · intro request fingerprint page hpage
    cases hpage
  · intro i call hcall
    simp [fresh] at hcall

theorem run_invariant {start : tantivy.Segments} {es : List (Event tantivy)} {t : System tantivy}
    (hrun : Run (Step contentHash) (fresh start) es t) : Inv contentHash start es t :=
  hrun.invariant_trace (fresh_invariant start) fun _ _ _ _ h hstep => step_invariant h hstep

/-! ### What is returned -/

variable (tantivy) in
/-- An outcome is the uncached evaluation of its request. -/
def Shows (segments : tantivy.Segments) (request : Request)
    (outcome : SearchOutcome tantivy.F32) : Prop :=
  ∃ page, evaluate tantivy segments request = .ok page ∧ outcome.hits = page.hits ∧
    outcome.totalMatches = page.totalMatches ∧ outcome.relaxed = page.relaxed ∧
    outcome.docCount = tantivy.numDocs segments

/-- What a call returns, from the cache or not, on the searcher it holds. -/
theorem Inv.answer {start : tantivy.Segments} {es : List (Event tantivy)} {s t : System tantivy}
    (h : Inv contentHash start es s)
    (hinjective : Set.InjOn (indexFingerprint tantivy contentHash) (committedStates start es))
    {i : ℕ} {request : Request} {outcome : SearchOutcome tantivy.F32}
    (hstep : Step contentHash s (.answered i request (.ok outcome)) t) :
    ∃ segments, Opened start es i request segments ∧ Shows tantivy segments request outcome := by
  obtain ⟨choice, hstep⟩ := hstep
  rcases choice with segments | key | _ | request | ⟨j, action⟩
  · cases hstep
  · cases hstep
  · cases hstep
  · cases hstep
  · simp only [step] at hstep
    split at hstep
    · rename_i call hcall
      have hok := h.calls j call hcall
      rw [CallOk.eq_def] at hok
      generalize hevent : Event.answered i request (Except.ok outcome) = e at hstep
      rcases advance_cases hstep with _ | _ | ⟨hstage, hpage⟩ | _ | ⟨_, _⟩ | _ | hstage
      · cases hevent
      · cases hevent
      · rename_i segments page
        cases hevent
        rw [hstage] at hok
        -- two states of one fingerprint are one
        obtain ⟨segments', hmem, hfingerprint, hevaluate⟩ := h.cache _ _ _ hpage
        obtain rfl := hinjective hmem hok.mem hfingerprint
        exact ⟨segments', hok, page, hevaluate, rfl, rfl, rfl, rfl⟩
      · cases hevent
      · cases hevent
      · cases hevent
      · rename_i segments page
        cases hevent
        rw [hstage] at hok
        exact ⟨segments, hok.1, page, hok.2, rfl, rfl, rfl, rfl⟩
    · cases hstep

/-- **The cache cannot be seen.**  Whatever a call returns is the uncached evaluation of its
request, on the state that was reloaded last when the call took its searcher: the one that was
committed when the call reloaded the reader, or one committed since. -/
theorem search_transparent {start : tantivy.Segments} {es fs gs : List (Event tantivy)}
    {t : System tantivy} (hrun : Run (Step contentHash) (fresh start) es t)
    (hinjective : Set.InjOn (indexFingerprint tantivy contentHash) (committedStates start es))
    {i : ℕ} {request : Request} {outcome : SearchOutcome tantivy.F32}
    (hes : es = fs ++ .answered i request (.ok outcome) :: gs) :
    ∃ a b c segments, fs = a ++ .reloaded i :: (b ++ .opened i :: c) ∧
      .entered i request ∈ a ∧ .opened i ∉ c ∧
      segments = (statesAfter start (a ++ .reloaded i :: b)).2 ∧
      (segments = (statesAfter start a).1 ∨ .committed segments ∈ b) ∧
      Shows tantivy segments request outcome := by
  rw [hes] at hrun hinjective
  obtain ⟨s, u, hbefore, hstep, _⟩ := hrun.split
  have hsub : committedStates start fs ⊆
      committedStates start (fs ++ .answered i request (.ok outcome) :: gs) :=
    fun segments h => h.imp_right fun h => List.mem_append_left _ h
  obtain ⟨segments, ⟨a, b, c, hfs, hentered, hlast, hsegments⟩, hshows⟩ :=
    (run_invariant hbefore).answer (hinjective.mono hsub) hstep
  refine ⟨a, b, c, segments, hfs, hentered, hlast, hsegments, ?_, hshows⟩
  rw [hsegments]
  exact reader_fresh start a b i

/-! ### An engine over lists of words -/

/-- The documents that have all of some words, or any of them. -/
def wordMatches (documents : List Str) (query : Bool × List Str) : List ℕ :=
  (List.range documents.length).filter fun i =>
    let words := splitWhitespace (documents[i]?.getD [])
    if query.1 then query.2.all fun word => words.contains word
    else query.2.any fun word => words.contains word

/-- An index of texts, each of them a segment and its own address, without scores. -/
def wordTantivy : Tantivy where
  Segments := List Str
  Query := Bool × List Str
  Address := ℕ
  Document := Str
  Generator := Unit
  F32 := Unit
  describe documents := documents.flatMap fun text => text ++ ['\n']
  numDocs := List.length
  parseQuery _ conjunction query := .ok (conjunction, splitWhitespace query)
  count documents query := (wordMatches documents query).length
  topDocs documents query limit offset :=
    (((wordMatches documents query).drop offset).take limit).map fun i => ((), i)
  createGenerator _ _ _ _ := ()
  doc documents i := documents[i]?.getD []
  snippetHtml _ text := text
  firstText text
    | .body => some text
    | _ => none
  firstI64 _ _ := none
  firstF32 _ _ := none
  zero := ()

/-- The numbers of the characters, as the digits of one. -/
def plainHash (s : Str) : ℕ := s.foldl (fun n c => n * 1114112 + c.toNat) 1

def rustRequest : Request := { query := "rust".toList, limit := 1, offset := 0 }

/-- A call of `search`, alone. -/
def searchOnce (i : ℕ) (request : Request) : List (Choice wordTantivy) :=
  [.enter request, .call i (.reload none), .call i .open, .call i .look,
    .call i (.compute noFaults), .call i .store]

/-- The index before and after the commit. -/
def oneDocument : wordTantivy.Segments := ["rust".toList]

def twoDocuments : wordTantivy.Segments := ["rust".toList, "more rust".toList]

def sampleRun : List (Event wordTantivy) × System wordTantivy :=
  perform (step plainHash) (fresh oneDocument)
    (searchOnce 0 rustRequest ++ .commit twoDocuments ::
      (searchOnce 1 rustRequest ++ searchOnce 2 rustRequest))

/-- What the third call returns: the total is that of the index, and not of the page. -/
def thirdOutcome : SearchOutcome wordTantivy.F32 where
  hits := [{ url := [], title := [], snippet := "rust".toList, fetchedAt := 0, score := (),
             authority := (), hostAuthority := () }]
  totalMatches := 2
  docCount := 2
  cached := true
  relaxed := false

/-- The events before the third answer. -/
def sampleEvents : List (Event wordTantivy) :=
  [.entered 0 rustRequest, .reloaded 0, .opened 0, .quiet, .quiet,
    .answered 0 rustRequest
      (.ok { thirdOutcome with totalMatches := 1, docCount := 1, cached := false }),
    .committed twoDocuments, .entered 1 rustRequest, .reloaded 1, .opened 1, .quiet, .quiet,
    .answered 1 rustRequest (.ok { thirdOutcome with cached := false }),
    .entered 2 rustRequest, .reloaded 2, .opened 2]

theorem sampleRun_events :
    sampleRun.1 = sampleEvents ++ .answered 2 rustRequest (.ok thirdOutcome) :: [] := by rfl

theorem plainHash_injective :
    Set.InjOn (indexFingerprint wordTantivy plainHash)
      (committedStates oneDocument sampleRun.1) := by
  have hstates : ∀ segments ∈ committedStates oneDocument sampleRun.1,
      segments = oneDocument ∨ segments = twoDocuments := by
    intro segments h
    rw [sampleRun_events] at h
    refine h.imp_right fun h => ?_
    simpa [sampleEvents] using h
  have hne : indexFingerprint wordTantivy plainHash oneDocument
      ≠ indexFingerprint wordTantivy plainHash twoDocuments := by decide
  intro segments h segments' h' heq
  rcases hstates segments h with rfl | rfl
  · rcases hstates segments' h' with rfl | rfl
    · rfl
    · exact absurd heq hne
  · rcases hstates segments' h' with rfl | rfl
    · exact absurd heq.symm hne
    · rfl

/-- The third call is answered from the cache, and shows what its index holds. -/
theorem search_transparent_sample :
    thirdOutcome.cached = true ∧
      ∃ segments, Shows wordTantivy segments rustRequest thirdOutcome := by
  obtain ⟨_, _, _, segments, _, _, _, _, _, hshows⟩ :=
    search_transparent (perform_run (step plainHash) (fresh oneDocument) _) plainHash_injective
      sampleRun_events
  exact ⟨rfl, segments, hshows⟩

end QueryCache
