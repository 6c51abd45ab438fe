/-
The URL frontier (`crawler::frontier`).

The queue lives in the database: an entry's key is its host, a separator and a
sequence number, and a pop seeks from host to host.  `push`, `popReady`,
`deferHost` and `open` are the source's functions, failures included; what they
leave in memory when a call of the database fails is part of the result.

* `frontierKey_lt_iff`, `frontierKey_lt_cursorAfter`, `below_of_host_lt`
  — byte order of the keys is host order first and push order second, and the
  cursor stands between a host and the next;
* `push_ok`, `forget_ok` — what a successful call has done;
* `scan_isSome` — every pop comes to an end.
-/
import MjlSearch.CrawlDb
import MjlSearch.Postcard
import MjlSearch.Urls

open Text Bytes CrawlDb

/-- Per-host scheduling state. -/
structure HostState where
  nextAllowedAtMs : ℤ
  lastFetchedAtMs : ℤ
  deriving DecidableEq, Repr

instance : Inhabited HostState := ⟨{ nextAllowedAtMs := 0, lastFetchedAtMs := 0 }⟩

/-- Frontier key for a job: the host, a zero byte and the big-endian sequence. -/
def frontierKey (host : Str) (sequence : ℕ) : Key := utf8 host ++ 0 :: toBeBytes 8 sequence

/-- Recovers the host from a `frontierKey`. -/
def frontierKeyHost (key : Key) : Option Key :=
  if 0 ∈ key then some (key.takeWhile fun byte => byte != 0) else none

/-- Builds the key just past every entry of `host`. -/
def cursorAfter (host : Key) : Key := host ++ [1]

/-- Politeness delay in milliseconds for a host. -/
def politenessDelayMs (defaultMs : ℕ) (robotsCrawlDelayS : Option ℕ) : ℕ :=
  match robotsCrawlDelayS with
  | some seconds => max (min (seconds * 1000) (2 ^ 64 - 1)) defaultMs
  | none => defaultMs

/-- How the frontier's values are stored. -/
structure FrontierCodecs where
  job : Codec CrawlJob
  hostState : Codec HostState

namespace Postcard

def jobFormat : Format CrawlJob :=
  (str.pair u32).via (fun job => (job.url, job.depth)) (fun p => ⟨p.1, p.2⟩) fun _ => rfl

def hostStateFormat : Format HostState :=
  (signed.pair signed).via (fun state => (state.nextAllowedAtMs, state.lastFetchedAtMs))
    (fun p => ⟨p.1, p.2⟩) fun _ => rfl

/-- The frontier's values in their real format. -/
def frontierCodecs : FrontierCodecs :=
  { job := jobFormat.toCodec, hostState := hostStateFormat.toCodec }

end Postcard

/-- The pending-URL queue: the database, and what is held in memory beside it. -/
structure Frontier where
  db : CrawlDb
  sequence : ℕ
  pending : ℕ
  hosts : ℕ

namespace Frontier

variable (urls : UrlCrate) (codecs : FrontierCodecs) (faults : Faults)

/-- Resolves a column family by name. -/
def resolve (name : ColumnFamily) : Except CrawlError Unit :=
  if faults.missing name then .error (.missingColumnFamily name) else .ok ()

/-- A call that fails or goes through. -/
def call (fails : Bool) : Except CrawlError Unit :=
  if fails then .error .backend else .ok ()

/-- Encodes a value for the database. -/
def encode {α : Type} (codec : Codec α) (a : α) : Except CrawlError Value :=
  match codec.encode a with
  | none => .error .cacheEncode
  | some bytes => .ok bytes

/-- Opens the frontier, reconciling its counters against the database: the
result, and the database as it is left. -/
def «open» (db : CrawlDb) : Except CrawlError Frontier × CrawlDb :=
  let read : Except CrawlError Unit := do
    resolve faults .metadata
    call (faults.read 0)
    resolve faults .frontierPending
    call (faults.iterate 0)
    resolve faults .frontierHosts
    call (faults.iterate 1)
    call (faults.write 0)
  match read with
  | .error e => (.error e, db)
  | .ok () =>
    let pending := db.pending.entries.length
    let hosts := db.hosts.entries.length
    let counted := db.writeCounter metaPendingCount pending
    match call (faults.write 1) with
    | .error e => (.error e, counted)
    | .ok () =>
      let counted := counted.writeCounter metaHostCount hosts
      (.ok { db := counted, sequence := db.readCounter metaFrontierSeq, pending, hosts },
        counted)

/-- Reads a host's scheduling state. -/
def hostState (turn : ℕ) (db : CrawlDb) (host : Str) :
    Except CrawlError (Option HostState) := do
  resolve faults .frontierHosts
  call (faults.read turn)
  match db.hosts.get (utf8 host) with
  | none => .ok none
  | some bytes =>
    match codecs.hostState.decode bytes with
    | none => .error .cacheDecode
    | some state => .ok (some state)

/-- Writes a host's scheduling state. -/
def setHostState (F : Frontier) (host : Str) (state : HostState) :
    Except CrawlError Frontier := do
  let value ← encode codecs.hostState state
  resolve faults .frontierHosts
  call (faults.write 0)
  .ok { F with db := { F.db with hosts := F.db.hosts.put (utf8 host) value } }

/-- Records that the host was just fetched, and when it may be fetched again. -/
def deferHost (F : Frontier) (host : Str) (untilMs fetchedAtMs : ℤ) :
    Except CrawlError Frontier :=
  setHostState codecs faults F host
    { nextAllowedAtMs := untilMs, lastFetchedAtMs := fetchedAtMs }

/-- The counters in memory once a job is counted in. -/
def advance (F : Frontier) (isNewHost : Bool) : Frontier :=
  { F with
    sequence := F.sequence + 1
    pending := F.pending + 1
    hosts := if isNewHost then F.hosts + 1 else F.hosts }

/-- The part of the batch that makes a host known. -/
def pushHost (F : Frontier) (db : CrawlDb) (host : Str) (isNewHost : Bool) :
    Except CrawlError CrawlDb :=
  if isNewHost then do
    let state ← encode codecs.hostState default
    resolve faults .frontierHosts
    let db := { db with hosts := db.hosts.put (utf8 host) state }
    .ok (db.writeCounter metaHostCount F.hosts)
  else .ok db

/-- The batch `push` writes, with the counters already advanced. -/
def pushBatch (F : Frontier) (host : Str) (isNewHost : Bool) (job : CrawlJob) :
    Except CrawlError CrawlDb := do
  let value ← encode codecs.job job
  resolve faults .metadata
  resolve faults .frontierPending
  let db := { F.db with pending := F.db.pending.put (frontierKey host F.sequence) value }
  let db := db.writeCounter metaFrontierSeq F.sequence
  let db := db.writeCounter metaPendingCount F.pending
  let db ← pushHost codecs faults F db host isNewHost
  call (faults.write 0)
  .ok db

/-- Enqueues a job, and permits its host immediately if it is new.  The counters
advance before anything that can fail after them. -/
def push (F : Frontier) (job : CrawlJob) : Except CrawlError Unit × Frontier :=
  match urls.hostOf job.url with
  | none => (.error (.invalidUrl job.url "no host".toList), F)
  | some host =>
    match hostState codecs faults 0 F.db host with
    | .error e => (.error e, F)
    | .ok known =>
      let isNewHost := known.isNone
      let counted := F.advance isNewHost
      if counted.sequence < 2 ^ 64 ∧ counted.pending < 2 ^ 64 ∧ counted.hosts < 2 ^ 64 then
        match pushBatch codecs faults counted host isNewHost job with
        | .error e => (.error e, counted)
        | .ok db => (.ok (), { counted with db })
      else (.error .overflow, counted)

/-- Removes a queued entry and its share of the count, in one batch. -/
def forget (turn : ℕ) (F : Frontier) (key : Key) : Except CrawlError Unit × Frontier :=
  let counted := { F with pending := F.pending - 1 }
  let write : Except CrawlError Unit := do
    resolve faults .frontierPending
    resolve faults .metadata
    call (faults.write turn)
  match write with
  | .error e => (.error e, counted)
  | .ok () =>
    let db := { F.db with pending := F.db.pending.delete key }
    (.ok (), { counted with db := db.writeCounter metaPendingCount counted.pending })

/-- The loop of `pop_ready`: `turn` counts its rounds, `examined` the hosts it has
looked at.  `none` means that `fuel` rounds were not enough. -/
def scan (nowMs : ℤ) (maxHostsPerCall : ℕ) (skip : Str → Bool) :
    ℕ → ℕ → Option Key → ℕ → Frontier →
      Option (Except CrawlError (Option CrawlJob) × Frontier)
  | 0, _, _, _, _ => none
  | fuel + 1, turn, cursor, examined, F =>
    if maxHostsPerCall ≤ examined then some (.ok none, F)
    else if faults.iterate turn then some (.error .backend, F)
    else
      -- no cursor is the start of the column family
      match F.db.pending.seek (cursor.getD []) with
      | none => some (.ok none, F)
      | some (key, value) =>
        match frontierKeyHost key with
        | none =>
          match forget faults turn F key with
          | (.error e, F') => some (.error e, F')
          | (.ok (), F') => scan nowMs maxHostsPerCall skip fuel (turn + 1) cursor examined F'
        | some hostBytes =>
          let host := fromUtf8Lossy hostBytes
          if skip host then
            scan nowMs maxHostsPerCall skip fuel (turn + 1) (some (cursorAfter hostBytes))
              (examined + 1) F
          else
            match hostState codecs faults turn F.db host with
            | .error e => some (.error e, F)
            | .ok state =>
              if nowMs < (state.getD default).nextAllowedAtMs then
                scan nowMs maxHostsPerCall skip fuel (turn + 1) (some (cursorAfter hostBytes))
                  (examined + 1) F
              else
                match codecs.job.decode value with
                | none => some (.error .cacheDecode, F)
                | some job =>
                  match forget faults turn F key with
                  | (.error e, F') => some (.error e, F')
                  | (.ok (), F') => some (.ok (some job), F')

/-- Removes and returns the next job whose host is ready and not skipped.  A round
looks at one more host or removes an entry, which bounds the rounds. -/
def popReady (F : Frontier) (nowMs : ℤ) (maxHostsPerCall : ℕ) (skip : Str → Bool) :
    Option (Except CrawlError (Option CrawlJob) × Frontier) :=
  if faults.missing .frontierPending then
    some (.error (.missingColumnFamily .frontierPending), F)
  else
    scan codecs faults nowMs maxHostsPerCall skip
      (maxHostsPerCall + F.db.pending.entries.length + 1) 0 none 0 F

/-! ### The order of the keys -/

/-- A host made of bytes greater than `0x01`. -/
def PlainHost (host : Str) : Prop := ∀ b ∈ utf8 host, 1 < b

theorem PlainHost.not_mem_zero {host : Str} (h : PlainHost host) : (0 : UInt8) ∉ utf8 host := by
  intro hmem
  exact absurd (h 0 hmem) (by decide)

theorem frontierKeyHost_frontierKey {host : Str} (h : PlainHost host) (sequence : ℕ) :
    frontierKeyHost (frontierKey host sequence) = some (utf8 host) := by
  have hmem : (0 : UInt8) ∈ frontierKey host sequence := by simp [frontierKey]
  rw [frontierKeyHost, if_pos hmem, frontierKey, List.takeWhile_append_of_pos]
  · simp
  · intro b hb
    have hne : b ≠ 0 := by
      rintro rfl
      exact h.not_mem_zero hb
    simpa using hne

/-- A smaller host has smaller keys, and the cursor past it stands before the
larger host's keys. -/
theorem below_of_host_lt {host host' : Str} (h' : PlainHost host')
    (hlt : utf8 host < utf8 host') (sequence sequence' : ℕ) :
    frontierKey host sequence < frontierKey host' sequence' ∧
      cursorAfter (utf8 host) < frontierKey host' sequence' := by
  rcases lt_cases hlt with ⟨c, r, hc⟩ | hall
  · have h1 : 1 < c := h' c (by rw [hc]; simp)
    have h0 : (0 : UInt8) < c := lt_trans (by decide) h1
    rw [frontierKey, frontierKey, cursorAfter, hc, List.append_assoc]
    refine ⟨(append_lt_append_iff _).mpr ?_, (append_lt_append_iff _).mpr ?_⟩
    · exact (cons_lt_cons_iff_of_ne (ne_of_lt h0) _ _).mpr h0
    · exact (cons_lt_cons_iff_of_ne (ne_of_lt h1) _ _).mpr h1
  · exact ⟨hall _ _, hall _ _⟩

/-- Keys of one host compare by their sequence numbers. -/
theorem frontierKey_lt_same {host : Str} {m n : ℕ} (hm : m < 2 ^ 64) (hn : n < 2 ^ 64) :
    frontierKey host m < frontierKey host n ↔ m < n := by
  rw [frontierKey, frontierKey, append_lt_append_iff]
  show [(0 : UInt8)] ++ _ < [0] ++ _ ↔ _
  rw [append_lt_append_iff]
  exact toBeBytes_lt_iff (by omega) (by omega)

theorem frontierKey_lt_cursorAfter (host : Str) (sequence : ℕ) :
    frontierKey host sequence < cursorAfter (utf8 host) := by
  rw [frontierKey, cursorAfter, append_lt_append_iff]
  exact (cons_lt_cons_iff_of_ne (by decide) _ _).mpr (by decide)

/-- **Byte order of the keys is host order first and push order second.** -/
theorem frontierKey_lt_iff {host host' : Str} (h : PlainHost host) (h' : PlainHost host')
    {m n : ℕ} (hm : m < 2 ^ 64) (hn : n < 2 ^ 64) :
    frontierKey host m < frontierKey host' n ↔
      utf8 host < utf8 host' ∨ (host = host' ∧ m < n) := by
  rcases lt_trichotomy (utf8 host) (utf8 host') with hlt | heq | hgt
  · exact iff_of_true (below_of_host_lt h' hlt m n).1 (Or.inl hlt)
  · have hhost : host = host' := utf8_injective heq
    subst hhost
    rw [frontierKey_lt_same hm hn]
    simp
  · refine iff_of_false (lt_asymm (below_of_host_lt h hgt n m).1) ?_
    rintro (hlt | ⟨rfl, _⟩)
    · exact lt_asymm hlt hgt
    · exact lt_irrefl _ hgt

theorem frontierKey_injective {host host' : Str} (h : PlainHost host) (h' : PlainHost host')
    {m n : ℕ} (hm : m < 2 ^ 64) (hn : n < 2 ^ 64)
    (heq : frontierKey host m = frontierKey host' n) : host = host' ∧ m = n := by
  have hhost : host = host' := by
    have := congrArg frontierKeyHost heq
    rw [frontierKeyHost_frontierKey h, frontierKeyHost_frontierKey h'] at this
    exact utf8_injective (Option.some.inj this)
  subst hhost
  refine ⟨rfl, ?_⟩
  rcases lt_trichotomy m n with hlt | hmn | hgt
  · exact absurd heq (ne_of_lt ((frontierKey_lt_same hm hn).mpr hlt))
  · exact hmn
  · exact absurd heq.symm (ne_of_lt ((frontierKey_lt_same hn hm).mpr hgt))

/-- A host that extends another one is greater. -/
theorem lt_of_extends {host host' : Str} (h : utf8 host <+: utf8 host') (hne : host ≠ host') :
    utf8 host < utf8 host' := by
  obtain ⟨rest, hrest⟩ := h
  cases rest with
  | nil =>
    rw [List.append_nil] at hrest
    exact absurd (utf8_injective hrest) hne
  | cons b rest =>
    have hlt : utf8 host ++ [] < utf8 host ++ b :: rest :=
      (append_lt_append_iff _).mpr (List.nil_lt_cons b rest)
    rwa [List.append_nil, hrest] at hlt

/-- **The keys embed the hosts and the sequence numbers in byte order**: they are different for
different hosts or numbers, they compare as these do, a key gives its host back, and the cursor
past a host is between its keys and those of every greater host, such as one that extends it. -/
theorem frontierKey_embeds {host host' : Str} (h : PlainHost host) (h' : PlainHost host')
    {m n : ℕ} (hm : m < 2 ^ 64) (hn : n < 2 ^ 64) :
    (frontierKey host m = frontierKey host' n ↔ host = host' ∧ m = n) ∧
      (frontierKey host m < frontierKey host' n ↔
        utf8 host < utf8 host' ∨ (host = host' ∧ m < n)) ∧
      frontierKeyHost (frontierKey host m) = some (utf8 host) ∧
      frontierKey host m < cursorAfter (utf8 host) ∧
      (utf8 host < utf8 host' → cursorAfter (utf8 host) < frontierKey host' n) ∧
      (utf8 host <+: utf8 host' → host ≠ host' →
        cursorAfter (utf8 host) < frontierKey host' n) := by
  have hcursor : utf8 host < utf8 host' → cursorAfter (utf8 host) < frontierKey host' n :=
    fun hlt => (below_of_host_lt h' hlt m n).2
  refine ⟨⟨frontierKey_injective h h' hm hn, ?_⟩, frontierKey_lt_iff h h' hm hn,
    frontierKeyHost_frontierKey h m, frontierKey_lt_cursorAfter host m, hcursor,
    fun hextends hne => hcursor (lt_of_extends hextends hne)⟩
  rintro ⟨rfl, rfl⟩
  rfl

/-- A host, one that extends it, and two numbers whose bytes are at either end. -/
theorem frontierKey_embeds_extended :
    (frontierKey "a.b".toList (2 ^ 64 - 1) = frontierKey "a.bc".toList 0 ↔
        "a.b".toList = "a.bc".toList ∧ 2 ^ 64 - 1 = 0) ∧
      (frontierKey "a.b".toList (2 ^ 64 - 1) < frontierKey "a.bc".toList 0 ↔
        utf8 "a.b".toList < utf8 "a.bc".toList ∨
          ("a.b".toList = "a.bc".toList ∧ 2 ^ 64 - 1 < 0)) ∧
      frontierKeyHost (frontierKey "a.b".toList (2 ^ 64 - 1)) = some (utf8 "a.b".toList) ∧
      frontierKey "a.b".toList (2 ^ 64 - 1) < cursorAfter (utf8 "a.b".toList) ∧
      (utf8 "a.b".toList < utf8 "a.bc".toList →
        cursorAfter (utf8 "a.b".toList) < frontierKey "a.bc".toList 0) ∧
      (utf8 "a.b".toList <+: utf8 "a.bc".toList → "a.b".toList ≠ "a.bc".toList →
        cursorAfter (utf8 "a.b".toList) < frontierKey "a.bc".toList 0) := by
  have hplain : ∀ host : Str, ((utf8 host).all fun b => decide (1 < b)) = true →
      PlainHost host := by
    intro host hall b hb
    exact of_decide_eq_true (List.all_eq_true.mp hall b hb)
  exact frontierKey_embeds (hplain _ (by decide)) (hplain _ (by decide)) (by decide) (by decide)

/-! ### What the calls do -/

variable {urls codecs faults}

theorem encode_ok {α : Type} {codec : Codec α} {a : α} {bytes : Value}
    (h : encode codec a = .ok bytes) : codec.encode a = some bytes := by
  rw [encode] at h
  split at h
  · cases h
  · rename_i hbytes
    cases h
    exact hbytes

/-- A successful step of an `Except` computation. -/
theorem bind_ok {α β : Type} {x : Except CrawlError α} {f : α → Except CrawlError β} {b : β}
    (h : (x >>= f) = .ok b) : ∃ a, x = .ok a ∧ f a = .ok b := by
  cases x with
  | error e => cases h
  | ok a => exact ⟨a, rfl, h⟩

/-- What a successful `push` has done to the database. -/
theorem pushBatch_ok {F : Frontier} {host : Str} {isNewHost : Bool} {job : CrawlJob}
    {db : CrawlDb} (h : pushBatch codecs faults F host isNewHost job = .ok db) :
    ∃ value, codecs.job.encode job = some value ∧
      db.pending = F.db.pending.put (frontierKey host F.sequence) value ∧
      db.robots = F.db.robots ∧
      (F.sequence < 2 ^ 64 → db.readCounter metaFrontierSeq = F.sequence) ∧
      (if isNewHost then ∃ state, codecs.hostState.encode default = some state ∧
          db.hosts = F.db.hosts.put (utf8 host) state
        else db.hosts = F.db.hosts) := by
  rw [pushBatch] at h
  obtain ⟨value, hvalue, h⟩ := bind_ok h
  obtain ⟨_, _, h⟩ := bind_ok h
  obtain ⟨_, _, h⟩ := bind_ok h
  obtain ⟨db', hdb, h⟩ := bind_ok h
  obtain ⟨_, _, h⟩ := bind_ok h
  cases h
  refine ⟨value, encode_ok hvalue, ?_⟩
  have hseq : ∀ d : CrawlDb, F.sequence < 2 ^ 64 →
      ((d.writeCounter metaFrontierSeq F.sequence).writeCounter metaPendingCount
        F.pending).readCounter metaFrontierSeq = F.sequence := by
    intro d hfit
    rw [readCounter_writeCounter_of_ne _ _ metaFrontierSeq_ne_pending,
      readCounter_writeCounter _ _ hfit]
  rw [pushHost] at hdb
  cases isNewHost with
  | false =>
    cases hdb
    exact ⟨rfl, rfl, hseq _, rfl⟩
  | true =>
    rw [if_pos rfl] at hdb
    obtain ⟨state, hstate, hdb⟩ := bind_ok hdb
    obtain ⟨_, _, hdb⟩ := bind_ok hdb
    cases hdb
    refine ⟨rfl, rfl, fun hfit => ?_, ⟨state, encode_ok hstate, rfl⟩⟩
    rw [readCounter_writeCounter_of_ne _ _ metaFrontierSeq_ne_host]
    exact hseq _ hfit

/-- **A successful `push`.** -/
theorem push_ok {F F' : Frontier} {job : CrawlJob}
    (h : push urls codecs faults F job = (.ok (), F')) :
    ∃ host value, urls.hostOf job.url = some host ∧ codecs.job.encode job = some value ∧
      F.sequence + 1 < 2 ^ 64 ∧ F'.sequence = F.sequence + 1 ∧
      F'.db.readCounter metaFrontierSeq = F.sequence + 1 ∧
      F'.db.pending = F.db.pending.put (frontierKey host (F.sequence + 1)) value := by
  rw [push] at h
  split at h
  · cases h
  · rename_i host hhost
    split at h
    · cases h
    · rename_i known hknown
      dsimp only at h
      split at h
      · rename_i hfit
        split at h
        · cases h
        · rename_i db hbatch
          cases h
          obtain ⟨value, hvalue, hpending, _, hseq, _⟩ := pushBatch_ok hbatch
          exact ⟨host, value, hhost, hvalue, hfit.1, rfl, hseq hfit.1, hpending⟩
      · cases h

/-- **A successful `forget`.** -/
theorem forget_ok {turn : ℕ} {F F' : Frontier} {key : Key}
    (h : forget faults turn F key = (.ok (), F')) :
    F' = { F with
      db := { F.db with pending := F.db.pending.delete key }.writeCounter metaPendingCount
        (F.pending - 1)
      pending := F.pending - 1 } := by
  rw [forget] at h
  dsimp only at h
  split at h
  · cases h
  · cases h
    rfl

/-- A failed `forget` has touched nothing but the count held in memory. -/
theorem forget_error {turn : ℕ} {F F' : Frontier} {key : Key} {e : CrawlError}
    (h : forget faults turn F key = (.error e, F')) :
    F' = { F with pending := F.pending - 1 } := by
  rw [forget] at h
  dsimp only at h
  split at h
  · cases h
    rfl
  · cases h

/-- **What every removed entry keeps, a pop keeps**, unless its last removal fails. -/
theorem scan_keeps {P : Frontier → Prop}
    (hforget : ∀ turn (G G' : Frontier) (e : Key × Value), e ∈ G.db.pending.entries → P G →
      forget faults turn G e.1 = (.ok (), G') → P G')
    {nowMs : ℤ} {maxHostsPerCall : ℕ} {skip : Str → Bool} {fuel turn : ℕ} {cursor : Option Key}
    {examined : ℕ} {F F' : Frontier} {result : Except CrawlError (Option CrawlJob)}
    (h : scan codecs faults nowMs maxHostsPerCall skip fuel turn cursor examined F
      = some (result, F')) (hP : P F) :
    P F' ∨ ∃ e turn G key, result = .error e ∧ P G ∧
      forget faults turn G key = (.error e, F') := by
  induction fuel generalizing turn cursor examined F with
  | zero => cases h
  | succ fuel ih =>
    rw [scan] at h
    split at h
    · cases h
      exact .inl hP
    · split at h
      · cases h
        exact .inl hP
      · split at h
        · cases h
          exact .inl hP
        · rename_i key value hseek
          have hmem : (key, value) ∈ F.db.pending.entries := (Store.seek_spec hseek).1
          split at h
          · -- a key without a host is removed, and the scan goes on
            split at h
            · rename_i e F₁ hcall
              cases h
              exact .inr ⟨e, turn, F, key, rfl, hP, hcall⟩
            · rename_i F₁ hcall
              exact ih h (hforget turn F F₁ (key, value) hmem hP hcall)
          · dsimp only at h
            split at h
            · exact ih h hP
            · split at h
              · cases h
                exact .inl hP
              · split at h
                · exact ih h hP
                · split at h
                  · cases h
                    exact .inl hP
                  · split at h
                    · rename_i e F₁ hcall
                      cases h
                      exact .inr ⟨e, turn, F, key, rfl, hP, hcall⟩
                    · rename_i F₁ hcall
                      cases h
                      exact .inl (hforget turn F F' (key, value) hmem hP hcall)

/-- The same of a pop that succeeds. -/
theorem popReady_keeps {P : Frontier → Prop}
    (hforget : ∀ turn (G G' : Frontier) (e : Key × Value), e ∈ G.db.pending.entries → P G →
      forget faults turn G e.1 = (.ok (), G') → P G')
    {nowMs : ℤ} {maxHostsPerCall : ℕ} {skip : Str → Bool} {F F' : Frontier}
    {result : Option CrawlJob}
    (h : popReady codecs faults F nowMs maxHostsPerCall skip = some (.ok result, F'))
    (hP : P F) : P F' := by
  rw [popReady] at h
  split at h
  · cases h
  · rcases scan_keeps hforget h hP with hkept | ⟨e, _, _, _, hfailed, _⟩
    · exact hkept
    · cases hfailed

theorem length_delete_lt {s : Store Key Value} {e : Key × Value} (he : e ∈ s.entries) :
    (s.delete e.1).entries.length < s.entries.length := by
  rw [Store.delete]
  refine List.length_filter_lt_length_iff_exists.mpr ⟨e, he, by simp⟩

/-- **A pop comes to an end**: each round looks at one more host or removes an
entry. -/
theorem scan_isSome {nowMs : ℤ} {maxHostsPerCall : ℕ} {skip : Str → Bool} {fuel turn : ℕ}
    {cursor : Option Key} {examined : ℕ} {F : Frontier}
    (hfuel : maxHostsPerCall - examined + F.db.pending.entries.length < fuel) :
    (scan codecs faults nowMs maxHostsPerCall skip fuel turn cursor examined F).isSome := by
  induction fuel generalizing turn cursor examined F with
  | zero => omega
  | succ fuel ih =>
    rw [scan]
    split
    · rfl
    · rename_i hroom
      have hnext : maxHostsPerCall - (examined + 1) + F.db.pending.entries.length < fuel := by
        omega
      split
      · rfl
      · split
        · rfl
        · rename_i key value hseek
          split
          · split
            · rfl
            · rename_i F' hforget
              refine ih ?_
              have hlt : (F.db.pending.delete key).entries.length
                  < F.db.pending.entries.length := length_delete_lt (Store.seek_spec hseek).1
              rw [forget_ok hforget]
              show maxHostsPerCall - examined + (F.db.pending.delete key).entries.length < fuel
              omega
          · dsimp only
            split
            · exact ih hnext
            · split
              · rfl
              · split
                · exact ih hnext
                · split
                  · rfl
                  · split <;> rfl

theorem popReady_isSome (F : Frontier) (nowMs : ℤ) (maxHostsPerCall : ℕ)
    (skip : Str → Bool) : (popReady codecs faults F nowMs maxHostsPerCall skip).isSome := by
  rw [popReady]
  split
  · rfl
  · exact scan_isSome (by omega)

end Frontier
