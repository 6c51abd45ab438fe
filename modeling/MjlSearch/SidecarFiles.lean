/-
The files beside the index (`indexer::graph`, `indexer::history`).

The host counts and the timeline are JSON files, which each batch and each segment read and
replace.  `serde_json` enters as a codec for each of the two, `Serde`; a file that is not there or
does not decode counts as an empty one.

* `loadHostInlinks_save` — what was saved is what is loaded;
* `countOf_countCrossSiteLinks` — what counting some links does to a host;
* `drainStep_read`, `step_read` — a step on the files is one on what they say;
* `files_refine` — so is a run, however often a drain is stopped and started again;
* `sampleSerde` — codecs for compact JSON.
-/
import Mathlib.Data.Char
import Mathlib.Data.List.Lex
import MjlSearch.HistoryJson
import MjlSearch.HostAuthority
import MjlSearch.OrderedStore

open Text Spool IndexWriter Storage Drain Runs Graph Handoff

namespace SidecarFiles

open IndexHistory (File)

/-! ### The counts -/

/-- Host -> inlinks from other hosts. -/
abbrev HostInlinks := Store Str UInt64

/-- The count of a host, nought when it has none. -/
def countOf (counts : HostInlinks) (host : Str) : UInt64 := (counts.get host).getD 0

/-- `*counts.entry(host).or_insert(0) += count` -/
def credit (counts : HostInlinks) (host : Str) (count : UInt64) : HostInlinks :=
  counts.put host (countOf counts host + count)

/-- `count_cross_site_links`, of the hosts that the links credit. -/
def countCrossSiteLinks (counts : HostInlinks) (hosts : List Str) : HostInlinks :=
  let pending := hosts.foldl (fun pending host => credit pending host 1) Store.empty
  pending.entries.foldl (fun counts entry => credit counts entry.1 entry.2) counts

/-! ### The file -/

/-- `serde_json`, for the two files: it writes whatever a value of their types can be. -/
structure Serde where
  inlinks : Codec HostInlinks
  timeline : Codec IndexHistory
  writes_inlinks : ∀ counts, inlinks.encode counts ≠ none
  writes_timeline : ∀ history : IndexHistory, history.Fits → timeline.encode history ≠ none

/-- Reads the persisted counts. -/
def loadHostInlinks (serde : Serde) (file : File) : HostInlinks :=
  (file.bind serde.inlinks.decode).getD Store.empty

/-- Writes the counts: the file as it is left when every call succeeds. -/
def saveHostInlinks (serde : Serde) (counts : HostInlinks) : File :=
  some ((serde.inlinks.encode counts).getD (utf8 "\x7b\x7d".toList))

/-- **What was saved is what is loaded**, whatever the hosts are called. -/
theorem loadHostInlinks_save (serde : Serde) (counts : HostInlinks) :
    loadHostInlinks serde (saveHostInlinks serde counts) = counts := by
  obtain ⟨bytes, hbytes⟩ := Option.ne_none_iff_exists'.mp (serde.writes_inlinks counts)
  rw [saveHostInlinks, hbytes, Option.getD_some, loadHostInlinks, Option.bind_some,
    serde.inlinks.decode_encode hbytes, Option.getD_some]

/-! ### Counting -/

theorem countOf_credit (counts : HostInlinks) (host other : Str) (count : UInt64) :
    countOf (credit counts host count) other
      = countOf counts other + if other = host then count else 0 := by
  rw [credit, countOf]
  split_ifs with hsame
  · rw [hsame, Store.get_put_self, Option.getD_some]
  · rw [Store.get_put_of_ne _ _ hsame, UInt64.add_zero]
    rfl

theorem countOf_pending (hosts : List Str) (pending : HostInlinks) (host : Str) :
    countOf (hosts.foldl (fun pending host => credit pending host 1) pending) host
      = countOf pending host + .ofNat (hosts.count host) := by
  induction hosts generalizing pending with
  | nil => exact (UInt64.add_zero _).symm
  | cons first hosts ih =>
    have hcount : UInt64.ofNat ((first :: hosts).count host)
        = (if host = first then 1 else 0) + .ofNat (hosts.count host) := by
      by_cases hsame : host = first
      · rw [if_pos hsame, ← hsame, List.count_cons_self, UInt64.ofNat_add, UInt64.add_comm]
        rfl
      · rw [if_neg hsame, List.count_cons_of_ne (Ne.symm hsame), UInt64.zero_add]
    rw [List.foldl_cons, ih, countOf_credit, hcount, UInt64.add_assoc]

theorem countOf_merged_other {entries : List (Str × UInt64)} {host : Str}
    (h : ∀ entry ∈ entries, entry.1 ≠ host) (counts : HostInlinks) :
    countOf (entries.foldl (fun counts entry => credit counts entry.1 entry.2) counts) host
      = countOf counts host := by
  induction entries generalizing counts with
  | nil => rfl
  | cons entry entries ih =>
    rw [List.foldl_cons, ih fun other hother => h other (List.mem_cons_of_mem _ hother),
      countOf_credit, if_neg (h entry List.mem_cons_self).symm, UInt64.add_zero]

/-- Counts of distinct hosts are added to each of them. -/
theorem countOf_merged {entries : List (Str × UInt64)} (hnodup : (entries.map Prod.fst).Nodup)
    {host : Str} {count : UInt64} (h : (host, count) ∈ entries) (counts : HostInlinks) :
    countOf (entries.foldl (fun counts entry => credit counts entry.1 entry.2) counts) host
      = countOf counts host + count := by
  induction entries generalizing counts with
  | nil => exact absurd h List.not_mem_nil
  | cons entry entries ih =>
    obtain ⟨hnew, hrest⟩ := List.nodup_cons.mp hnodup
    rw [List.foldl_cons]
    obtain rfl | hlater := List.mem_cons.mp h
    · have hothers : ∀ other ∈ entries, other.1 ≠ host := by
        intro other hother heq
        exact hnew (List.mem_map.mpr ⟨other, hother, heq⟩)
      rw [countOf_merged_other hothers, countOf_credit, if_pos rfl]
    · have hne : host ≠ entry.1 := fun heq => hnew (heq ▸ List.mem_map_of_mem hlater)
      rw [ih hrest hlater, countOf_credit, if_neg hne, UInt64.add_zero]

/-- **What counting does to a host.** -/
theorem countOf_countCrossSiteLinks (counts : HostInlinks) (hosts : List Str) (host : Str) :
    countOf (countCrossSiteLinks counts hosts) host
      = countOf counts host + .ofNat (hosts.count host) := by
  have hpending : countOf (hosts.foldl (fun pending host => credit pending host 1) Store.empty) host
      = .ofNat (hosts.count host) :=
    (countOf_pending hosts Store.empty host).trans (UInt64.zero_add _)
  rw [countCrossSiteLinks, ← hpending]
  generalize hosts.foldl (fun pending host => credit pending host 1) Store.empty = pending
  have hentry : countOf pending host = (pending.get host).getD 0 := rfl
  rw [hentry]
  cases hcount : pending.get host with
  | none =>
    rw [Option.getD_none, UInt64.add_zero]
    exact countOf_merged_other (Store.get_eq_none_iff.mp hcount) counts
  | some count => exact countOf_merged pending.keys_nodup (Store.get_eq_some_iff.mp hcount) counts

/-! ### A drain on the files -/

/-- The counts that a graph starts from. -/
def counted (counts : HostInlinks) (host : Str) : ℕ := (countOf counts host).toNat

/-- `build_authority`: the scores, and the file of counts if it can be replaced. -/
def buildAuthority (serde : Serde) (limits : GraphLimits) (rank : LinkGraph → Str → Option DocScores)
    (file : File) (documents : List Document) : (Str → Option DocScores) × File :=
  let counts := loadHostInlinks serde file
  let g := buildGraph limits (counted counts) documents
  let counts := countCrossSiteLinks counts g.crossSiteLinks
  (rank { g with hostInlinks := counted counts }, saveHostInlinks serde counts)

/-- The files beside the index. -/
def fileSidecars (serde : Serde) (limits : GraphLimits) (rank : LinkGraph → Str → Option DocScores) :
    Sidecars File File :=
  { buildAuthority := buildAuthority serde limits rank
    record := IndexHistory.record serde.timeline }

/-- What the files say, kept as it is. -/
def memorySidecars (limits : GraphLimits) (rank : LinkGraph → Str → Option DocScores) :
    Sidecars (Str → ℕ) IndexHistory :=
  authoritySidecars limits rank IndexHistory.add

/-- What the files of a state say. -/
def readIndex (serde : Serde) (S : Drain.State File File) : Drain.State (Str → ℕ) IndexHistory :=
  { rows := S.rows, archive := S.archive
    hostInlinks := counted (loadHostInlinks serde S.hostInlinks)
    history := IndexHistory.load serde.timeline S.history
    process := S.process }

def readSystem (serde : Serde) (S : System File File) : System (Str → ℕ) IndexHistory :=
  { spool := S.spool, writer := S.writer, log := S.log, index := readIndex serde S.index }

/-- The hosts that a batch credits. -/
def batchCredits (limits : GraphLimits) (documents : List Document) : List Str :=
  (buildGraph limits (fun _ => 0) documents).crossSiteLinks

/-- The hosts that an event counts for good. -/
def savedBy (limits : GraphLimits) : Handoff.Event → List Str
  | .drain (.score documents true) => batchCredits limits documents
  | _ => []

variable {serde : Serde} {limits : GraphLimits} {rank : LinkGraph → Str → Option DocScores}
  {file : File} {documents : List Document}

variable (rank) in
/-- **The batch on the file is the batch in memory**, where no count outgrows its 64 bits. -/
theorem buildAuthority_eq (hroom : ∀ host, counted (loadHostInlinks serde file) host
      + (batchCredits limits documents).count host < 2 ^ 64) :
    (buildAuthority serde limits rank file documents).1
        = (Graph.buildAuthority limits rank (counted (loadHostInlinks serde file)) documents).1 ∧
      counted (loadHostInlinks serde (buildAuthority serde limits rank file documents).2)
        = (Graph.buildAuthority limits rank (counted (loadHostInlinks serde file)) documents).2 := by
  have hlinks : (buildGraph limits (counted (loadHostInlinks serde file)) documents).crossSiteLinks
      = batchCredits limits documents := by
    rw [buildGraph_counts]
    rfl
  have hstart : (buildGraph limits (counted (loadHostInlinks serde file)) documents).hostInlinks
      = counted (loadHostInlinks serde file) := by
    rw [buildGraph_counts]
    rfl
  have hcounts : counted (countCrossSiteLinks (loadHostInlinks serde file)
      (batchCredits limits documents))
      = fun host => counted (loadHostInlinks serde file) host
        + (batchCredits limits documents).count host := by
    funext host
    have hfits := hroom host
    simp only [counted] at hfits ⊢
    rw [countOf_countCrossSiteLinks, UInt64.toNat_add, UInt64.toNat_ofNat', Nat.add_mod_mod,
      Nat.mod_eq_of_lt hfits]
  constructor
  · rw [buildAuthority, Graph.buildAuthority]
    simp only [LinkGraph.finish, LinkGraph.countCrossSiteLinks]
    rw [hlinks, hstart, hcounts]
  · rw [buildAuthority, Graph.buildAuthority]
    simp only [LinkGraph.finish, LinkGraph.countCrossSiteLinks]
    rw [hlinks, hstart, loadHostInlinks_save, hcounts]

/-! ### Runs -/

variable {codec : Codec Document} {config : DrainConfig} {segmentBytes : ℕ}

/-- No number outgrows its type in an event: neither a count of the batch nor one of the
timeline. -/
def HasRoom (serde : Serde) (limits : GraphLimits) (S : Drain.State File File) :
    Drain.Event → Prop
  | .score documents _ => ∀ host, counted (loadHostInlinks serde S.hostInlinks) host
      + (batchCredits limits documents).count host < 2 ^ 64
  | .record now _ => ∀ p pass gained count, S.process = some p →
      p.phase = .recording pass gained count →
        ((IndexHistory.load serde.timeline S.history).add now gained count).Fits
  | _ => True

/-- **A step of the drain on the files** is one on what they say. -/
theorem drainStep_read {spool spool' : Directory} {S T : Drain.State File File}
    {event : Drain.Event} (hroom : HasRoom serde limits S event)
    (h : DrainStep codec config (fileSidecars serde limits rank) spool S event spool' T) :
    DrainStep codec config (memorySidecars limits rank) spool (readIndex serde S) event spool'
      (readIndex serde T) := by
  cases h with
  | start hoff => exact .start hoff
  | sleep hp hphase hlist hready honce => exact .sleep hp hphase hlist hready honce
  | finish hp hphase hlist hready honce => exact .finish hp hphase hlist hready honce
  | list hp hphase hlist hready => exact .list hp hphase hlist hready
  | @score p ready documents saved hp hphase hread =>
    obtain ⟨hscores, hcounts⟩ := buildAuthority_eq rank hroom
    have hstep : DrainStep codec config (memorySidecars limits rank) spool (readIndex serde S)
        (.score documents saved) spool _ := .score hp hphase hread
    dsimp only [memorySidecars, authoritySidecars, readIndex] at hstep
    rw [← hscores, ← hcounts, ← apply_ite fun file => counted (loadHostInlinks serde file)] at hstep
    exact hstep
  | passDone hp hphase hready => exact .passDone hp hphase hready
  | take hp hphase hready hfile => exact .take hp hphase hready hfile
  | add hp hphase hrest => exact .add hp hphase hrest
  | commit hp hphase => exact .commit hp hphase
  | segmentDone hp hphase hrest hstop => exact .segmentDone hp hphase hrest hstop
  | retire hp hphase hfile => exact .retire hp hphase hfile
  | @record p pass gained count now written hp hphase =>
    have hwritten := serde.writes_timeline _ (hroom p pass gained count hp hphase)
    have hstep : DrainStep codec config (memorySidecars limits rank) spool (readIndex serde S)
        (.record now written) spool _ := .record hp hphase
    dsimp only [memorySidecars, authoritySidecars, readIndex] at hstep
    rw [← IndexHistory.load_record hwritten, ← apply_ite (IndexHistory.load serde.timeline)] at hstep
    exact hstep
  | stop hp => exact .stop hp

/-- No number outgrows its type in an event of the hand-off. -/
def Roomy (serde : Serde) (limits : GraphLimits) (S : System File File) : Handoff.Event → Prop
  | .crawl _ => True
  | .drain event => HasRoom serde limits S.index event

/-- The settings of a drain on the files, and of one on what they say. -/
def fileSettings (serde : Serde) (codec : Codec Document) (segmentBytes : ℕ)
    (config : DrainConfig) (limits : GraphLimits) (rank : LinkGraph → Str → Option DocScores) :
    Settings File File :=
  { codec, segmentBytes, config, sidecars := fileSidecars serde limits rank }

def memorySettings (codec : Codec Document) (segmentBytes : ℕ) (config : DrainConfig)
    (limits : GraphLimits) (rank : LinkGraph → Str → Option DocScores) :
    Settings (Str → ℕ) IndexHistory :=
  { codec, segmentBytes, config, sidecars := memorySidecars limits rank }

/-- **A step on the files** is one on what they say. -/
theorem step_read {S T : System File File} {event : Handoff.Event}
    (hroom : Roomy serde limits S event)
    (h : Step (fileSettings serde codec segmentBytes config limits rank) S event T) :
    Step (memorySettings codec segmentBytes config limits rank) (readSystem serde S) event
      (readSystem serde T) := by
  cases h with
  | crawl h => exact .crawl h
  | drain h => exact .drain (drainStep_read hroom h)

/-- What an event adds to the counts of a file. -/
theorem step_counts {S T : System File File} {event : Handoff.Event}
    (hroom : Roomy serde limits S event)
    (h : Step (fileSettings serde codec segmentBytes config limits rank) S event T) (host : Str) :
    counted (loadHostInlinks serde T.index.hostInlinks) host
      = counted (loadHostInlinks serde S.index.hostInlinks) host
        + (savedBy limits event).count host := by
  cases h with
  | crawl h => rfl
  | drain h =>
    cases h with
    | @score p ready documents saved hp hphase hread =>
      cases saved with
      | false => rfl
      | true =>
        exact (congrFun (buildAuthority_eq rank hroom).2 host).trans
          (buildAuthority_counts ..)
    | _ => rfl

/-- **A run on the files is a run on what they say**, with crawls, drains that stop and start
again and files that cannot be replaced in any order.  A file of counts says in the end what it
said at the start and what the batches that were saved have added. -/
theorem files_refine {S T : System File File} {events : List Handoff.Event}
    (h : Run (fun S event T => Step (fileSettings serde codec segmentBytes config limits rank)
      S event T ∧ Roomy serde limits S event) S events T) :
    Run (Step (memorySettings codec segmentBytes config limits rank)) (readSystem serde S) events
        (readSystem serde T) ∧
      ∀ host, counted (loadHostInlinks serde T.index.hostInlinks) host
        = counted (loadHostInlinks serde S.index.hostInlinks) host
          + (events.flatMap (savedBy limits)).count host := by
  induction h with
  | refl => exact ⟨Run.refl, fun host => rfl⟩
  | snoc hrun hstep ih =>
    obtain ⟨hread, hcounts⟩ := ih
    obtain ⟨hstep, hroom⟩ := hstep
    refine ⟨Run.snoc hread (step_read hroom hstep), fun host => ?_⟩
    rw [step_counts hroom hstep, hcounts, List.flatMap_append, List.count_append,
      List.flatMap_singleton, Nat.add_assoc]

/-! ### Compact JSON -/

/-- An item of the file, put into the map. -/
def readCount (counts : HostInlinks) (item : Str × JsonText.Value) : Option HostInlinks :=
  (IndexHistory.readU64 item.2).map fun count => counts.put item.1 (.ofNat count)

def readCounts : JsonText.Value → Option HostInlinks
  | .dict items => items.foldlM readCount Store.empty
  | _ => none

def countsValue (entries : List (Str × UInt64)) : JsonText.Value :=
  .dict (entries.map fun entry => (entry.1, .int entry.2.toNat))

theorem isWhole_countsValue (entries : List (Str × UInt64)) : (countsValue entries).IsWhole := by
  have hitems : JsonText.ItemsWhole (entries.map fun entry => (entry.1, .int entry.2.toNat)) := by
    induction entries with
    | nil => trivial
    | cons entry entries ih => exact ⟨trivial, ih⟩
  exact hitems

theorem readCount_int (counts : HostInlinks) (host : Str) (count : UInt64) :
    readCount counts (host, .int count.toNat) = some (counts.put host count) := by
  rw [readCount]
  dsimp only
  rw [IndexHistory.readU64_int count.toNat_lt, Option.map_some, UInt64.ofNat_toNat]

theorem put_last {counts : HostInlinks} {host : Str} (count : UInt64)
    (h : ∀ entry ∈ counts.entries, entry.1 < host) :
    (counts.put host count).entries = counts.entries ++ [(host, count)] := by
  have hlast := counts.filter_put_last (v := count) (p := fun _ => true) rfl
    fun entry hentry _ => h entry hentry
  rwa [List.filter_true, List.filter_true] at hlast

/-- Entries in order are put one behind the other. -/
theorem foldlM_readCount {entries : List (Str × UInt64)} {counts : HostInlinks}
    (h : (counts.entries ++ entries).Pairwise fun p q => p.1 < q.1) :
    ∃ read : HostInlinks, read.entries = counts.entries ++ entries ∧
      (entries.map fun entry => (entry.1, JsonText.Value.int entry.2.toNat)).foldlM readCount counts
        = some read := by
  induction entries generalizing counts with
  | nil => exact ⟨counts, (List.append_nil _).symm, rfl⟩
  | cons entry entries ih =>
    obtain ⟨-, -, hbefore⟩ := List.pairwise_append.mp h
    have hput := put_last entry.2 fun other hother => hbefore other hother entry List.mem_cons_self
    have hsplit : counts.entries ++ entry :: entries
        = (counts.put entry.1 entry.2).entries ++ entries := by
      rw [hput, List.append_assoc]
      rfl
    rw [hsplit] at h ⊢
    obtain ⟨read, hentries, hread⟩ := ih h
    refine ⟨read, hentries, ?_⟩
    rw [List.map_cons, List.foldlM_cons, readCount_int]
    exact hread

/-- **The counts are read back.** -/
theorem readCounts_countsValue (counts : HostInlinks) :
    readCounts (countsValue counts.entries) = some counts := by
  have hsorted : ((Store.empty : HostInlinks).entries ++ counts.entries).Pairwise
      fun p q => p.1 < q.1 := counts.sorted
  obtain ⟨read, hentries, hread⟩ := foldlM_readCount hsorted
  exact hread.trans (congrArg some (Store.ext hentries))

/-- Counts as compact JSON; a count of `-0`, which `serde` takes for a float, is read as nought. -/
def countsJson : Codec HostInlinks where
  encode counts := some (utf8 (JsonText.write (countsValue counts.entries)))
  decode bs := (fromUtf8 bs).bind fun text => (JsonText.loads [] text).bind readCounts
  decode_encode {counts bs} h := by
    obtain rfl := Option.some.inj h
    rw [fromUtf8_utf8, Option.bind_some, JsonText.loads_write _ _ (isWhole_countsValue _),
      Option.bind_some, readCounts_countsValue]

def sampleSerde : Serde where
  inlinks := countsJson
  timeline := IndexHistory.historyJson
  writes_inlinks _ := Option.some_ne_none _
  writes_timeline history hfits :=
    (IndexHistory.historyJson_writesCompact history hfits) ▸ Option.some_ne_none _

/-! ### A drain that counts a link and stops, and one that goes on -/

/-- One sealed page, with a link to another host; the file of counts is no text. -/
def linkedSystem : System File File :=
  { spool := citingSpool
    writer := none
    log := { current := [], written := [citingPage], sealed := [citingPage] }
    index :=
      { rows := [], archive := fun _ => none, hostInlinks := some [0xFF], history := none,
        process := none } }

def linkedSettings : Settings File File :=
  fileSettings sampleSerde citingCodec 1000 { commitDocs := 2, once := true, archives := false }
    roomyGraph fun _ _ => none

def linkedEvents : List Handoff.Event :=
  [.drain .start, .drain (.list [sealedSegmentName 1]), .drain (.score [citingPage] true),
    .drain .stop, .drain .start, .drain (.list [sealedSegmentName 1]),
    .drain (.score [citingPage] true), .drain .take, .drain (.add citingPage),
    .drain .segmentDone, .drain .retire, .drain (.record 61 true), .drain .stop]

theorem batch_count_le (host : Str) : (batchCredits roomyGraph [citingPage]).count host ≤ 1 := by
  have hlength : (batchCredits roomyGraph [citingPage]).length = 1 := by decide
  exact hlength ▸ List.count_le_length

/-- There is room for the page's link where there are few. -/
theorem batch_room {file : File} {n : ℕ} (hn : n < 1000)
    (h : ∀ host, counted (loadHostInlinks sampleSerde file) host ≤ n) (host : Str) :
    counted (loadHostInlinks sampleSerde file) host
      + (batchCredits roomyGraph [citingPage]).count host < 2 ^ 64 := by
  have hbefore := h host
  have hgain := batch_count_le host
  omega

theorem unread_counts (host : Str) :
    counted (loadHostInlinks sampleSerde (some [0xFF])) host ≤ 0 := by
  have hnone : countsJson.decode [0xFF] = none := by decide
  have hload : loadHostInlinks sampleSerde (some [0xFF]) = Store.empty := by
    rw [loadHostInlinks, Option.bind_some]
    exact congrArg (Option.getD · _) hnone
  rw [hload]
  exact Nat.le_refl 0

theorem linkedSystem_run : ∃ T, Run (fun S event T => Step linkedSettings S event T ∧
      Roomy sampleSerde roomyGraph S event) linkedSystem linkedEvents T ∧
    IndexHistory.load sampleSerde.timeline T.index.history = ⟨61, 1, [⟨60, 1⟩]⟩ := by
  have hlist : sealedSegments [sealedSegmentName 1] ≠ [] := citingSpool_ready ▸ List.cons_ne_nil _ _
  have hfirst := batch_room (by decide) unread_counts
  have hcounted : ∀ host, counted (loadHostInlinks sampleSerde
      (buildAuthority sampleSerde roomyGraph (fun _ _ => none) (some [0xFF]) [citingPage]).2) host
        ≤ 1 := by
    intro host
    have hcount := (congrFun (buildAuthority_eq (fun _ _ => none) hfirst).2 host).trans
      (buildAuthority_counts ..)
    have hbefore := unread_counts host
    have hgain := batch_count_le host
    rw [hcount]
    exact Nat.add_le_add hbefore hgain
  have hrun : Run (fun S event T => Step linkedSettings S event T ∧
      Roomy sampleSerde roomyGraph S event) linkedSystem linkedEvents _ :=
    Run.cons ⟨.drain (.start rfl), trivial⟩ <|
    Run.cons ⟨.drain (.list rfl rfl (sealed_lists citingSegment) hlist), trivial⟩ <|
    Run.cons ⟨.drain (.score rfl rfl citingSpool_read), hfirst⟩ <|
    Run.cons ⟨.drain (.stop rfl), trivial⟩ <|
    Run.cons ⟨.drain (.start rfl), trivial⟩ <|
    Run.cons ⟨.drain (.list rfl rfl (sealed_lists citingSegment) hlist), trivial⟩ <|
    Run.cons ⟨.drain (.score rfl rfl citingSpool_read),
      batch_room (by decide) hcounted⟩ <|
    Run.cons ⟨.drain (.take rfl rfl citingSpool_ready citingSpool_file), trivial⟩ <|
    Run.cons ⟨.drain (.add rfl rfl (congrArg Prod.fst citingSpool_documents)), trivial⟩ <|
    Run.cons ⟨.drain (.segmentDone rfl rfl rfl (congrArg Prod.snd citingSpool_documents)), trivial⟩ <|
    Run.cons ⟨.drain (.retire rfl rfl citingSpool_file), trivial⟩ <|
    Run.cons ⟨.drain (.record rfl rfl), by
      rintro p pass gained count ⟨⟩ ⟨⟩
      decide⟩ <|
    Run.single ⟨.drain (.stop rfl), trivial⟩
  refine ⟨_, hrun, ?_⟩
  show IndexHistory.load IndexHistory.historyJson
    (IndexHistory.record IndexHistory.historyJson none 61 1 1) = _
  rw [IndexHistory.load_record (by decide)]
  decide

/-- The link is counted by both, the page once. -/
theorem files_refine_sample : ∃ T, Run (Step (memorySettings citingCodec 1000
      { commitDocs := 2, once := true, archives := false } roomyGraph fun _ _ => none))
      (readSystem sampleSerde linkedSystem) linkedEvents (readSystem sampleSerde T) ∧
    counted (loadHostInlinks sampleSerde T.index.hostInlinks) "d.e".toList = 2 ∧
    (readSystem sampleSerde T).index.history = ⟨61, 1, [⟨60, 1⟩]⟩ := by
  obtain ⟨T, hrun, htimeline⟩ := linkedSystem_run
  obtain ⟨hread, hcounts⟩ := files_refine hrun
  have hnone : counted (loadHostInlinks sampleSerde linkedSystem.index.hostInlinks) "d.e".toList
      = 0 := Nat.le_zero.mp (unread_counts _)
  have htwo : (linkedEvents.flatMap (savedBy roomyGraph)).count "d.e".toList = 2 := by decide
  refine ⟨T, hread, ?_, htimeline⟩
  rw [hcounts, hnone, htwo]

end SidecarFiles
