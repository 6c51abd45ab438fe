/-
What a corrupt entry does to the crawl.

A key without a host is removed when a pop meets it.  An entry whose value, or whose
host's state, does not decode is not: the pop returns an error, the entry stays, and as
every pop starts at the first key again, the next one meets it again.

* `popReady_front` — what one pop does to any content, when every host is ready;
* `popJobs_eq` — repeated pops return the jobs before the first entry that cannot be read;
* `corrupt_entries_iff` — all jobs are returned iff no such entry stands before one of them;
* `undecodable_stalls` — one that does.
-/
import MjlSearch.FrontierQueue

open Text Bytes CrawlDb Frontier FrontierQueue

namespace CorruptEntries

/-- Nothing is skipped. -/
def skipNone : Str → Bool := fun _ => false

/-- The jobs that repeated pops return, going on after an error. -/
def popJobs (codecs : FrontierCodecs) (nowMs : ℤ) (maxHostsPerCall : ℕ) :
    ℕ → Frontier → List CrawlJob
  | 0, _ => []
  | calls + 1, F =>
    match popReady codecs noFaults F nowMs maxHostsPerCall skipNone with
    | some (.ok (some job), F') => job :: popJobs codecs nowMs maxHostsPerCall calls F'
    | some (_, F') => popJobs codecs nowMs maxHostsPerCall calls F'
    | none => []

variable (codecs : FrontierCodecs) (hosts : Store Key Value)

/-- A host's state decodes, if there is one. -/
def hostReads (host : Key) : Bool :=
  match hosts.get (utf8 (fromUtf8Lossy host)) with
  | none => true
  | some bytes => (codecs.hostState.decode bytes).isSome

/-- A well-formed key, and a value that decodes. -/
def isJob (e : Key × Value) : Bool :=
  (frontierKeyHost e.1).isSome && (codecs.job.decode e.2).isSome

/-- A well-formed key whose value does not decode, or whose host's state does not. -/
def isStuck (e : Key × Value) : Bool :=
  match frontierKeyHost e.1 with
  | none => false
  | some host => !(hostReads codecs hosts host && (codecs.job.decode e.2).isSome)

/-- The decodable jobs stored under a well-formed key, by increasing key. -/
def storedJobs (entries : List (Key × Value)) : List CrawlJob :=
  (entries.filter (isJob codecs)).filterMap fun e => codecs.job.decode e.2

/-- The jobs before the first entry that cannot be read. -/
def served (entries : List (Key × Value)) : List CrawlJob :=
  storedJobs codecs (entries.takeWhile fun e => !isStuck codecs hosts e)

/-- Every host with an entry may be contacted now, as far as its state can be read. -/
def EveryHostReady (F : Frontier) (nowMs : ℤ) : Prop :=
  ∀ e ∈ F.db.pending.entries, ∀ host, frontierKeyHost e.1 = some host →
    ∀ state, hostState codecs noFaults 0 F.db (fromUtf8Lossy host) = .ok state →
      (state.getD default).nextAllowedAtMs ≤ nowMs

/-- No entry that cannot be read stands at or before a decodable job. -/
def NoneStuckBefore (entries : List (Key × Value)) : Prop :=
  ∀ e ∈ entries, isJob codecs e = true →
    ∀ e' ∈ entries, e'.1 ≤ e.1 → isStuck codecs hosts e' = false

variable {codecs hosts} {F F' : Frontier} {nowMs : ℤ} {maxHostsPerCall : ℕ}

/-! ### One pop -/

/-- The column family starts at its first entry. -/
theorem seek_first (s : Store Key Value) : s.seek [] = s.entries.head? := by
  rw [Store.seek]
  rcases s.entries with _ | ⟨e, entries⟩
  · rfl
  · have hleast : ([] : Key) ≤ e.1 := not_lt.mp (List.not_lt_nil _)
    rw [List.find?_cons_of_pos (by simpa using hleast)]
    rfl

/-- Removing the first entry leaves the rest. -/
theorem delete_first {s : Store Key Value} {e : Key × Value} {rest : List (Key × Value)}
    (h : s.entries = e :: rest) : (s.delete e.1).entries = rest := by
  have hsorted := s.sorted
  rw [h, List.pairwise_cons] at hsorted
  have hdelete : (s.delete e.1).entries = s.entries.filter _ := rfl
  rw [hdelete, h, List.filter_cons_of_neg (by simp), List.filter_eq_self]
  intro a ha
  simpa using (ne_of_lt (hsorted.1 a ha)).symm

/-- The frontier once its first entry is removed. -/
theorem forget_first (turn : ℕ) {e : Key × Value} {rest : List (Key × Value)}
    (h : F.db.pending.entries = e :: rest) :
    ∃ F', forget noFaults turn F e.1 = (.ok (), F') ∧ F'.db.pending.entries = rest ∧
      F'.db.hosts = F.db.hosts :=
  ⟨_, rfl, delete_first h, rfl⟩

theorem hostState_noFaults (turn : ℕ) (db : CrawlDb) (host : Key) :
    (hostReads codecs db.hosts host = true →
      ∃ state, hostState codecs noFaults turn db (fromUtf8Lossy host) = .ok state) ∧
    (hostReads codecs db.hosts host = false →
      hostState codecs noFaults turn db (fromUtf8Lossy host) = .error .cacheDecode) := by
  -- both calls before the read succeed, and the read is what is left
  rw [hostReads]
  unfold hostState
  change (_ → ∃ state, Except.bind (.ok ()) _ = _) ∧ (_ → Except.bind (.ok ()) _ = _)
  simp only [Except.bind]
  rcases db.hosts.get (utf8 (fromUtf8Lossy host)) with _ | bytes
  · refine ⟨fun _ => ⟨none, rfl⟩, fun hc => ?_⟩
    cases hc
  · dsimp only
    rcases codecs.hostState.decode bytes with _ | state
    · refine ⟨fun hc => ?_, fun _ => rfl⟩
      cases hc
    · refine ⟨fun _ => ⟨some state, rfl⟩, fun hc => ?_⟩
      cases hc

/-- With fewer entries and the same states, the hosts stay ready. -/
theorem EveryHostReady.of_subset {G : Frontier} (hready : EveryHostReady codecs F nowMs)
    (hsub : ∀ e ∈ G.db.pending.entries, e ∈ F.db.pending.entries)
    (hhosts : G.db.hosts = F.db.hosts) : EveryHostReady codecs G nowMs := by
  intro e he host hhost state hstate
  have hsame : hostState codecs noFaults 0 F.db (fromUtf8Lossy host)
      = hostState codecs noFaults 0 G.db (fromUtf8Lossy host) := by
    rw [hostState, hostState, hhosts]
  exact hready e (hsub e he) host hhost state (hsame.trans hstate)

/-- What is left after a pop, and what it returned. -/
inductive Popped (codecs : FrontierCodecs) (F : Frontier) :
    List (Key × Value) → Except CrawlError (Option CrawlJob) → Frontier → Prop
  | none {F' : Frontier} (h : F'.db.pending.entries = []) (hhosts : F'.db.hosts = F.db.hosts) :
      Popped codecs F [] (.ok none) F'
  | job {F' : Frontier} {e : Key × Value} {rest : List (Key × Value)} {job : CrawlJob}
      (hfree : isStuck codecs F.db.hosts e = false) (hjob : isJob codecs e = true)
      (hdecode : codecs.job.decode e.2 = some job) (h : F'.db.pending.entries = rest)
      (hhosts : F'.db.hosts = F.db.hosts) : Popped codecs F (e :: rest) (.ok (some job)) F'
  | stuck {F' : Frontier} {e : Key × Value} {rest : List (Key × Value)}
      (hstuck : isStuck codecs F.db.hosts e = true) (h : F'.db.pending.entries = e :: rest)
      (hhosts : F'.db.hosts = F.db.hosts) :
      Popped codecs F (e :: rest) (.error .cacheDecode) F'

theorem Popped.of_hosts {G : Frontier} {entries : List (Key × Value)}
    {result : Except CrawlError (Option CrawlJob)} (hhosts : G.db.hosts = F.db.hosts)
    (h : Popped codecs G entries result F') : Popped codecs F entries result F' := by
  cases h with
  | none h hhosts' => exact .none h (hhosts'.trans hhosts)
  | job hfree hjob hdecode h hhosts' =>
    exact .job (hhosts ▸ hfree) hjob hdecode h (hhosts'.trans hhosts)
  | stuck hstuck h hhosts' => exact .stuck (hhosts ▸ hstuck) h (hhosts'.trans hhosts)

/-- The entries from the first well-formed key on. -/
def fromFirst (entries : List (Key × Value)) : List (Key × Value) :=
  entries.dropWhile fun e => (frontierKeyHost e.1).isNone

/-- **What one pop does**: the keys without a host before the first well-formed one are
removed, and that one decides. -/
theorem scan_front (hready : EveryHostReady codecs F nowMs) (hmax : 1 ≤ maxHostsPerCall)
    {fuel turn : ℕ} {result : Except CrawlError (Option CrawlJob)}
    (h : scan codecs noFaults nowMs maxHostsPerCall skipNone fuel turn none 0 F
      = some (result, F')) :
    Popped codecs F (fromFirst F.db.pending.entries) result F' := by
  induction fuel generalizing turn F with
  | zero => cases h
  | succ fuel ih =>
    rw [scan, if_neg (by omega), if_neg (by simp [noFaults]), Option.getD_none, seek_first] at h
    rcases hentries : F.db.pending.entries with _ | ⟨⟨key, value⟩, rest⟩
    · rw [hentries] at h
      cases h
      exact .none hentries rfl
    · rw [hentries, List.head?_cons] at h
      dsimp only at h
      have hfirst : ((key, value) : Key × Value) ∈ F.db.pending.entries := by
        rw [hentries]
        exact List.mem_cons_self
      obtain ⟨G, hforget, hrest, hhosts⟩ := forget_first turn hentries
      rcases hkey : frontierKeyHost key with _ | host
      · -- the key is dropped, and the next one is the first
        rw [hkey, hforget] at h
        have hG : EveryHostReady codecs G nowMs := by
          refine hready.of_subset (fun e he => ?_) hhosts
          rw [hrest] at he
          rw [hentries]
          exact List.mem_cons_of_mem _ he
        rw [fromFirst, List.dropWhile_cons_of_pos (by simp [hkey]), ← hrest]
        exact (ih hG h).of_hosts hhosts
      · rw [fromFirst, List.dropWhile_cons_of_neg (by simp [hkey])]
        rw [hkey] at h
        dsimp only at h
        rw [if_neg (by simp [skipNone])] at h
        obtain ⟨hreads, hfails⟩ := @hostState_noFaults codecs turn F.db host
        rcases hread : hostReads codecs F.db.hosts host with _ | _
        · rw [hfails hread] at h
          cases h
          exact .stuck (by simp [isStuck, hkey, hread]) hentries rfl
        · obtain ⟨state, hstate⟩ := hreads hread
          rw [hstate] at h
          dsimp only at h
          have hnow := hready _ hfirst host hkey state hstate
          rw [if_neg (by omega)] at h
          rcases hdecode : codecs.job.decode value with _ | job
          · rw [hdecode] at h
            cases h
            exact .stuck (by simp [isStuck, hkey, hdecode]) hentries rfl
          · rw [hdecode, hforget] at h
            cases h
            exact .job (by simp [isStuck, hkey, hread, hdecode]) (by simp [isJob, hkey, hdecode])
              hdecode hrest hhosts

theorem popReady_front (hready : EveryHostReady codecs F nowMs) (hmax : 1 ≤ maxHostsPerCall) :
    ∃ result F', popReady codecs noFaults F nowMs maxHostsPerCall skipNone = some (result, F') ∧
      Popped codecs F (fromFirst F.db.pending.entries) result F' := by
  obtain ⟨⟨result, F'⟩, hpop⟩ := Option.isSome_iff_exists.mp
    (@popReady_isSome codecs noFaults F nowMs maxHostsPerCall skipNone)
  have hscan := hpop
  rw [popReady, if_neg (by simp [noFaults])] at hscan
  exact ⟨result, F', hpop, scan_front hready hmax hscan⟩

/-! ### Repeated pops -/

theorem Popped.mem {entries : List (Key × Value)} {result : Except CrawlError (Option CrawlJob)}
    (h : Popped codecs F entries result F') {e : Key × Value}
    (he : e ∈ F'.db.pending.entries) : e ∈ entries := by
  cases h with
  | none h hhosts =>
    rw [h] at he
    cases he
  | job hfree hjob hdecode h hhosts =>
    rw [h] at he
    exact List.mem_cons_of_mem _ he
  | stuck hstuck h hhosts => rwa [h] at he

theorem Popped.sameHosts {entries : List (Key × Value)}
    {result : Except CrawlError (Option CrawlJob)} (h : Popped codecs F entries result F') :
    F'.db.hosts = F.db.hosts := by
  cases h with
  | none h hhosts => exact hhosts
  | job hfree hjob hdecode h hhosts => exact hhosts
  | stuck hstuck h hhosts => exact hhosts

theorem storedJobs_cons (e : Key × Value) (entries : List (Key × Value)) :
    storedJobs codecs (e :: entries) = storedJobs codecs [e] ++ storedJobs codecs entries := by
  rw [storedJobs, storedJobs, storedJobs, ← List.filterMap_append, ← List.filter_append]
  rfl

theorem served_nil : served codecs hosts [] = [] := rfl

theorem served_cons {e : Key × Value} (h : isStuck codecs hosts e = false)
    (entries : List (Key × Value)) :
    served codecs hosts (e :: entries) = storedJobs codecs [e] ++ served codecs hosts entries := by
  rw [served, List.takeWhile_cons_of_pos (by simp [h]), storedJobs_cons]
  rfl

theorem served_stuck {e : Key × Value} (h : isStuck codecs hosts e = true)
    (entries : List (Key × Value)) : served codecs hosts (e :: entries) = [] := by
  rw [served, List.takeWhile_cons_of_neg (by simp [h])]
  rfl

/-- Keys without a host hold no jobs, and stop nobody. -/
theorem served_fromFirst (entries : List (Key × Value)) :
    served codecs hosts (fromFirst entries) = served codecs hosts entries := by
  induction entries with
  | nil => rfl
  | cons e entries ih =>
    rcases hkey : frontierKeyHost e.1 with _ | host
    · have hfree : isStuck codecs hosts e = false := by simp [isStuck, hkey]
      have hnone : storedJobs codecs [e] = [] := by simp [storedJobs, isJob, hkey]
      rw [fromFirst, List.dropWhile_cons_of_pos (by simp [hkey]), served_cons hfree, hnone]
      exact ih
    · rw [fromFirst, List.dropWhile_cons_of_neg (by simp [hkey])]

/-- **Repeated pops return the jobs before the first entry that cannot be read**, one a call,
and nothing after them. -/
theorem popJobs_eq (hready : EveryHostReady codecs F nowMs) (hmax : 1 ≤ maxHostsPerCall)
    (calls : ℕ) : popJobs codecs nowMs maxHostsPerCall calls F
      = (served codecs F.db.hosts F.db.pending.entries).take calls := by
  induction calls generalizing F with
  | zero => rfl
  | succ calls ih =>
    obtain ⟨result, F', hpop, hpopped⟩ := popReady_front hready hmax
    have hready' : EveryHostReady codecs F' nowMs :=
      hready.of_subset (fun e he => (List.dropWhile_sublist _).subset (hpopped.mem he))
        hpopped.sameHosts
    rw [popJobs, hpop, ← served_fromFirst]
    generalize fromFirst F.db.pending.entries = entries at hpopped
    cases hpopped with
    | none h hhosts =>
      dsimp only
      rw [ih hready', h, served_nil, served_nil, List.take_nil, List.take_nil]
    | @job _ e rest job hfree hjob hdecode h hhosts =>
      have hone : storedJobs codecs [e] = [job] := by simp [storedJobs, hjob, hdecode]
      dsimp only
      rw [ih hready', h, hhosts, served_cons hfree, hone, List.singleton_append,
        List.take_succ_cons]
    | @stuck _ e rest hstuck h hhosts =>
      -- the entry stays where it is, and is met again
      dsimp only
      rw [ih hready', h, hhosts, served_stuck hstuck, List.take_nil, List.take_nil]

/-! ### When all jobs are returned -/

theorem served_sublist (entries : List (Key × Value)) :
    (served codecs hosts entries).Sublist (storedJobs codecs entries) :=
  ((List.takeWhile_sublist _).filter _).filterMap _

theorem storedJobs_eq_nil_iff {entries : List (Key × Value)} :
    storedJobs codecs entries = [] ↔ ∀ e ∈ entries, isJob codecs e = false := by
  rw [storedJobs, List.filterMap_eq_nil_iff]
  constructor
  · intro h e he
    by_contra hjob
    rw [Bool.not_eq_false] at hjob
    have hnone := h e (List.mem_filter.mpr ⟨he, hjob⟩)
    rw [isJob, hnone] at hjob
    simp at hjob
  · intro h e he
    obtain ⟨hmem, hjob⟩ := List.mem_filter.mp he
    rw [h e hmem] at hjob
    cases hjob

/-- All jobs are served iff nothing that cannot be read stands before one of them. -/
theorem served_eq_iff {entries : List (Key × Value)}
    (hsorted : entries.Pairwise fun a b => a.1 < b.1) :
    served codecs hosts entries = storedJobs codecs entries ↔
      NoneStuckBefore codecs hosts entries := by
  induction entries with
  | nil => simp [served, NoneStuckBefore]
  | cons e entries ih =>
    obtain ⟨hfirst, hrest⟩ := List.pairwise_cons.mp hsorted
    rcases hstuck : isStuck codecs hosts e with _ | _
    · -- the first entry is served or dropped, and stands in nobody's way
      rw [served_cons hstuck, storedJobs_cons e entries, List.append_cancel_left_eq, ih hrest]
      constructor
      · intro h a ha hjob b hb hle
        rcases List.mem_cons.mp hb with rfl | hafter
        · exact hstuck
        · rcases List.mem_cons.mp ha with rfl | hmem
          · exact absurd hle (not_le.mpr (hfirst b hafter))
          · exact h a hmem hjob b hafter hle
      · exact fun h a ha hjob b hb hle =>
          h a (List.mem_cons_of_mem _ ha) hjob b (List.mem_cons_of_mem _ hb) hle
    · -- nothing is served any more, so that no job may be left
      rw [served_stuck hstuck, eq_comm, storedJobs_eq_nil_iff]
      constructor
      · intro h a ha hjob
        rw [h a ha] at hjob
        cases hjob
      · intro h a ha
        by_contra hjob
        rw [Bool.not_eq_false] at hjob
        have hle : e.1 ≤ a.1 := by
          rcases List.mem_cons.mp ha with rfl | ha
          · exact le_refl _
          · exact le_of_lt (hfirst a ha)
        rw [h a ha hjob e List.mem_cons_self hle] at hstuck
        cases hstuck

/-- **Every pop terminates, and repeated pops return every decodable job iff no entry that
cannot be read stands at or before one of them.**  The content of the column family is any;
the hosts are ready, and nothing is skipped. -/
theorem corrupt_entries_iff (codecs : FrontierCodecs) (F : Frontier) (nowMs : ℤ)
    (maxHostsPerCall : ℕ) (hmax : 1 ≤ maxHostsPerCall)
    (hready : EveryHostReady codecs F nowMs) :
    (∀ faults G atMs most skip, (popReady codecs faults G atMs most skip).isSome) ∧
    ((∃ calls, (storedJobs codecs F.db.pending.entries).Subperm
        (popJobs codecs nowMs maxHostsPerCall calls F)) ↔
      NoneStuckBefore codecs F.db.hosts F.db.pending.entries) := by
  refine ⟨fun faults G atMs most skip => popReady_isSome G atMs most skip, ?_⟩
  rw [← served_eq_iff F.db.pending.sorted]
  have hsub := @served_sublist codecs F.db.hosts F.db.pending.entries
  constructor
  · rintro ⟨calls, hall⟩
    rw [popJobs_eq hready hmax] at hall
    refine hsub.eq_of_length_le ?_
    calc (storedJobs codecs F.db.pending.entries).length
        ≤ ((served codecs F.db.hosts F.db.pending.entries).take calls).length := hall.length_le
      _ ≤ (served codecs F.db.hosts F.db.pending.entries).length :=
          (List.take_sublist _ _).length_le
  · intro heq
    refine ⟨(served codecs F.db.hosts F.db.pending.entries).length, ?_⟩
    rw [popJobs_eq hready hmax, List.take_length, heq]

/-- Without a stored state every host may be contacted from the time 0 on. -/
theorem ready_of_unknown (h : F.db.hosts = Store.empty) (hnow : 0 ≤ nowMs) :
    EveryHostReady codecs F nowMs := by
  intro e he host hhost state hstate
  have hnone : hostState codecs noFaults 0 F.db (fromUtf8Lossy host) = .ok none := by
    rw [hostState, h]
    rfl
  rw [hnone] at hstate
  cases hstate
  exact hnow

/-- A job behind a key without a host. -/
def droppedFrontier : Frontier where
  db :=
    { CrawlDb.empty with
      pending := (Store.empty.put [7] [255]).put (frontierKey "b.c".toList 2)
        (Postcard.jobFormat.put homeJob) }
  sequence := 2
  pending := 2
  hosts := 0

/-- The job is returned, by the first pop. -/
theorem corrupt_entries_iff_sample : NoneStuckBefore Postcard.frontierCodecs
      droppedFrontier.db.hosts droppedFrontier.db.pending.entries ∧
    ∃ calls, (storedJobs Postcard.frontierCodecs droppedFrontier.db.pending.entries).Subperm
      (popJobs Postcard.frontierCodecs 0 128 calls droppedFrontier) := by
  have hfree : NoneStuckBefore Postcard.frontierCodecs droppedFrontier.db.hosts
      droppedFrontier.db.pending.entries := by
    rw [← served_eq_iff droppedFrontier.db.pending.sorted]
    decide
  refine ⟨hfree, ?_⟩
  exact (corrupt_entries_iff Postcard.frontierCodecs droppedFrontier 0 128 (by decide)
    (ready_of_unknown rfl (Int.le_refl 0))).2.mpr hfree

/-- A value that does not decode, before a job that does. -/
def stalledFrontier : Frontier where
  db :=
    { CrawlDb.empty with
      pending := (Store.empty.put (frontierKey "a.org".toList 1) [255]).put
        (frontierKey "b.c".toList 2) (Postcard.jobFormat.put homeJob) }
  sequence := 2
  pending := 2
  hosts := 0

/-- **A value that does not decode stalls the crawl**: every host is ready, and however often
the frontier is popped, the job behind it is not returned. -/
theorem undecodable_stalls : EveryHostReady Postcard.frontierCodecs stalledFrontier 0 ∧
    ¬ ∃ calls, (storedJobs Postcard.frontierCodecs stalledFrontier.db.pending.entries).Subperm
      (popJobs Postcard.frontierCodecs 0 128 calls stalledFrontier) := by
  have hready : EveryHostReady Postcard.frontierCodecs stalledFrontier 0 :=
    ready_of_unknown rfl (Int.le_refl 0)
  refine ⟨hready, ?_⟩
  rintro ⟨calls, hall⟩
  have hserved : served Postcard.frontierCodecs stalledFrontier.db.hosts
      stalledFrontier.db.pending.entries = [] := by
    decide
  have hstored : storedJobs Postcard.frontierCodecs stalledFrontier.db.pending.entries
      = [homeJob] := by
    decide
  rw [popJobs_eq hready (by decide), hserved, hstored, List.take_nil] at hall
  exact absurd hall.length_le (by decide)

end CorruptEntries
