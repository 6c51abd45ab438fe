/-
Which hosts a pop reaches.

A pop starts at the first key and passes host after host, and it gives up when it
has looked at as many as it may.  Nothing is assumed here about the entries: a key
is any byte string, and the host in it need not be the text of a host.

* `waitingHosts_sorted` — the waiting hosts stand in key order;
* `scan_isSome_iff` — a pop finds a job iff one of the first hosts is ready;
* `scan_ok` — and without a failing call it does not fail, if the values it meets
  can be decoded;
* `popReady_isSome_iff` — both, for the pop of the crawl;
* `ready_host_missed` — a ready host behind 128 others that are not is missed.
-/
import MjlSearch.FrontierQueue

open Text Bytes CrawlDb Frontier FrontierQueue

namespace ReadyHosts

/-! ### Keys and the hosts in them -/

theorem frontierKeyHost_append {host : Key} (h : 0 ∉ host) (rest : Key) :
    frontierKeyHost (host ++ 0 :: rest) = some host := by
  have hall : ∀ b ∈ host, (b != 0) = true := by
    intro b hb
    simp only [bne_iff_ne, ne_eq]
    rintro rfl
    exact h hb
  rw [frontierKeyHost, if_pos (by simp), List.takeWhile_append_of_pos hall]
  simp

/-- The host of a key is what stands before its first zero byte. -/
theorem frontierKeyHost_eq_some_iff {key host : Key} :
    frontierKeyHost key = some host ↔ 0 ∉ host ∧ ∃ rest, key = host ++ 0 :: rest := by
  constructor
  · intro h
    have hzero : (0 : UInt8) ∈ key := by
      by_contra hnone
      rw [frontierKeyHost, if_neg hnone] at h
      cases h
    obtain ⟨front, rest, rfl, hfront⟩ := List.eq_append_cons_of_mem hzero
    rw [frontierKeyHost_append hfront] at h
    cases h
    exact ⟨hfront, rest, rfl⟩
  · rintro ⟨hzero, rest, rfl⟩
    exact frontierKeyHost_append hzero rest

theorem lt_cursorAfter {key host : Key} (h : frontierKeyHost key = some host) :
    key < cursorAfter host := by
  obtain ⟨_, rest, rfl⟩ := frontierKeyHost_eq_some_iff.mp h
  rw [cursorAfter, append_lt_append_iff]
  exact (cons_lt_cons_iff_of_ne (by decide) _ _).mpr (by decide)

/-- The cursor past a host stands before the keys of every larger host. -/
theorem cursorAfter_le {key host : Key} (h : frontierKeyHost key = some host) {host' : Key}
    (hlt : host' < host) : cursorAfter host' ≤ key := by
  obtain ⟨hzero, rest, rfl⟩ := frontierKeyHost_eq_some_iff.mp h
  rcases lt_cases hlt with ⟨c, r, rfl⟩ | hall
  · have hc : c ≠ 0 := by
      rintro rfl
      simp at hzero
    rw [cursorAfter, List.append_assoc, List.cons_append]
    by_cases hone : c = 1
    · -- the next byte is the cursor's
      subst hone
      refine le_of_not_gt fun hgt => ?_
      rw [append_lt_append_iff, show (1 :: (r ++ 0 :: rest)) = [1] ++ (r ++ 0 :: rest) from rfl]
        at hgt
      have hnil : r ++ 0 :: rest < [] := by
        rwa [← List.append_nil [1], List.append_assoc, append_lt_append_iff] at hgt
      exact absurd hnil (List.not_lt_nil _)
    · refine le_of_lt ((append_lt_append_iff _).mpr ((cons_lt_cons_iff_of_ne ?_ _ _).mpr ?_))
      · exact fun heq => hone heq.symm
      · refine lt_of_le_of_ne (UInt8.le_iff_toNat_le.mpr ?_) fun heq => hone heq.symm
        have hpos : c.toNat ≠ 0 := fun heq => hc (UInt8.toNat_inj.mp heq)
        show 1 ≤ c.toNat
        omega
  · exact le_of_lt (hall _ _)

theorem host_le_of_key_le {key key' host host' : Key} (h : frontierKeyHost key = some host)
    (h' : frontierKeyHost key' = some host') (hle : key ≤ key') : host ≤ host' := by
  by_contra hlt
  have hbehind := cursorAfter_le h (not_le.mp hlt)
  exact absurd (lt_of_lt_of_le (lt_cursorAfter h') hbehind) (not_lt.mpr hle)

/-- The hosts with an entry, in key order. -/
def waitingHosts (db : CrawlDb) : List Key :=
  (db.pending.entries.filterMap fun e => frontierKeyHost e.1).dedup

variable {codecs : FrontierCodecs} {F F' : Frontier} {nowMs : ℤ} {skip : Str → Bool}
  {host : Key} {cursor : Key} {passed : List Key} {e : Key × Value}

theorem mem_waitingHosts : host ∈ waitingHosts F.db ↔
    ∃ e ∈ F.db.pending.entries, frontierKeyHost e.1 = some host := by
  rw [waitingHosts, List.mem_dedup, List.mem_filterMap]

theorem waitingHosts_sorted (db : CrawlDb) : (waitingHosts db).Pairwise (· < ·) := by
  have hle : (db.pending.entries.filterMap fun e => frontierKeyHost e.1).Pairwise (· ≤ ·) := by
    rw [List.pairwise_filterMap]
    refine db.pending.sorted.imp fun hlt host hhost host' hhost' => ?_
    exact host_le_of_key_le hhost hhost' (le_of_lt hlt)
  refine List.Pairwise.imp₂ ?_ (hle.sublist (List.dedup_sublist _)) (List.nodup_dedup _)
  exact fun _ _ hle hne => lt_of_le_of_ne hle hne

/-- An element all of whose smaller ones are among fewer than `n` is one of the first `n`. -/
theorem mem_take_of_below {α : Type*} [LinearOrder α] {l below : List α} {n : ℕ} {x : α}
    (hl : l.Pairwise (· < ·)) (hx : x ∈ l) (hbelow : ∀ y ∈ l, y < x → y ∈ below)
    (hn : below.length < n) : x ∈ l.take n := by
  obtain ⟨i, hi, rfl⟩ := List.getElem_of_mem hx
  have hsub : l.take i ⊆ below := by
    intro y hy
    obtain ⟨j, hj, rfl⟩ := List.mem_take_iff_getElem.mp hy
    have hlt : j < i := by omega
    exact hbelow _ (List.getElem_mem _) (List.pairwise_iff_getElem.mp hl j i _ hi hlt)
  have hnodup : (l.take i).Nodup := (hl.imp fun h => ne_of_lt h).sublist (List.take_sublist _ _)
  have hle := (List.subperm_of_subset hnodup hsub).length_le
  rw [List.length_take] at hle
  exact List.mem_take_iff_getElem.mpr ⟨i, by omega, rfl⟩

/-! ### Where a scan stands -/

/-- A waiting host may be contacted now. -/
def ReadyHost (codecs : FrontierCodecs) (F : Frontier) (nowMs : ℤ) (skip : Str → Bool)
    (host : Key) : Prop :=
  Ready codecs F nowMs skip (fromUtf8Lossy host)

/-- The hosts behind the cursor: none of them is ready, and their entries are exactly
those the cursor has passed. -/
structure Behind (codecs : FrontierCodecs) (F : Frontier) (nowMs : ℤ) (skip : Str → Bool)
    (cursor : Key) (passed : List Key) : Prop where
  nodup : passed.Nodup
  notReady : ∀ host ∈ passed, ¬ ReadyHost codecs F nowMs skip host
  waiting : ∀ host ∈ passed, host ∈ waitingHosts F.db
  before : ∀ e ∈ F.db.pending.entries, ∀ host, frontierKeyHost e.1 = some host →
    (host ∈ passed ↔ e.1 < cursor)

theorem Behind.start : Behind codecs F nowMs skip [] [] :=
  ⟨List.nodup_nil, by simp, by simp, fun e _ host _ => by simp [List.not_lt_nil]⟩

/-- A waiting host that is not behind the cursor is larger than those that are. -/
theorem Behind.host_lt (h : Behind codecs F nowMs skip cursor passed) {host' : Key}
    (hhost : host ∈ passed) (hhost' : host' ∈ waitingHosts F.db) (hnot : host' ∉ passed) :
    host < host' := by
  obtain ⟨e, he, hkey⟩ := mem_waitingHosts.mp (h.waiting host hhost)
  obtain ⟨e', he', hkey'⟩ := mem_waitingHosts.mp hhost'
  have hlt : e.1 < cursor := (h.before e he host hkey).mp hhost
  have hge : ¬ e'.1 < cursor := fun hc => hnot ((h.before e' he' host' hkey').mpr hc)
  have hle := host_le_of_key_le hkey hkey' (le_of_lt (lt_of_lt_of_le hlt (not_lt.mp hge)))
  refine lt_of_le_of_ne hle ?_
  rintro rfl
  exact hnot hhost

/-- With `n` hosts behind the cursor, none of the first `n` is ready. -/
theorem Behind.not_ready (h : Behind codecs F nowMs skip cursor passed) {n : ℕ}
    (hn : n ≤ passed.length) :
    ∀ host ∈ (waitingHosts F.db).take n, ¬ ReadyHost codecs F nowMs skip host := by
  intro host hhost
  by_cases hmem : host ∈ passed
  · exact h.notReady host hmem
  · have hwaiting := List.mem_of_mem_take hhost
    have hlt := @length_lt_of_mem_take _ _ _ id _ _ _ _ (waitingHosts_sorted F.db) hhost h.nodup
      fun y hy => ⟨h.waiting y hy, h.host_lt hy hwaiting hmem⟩
    omega

/-- The first entry from the cursor on is the next host's: it is not yet behind. -/
theorem Behind.not_mem (h : Behind codecs F nowMs skip cursor passed)
    (hseek : F.db.pending.seek cursor = some e) (hkey : frontierKeyHost e.1 = some host) :
    host ∉ passed := by
  obtain ⟨he, hge, _⟩ := Store.seek_spec hseek
  intro hmem
  exact absurd ((h.before e he host hkey).mp hmem) (not_lt.mpr hge)

/-- With fewer than `n` hosts behind the cursor, the next one is among the first `n`. -/
theorem Behind.mem_take (h : Behind codecs F nowMs skip cursor passed)
    (hseek : F.db.pending.seek cursor = some e) (hkey : frontierKeyHost e.1 = some host) {n : ℕ}
    (hn : passed.length < n) : host ∈ (waitingHosts F.db).take n := by
  obtain ⟨he, _, hfirst⟩ := Store.seek_spec hseek
  refine mem_take_of_below (waitingHosts_sorted F.db) (mem_waitingHosts.mpr ⟨e, he, hkey⟩) ?_ hn
  intro host' hhost' hlt
  obtain ⟨e', he', hkey'⟩ := mem_waitingHosts.mp hhost'
  refine (h.before e' he' host' hkey').mpr (not_le.mp fun hge => ?_)
  exact absurd (host_le_of_key_le hkey hkey' (hfirst e' he' hge)) (not_le.mpr hlt)

/-- The cursor moves past a host that is not ready. -/
theorem Behind.next (h : Behind codecs F nowMs skip cursor passed)
    (hseek : F.db.pending.seek cursor = some e) (hkey : frontierKeyHost e.1 = some host)
    (hready : ¬ ReadyHost codecs F nowMs skip host) :
    Behind codecs F nowMs skip (cursorAfter host) (host :: passed) := by
  obtain ⟨he, hge, hfirst⟩ := Store.seek_spec hseek
  refine ⟨List.nodup_cons.mpr ⟨h.not_mem hseek hkey, h.nodup⟩, ?_, ?_, ?_⟩
  · intro a ha
    rcases List.mem_cons.mp ha with rfl | ha
    · exact hready
    · exact h.notReady a ha
  · intro a ha
    rcases List.mem_cons.mp ha with rfl | ha
    · exact mem_waitingHosts.mpr ⟨e, he, hkey⟩
    · exact h.waiting a ha
  · intro e' he' host' hkey'
    rw [List.mem_cons]
    constructor
    · rintro (rfl | hmem)
      · exact lt_cursorAfter hkey'
      · have hlt := (h.before e' he' host' hkey').mp hmem
        exact lt_trans (lt_of_lt_of_le hlt hge) (lt_cursorAfter hkey)
    · -- an entry of a later host is not before the new cursor
      intro hlt
      by_contra hout
      rw [not_or] at hout
      have hge' : ¬ e'.1 < cursor := fun hc => hout.2 ((h.before e' he' host' hkey').mpr hc)
      have hle := host_le_of_key_le hkey hkey' (hfirst e' he' (not_lt.mp hge'))
      have hlt' : host < host' := lt_of_le_of_ne hle fun heq => hout.1 heq.symm
      exact absurd hlt (not_lt.mpr (cursorAfter_le hkey' hlt'))

/-- Removing an entry that no host has changes nothing for the hosts. -/
theorem waitingHosts_forget {turn : ℕ} {faults : Faults} {key : Key}
    (hkey : frontierKeyHost key = none) (h : forget faults turn F key = (.ok (), F')) :
    waitingHosts F'.db = waitingHosts F.db ∧ F'.db.hosts = F.db.hosts ∧
      (∀ e ∈ F'.db.pending.entries, e ∈ F.db.pending.entries) := by
  rw [forget_ok h]
  refine ⟨?_, rfl, fun e he => (Store.mem_delete.mp he).1⟩
  show ((F.db.pending.delete key).entries.filterMap fun e => frontierKeyHost e.1).dedup = _
  rw [Store.delete, List.filterMap_filter, waitingHosts]
  congr 1
  refine List.filterMap_congr fun e _ => ?_
  by_cases he : e.1 = key
  · simp [he, hkey]
  · simp [he]

theorem readyHost_congr (h : F'.db.hosts = F.db.hosts) :
    ReadyHost codecs F' nowMs skip host ↔ ReadyHost codecs F nowMs skip host := by
  simp only [ReadyHost, Ready, nextAllowedAtMs, h]

theorem Behind.forget {turn : ℕ} {faults : Faults} {key : Key}
    (hbehind : Behind codecs F nowMs skip cursor passed) (hkey : frontierKeyHost key = none)
    (h : Frontier.forget faults turn F key = (.ok (), F')) :
    Behind codecs F' nowMs skip cursor passed := by
  obtain ⟨hwaiting, hhosts, hsub⟩ := waitingHosts_forget hkey h
  refine ⟨hbehind.nodup, fun host hhost => ?_, fun host hhost => ?_, fun e he host hhost => ?_⟩
  · rw [readyHost_congr hhosts]
    exact hbehind.notReady host hhost
  · rw [hwaiting]
    exact hbehind.waiting host hhost
  · exact hbehind.before e (hsub e he) host hhost

/-! ### What a pop finds -/

/-- **A pop that succeeds finds a job iff one of the first hosts is ready.** -/
theorem scan_isSome_iff {faults : Faults} {maxHostsPerCall fuel turn examined : ℕ}
    {cursor : Option Key} (hbehind : Behind codecs F nowMs skip (cursor.getD []) passed)
    (hlen : passed.length = examined) {result : Option CrawlJob}
    (h : scan codecs faults nowMs maxHostsPerCall skip fuel turn cursor examined F
      = some (.ok result, F')) :
    result.isSome ↔ ∃ host ∈ (waitingHosts F.db).take maxHostsPerCall,
      ReadyHost codecs F nowMs skip host := by
  induction fuel generalizing turn cursor examined passed F with
  | zero => cases h
  | succ fuel ih =>
    rw [scan] at h
    by_cases hmax : maxHostsPerCall ≤ examined
    · rw [if_pos hmax] at h
      cases h
      refine iff_of_false (by simp) ?_
      rintro ⟨host, hhost, hready⟩
      exact hbehind.not_ready (by omega) host hhost hready
    · rw [if_neg hmax] at h
      by_cases hiterate : faults.iterate turn = true
      · rw [if_pos hiterate] at h
        cases h
      · rw [if_neg hiterate] at h
        rcases hseek : F.db.pending.seek (cursor.getD []) with _ | ⟨key, value⟩
        · -- nothing from the cursor on: every host is behind it
          rw [hseek] at h
          cases h
          refine iff_of_false (by simp) ?_
          rintro ⟨host, hhost, hready⟩
          obtain ⟨e, he, hkey⟩ := mem_waitingHosts.mp (List.mem_of_mem_take hhost)
          exact hbehind.notReady host
            ((hbehind.before e he host hkey).mpr (Store.seek_eq_none hseek e he)) hready
        · rw [hseek] at h
          dsimp only at h
          rcases hkey : frontierKeyHost key with _ | host
          · -- a key without a host is dropped, and the scan goes on from where it stands
            rw [hkey] at h
            dsimp only at h
            obtain ⟨forgot, F₁, hforget⟩ : ∃ r F₁, Frontier.forget faults turn F key = (r, F₁) :=
              ⟨_, _, rfl⟩
            rw [hforget] at h
            rcases forgot with e | _
            · cases h
            · obtain ⟨hwaiting, hhosts, _⟩ := waitingHosts_forget hkey hforget
              rw [ih (hbehind.forget hkey hforget) hlen h, hwaiting]
              simp only [readyHost_congr hhosts]
          · rw [hkey] at h
            dsimp only at h
            have hpass : ¬ ReadyHost codecs F nowMs skip host →
                Behind codecs F nowMs skip ((some (cursorAfter host)).getD []) (host :: passed) :=
              hbehind.next hseek hkey
            have hlen' : (host :: passed).length = examined + 1 := by
              rw [List.length_cons, hlen]
            by_cases hskip : skip (fromUtf8Lossy host) = true
            · rw [if_pos hskip] at h
              refine ih (hpass fun hready => ?_) hlen' h
              rw [hready.1] at hskip
              cases hskip
            · rw [if_neg hskip] at h
              rcases hstate : hostState codecs faults turn F.db (fromUtf8Lossy host)
                with e | state
              · rw [hstate] at h
                cases h
              · rw [hstate] at h
                dsimp only at h
                have hnext := hostState_ok hstate
                by_cases hwait : nowMs < (state.getD default).nextAllowedAtMs
                · rw [if_pos hwait] at h
                  refine ih (hpass fun hready => ?_) hlen' h
                  rw [hnext] at hwait
                  exact absurd hready.2 (Int.not_le.mpr hwait)
                · rw [if_neg hwait] at h
                  have hready : ReadyHost codecs F nowMs skip host := by
                    rw [hnext] at hwait
                    exact ⟨by simpa using hskip, Int.not_lt.mp hwait⟩
                  have hreached := hbehind.mem_take hseek hkey (n := maxHostsPerCall) (by omega)
                  refine iff_of_true ?_ ⟨host, hreached, hready⟩
                  rcases hjob : codecs.job.decode value with _ | job
                  · rw [hjob] at h
                    cases h
                  · rw [hjob] at h
                    dsimp only at h
                    obtain ⟨forgot, F₁, hforget⟩ :
                        ∃ r F₁, Frontier.forget faults turn F key = (r, F₁) := ⟨_, _, rfl⟩
                    rw [hforget] at h
                    rcases forgot with e | _
                    · cases h
                    · cases h
                      rfl

/-- The values a pop may meet can be decoded: the jobs, and the states of their hosts. -/
def Decodable (codecs : FrontierCodecs) (db : CrawlDb) : Prop :=
  ∀ e ∈ db.pending.entries, ∀ host, frontierKeyHost e.1 = some host →
    (codecs.job.decode e.2).isSome ∧
      ∀ bytes, db.hosts.get (utf8 (fromUtf8Lossy host)) = some bytes →
        (codecs.hostState.decode bytes).isSome

/-- **Without a failing call, a pop that meets values it can decode does not fail.** -/
theorem scan_ok (hdecodes : Decodable codecs F.db) {maxHostsPerCall fuel turn examined : ℕ}
    {cursor : Option Key} {result : Except CrawlError (Option CrawlJob)}
    (h : scan codecs noFaults nowMs maxHostsPerCall skip fuel turn cursor examined F
      = some (result, F')) : ∃ found, result = .ok found := by
  induction fuel generalizing turn cursor examined F with
  | zero => cases h
  | succ fuel ih =>
    rw [scan] at h
    by_cases hmax : maxHostsPerCall ≤ examined
    · rw [if_pos hmax] at h
      cases h
      exact ⟨none, rfl⟩
    · rw [if_neg hmax, if_neg (by simp [noFaults])] at h
      rcases hseek : F.db.pending.seek (cursor.getD []) with _ | ⟨key, value⟩
      · rw [hseek] at h
        cases h
        exact ⟨none, rfl⟩
      · rw [hseek] at h
        dsimp only at h
        obtain ⟨F₁, hforget⟩ : ∃ F₁, Frontier.forget noFaults turn F key = (.ok (), F₁) :=
          ⟨_, rfl⟩
        rcases hkey : frontierKeyHost key with _ | host
        · simp only [hkey, hforget] at h
          -- a malformed key is forgotten, and what is left still decodes
          obtain ⟨_, hhosts, hsub⟩ := waitingHosts_forget hkey hforget
          refine ih (fun e he host hhost => ?_) h
          rw [hhosts]
          exact hdecodes e (hsub e he) host hhost
        · simp only [hkey, hforget] at h
          obtain ⟨hjob, hstates⟩ := hdecodes _ (Store.seek_spec hseek).1 host hkey
          by_cases hskip : skip (fromUtf8Lossy host) = true
          · rw [if_pos hskip] at h
            exact ih hdecodes h
          · rw [if_neg hskip] at h
            -- what is left to fail is decoding the host's state or the job, and both decode
            obtain ⟨state, hstate⟩ : ∃ state,
                hostState codecs noFaults turn F.db (fromUtf8Lossy host) = .ok state := by
              rw [hostState]
              rcases hget : F.db.hosts.get (utf8 (fromUtf8Lossy host)) with _ | bytes
              · exact ⟨none, rfl⟩
              · obtain ⟨state, hdecode⟩ := Option.isSome_iff_exists.mp (hstates bytes hget)
                refine ⟨some state, ?_⟩
                simp [resolve, call, noFaults, hdecode, bind, Except.bind]
            rw [hstate] at h
            dsimp only at h
            by_cases hwait : nowMs < (state.getD default).nextAllowedAtMs
            · rw [if_pos hwait] at h
              exact ih hdecodes h
            · rw [if_neg hwait] at h
              obtain ⟨job, hdecode⟩ := Option.isSome_iff_exists.mp hjob
              rw [show codecs.job.decode value = some job from hdecode] at h
              cases h
              exact ⟨some job, rfl⟩

theorem popReady_ok (hdecodes : Decodable codecs F.db) (maxHostsPerCall : ℕ) :
    ∃ result F', popReady codecs noFaults F nowMs maxHostsPerCall skip
      = some (.ok result, F') := by
  obtain ⟨⟨result, F'⟩, hpop⟩ := Option.isSome_iff_exists.mp
    (@popReady_isSome codecs noFaults F nowMs maxHostsPerCall skip)
  obtain ⟨found, rfl⟩ := scan_ok hdecodes (show scan codecs noFaults nowMs maxHostsPerCall skip
    (maxHostsPerCall + F.db.pending.entries.length + 1) 0 none 0 F = some (result, F') from hpop)
  exact ⟨found, F', hpop⟩

theorem popReady_found_iff {faults : Faults} {maxHostsPerCall : ℕ} {result : Option CrawlJob}
    (hpop : popReady codecs faults F nowMs maxHostsPerCall skip = some (.ok result, F')) :
    result.isSome ↔ ∃ host ∈ (waitingHosts F.db).take maxHostsPerCall,
      ReadyHost codecs F nowMs skip host := by
  rw [popReady] at hpop
  split at hpop
  · cases hpop
  · have hstart : Behind codecs F nowMs skip ((none : Option Key).getD []) [] := Behind.start
    exact scan_isSome_iff hstart rfl hpop

/-- **What the pop of the crawl finds**, in any state of the frontier: without a failing
call it succeeds, and whenever it succeeds it returns a job iff one of the first
`maxHostsPerCall` waiting hosts is ready. -/
theorem popReady_isSome_iff (codecs : FrontierCodecs) (F : Frontier)
    (hdecodes : Decodable codecs F.db) (nowMs : ℤ) (maxHostsPerCall : ℕ) (skip : Str → Bool) :
    (∃ result F', popReady codecs noFaults F nowMs maxHostsPerCall skip
      = some (.ok result, F')) ∧
    ∀ faults result F', popReady codecs faults F nowMs maxHostsPerCall skip
        = some (.ok result, F') →
      (result.isSome ↔ ∃ host ∈ (waitingHosts F.db).take maxHostsPerCall,
        ReadyHost codecs F nowMs skip host) :=
  ⟨popReady_ok hdecodes maxHostsPerCall, fun _ _ _ hpop => popReady_found_iff hpop⟩

/-! ### A ready host behind many that are not -/

/-- The `n`-th of the hosts `h000`, `h001`, and so on. -/
def numberedHost (n : ℕ) : Str := 'h' :: padded 3 n

/-- A job of a host. -/
def jobOf (host : Str) : CrawlJob := { url := "http://".toList ++ host ++ ['/'], depth := 0 }

/-- The state of the `n`-th host: the first 128 may not be contacted before the time 1000,
the others may at once. -/
def stateOf (n : ℕ) : HostState :=
  { nextAllowedAtMs := if n < 128 then 1000 else 0, lastFetchedAtMs := 0 }

theorem numberedHosts_sorted : (List.range 129).Pairwise fun i j =>
    utf8 (numberedHost i) < utf8 (numberedHost j) := by
  have hchain : ((List.range 129).map fun i => utf8 (numberedHost i)).IsChain (· < ·) := by
    decide +kernel
  exact List.pairwise_map.mp (List.isChain_iff_pairwise.mp hchain)

theorem numberedHost_plain : ∀ i ∈ List.range 129, ∀ b ∈ utf8 (numberedHost i), 1 < b := by
  have hall : ((List.range 129).all fun i => (utf8 (numberedHost i)).all fun b => 1 < b) = true := by
    decide +kernel
  intro i hi b hb
  exact of_decide_eq_true (List.all_eq_true.mp (List.all_eq_true.mp hall i hi) b hb)

theorem jobOf_fits : ∀ i ∈ List.range 129,
    Postcard.jobFormat.fits (jobOf (numberedHost i)) = true := by
  decide +kernel

/-- 129 hosts with a job each. -/
def crowded : Frontier where
  db :=
    { CrawlDb.empty with
      pending := {
        entries := (List.range 129).map fun i =>
          (frontierKey (numberedHost i) (i + 1), Postcard.jobFormat.put (jobOf (numberedHost i)))
        sorted := by
          rw [List.pairwise_map]
          refine numberedHosts_sorted.imp_of_mem fun _ hj hlt => ?_
          exact (below_of_host_lt (numberedHost_plain _ hj) hlt _ _).1 }
      hosts := {
        entries := (List.range 129).map fun i =>
          (utf8 (numberedHost i), Postcard.hostStateFormat.put (stateOf i))
        sorted := List.pairwise_map.mpr numberedHosts_sorted } }
  sequence := 129
  pending := 129
  hosts := 129

theorem crowded_waitingHosts :
    waitingHosts crowded.db = (List.range 129).map fun i => utf8 (numberedHost i) := by
  have hkeys : crowded.db.pending.entries.filterMap (fun e => frontierKeyHost e.1)
      = (List.range 129).map fun i => utf8 (numberedHost i) := by
    rw [show crowded.db.pending.entries = (List.range 129).map fun i =>
      (frontierKey (numberedHost i) (i + 1), Postcard.jobFormat.put (jobOf (numberedHost i)))
      from rfl, List.filterMap_map, ← List.filterMap_eq_map]
    refine List.filterMap_congr fun i hi => ?_
    exact frontierKeyHost_frontierKey (numberedHost_plain i hi) (i + 1)
  rw [waitingHosts, hkeys, List.dedup_eq_self]
  exact (List.pairwise_map.mpr numberedHosts_sorted).imp fun h => ne_of_lt h

theorem stateOf_decodes (i : ℕ) : Postcard.frontierCodecs.hostState.decode
    (Postcard.hostStateFormat.put (stateOf i)) = some (stateOf i) := by
  refine Postcard.frontierCodecs.hostState.decode_encode (if_pos ?_)
  rw [stateOf]
  split
  · decide
  · decide

theorem crowded_nextAllowed {i : ℕ} (hi : i ∈ List.range 129) :
    nextAllowedAtMs Postcard.frontierCodecs crowded (numberedHost i)
      = (stateOf i).nextAllowedAtMs := by
  have hget : crowded.db.hosts.get (utf8 (numberedHost i))
      = some (Postcard.hostStateFormat.put (stateOf i)) :=
    Store.get_eq_some_iff.mpr (List.mem_map.mpr ⟨i, hi, rfl⟩)
  rw [nextAllowedAtMs, hget, Option.bind_some, stateOf_decodes]
  rfl

theorem crowded_decodable : Decodable Postcard.frontierCodecs crowded.db := by
  intro e he host hhost
  obtain ⟨i, hi, rfl⟩ := List.mem_map.mp he
  constructor
  · rw [Postcard.frontierCodecs.job.decode_encode (if_pos (jobOf_fits i hi))]
    rfl
  · intro bytes hbytes
    obtain ⟨j, _, hj⟩ := List.mem_map.mp (Store.get_eq_some_iff.mp hbytes)
    rw [← (Prod.mk.inj hj).2, stateOf_decodes]
    rfl

/-- When the time has come for all of them, the pop returns a job. -/
theorem popReady_isSome_iff_sample : Decodable Postcard.frontierCodecs crowded.db ∧
    ∃ job F', popReady Postcard.frontierCodecs noFaults crowded 1000 128 (fun _ => false)
      = some (.ok (some job), F') := by
  obtain ⟨⟨result, F', hpop⟩, hfound⟩ := popReady_isSome_iff Postcard.frontierCodecs crowded
    crowded_decodable 1000 128 fun _ => false
  have hfirst : 0 ∈ List.range 129 := by simp
  have hready : ReadyHost Postcard.frontierCodecs crowded 1000 (fun _ => false)
      (utf8 (numberedHost 0)) := by
    rw [ReadyHost, Ready, fromUtf8Lossy_utf8, crowded_nextAllowed hfirst]
    decide
  have hsome : result.isSome := by
    refine (hfound noFaults result F' hpop).mpr ⟨utf8 (numberedHost 0), ?_, hready⟩
    rw [crowded_waitingHosts, ← List.map_take, List.take_range]
    exact List.mem_map.mpr ⟨0, by simp, rfl⟩
  obtain ⟨job, rfl⟩ := Option.isSome_iff_exists.mp hsome
  exact ⟨crowded_decodable, job, F', hpop⟩

/-- **A ready host behind 128 deferred ones is missed**: of 129 waiting hosts, the last may
be contacted at once, and the pop of the crawl returns no job. -/
theorem ready_host_missed :
    (∃ host ∈ waitingHosts crowded.db,
      ReadyHost Postcard.frontierCodecs crowded 0 (fun _ => false) host) ∧
    ∃ F', popReady Postcard.frontierCodecs noFaults crowded 0 128 (fun _ => false)
      = some (.ok none, F') := by
  have hready : ∀ i ∈ List.range 129,
      ReadyHost Postcard.frontierCodecs crowded 0 (fun _ => false) (utf8 (numberedHost i)) ↔
        128 ≤ i := by
    intro i hi
    rw [ReadyHost, Ready, fromUtf8Lossy_utf8, crowded_nextAllowed hi, stateOf]
    split <;> simp <;> omega
  constructor
  · have hlast : 128 ∈ List.range 129 := by simp
    refine ⟨utf8 (numberedHost 128), ?_, (hready 128 hlast).mpr (Nat.le_refl _)⟩
    rw [crowded_waitingHosts]
    exact List.mem_map.mpr ⟨128, hlast, rfl⟩
  · obtain ⟨result, F', hpop⟩ : ∃ result F', popReady Postcard.frontierCodecs noFaults crowded 0
        128 (fun _ => false) = some (.ok result, F') := popReady_ok crowded_decodable 128
    rcases result with _ | job
    · exact ⟨F', hpop⟩
    · obtain ⟨host, hhost, hmust⟩ := (popReady_found_iff hpop).mp rfl
      rw [crowded_waitingHosts, ← List.map_take, List.take_range] at hhost
      obtain ⟨i, hi, rfl⟩ := List.mem_map.mp hhost
      rw [List.mem_range] at hi
      have hlate := (hready i (List.mem_range.mpr (by omega))).mp hmust
      omega

end ReadyHosts
