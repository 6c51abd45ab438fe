/-
The order of a growth timeline's buckets (`indexer::history`).

A call of `add` looks at the last bucket only, and at the clock that it is given.  Where the
machine's numbers end it stops, as the other modules have it.

* `merge_minutes` — what an addition does to the minutes of the buckets;
* `last_minute` — the last bucket is of the last call's minute;
* `ascending_trim_iff` — when an addition keeps the order;
* `ordered_iff` — the timelines of a run are ordered if, and only if, no call's minute is
  before that of the call before it.
-/
import Mathlib.Data.List.Chain
import Mathlib.Data.List.Induction
import MjlSearch.History
import MjlSearch.Machine

open Machine

namespace IndexHistory

/-- A call of `add`: the clock is an `i64`, and the counts are `u64`s. -/
structure Call where
  now : ℤ
  documents : ℕ
  totalDocuments : ℕ
  isI64 : IsI64 now
  documents_lt : documents < 2 ^ 64
  total_lt : totalDocuments < 2 ^ 64

/-- Start of the minute of a time. -/
def minuteOf (now : ℤ) : ℤ := now - now % bucketSeconds

/-- The minute of a call. -/
def Call.minute (call : Call) : ℤ := minuteOf call.now

/-- The last bucket, when it is of the call's minute, has no room for the documents. -/
def overflows (history : IndexHistory) (call : Call) : Bool :=
  history.buckets.getLast?.any fun last =>
    last.at_ = call.minute ∧ 2 ^ 64 ≤ last.documents + call.documents

/-- `add`, which stops when the minute's start is no `i64` or the bucket's count no `u64`. -/
def addChecked (history : IndexHistory) (call : Call) : Option IndexHistory :=
  if ¬ IsI64 call.minute ∨ history.overflows call then none
  else some (history.add call.now call.documents call.totalDocuments)

/-- The timeline after some calls, if none of them stops. -/
def reached (calls : List Call) : Option IndexHistory := calls.foldlM addChecked default

theorem addChecked_eq_some {history history' : IndexHistory} {call : Call}
    (h : history.addChecked call = some history') :
    IsI64 call.minute ∧ history.overflows call = false ∧
      history' = history.add call.now call.documents call.totalDocuments := by
  rw [addChecked] at h
  split at h
  · cases h
  · rename_i hgoes
    rw [not_or, not_not, Bool.not_eq_true] at hgoes
    exact ⟨hgoes.1, hgoes.2, (Option.some.inj h).symm⟩

theorem reached_snoc {calls : List Call} {call : Call} {history : IndexHistory}
    (h : reached (calls ++ [call]) = some history) :
    ∃ before, reached calls = some before ∧ before.addChecked call = some history := by
  rw [reached, List.foldlM_append] at h
  obtain ⟨before, hbefore, hcall⟩ := Option.bind_eq_some_iff.mp h
  refine ⟨before, hbefore, ?_⟩
  simpa using hcall

/-! ### The minutes of the buckets -/

/-- The minutes of buckets, in their order. -/
def minutes (buckets : List Bucket) : List ℤ := buckets.map Bucket.at_

/-- The newest of some times. -/
def newest (times : List ℤ) : List ℤ := times.drop (times.length - retention)

/-- A time that is put behind others, unless it is the last of them. -/
def noted (times : List ℤ) (minute : ℤ) : List ℤ :=
  if times.getLast? = some minute then times else times ++ [minute]

theorem merge_minutes (minute : ℤ) (documents : ℕ) (buckets : List Bucket) :
    minutes (merge minute documents buckets) = noted (minutes buckets) minute := by
  rcases List.eq_nil_or_concat buckets with rfl | ⟨front, last, rfl⟩
  · rfl
  · rw [List.concat_eq_append, merge, List.getLast?_concat, noted, minutes, minutes,
      List.map_append, List.map_singleton, List.getLast?_concat]
    by_cases hsame : last.at_ = minute
    · rw [if_pos (congrArg some hsame)]
      simp [hsame]
    · rw [if_neg fun hc => hsame (Option.some.inj hc)]
      simp [hsame]

theorem trim_minutes (buckets : List Bucket) :
    minutes (trim buckets) = newest (minutes buckets) := by
  rw [minutes, trim, List.map_drop, newest, minutes, List.length_map]

theorem add_buckets (history : IndexHistory) (now : ℤ) (documents totalDocuments : ℕ) :
    (history.add now documents totalDocuments).buckets =
      trim (merge (minuteOf now) documents history.buckets) := by
  simp only [add, minuteOf]

theorem add_minutes (history : IndexHistory) (now : ℤ) (documents totalDocuments : ℕ) :
    minutes (history.add now documents totalDocuments).buckets =
      newest (noted (minutes history.buckets) (minuteOf now)) := by
  rw [add_buckets, trim_minutes, merge_minutes]

theorem noted_last (times : List ℤ) (minute : ℤ) :
    (noted times minute).getLast? = some minute := by
  rw [noted]
  split
  · assumption
  · exact List.getLast?_concat

/-- The last of some times is among the newest. -/
theorem newest_last (times : List ℤ) : (newest times).getLast? = times.getLast? := by
  rw [newest, List.getLast?_drop]
  by_cases hnil : times = []
  · rw [hnil]
    rfl
  · have hpos := List.length_pos_iff.mpr hnil
    rw [if_neg]
    simp only [retention]
    omega

/-- **The last bucket is of the last call's minute.** -/
theorem last_minute {calls : List Call} {history : IndexHistory}
    (h : reached calls = some history) :
    (minutes history.buckets).getLast? = (calls.map Call.minute).getLast? := by
  rcases List.eq_nil_or_concat calls with rfl | ⟨before, call, rfl⟩
  · cases h
    rfl
  · rw [List.concat_eq_append] at h ⊢
    obtain ⟨_, -, hcall⟩ := reached_snoc h
    obtain ⟨-, -, rfl⟩ := addChecked_eq_some hcall
    rw [add_minutes, newest_last, noted_last, List.map_append, List.map_singleton,
      List.getLast?_concat]
    rfl

/-! ### The order -/

/-- A time that is not earlier than the last keeps ascending times ascending. -/
theorem noted_ascending {times : List ℤ} (h : times.Pairwise (· < ·)) {minute : ℤ}
    (hlast : ∀ last, times.getLast? = some last → last ≤ minute) :
    (noted times minute).Pairwise (· < ·) := by
  rw [noted]
  split
  · exact h
  · rename_i hnew
    rcases List.eq_nil_or_concat times with rfl | ⟨front, last, rfl⟩
    · exact List.pairwise_singleton _ _
    · rw [List.concat_eq_append] at h hlast hnew ⊢
      rw [List.getLast?_concat] at hlast hnew
      have hle := hlast last rfl
      have hlt : last < minute := by
        have hne : last ≠ minute := fun hc => hnew (congrArg some hc)
        omega
      refine List.pairwise_append.mpr ⟨h, List.pairwise_singleton _ _, fun a ha b hb => ?_⟩
      rw [List.mem_singleton.mp hb]
      rcases List.mem_append.mp ha with hfront | hend
      · exact Int.lt_trans ((List.pairwise_append.mp h).2.2 a hfront last
          (List.mem_singleton_self _)) hlt
      · rw [List.mem_singleton.mp hend]
        exact hlt

/-- Ascending times stay so exactly when the time put behind them is not earlier than the
last: that one is among the newest still. -/
theorem ascending_trim_iff {times : List ℤ} (h : times.Pairwise (· < ·))
    (hlength : times.length ≤ retention) (minute : ℤ) :
    (newest (noted times minute)).Pairwise (· < ·) ↔
      ∀ last, times.getLast? = some last → last ≤ minute := by
  refine ⟨fun hsorted last hlast => ?_, fun hlast => (noted_ascending h hlast).drop⟩
  by_cases hsame : last = minute
  · exact Int.le_of_eq hsame
  · -- the last two are among the newest, and are in order
    rcases List.eq_nil_or_concat times with rfl | ⟨front, other, rfl⟩
    · cases hlast
    · rw [List.concat_eq_append] at hlast hlength hsorted
      rw [List.getLast?_concat] at hlast
      cases hlast
      rw [noted, List.getLast?_concat, if_neg fun hc => hsame (Option.some.inj hc), newest,
        List.append_assoc, List.singleton_append, List.drop_append_of_le_length (by
          simp only [List.length_append, List.length_cons, List.length_nil, retention] at *
          omega)] at hsorted
      have hends := (List.pairwise_append.mp hsorted).2.1
      exact Int.le_of_lt (List.rel_of_pairwise_cons hends List.mem_cons_self)

/-- Buckets as the timeline promises them: minutes, the oldest first, one for each, and no
more than are kept. -/
structure Ordered (buckets : List Bucket) : Prop where
  whole : ∀ bucket ∈ buckets, bucketSeconds ∣ bucket.at_
  ascending : (minutes buckets).Pairwise (· < ·)
  length : buckets.length ≤ retention

/-- Trimming removes no bucket that is newer than one it keeps. -/
def TrimsOldest (buckets : List Bucket) : Prop :=
  ∀ removed ∈ buckets.take (buckets.length - retention), ∀ kept ∈ trim buckets,
    removed.at_ ≤ kept.at_

theorem dvd_minuteOf (now : ℤ) : bucketSeconds ∣ minuteOf now := Int.dvd_self_sub_emod

theorem merge_dvd {buckets : List Bucket} (h : ∀ bucket ∈ buckets, bucketSeconds ∣ bucket.at_)
    {minute : ℤ} (hminute : bucketSeconds ∣ minute) (documents : ℕ) :
    ∀ bucket ∈ merge minute documents buckets, bucketSeconds ∣ bucket.at_ := by
  have hall : ∀ time ∈ minutes (merge minute documents buckets), bucketSeconds ∣ time := by
    intro time htime
    rw [merge_minutes, noted] at htime
    have hold : time ∈ minutes buckets → bucketSeconds ∣ time := by
      intro hmem
      obtain ⟨bucket, hbucket, rfl⟩ := List.mem_map.mp hmem
      exact h bucket hbucket
    split at htime
    · exact hold htime
    · rcases List.mem_append.mp htime with hmem | hlast
      · exact hold hmem
      · rw [List.mem_singleton.mp hlast]
        exact hminute
  exact fun bucket hbucket => hall _ (List.mem_map_of_mem hbucket)

/-- When an addition keeps a timeline ordered. -/
theorem Ordered.add_iff {history : IndexHistory} (h : Ordered history.buckets) (now : ℤ)
    (documents totalDocuments : ℕ) :
    Ordered (history.add now documents totalDocuments).buckets ↔
      ∀ last, (minutes history.buckets).getLast? = some last →
        last ≤ minuteOf now := by
  rw [← ascending_trim_iff h.ascending (by rw [minutes, List.length_map]; exact h.length),
    ← add_minutes history now documents totalDocuments]
  refine ⟨Ordered.ascending, fun hascending => ⟨fun bucket hbucket => ?_, hascending, ?_⟩⟩
  · rw [add_buckets] at hbucket
    exact merge_dvd h.whole (dvd_minuteOf now) documents bucket (List.mem_of_mem_drop hbucket)
  · rw [add_buckets]
    exact trim_length _

/-- Trimming takes from the front, so that ascending buckets lose the oldest. -/
theorem trimsOldest {buckets : List Bucket} (h : (minutes buckets).Pairwise (· < ·)) :
    TrimsOldest buckets := by
  intro removed hremoved kept hkept
  rw [minutes, List.pairwise_map, ← List.take_append_drop (buckets.length - retention) buckets,
    List.pairwise_append] at h
  exact Int.le_of_lt (h.2.2 removed hremoved kept hkept)

/-! ### Runs -/

/-- What holds of a run in every state, and of every trimming in it. -/
structure KeepsOrder (calls : List Call) : Prop where
  ordered : ∀ before history, before <+: calls → reached before = some history →
    Ordered history.buckets
  trims : ∀ before call history, before ++ [call] <+: calls → reached before = some history →
    TrimsOldest (merge call.minute call.documents history.buckets)

theorem keepsOrder_nil : KeepsOrder [] := by
  refine ⟨fun before history hbefore hreached => ?_, fun before call _ hbefore _ => ?_⟩
  · rw [List.prefix_nil.mp hbefore] at hreached
    cases hreached
    exact ⟨fun _ hc => (List.not_mem_nil hc).elim, List.Pairwise.nil, Nat.zero_le _⟩
  · exact absurd (List.prefix_nil.mp hbefore) (by simp)

/-- One more call keeps the order exactly when it is not of an earlier minute than the last
bucket. -/
theorem keepsOrder_snoc {calls : List Call} {call : Call} {history after : IndexHistory}
    (hbefore : reached calls = some history) (hcall : history.addChecked call = some after)
    (hreached : reached (calls ++ [call]) = some after) :
    KeepsOrder (calls ++ [call]) ↔ KeepsOrder calls ∧
      ∀ last, (minutes history.buckets).getLast? = some last → last ≤ call.minute := by
  obtain ⟨-, -, rfl⟩ := addChecked_eq_some hcall
  constructor
  · intro h
    have hordered := h.ordered calls history (List.prefix_append _ _) hbefore
    refine ⟨⟨fun before history' hinitial => h.ordered before history' (hinitial.trans
      (List.prefix_append _ _)), fun before call' history' hinitial => h.trims before call' history'
        (hinitial.trans (List.prefix_append _ _))⟩, ?_⟩
    exact (hordered.add_iff call.now call.documents call.totalDocuments).mp
      (h.ordered _ _ List.prefix_rfl hreached)
  · rintro ⟨h, hlast⟩
    have hordered := h.ordered calls history List.prefix_rfl hbefore
    refine ⟨fun before history' hinitial hhistory => ?_, fun before call' history' hinitial
      hhistory => ?_⟩
    · rcases List.prefix_concat_iff.mp hinitial with rfl | hshort
      · rw [hreached] at hhistory
        cases hhistory
        exact (hordered.add_iff _ _ _).mpr hlast
      · exact h.ordered before history' hshort hhistory
    · rcases List.prefix_concat_iff.mp hinitial with hwhole | hshort
      · -- the last trimming is of the buckets before with the new time behind them
        obtain ⟨rfl, rfl⟩ := List.concat_inj.mp (by simpa using hwhole)
        rw [hbefore] at hhistory
        cases hhistory
        refine trimsOldest ?_
        rw [merge_minutes]
        exact noted_ascending hordered.ascending hlast
      · exact h.trims before call' history' hshort hhistory

/-- **A timeline keeps its order if, and only if, its calls' minutes do not step back**: then
every state has whole minutes in ascending order, one bucket for each and no more than are
kept, and what is trimmed is the oldest. -/
theorem ordered_iff {calls : List Call} {history : IndexHistory}
    (h : reached calls = some history) :
    KeepsOrder calls ↔ (calls.map Call.minute).IsChain (· ≤ ·) := by
  induction calls using List.reverseRecOn generalizing history with
  | nil => exact iff_of_true keepsOrder_nil List.isChain_nil
  | append_singleton calls call ih =>
    obtain ⟨before, hbefore, hcall⟩ := reached_snoc h
    rw [keepsOrder_snoc hbefore hcall h, ih hbefore, List.map_append, List.map_singleton,
      List.isChain_append, last_minute hbefore]
    refine and_congr_right fun _ => ?_
    constructor
    · intro hlast
      exact ⟨List.isChain_singleton _, fun last hmem next hnext => by
        cases hnext
        exact hlast last hmem⟩
    · rintro ⟨-, hends⟩ last hlast
      exact hends last hlast call.minute rfl

/-! ### A clock that is set back -/

/-- Two calls, the second a minute before the first. -/
def setBack : List Call :=
  [⟨120, 1, 1, by decide, by decide, by decide⟩, ⟨60, 1, 2, by decide, by decide, by decide⟩]

/-- The bucket of the earlier minute is behind that of the later. -/
theorem setBack_disordered :
    reached setBack = some ⟨60, 2, [⟨120, 1⟩, ⟨60, 1⟩]⟩ ∧ ¬ KeepsOrder setBack := by
  have hreached : reached setBack = some ⟨60, 2, [⟨120, 1⟩, ⟨60, 1⟩]⟩ := by decide
  refine ⟨hreached, fun h => ?_⟩
  have hascending := (h.ordered setBack _ List.prefix_rfl hreached).ascending
  revert hascending
  decide

theorem ordered_iff_sample : KeepsOrder setBack.reverse := by
  have hreached : reached setBack.reverse = some ⟨120, 1, [⟨60, 1⟩, ⟨120, 1⟩]⟩ := by decide
  exact (ordered_iff hreached).mpr (by decide)

end IndexHistory
