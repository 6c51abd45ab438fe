/-
What a window over a growth timeline counts (`IndexHistory::documents_since`).

A document is counted by the minute it was added in, and the minute by its start; the end
of the window is a time of any second.  What the buckets hold of a run is, for any set of
minutes, what the run's calls added in these (`merged_sum`); what is trimmed are the
minutes that enough others follow (`drop_eq_filter`).

* `counted_in` — what a window counts, from the calls;
* `window_iff` — when it loses nothing.
-/
import Mathlib.Data.List.Dedup
import MjlSearch.HistoryOrder

open Machine

namespace IndexHistory

/-- Documents within the `seconds` window ending at `now`; it stops when the window's start
is no `i64` or the sum no `u64`. -/
def documentsSince (history : IndexHistory) (now seconds : ℤ) : Option ℕ :=
  let cutoff := now - seconds
  let counted := ((history.buckets.filter fun bucket => cutoff ≤ bucket.at_).map
    Bucket.documents).sum
  if IsI64 cutoff ∧ counted < 2 ^ 64 then some counted else none

/-- The documents of the calls that satisfy a condition. -/
def addedBy (p : Call → Bool) (calls : List Call) : ℕ :=
  ((calls.filter p).map Call.documents).sum

/-- The documents added between two times. -/
def addedIn (start stop : ℤ) (calls : List Call) : ℕ :=
  addedBy (fun call => start ≤ call.now ∧ call.now ≤ stop) calls

/-- The minutes of calls that are later than one, each once. -/
def laterMinutes (calls : List Call) (minute : ℤ) : List ℤ :=
  ((calls.map Call.minute).filter fun other => minute < other).dedup

/-! ### The buckets that nothing was trimmed from -/

/-- The buckets of calls, if none was trimmed. -/
def merged (calls : List Call) : List Bucket :=
  calls.foldl (fun buckets call => merge call.minute call.documents buckets) []

theorem merged_snoc (calls : List Call) (call : Call) :
    merged (calls ++ [call]) = merge call.minute call.documents (merged calls) := by
  rw [merged, List.foldl_append]
  rfl

/-- Dropping buckets before the last does not get into the way of merging. -/
theorem merge_drop {buckets : List Bucket} {k : ℕ} (h : k < buckets.length) (minute : ℤ)
    (documents : ℕ) :
    merge minute documents (buckets.drop k) = (merge minute documents buckets).drop k := by
  rcases List.eq_nil_or_concat buckets with rfl | ⟨front, last, rfl⟩
  · cases h
  · rw [List.concat_eq_append] at h ⊢
    rw [List.length_append, List.length_singleton] at h
    have hfront : k ≤ front.length := by omega
    rw [List.drop_append_of_le_length hfront, merge, merge, List.getLast?_concat,
      List.getLast?_concat]
    dsimp only
    split
    · rw [List.dropLast_concat, List.dropLast_concat, List.drop_append_of_le_length hfront]
    · rw [List.drop_append_of_le_length (by rw [List.length_append]; omega),
        List.drop_append_of_le_length hfront]

theorem merge_length (minute : ℤ) (documents : ℕ) (buckets : List Bucket) :
    (merge minute documents buckets).length = buckets.length ∨
      (merge minute documents buckets).length = buckets.length + 1 := by
  have hlength := congrArg List.length (merge_minutes minute documents buckets)
  rw [minutes, List.length_map, noted] at hlength
  split at hlength
  · rw [minutes, List.length_map] at hlength
    exact .inl hlength
  · rw [minutes, List.length_append, List.length_map, List.length_singleton] at hlength
    exact .inr hlength

/-- Dropping buckets that trimming drops anyway. -/
theorem trim_drop {buckets : List Bucket} {k : ℕ} (h : k + retention ≤ buckets.length) :
    trim (buckets.drop k) = trim buckets := by
  have hsum : k + (buckets.length - k - retention) = buckets.length - retention := by omega
  rw [trim, List.drop_drop, List.length_drop, hsum, trim]

/-- Trimming between merges is trimming at the end. -/
theorem trim_merge (minute : ℤ) (documents : ℕ) (buckets : List Bucket) :
    trim (merge minute documents (trim buckets)) = trim (merge minute documents buckets) := by
  obtain ⟨k, hk⟩ : ∃ k, k = buckets.length - retention := ⟨_, rfl⟩
  have htrim : trim buckets = buckets.drop k := by rw [trim, hk]
  rw [htrim]
  have hpos : 0 < retention := by decide
  by_cases hshort : k = 0
  · rw [hshort, List.drop_zero]
  · -- the bucket that is merged into is the last one, which trimming keeps
    have hlength := merge_length minute documents buckets
    rw [merge_drop (by omega), trim_drop (by omega)]

/-- **The timeline after a run** is what its calls merge to, trimmed. -/
theorem reached_buckets {calls : List Call} {history : IndexHistory}
    (h : reached calls = some history) : history.buckets = trim (merged calls) := by
  induction calls using List.reverseRecOn generalizing history with
  | nil =>
    cases h
    rfl
  | append_singleton calls call ih =>
    obtain ⟨before, hbefore, hcall⟩ := reached_snoc h
    obtain ⟨-, -, rfl⟩ := addChecked_eq_some hcall
    rw [add_buckets, ih hbefore, merged_snoc]
    exact trim_merge _ _ _

/-! ### What the buckets hold -/

theorem mem_noted {times : List ℤ} {minute time : ℤ} :
    time ∈ noted times minute ↔ time ∈ times ∨ time = minute := by
  rw [noted]
  split
  · rename_i hlast
    constructor
    · exact .inl
    · rintro (hold | rfl)
      · exact hold
      · exact List.mem_of_getLast? hlast
  · rw [List.mem_append, List.mem_singleton]

/-- There are buckets for the minutes of the calls. -/
theorem mem_merged_minutes {calls : List Call} {time : ℤ} :
    time ∈ minutes (merged calls) ↔ time ∈ calls.map Call.minute := by
  induction calls using List.reverseRecOn with
  | nil => exact Iff.rfl
  | append_singleton calls call ih =>
    rw [merged_snoc, merge_minutes, mem_noted, ih, List.map_append, List.mem_append,
      List.map_singleton, List.mem_singleton]

theorem merged_last (calls : List Call) :
    (minutes (merged calls)).getLast? = (calls.map Call.minute).getLast? := by
  rcases List.eq_nil_or_concat calls with rfl | ⟨before, call, rfl⟩
  · rfl
  · rw [List.concat_eq_append, merged_snoc, merge_minutes, noted_last, List.map_append,
      List.map_singleton, List.getLast?_concat]

/-- Minutes that do not step back are merged to ascending ones. -/
theorem merged_ascending {calls : List Call} (h : (calls.map Call.minute).IsChain (· ≤ ·)) :
    (minutes (merged calls)).Pairwise (· < ·) := by
  induction calls using List.reverseRecOn with
  | nil => exact List.Pairwise.nil
  | append_singleton calls call ih =>
    rw [List.map_append, List.map_singleton, List.isChain_append] at h
    rw [merged_snoc, merge_minutes]
    refine noted_ascending (ih h.1) fun last hlast => ?_
    rw [merged_last] at hlast
    exact h.2.2 last hlast call.minute rfl

theorem merge_filter_sum (p : ℤ → Bool) (minute : ℤ) (documents : ℕ) (buckets : List Bucket) :
    (((merge minute documents buckets).filter fun bucket => p bucket.at_).map
      Bucket.documents).sum =
      ((buckets.filter fun bucket => p bucket.at_).map Bucket.documents).sum +
        if p minute then documents else 0 := by
  rcases List.eq_nil_or_concat buckets with rfl | ⟨front, last, rfl⟩
  · by_cases hp : p minute <;> simp [merge, hp]
  · rw [List.concat_eq_append, merge, List.getLast?_concat]
    dsimp only
    split
    · rename_i hsame
      subst hsame
      by_cases hp : p last.at_ <;> simp [hp, Nat.add_assoc]
    · rw [List.filter_append, List.map_append, List.sum_append]
      by_cases hp : p minute <;> simp [hp]

/-- **What the buckets of some minutes hold** is what the calls of these minutes added. -/
theorem merged_sum (p : ℤ → Bool) (calls : List Call) :
    (((merged calls).filter fun bucket => p bucket.at_).map Bucket.documents).sum =
      addedBy (fun call => p call.minute) calls := by
  induction calls using List.reverseRecOn with
  | nil => rfl
  | append_singleton calls call ih =>
    rw [merged_snoc, merge_filter_sum, ih, addedBy, addedBy, List.filter_append,
      List.map_append, List.sum_append]
    by_cases hp : p call.minute <;> simp [hp]

/-- The last of ascending times are those that few others follow. -/
theorem drop_eq_filter (n : ℕ) {buckets : List Bucket}
    (h : (minutes buckets).Pairwise (· < ·)) :
    buckets.drop (buckets.length - n) = buckets.filter fun bucket =>
      (minutes buckets).countP (bucket.at_ < ·) < n := by
  induction buckets with
  | nil => exact List.drop_nil
  | cons first buckets ih =>
    obtain ⟨hfirst, hrest⟩ := List.pairwise_cons.mp h
    have hall : (minutes buckets).countP (first.at_ < ·) = buckets.length :=
      (List.countP_eq_length.mpr fun time htime => decide_eq_true (hfirst time htime)).trans
        (List.length_map _)
    have hcount : (minutes (first :: buckets)).countP (first.at_ < ·) = buckets.length := by
      show (first.at_ :: minutes buckets).countP _ = _
      rw [List.countP_cons_of_neg (by simp), hall]
    have hsame : (buckets.filter fun bucket =>
        (minutes (first :: buckets)).countP (bucket.at_ < ·) < n) =
        buckets.drop (buckets.length - n) := by
      rw [ih hrest]
      refine List.filter_congr fun bucket hbucket => ?_
      have hlater := hfirst bucket.at_ (List.mem_map_of_mem hbucket)
      show decide ((first.at_ :: minutes buckets).countP _ < n) = _
      rw [List.countP_cons_of_neg (by simp; omega)]
    rw [List.filter_cons, hcount, hsame, List.length_cons]
    by_cases hkept : buckets.length < n
    · rw [if_pos (decide_eq_true hkept), Nat.sub_eq_zero_of_le hkept,
        Nat.sub_eq_zero_of_le hkept.le, List.drop_zero, List.drop_zero]
    · rw [if_neg (by simpa using hkept), Nat.sub_add_comm (Nat.not_lt.mp hkept),
        List.drop_succ_cons]

/-- The minutes that follow one in the buckets are those of the calls. -/
theorem countP_merged {calls : List Call} (h : (calls.map Call.minute).IsChain (· ≤ ·))
    (minute : ℤ) :
    (minutes (merged calls)).countP (minute < ·) = (laterMinutes calls minute).length := by
  have hnodup : ((minutes (merged calls)).filter (minute < ·)).Nodup :=
    ((merged_ascending h).imp fun hlt => Int.ne_of_lt hlt).filter _
  rw [List.countP_eq_length_filter]
  refine ((List.perm_ext_iff_of_nodup hnodup (List.nodup_dedup _)).mpr fun time => ?_).length_eq
  rw [List.mem_dedup, List.mem_filter, List.mem_filter, mem_merged_minutes]

/-! ### Windows -/

/-- A call's documents are in a window's sum: its minute starts in the window, and was not
trimmed. -/
def countsIn (calls : List Call) (cutoff : ℤ) (call : Call) : Bool :=
  cutoff ≤ call.minute ∧ (laterMinutes calls call.minute).length < retention

/-- **What a window counts**, from the calls. -/
theorem counted_in {calls : List Call} {history : IndexHistory}
    (h : reached calls = some history) (hminutes : (calls.map Call.minute).IsChain (· ≤ ·))
    (cutoff : ℤ) :
    ((history.buckets.filter fun bucket => cutoff ≤ bucket.at_).map Bucket.documents).sum =
      addedBy (countsIn calls cutoff) calls := by
  have hsum := merged_sum
    (fun minute => cutoff ≤ minute ∧ (laterMinutes calls minute).length < retention) calls
  rw [reached_buckets h, trim, drop_eq_filter retention (merged_ascending hminutes),
    List.filter_filter]
  simp only [countP_merged hminutes, ← Bool.decide_and]
  exact hsum

theorem addedBy_split {p q : Call → Bool} {calls : List Call}
    (h : ∀ call ∈ calls, p call = true → q call = true) :
    addedBy q calls = addedBy p calls + addedBy (fun call => q call && !p call) calls := by
  induction calls with
  | nil => rfl
  | cons call calls ih =>
    have hrest := ih fun other hother => h other (List.mem_cons_of_mem _ hother)
    have hfirst := h call List.mem_cons_self
    simp only [addedBy] at hrest ⊢
    cases hp : p call <;> cases hq : q call <;> simp_all <;> omega

theorem addedBy_eq_zero {p : Call → Bool} {calls : List Call} :
    addedBy p calls = 0 ↔ ∀ call ∈ calls, p call = true → call.documents = 0 := by
  rw [addedBy, List.sum_eq_zero_iff_forall_eq_nat, List.forall_mem_map]
  constructor
  · exact fun h call hcall hp => h call (List.mem_filter.mpr ⟨hcall, hp⟩)
  · exact fun h call hcall => h call (List.mem_filter.mp hcall).1 (List.mem_filter.mp hcall).2

/-! ### Times and their minutes -/

theorem minuteOf_le (time : ℤ) : minuteOf time ≤ time ∧ time ≤ minuteOf time + 59 := by
  simp only [minuteOf, bucketSeconds]
  omega

theorem minuteOf_mono {time time' : ℤ} (h : time ≤ time') : minuteOf time ≤ minuteOf time' := by
  simp only [minuteOf, bucketSeconds]
  omega

/-- Calls whose times do not step back have minutes that do not. -/
theorem minutes_chain {calls : List Call} (h : (calls.map Call.now).IsChain (· ≤ ·)) :
    (calls.map Call.minute).IsChain (· ≤ ·) := by
  rw [List.isChain_map] at h ⊢
  exact h.imp fun _ _ hle => minuteOf_mono hle

/-- **A window loses nothing if, and only if**, its start is an `i64`, what was added in it is
a `u64`, and every call in it that added documents is of a minute that starts in the window
and that fewer minutes follow than are kept.  It never counts what is older than a minute
before it. -/
theorem window_iff {calls : List Call} {history : IndexHistory} (h : reached calls = some history)
    (hsteady : (calls.map Call.now).IsChain (· ≤ ·)) {now : ℤ} (seconds : ℤ)
    (hnow : ∀ call ∈ calls, call.now ≤ now) :
    (∃ counted, history.documentsSince now seconds = some counted ∧
      addedIn (now - seconds) now calls ≤ counted ∧
      counted ≤ addedIn (now - seconds - 59) now calls) ↔
    IsI64 (now - seconds) ∧ addedIn (now - seconds) now calls < 2 ^ 64 ∧
      ∀ call ∈ calls, 0 < call.documents → now - seconds ≤ call.now →
        now - seconds ≤ call.minute ∧ (laterMinutes calls call.minute).length < retention := by
  have hcounted := counted_in h (minutes_chain hsteady) (now - seconds)
  have hin : ∀ call ∈ calls, countsIn calls (now - seconds) call = true →
      now - seconds ≤ call.now ∧ call.now ≤ now := by
    intro call hcall hcounts
    have hstart := (of_decide_eq_true hcounts).1
    have hle := (minuteOf_le call.now).1
    rw [Call.minute] at hstart
    exact ⟨by omega, hnow call hcall⟩
  have hsplit : addedIn (now - seconds) now calls =
      addedBy (countsIn calls (now - seconds)) calls + addedBy (fun call =>
        decide (now - seconds ≤ call.now ∧ call.now ≤ now) &&
          !countsIn calls (now - seconds) call) calls :=
    addedBy_split fun call hcall hcounts => decide_eq_true (hin call hcall hcounts)
  have hupper : addedBy (countsIn calls (now - seconds)) calls ≤
      addedIn (now - seconds - 59) now calls := by
    rw [addedIn, addedBy_split fun call hcall hcounts => decide_eq_true
      ⟨by have := (hin call hcall hcounts).1; omega, hnow call hcall⟩]
    exact Nat.le_add_right _ _
  -- what was added in the window and is not counted is nothing exactly when no call added it
  have hlost : addedBy (fun call => decide (now - seconds ≤ call.now ∧ call.now ≤ now) &&
        !countsIn calls (now - seconds) call) calls = 0 ↔
      ∀ call ∈ calls, 0 < call.documents → now - seconds ≤ call.now →
        now - seconds ≤ call.minute ∧ (laterMinutes calls call.minute).length < retention := by
    rw [addedBy_eq_zero]
    refine forall₂_congr fun call hcall => ?_
    have hstop := hnow call hcall
    rw [countsIn, Bool.and_eq_true, Bool.not_eq_true', decide_eq_true_iff,
      decide_eq_false_iff_not]
    constructor
    · intro hzero hpos hstart
      by_contra hout
      exact hpos.ne' (hzero ⟨⟨hstart, hstop⟩, hout⟩)
    · rintro hall ⟨⟨hstart, -⟩, hout⟩
      by_contra hpos
      exact hout (hall (Nat.pos_of_ne_zero hpos) hstart)
  rw [documentsSince, hcounted, ← hlost, hsplit]
  constructor
  · rintro ⟨counted, hsome, hlower, -⟩
    split at hsome
    · rename_i hfits
      cases hsome
      exact ⟨hfits.1, by omega, by omega⟩
    · cases hsome
  · rintro ⟨hstart, hfits, hzero⟩
    exact ⟨_, if_pos ⟨hstart, by omega⟩, by omega, hupper⟩

/-! ### A window within a minute -/

theorem one_lt_limit : 1 < 2 ^ 64 := Nat.one_lt_two_pow (by decide)

/-- One document, added in the last second of a minute. -/
def lateCall : Call := ⟨59, 1, 1, by decide, one_lt_limit, one_lt_limit⟩

/-- A window of that second does not count it. -/
theorem lateCall_missed :
    reached [lateCall] = some ⟨59, 1, [⟨0, 1⟩]⟩ ∧
      IndexHistory.documentsSince ⟨59, 1, [⟨0, 1⟩]⟩ 59 0 = some 0 ∧
      addedIn (59 - 0) 59 [lateCall] = 1 := by
  decide

/-! ### A window of whole minutes -/

/-- Four calls in three minutes: the second and the third are of one minute. -/
def steadyCalls : List Call :=
  [⟨25, 21, 21, by decide, by decide, by decide⟩, ⟨65, 22, 43, by decide, by decide, by decide⟩,
    ⟨118, 23, 66, by decide, by decide, by decide⟩, ⟨190, 24, 90, by decide, by decide, by decide⟩]

/-- The timeline they reach. -/
def steadyHistory : IndexHistory := ⟨190, 90, [⟨0, 21⟩, ⟨60, 45⟩, ⟨180, 24⟩]⟩

/-- A window that starts with the second minute loses none of the documents that were added in
it, and does not count the first call. -/
theorem window_iff_sample :
    addedIn (200 - 140) 200 steadyCalls = 69 ∧
    ∃ counted, steadyHistory.documentsSince 200 140 = some counted ∧
      addedIn (200 - 140) 200 steadyCalls ≤ counted ∧
      counted ≤ addedIn (200 - 140 - 59) 200 steadyCalls := by
  have hreached : reached steadyCalls = some steadyHistory := by decide
  refine ⟨by decide, (window_iff hreached (by decide) 140 (by decide)).mpr
    ⟨by decide, by decide, ?_⟩⟩
  decide

end IndexHistory
