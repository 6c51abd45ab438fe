/-
How a fetch retries: how often, after what, and how long it waits.

The number of retries, the cap and the delay a server asks for bound the loop together.
With a cap below half the range of the milliseconds the doubling saturates only where it is
capped, so that a wait is known up to its jitter.

* `backoffMs_eq` — the backoff is the doubled base, up to the cap;
* `retryWait_retried`, `retryWait_ended` — when another attempt is made, and when none is;
* `fetchInner_disciplined` — a whole fetch.
-/
import MjlSearch.Fetcher

open Text Fetcher

namespace RetryDiscipline

variable {contentHash : Str → ℕ} {decoders : Decoders} {config : FetchConfig}
variable {url : Str} {requireHtml : Bool} {replies : ℕ → Sent} {nanos : ℕ → ℕ}

/-! ### One wait -/

/-- The shift stops at 63 bits, and the product at the end of the range; both are beyond the
cap, unless the base is zero. -/
theorem backoffMs_eq {base cap : ℕ} (hcap : cap < 2 ^ 63) (k : ℕ) :
    backoffMs k base cap = min cap (base * 2 ^ k) := by
  rw [backoffMs]
  rcases Nat.eq_zero_or_pos base with rfl | hbase
  · simp
  · rcases Nat.lt_or_ge 63 k with hk | hk
    · have hshift : base * 2 ^ 63 ≥ 2 ^ 63 := Nat.le_mul_of_pos_left _ hbase
      have hpow : (2 : ℕ) ^ 63 ≤ 2 ^ k := Nat.pow_le_pow_right (by decide) (Nat.le_of_lt hk)
      have hlarge : base * 2 ^ k ≥ 2 ^ 63 := hpow.trans (Nat.le_mul_of_pos_left _ hbase)
      rw [Nat.min_eq_right (Nat.le_of_lt hk)]
      omega
    · rw [Nat.min_eq_left hk]
      omega

variable (contentHash url) in
theorem jitterMs_lt (k n : ℕ) : jitterMs contentHash url k n < 250 := Nat.mod_lt _ (by decide)

/-- Backoff and jitter fit. -/
theorem backoff_fits (hcap : config.backoffCapMs < 2 ^ 63) (k n : ℕ) :
    backoffMs k config.backoffBaseMs config.backoffCapMs + jitterMs contentHash url k n < 2 ^ 64 := by
  have := jitterMs_lt contentHash url k n
  rw [backoffMs_eq hcap]
  omega

/-- A failure that another attempt is made after, for its number. -/
structure Retried (config : FetchConfig) (k : ℕ) (failure : Failure) : Prop where
  retryable : failure.retryable = true
  within : k < config.maxRetries
  asked : ∀ requested ∈ failure.retryAfterMs, requested ≤ config.backoffCapMs

/-- A wait before the next attempt. -/
structure Waited (config : FetchConfig) (k : ℕ) (failure : Failure) (wait : ℕ) : Prop where
  asked : ∀ requested ∈ failure.retryAfterMs, requested ≤ wait
  backoff : min config.backoffCapMs (config.backoffBaseMs * 2 ^ k) ≤ wait
  lt : wait < config.backoffCapMs + 250

/-- The two conditions of the loop, read together. -/
theorem retried_iff {k : ℕ} {failure : Failure} :
    Retried config k failure ↔
      ¬ (!failure.retryable || decide (config.maxRetries ≤ k)) = true ∧
        ¬ (failure.retryAfterMs.any fun requested => decide (config.backoffCapMs < requested)) =
          true := by
  have hasked : ¬ (failure.retryAfterMs.any fun requested =>
      decide (config.backoffCapMs < requested)) = true ↔
        ∀ requested ∈ failure.retryAfterMs, requested ≤ config.backoffCapMs := by
    rcases failure.retryAfterMs with _ | requested
    · simp
    · simp
  rw [hasked]
  constructor
  · exact fun h => ⟨by simp [h.retryable, h.within], h.asked⟩
  · rintro ⟨hretry, hasked⟩
    simp only [Bool.or_eq_true, Bool.not_eq_true', decide_eq_true_eq, not_or, Bool.not_eq_false,
      Nat.not_le] at hretry
    exact ⟨hretry.1, hretry.2, hasked⟩

variable (contentHash url) in
theorem retryWait_retried (hcap : config.backoffCapMs < 2 ^ 63) {k : ℕ} {failure : Failure}
    (h : Retried config k failure) (n : ℕ) :
    ∃ wait, retryWait config contentHash url k n failure = .ok wait ∧
      Waited config k failure wait := by
  have hjitter := jitterMs_lt contentHash url k n
  obtain ⟨hretry, hasked⟩ := retried_iff.mp h
  rw [retryWait, if_neg hretry, if_neg hasked]
  dsimp only
  rw [if_pos (backoff_fits hcap k n)]
  refine ⟨_, rfl, ?_, ?_, ?_⟩
  · intro requested hrequested
    rw [Option.mem_def.mp hrequested, Option.getD_some]
    exact Nat.le_max_left _ _
  · rw [← backoffMs_eq hcap]
    exact (Nat.le_add_right _ _).trans (Nat.le_max_right _ _)
  · have hle : failure.retryAfterMs.getD 0 ≤ config.backoffCapMs := by
      rcases hrequested : failure.retryAfterMs with _ | requested
      · exact Nat.zero_le _
      · exact h.asked requested hrequested
    rw [backoffMs_eq hcap]
    omega

/-- Where no other attempt is made, the fetch ends with the error of the last. -/
theorem retryWait_ended {k n : ℕ} {failure : Failure} (h : ¬ Retried config k failure) :
    retryWait config contentHash url k n failure = .error failure.error := by
  rw [retried_iff, not_and_or, not_not, not_not] at h
  rw [retryWait]
  by_cases hretry : (!failure.retryable || decide (config.maxRetries ≤ k)) = true
  · rw [if_pos hretry]
  · rw [if_neg hretry, if_pos (h.resolve_left hretry)]

/-- The seconds that a response asks for, if it states them. -/
def askedSeconds (response : Response) : Option ℕ :=
  (response.retryAfter.bind headerText).bind fun value => parseU64 (trim value)

theorem retryAfterMs_eq (response : Response) :
    response.retryAfterMs = (askedSeconds response).map fun s => min (s * 1000) (2 ^ 64 - 1) := by
  rw [Response.retryAfterMs, askedSeconds]
  rcases response.retryAfter.bind headerText with _ | value
  · rfl
  · rfl

/-- A refusal that is worth retrying, with the pause it asks for. -/
theorem attempt_retryable {response : Response} (h : isRetryableStatus response.status = true) :
    attempt decoders config requireHtml (.answered response) =
      .error ⟨⟨.httpStatus response.status, nofun⟩, true, response.retryAfterMs⟩ := by
  have hrefused : ¬ (200 ≤ response.status ∧ response.status < 300) := by
    rw [isRetryableStatus, decide_eq_true_eq] at h
    omega
  rw [attempt, if_pos hrefused]
  dsimp only
  rw [if_pos h]

/-- A pause within the cap is no less than the seconds asked for. -/
theorem Waited.seconds (hcap : config.backoffCapMs < 2 ^ 63) {k wait : ℕ} {failure : Failure}
    (hretried : Retried config k failure) (hwaited : Waited config k failure wait)
    {response : Response} (h : isRetryableStatus response.status = true)
    (hfailed : attempt decoders config requireHtml (.answered response) = .error failure) {s : ℕ}
    (hs : askedSeconds response = some s) : s * 1000 ≤ wait := by
  rw [attempt_retryable h, Except.error.injEq] at hfailed
  subst hfailed
  have hms : response.retryAfterMs = some (min (s * 1000) (2 ^ 64 - 1)) := by
    rw [retryAfterMs_eq, hs]
    rfl
  have hle := hretried.asked _ hms
  have hwait := hwaited.asked _ hms
  omega

/-! ### A whole fetch -/

/-- What a fetch ends with at its `k`-th attempt: the page, or the error of a failure that no
other attempt is made after. -/
inductive Ended (config : FetchConfig) (k : ℕ) (outcome : Except Failure FetchedPage) :
    Answer → Prop
  | page {page : FetchedPage} (h : outcome = .ok page) : Ended config k outcome (.ok page)
  | failed {failure : Failure} (h : outcome = .error failure) (hended : ¬ Retried config k failure) :
      Ended config k outcome (.error failure.error)

variable (contentHash decoders config url requireHtml replies) in
/-- The discipline of a fetch with these waits: one attempt before each of them and one
behind the last. -/
structure Disciplined (waits : List ℕ) (result : Answer) : Prop where
  attempts : waits.length ≤ config.maxRetries
  retried : ∀ k (hk : k < waits.length), ∃ failure,
    attempt decoders config requireHtml (replies k) = .error failure ∧
      Retried config k failure ∧ Waited config k failure waits[k]
  seconds : ∀ k (hk : k < waits.length), ∀ response s, replies k = .answered response →
    isRetryableStatus response.status = true → askedSeconds response = some s →
      s * 1000 ≤ waits[k]
  ended : Ended config waits.length
    (attempt decoders config requireHtml (replies waits.length)) result
  fits : ∀ k n, backoffMs k config.backoffBaseMs config.backoffCapMs +
    jitterMs contentHash url k n < 2 ^ 64

variable (decoders config requireHtml replies) in
/-- The same of a fetch from its `n`-th attempt on, as far as one attempt bears on the next. -/
structure DisciplinedFrom (n : ℕ) (waits : List ℕ) (result : Answer) : Prop where
  attempts : n + waits.length ≤ config.maxRetries
  retried : ∀ k (hk : k < waits.length), ∃ failure,
    attempt decoders config requireHtml (replies (n + k)) = .error failure ∧
      Retried config (n + k) failure ∧ Waited config (n + k) failure waits[k]
  ended : Ended config (n + waits.length)
    (attempt decoders config requireHtml (replies (n + waits.length))) result

/-- A fetch that ends with its `n`-th attempt. -/
theorem DisciplinedFrom.nil {n : ℕ} {result : Answer} (hn : n ≤ config.maxRetries)
    (h : Ended config n (attempt decoders config requireHtml (replies n)) result) :
    DisciplinedFrom decoders config requireHtml replies n [] result :=
  ⟨hn, fun k hk => absurd hk (Nat.not_lt_zero k), h⟩

/-- A fetch that waits after its `n`-th attempt and goes on. -/
theorem DisciplinedFrom.cons {n wait : ℕ} {waits : List ℕ} {result : Answer} {failure : Failure}
    (hfailed : attempt decoders config requireHtml (replies n) = .error failure)
    (hretried : Retried config n failure) (hwaited : Waited config n failure wait)
    (h : DisciplinedFrom decoders config requireHtml replies (n + 1) waits result) :
    DisciplinedFrom decoders config requireHtml replies n (wait :: waits) result := by
  obtain ⟨hattempts, hlater, hended⟩ := h
  have hshift : ∀ k, n + 1 + k = n + (k + 1) := fun k => by omega
  rw [hshift] at hattempts hended
  refine ⟨hattempts, fun k hk => ?_, hended⟩
  rcases k with _ | k
  · exact ⟨failure, hfailed, hretried, hwaited⟩
  · obtain ⟨failure', hfailed', hretried', hwaited'⟩ := hlater k (Nat.lt_of_succ_lt_succ hk)
    rw [hshift] at hfailed' hretried' hwaited'
    exact ⟨failure', hfailed', hretried', hwaited'⟩

/-- A fetch from its `n`-th attempt on. -/
theorem fetchFrom_disciplined (hcap : config.backoffCapMs < 2 ^ 63) {left n : ℕ}
    (hleft : n + left = config.maxRetries) {waits : List ℕ} {result : Answer}
    (h : fetchFrom decoders config contentHash url requireHtml replies nanos left n =
      (waits, result)) :
    DisciplinedFrom decoders config requireHtml replies n waits result := by
  induction left generalizing n waits result with
  | zero =>
    rw [fetchFrom] at h
    rcases houtcome : attempt decoders config requireHtml (replies n) with failure | page
    · -- no retries are left
      have hended : ¬ Retried config n failure := fun hretried => by
        have := hretried.within
        omega
      rw [houtcome] at h
      simp only [retryWait_ended hended] at h
      cases h
      exact .nil (by omega) (.failed houtcome hended)
    · rw [houtcome] at h
      cases h
      exact .nil (by omega) (.page houtcome)
  | succ left ih =>
    rw [fetchFrom] at h
    rcases houtcome : attempt decoders config requireHtml (replies n) with failure | page
    · rw [houtcome] at h
      by_cases hretried : Retried config n failure
      · obtain ⟨wait, hwait, hwaited⟩ := retryWait_retried contentHash url hcap hretried (nanos n)
        simp only [hwait] at h
        cases h
        have hrest := ih (n := n + 1) (by omega) rfl
        exact hrest.cons houtcome hretried hwaited
      · simp only [retryWait_ended hretried] at h
        cases h
        exact .nil (by omega) (.failed houtcome hretried)
    · rw [houtcome] at h
      cases h
      exact .nil (by omega) (.page houtcome)

/-- **The discipline of a fetch**: it makes at most one attempt more than its retries, each
after a failure worth retrying and a wait within its bounds, and ends with its first page or
with a failure that is final. -/
theorem fetchInner_disciplined (hcap : config.backoffCapMs < 2 ^ 63) :
    Disciplined contentHash decoders config url requireHtml replies
      (fetchInner decoders config contentHash url requireHtml replies nanos).1
      (fetchInner decoders config contentHash url requireHtml replies nanos).2 := by
  have hwhole : fetchFrom decoders config contentHash url requireHtml replies nanos
      config.maxRetries 0 = (_, _) := Prod.eta _
  obtain ⟨hattempts, hretried, hended⟩ := fetchFrom_disciplined hcap (Nat.zero_add _) hwhole
  simp only [Nat.zero_add] at hattempts hretried hended
  refine ⟨hattempts, hretried, fun k hk response s hresponse hstatus hs => ?_, hended,
    backoff_fits hcap⟩
  obtain ⟨failure, hfailed, hagain, hwaited⟩ := hretried k hk
  rw [hresponse] at hfailed
  exact hwaited.seconds hcap hagain hstatus hfailed hs

/-- A server that is busy twice, and asks for a pause of two seconds the second time. -/
def busyReplies : ℕ → Sent
  | 0 => .failed { message := "reset".toList, isTimeout := false, isConnect := true, isRequest := false }
  | 1 => .answered {
      url := "https://a.org/".toList
      status := 503
      contentType := none
      retryAfter := some [50]
      contentLength := none
      chunks := []
      interrupted := none
      declared := nofun }
  | _ => .answered {
      url := "https://a.org/".toList
      status := 404
      contentType := none
      retryAfter := none
      contentLength := none
      chunks := []
      interrupted := none
      declared := nofun }

def plainDecoders : Decoders where
  gunzip _ _ := none
  forLabel _ := none

theorem busy_disciplined :
    (fetchInner plainDecoders {} (fun _ => 7) "https://a.org/".toList true busyReplies
        (fun _ => 0)).1 = [257, 2000] ∧
      Disciplined (fun _ => 7) plainDecoders {} "https://a.org/".toList true busyReplies
        (fetchInner plainDecoders {} (fun _ => 7) "https://a.org/".toList true busyReplies
          (fun _ => 0)).1
        (fetchInner plainDecoders {} (fun _ => 7) "https://a.org/".toList true busyReplies
          (fun _ => 0)).2 :=
  ⟨by decide, fetchInner_disciplined (by decide)⟩

end RetryDiscipline
