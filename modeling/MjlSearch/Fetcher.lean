/-
The fetcher (`crawler::fetcher`): what is made of the answers a server gives.

What the network does is a `Sent` for each attempt, and the clock is read before each
wait.  The gzip reader and the character encodings of other crates enter as `Decoders`.

* `charsetOf`, `decode`, `attempt` — one attempt, from its reply to a page;
* `fetchInner` — the loop over the attempts, with the waits between them;
* `fetchInner_reaches` — a fetch that comes to its `n`-th attempt, and does not go on
  from there, ends as that attempt does;
* `readChunks_eq`, `attempt_complete` — a whole body within the cap is read as it is.
-/
import MjlSearch.Crawler

open Text

namespace Fetcher

/-- Fetch policy, as far as an answer depends on it. -/
structure FetchConfig where
  maxRetries : ℕ := 3
  backoffBaseMs : ℕ := 250
  backoffCapMs : ℕ := 30000
  maxBodyBytes : ℕ := 8 * 1024 * 1024

/-- The two bytes every gzip stream starts with. -/
def gzipMagic : List UInt8 := [0x1f, 0x8b]

/-! ### Waiting between attempts -/

/-- Exponential backoff in milliseconds for a zero-based retry attempt. -/
def backoffMs (attempt baseMs capMs : ℕ) : ℕ :=
  min (min (baseMs * 2 ^ min attempt 63) (2 ^ 64 - 1)) capMs

/-- Extra delay, in milliseconds, to spread out simultaneous retries. -/
def jitterMs (contentHash : Str → ℕ) (url : Str) (attempt nanos : ℕ) : ℕ :=
  contentHash (url ++ ':' :: padded 0 attempt ++ ':' :: padded 0 nanos) % 250

/-- Whether an HTTP status is worth retrying. -/
def isRetryableStatus (status : ℕ) : Bool := status = 429 ∨ (500 ≤ status ∧ status < 600)

/-- Parses a `Retry-After` header into milliseconds. -/
def parseRetryAfter (value : Str) : Option ℕ :=
  (parseU64 (trim value)).map fun s => min (s * 1000) (2 ^ 64 - 1)

/-! ### Content types -/

/-- `HeaderValue::to_str`: a value of visible ASCII characters and tabs. -/
def headerText (value : List UInt8) : Option Str :=
  if value.all fun b => b = 9 ∨ (32 ≤ b.toNat ∧ b.toNat < 127) then
    some (value.map fun b => Char.ofNat b.toNat)
  else none

/-- Whether a `Content-Type` looks like something worth parsing. -/
def isHtmlContentType : Option Str → Bool
  | none => true
  | some value =>
    let value := asciiLower value
    contains value "html".toList || contains value "xml".toList

/-- `str::find`, of a string. -/
def find (s part : Str) : Option ℕ := s.tails.findIdx? fun rest => part.isPrefixOf rest

def isQuote (c : Char) : Bool := c == '"' || c == '\''

/-- The `charset` parameter of a `Content-Type`, as written. -/
def charsetOf (contentType : Option Str) : Option Str := do
  let value ← contentType
  let start ← find (asciiLower value) "charset=".toList
  let rest := value.drop (start + "charset=".length)
  let label := trim (rest.takeWhile fun c => !(c == ';' || c == ' ' || c == '\t'))
  let label := ((label.dropWhile isQuote).reverse.dropWhile isQuote).reverse
  if label.isEmpty then none else some (asciiLower label)

/-! ### Bodies -/

/-- What other crates decode. -/
structure Decoders where
  /-- `GzDecoder::new(body).take(cap).read_to_end`, if it succeeds. -/
  gunzip : List UInt8 → ℕ → Option (List UInt8)
  /-- `Encoding::for_label`, and the decoding with it. -/
  forLabel : Str → Option (List UInt8 → Str)

variable (decoders : Decoders) (config : FetchConfig)

/-- Decompresses a gzip body, bounded by `cap` bytes of output. -/
def gunzipIfCompressed (body : List UInt8) (cap : ℕ) : List UInt8 :=
  if !gzipMagic.isPrefixOf body then body
  else
    match decoders.gunzip body cap with
    | some expanded => expanded
    -- not a gzip stream after all, or a truncated one
    | none => body

/-- The text of a decompressed body, by the encoding the response declares. -/
def toText (contentType : Option Str) (body : List UInt8) : Str :=
  match charsetOf contentType with
  | none => fromUtf8Lossy body
  | some label =>
    if label ∈ ["utf-8".toList, "utf8".toList, "us-ascii".toList, "ascii".toList] then
      fromUtf8Lossy body
    else
      match decoders.forLabel label with
      | some decodeWith => decodeWith body
      | none => fromUtf8Lossy body

/-- Turns a response body into text. -/
def decode (body : List UInt8) (contentType : Option Str) : Str :=
  toText decoders contentType (gunzipIfCompressed decoders body config.maxBodyBytes)

/-! ### One attempt -/

/-- An error of the HTTP client. -/
structure HttpError where
  message : Str
  isTimeout : Bool
  isConnect : Bool
  isRequest : Bool

/-- An HTTP response, as far as it arrives: its chunks, and the error they end with, if they
do.  A body that arrives whole has the length its header declares. -/
structure Response where
  url : Str
  status : ℕ
  contentType : Option (List UInt8)
  retryAfter : Option (List UInt8)
  contentLength : Option ℕ
  chunks : List (List UInt8)
  interrupted : Option HttpError
  declared : ∀ length ∈ contentLength, interrupted = none → length = chunks.flatten.length

/-- What sending a request gives. -/
inductive Sent
  | failed (error : HttpError)
  | answered (response : Response)

namespace Response

variable (response : Response)

/-- The `Content-Type`, if it is readable. -/
def mediaType : Option Str := response.contentType.bind headerText

/-- The `Retry-After` delay a response asks for, if it states one. -/
def retryAfterMs : Option ℕ := (response.retryAfter.bind headerText).bind parseRetryAfter

/-- The bytes of the body. -/
def body : List UInt8 := response.chunks.flatten

/-- The response is a success, and its body arrives whole. -/
def Succeeds : Prop := 200 ≤ response.status ∧ response.status < 300 ∧ response.interrupted = none

end Response

/-- A failure, tagged with whether retrying could plausibly help. -/
structure Failure where
  error : FetchError
  retryable : Bool
  /-- Delay the server itself asked for, in milliseconds. -/
  retryAfterMs : Option ℕ

def Failure.terminal (error : FetchError) : Failure :=
  { error, retryable := false, retryAfterMs := none }

def Failure.transient (error : FetchError) : Failure :=
  { error, retryable := true, retryAfterMs := none }

/-- `CrawlError::http`. -/
def httpError (error : HttpError) : FetchError := ⟨.http error.message, nofun⟩

def bodyTooLarge : Failure := .terminal ⟨.bodyTooLarge config.maxBodyBytes, nofun⟩

/-- Reads the rest of a body against the cap. -/
def readChunks (interrupted : Option HttpError) :
    List UInt8 → List (List UInt8) → Except Failure (List UInt8)
  | body, [] =>
    match interrupted with
    -- half a document is not worth indexing
    | some error => .error (.transient (httpError error))
    | none => .ok body
  | body, chunk :: chunks =>
    if config.maxBodyBytes < body.length + chunk.length then .error (bodyTooLarge config)
    else readChunks interrupted (body ++ chunk) chunks

/-- One attempt. -/
def attempt (requireHtml : Bool) : Sent → Except Failure FetchedPage
  | .failed error =>
    .error (if error.isTimeout || error.isConnect || error.isRequest then
      .transient (httpError error) else .terminal (httpError error))
  | .answered response =>
    if ¬ (200 ≤ response.status ∧ response.status < 300) then
      let error : FetchError := ⟨.httpStatus response.status, nofun⟩
      .error (if isRetryableStatus response.status then
        { error, retryable := true, retryAfterMs := response.retryAfterMs }
      else .terminal error)
    else
      let contentType := response.mediaType
      if requireHtml && !isHtmlContentType contentType then
        .error (.terminal ⟨.unsupportedContent (contentType.getD []), nofun⟩)
      else if response.contentLength.any fun length => config.maxBodyBytes < length then
        .error (bodyTooLarge config)
      else do
        let body ← readChunks config response.interrupted [] response.chunks
        .ok {
          finalUrl := response.url
          status := response.status
          contentType
          body := decode decoders config body contentType }

/-! ### The loop -/

variable (contentHash : Str → ℕ)

/-- The wait before the next attempt, or the error the fetch ends with. -/
def retryWait (url : Str) (attempt nanos : ℕ) (failure : Failure) : Except FetchError ℕ :=
  if !failure.retryable || config.maxRetries ≤ attempt then .error failure.error
  -- a server that names a longer delay does not want us back during this run
  else if failure.retryAfterMs.any fun requested => config.backoffCapMs < requested then
    .error failure.error
  else
    let backoff := backoffMs attempt config.backoffBaseMs config.backoffCapMs +
      jitterMs contentHash url attempt nanos
    if backoff < 2 ^ 64 then .ok (max (failure.retryAfterMs.getD 0) backoff)
    else .error ⟨.overflow, nofun⟩

/-- The attempts from number `n` on, at most `left + 1` of them: the waits between them,
and what the fetch ends with.  `replies` and `nanos` are what each attempt gets and what
the clock shows after it. -/
def fetchFrom (url : Str) (requireHtml : Bool) (replies : ℕ → Sent) (nanos : ℕ → ℕ) :
    ℕ → ℕ → List ℕ × Answer
  | left, n =>
    match attempt decoders config requireHtml (replies n) with
    | .ok page => ([], .ok page)
    | .error failure =>
      match retryWait config contentHash url n (nanos n) failure, left with
      | .error e, _ => ([], .error e)
      | .ok _, 0 => ([], .error failure.error)
      | .ok wait, left + 1 =>
        let (waits, result) := fetchFrom url requireHtml replies nanos left (n + 1)
        (wait :: waits, result)

def fetchInner (url : Str) (requireHtml : Bool) (replies : ℕ → Sent) (nanos : ℕ → ℕ) :
    List ℕ × Answer :=
  fetchFrom decoders config contentHash url requireHtml replies nanos config.maxRetries 0

/-- Fetches one URL, retrying transient failures with backoff. -/
def fetch (url : Str) (replies : ℕ → Sent) (nanos : ℕ → ℕ) : List ℕ × Answer :=
  fetchInner decoders config contentHash url true replies nanos

/-- Fetches one URL without the HTML-only restriction. -/
def fetchText (url : Str) (replies : ℕ → Sent) (nanos : ℕ → ℕ) : List ℕ × Answer :=
  fetchInner decoders config contentHash url false replies nanos

/-! ### What a fetch ends with -/

variable {decoders config contentHash}

theorem retryWait_ok {url : Str} {n nanos wait : ℕ} {failure : Failure}
    (h : retryWait config contentHash url n nanos failure = .ok wait) : n < config.maxRetries := by
  simp only [retryWait] at h
  split at h
  · cases h
  · rename_i hretried
    simp only [Bool.or_eq_true, decide_eq_true_eq] at hretried
    omega

variable (decoders config contentHash) in
/-- The fetch comes to its `n`-th attempt: each attempt before it fails, and another one is
made after it. -/
def Reaches (url : Str) (requireHtml : Bool) (replies : ℕ → Sent) (nanos : ℕ → ℕ) (n : ℕ) :
    Prop :=
  ∀ k < n, ∃ failure wait, attempt decoders config requireHtml (replies k) = .error failure ∧
    retryWait config contentHash url k (nanos k) failure = .ok wait

variable {url : Str} {requireHtml : Bool} {replies : ℕ → Sent} {nanos : ℕ → ℕ}

theorem Reaches.le {n : ℕ}
    (h : Reaches decoders config contentHash url requireHtml replies nanos n) :
    n ≤ config.maxRetries := by
  rcases n with _ | k
  · exact Nat.zero_le _
  · obtain ⟨failure, wait, _, hwait⟩ := h k (Nat.lt_succ_self k)
    exact retryWait_ok hwait

/-- **A fetch that comes to an attempt goes on from it** as if it began there. -/
theorem fetchInner_reaches {n : ℕ}
    (h : Reaches decoders config contentHash url requireHtml replies nanos n) :
    (fetchInner decoders config contentHash url requireHtml replies nanos).2
      = (fetchFrom decoders config contentHash url requireHtml replies nanos
          (config.maxRetries - n) n).2 := by
  induction n with
  | zero => rfl
  | succ n ih =>
    have hle := h.le
    obtain ⟨failure, wait, hfailure, hwait⟩ := h n (Nat.lt_succ_self n)
    rw [ih fun k hk => h k (Nat.lt_succ_of_lt hk)]
    obtain ⟨left, hleft⟩ : ∃ left, config.maxRetries - n = left + 1 :=
      ⟨config.maxRetries - n - 1, by omega⟩
    have hnext : config.maxRetries - (n + 1) = left := by omega
    rw [hleft, hnext, fetchFrom]
    simp only [hfailure, hwait]

theorem fetchFrom_ok {left n : ℕ} {page : FetchedPage}
    (h : attempt decoders config requireHtml (replies n) = .ok page) :
    (fetchFrom decoders config contentHash url requireHtml replies nanos left n).2 = .ok page := by
  rw [fetchFrom.eq_def]
  simp only [h]

/-- A terminal failure ends a fetch. -/
theorem fetchFrom_terminal {left n : ℕ} {error : FetchError}
    (h : attempt decoders config requireHtml (replies n) = .error (.terminal error)) :
    (fetchFrom decoders config contentHash url requireHtml replies nanos left n).2
      = .error error := by
  have hwait : retryWait config contentHash url n (nanos n) (.terminal error) = .error error := by
    simp [retryWait, Failure.terminal]
  rw [fetchFrom.eq_def]
  simp only [h, hwait]

/-! ### What an attempt makes of a whole body -/

/-- **A body within the cap is read as it is.** -/
theorem readChunks_eq (chunks : List (List UInt8)) (body : List UInt8)
    (h : (body ++ chunks.flatten).length ≤ config.maxBodyBytes) :
    readChunks config none body chunks = .ok (body ++ chunks.flatten) := by
  induction chunks generalizing body with
  | nil => simp [readChunks]
  | cons chunk chunks ih =>
    have hlen : body.length + (chunk.length + chunks.flatten.length) ≤ config.maxBodyBytes := by
      simpa using h
    have hfits : ¬ config.maxBodyBytes < body.length + chunk.length := by omega
    rw [readChunks, if_neg hfits, ih (body ++ chunk) (by simpa using h)]
    simp

/-- **A successful response within the cap is a page**, if its type is not refused. -/
theorem attempt_complete {response : Response} (hsucceeds : response.Succeeds)
    (hbody : response.body.length ≤ config.maxBodyBytes)
    (htype : (requireHtml && !isHtmlContentType response.mediaType) = false) :
    attempt decoders config requireHtml (.answered response) = .ok {
      finalUrl := response.url
      status := response.status
      contentType := response.mediaType
      body := decode decoders config response.body response.mediaType } := by
  obtain ⟨hlow, hhigh, hwhole⟩ := hsucceeds
  have hdeclared : (response.contentLength.any fun length =>
      config.maxBodyBytes < length) = false := by
    rcases hlength : response.contentLength with _ | length
    · rfl
    · have heq : length = response.chunks.flatten.length :=
        response.declared length hlength hwhole
      have hle : length ≤ config.maxBodyBytes := by
        rw [heq]
        exact hbody
      simpa using hle
  have hread : readChunks config response.interrupted [] response.chunks
      = .ok response.body := by
    rw [hwhole]
    exact readChunks_eq response.chunks [] (by simpa [Response.body] using hbody)
  simp only [attempt, not_true_eq_false, hlow, hhigh, and_self, if_false, htype, hdeclared,
    hread, Bool.false_eq_true]
  rfl

/-- A successful response of a type that is not asked for is refused for good. -/
theorem attempt_refused {response : Response} (hsucceeds : response.Succeeds)
    (htype : isHtmlContentType response.mediaType = false) :
    attempt decoders config true (.answered response)
      = .error (.terminal ⟨.unsupportedContent (response.mediaType.getD []), nofun⟩) := by
  obtain ⟨hlow, hhigh, _⟩ := hsucceeds
  simp [attempt, hlow, hhigh, htype]

end Fetcher
