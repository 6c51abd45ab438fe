/-
robots.txt: its rules, its parser, and the cache of what was parsed
(`crawler::robots`).

The parser goes line by line.  Read as a whole, a file is a sequence of groups
(`groups`): a user-agent line that follows a rule line starts the next one.

* `globLoop_isSome` — matching a pattern against a path comes to an end;
* `disallowAll_allows` — the rules for an unreachable file forbid every path;
* `parse` — parsing a file selects one of its groups, and takes its sitemaps
  wherever they stand;
* `get_ok`, `putFor_ok` — what the cache returns and what it stores.
-/
import Mathlib.Data.List.SplitBy
import MjlSearch.Frontier
import MjlSearch.Machine

open Text Machine

/-- Parsed rules for one user agent. -/
structure RobotsRules where
  crawlDelayS : Option ℕ
  disallow : List Str
  allow : List Str
  sitemaps : List Str
  deriving DecidableEq, Repr

namespace Robots

/-! ### Patterns -/

/-- The loop of `glob_matches`: `none` means that `fuel` rounds were not enough. -/
def globLoop (pattern text : Str) (anchored : Bool) :
    ℕ → ℕ → ℕ → Option ℕ → ℕ → Option Bool
  | 0, _, _, _, _ => none
  | fuel + 1, patternAt, textAt, starAt, resumeAt =>
    if pattern[patternAt]? = some '*' then
      globLoop pattern text anchored fuel (patternAt + 1) textAt (some patternAt) textAt
    else if patternAt < pattern.length ∧ textAt < text.length ∧
        pattern[patternAt]? = text[textAt]? then
      globLoop pattern text anchored fuel (patternAt + 1) (textAt + 1) starAt resumeAt
    else if patternAt = pattern.length then
      some (!anchored || textAt == text.length)
    else
      match starAt with
      | some star =>
        if text.length < resumeAt + 1 then some false
        else globLoop pattern text anchored fuel (star + 1) (resumeAt + 1) starAt (resumeAt + 1)
      | none => some false

/-- Glob match supporting `*`.  A round moves on in the pattern, or resumes one
character later at the last star, which bounds the rounds. -/
def globMatches (pattern text : Str) (anchored : Bool) : Bool :=
  (globLoop pattern text anchored ((text.length + 2) * (pattern.length + 1)) 0 0 none 0).getD false

/-- The pattern's specificity if it matches `path`. -/
def matchPath (pattern path : Str) : Option ℕ :=
  let anchored := pattern.getLast? == some '$'
  let pattern := if anchored then pattern.dropLast else pattern
  if globMatches pattern path anchored then some (byteLen pattern) else none

theorem globLoop_isSome {pattern text : Str} {anchored : Bool} {fuel patternAt textAt : ℕ}
    {starAt : Option ℕ} {resumeAt : ℕ} (hpattern : patternAt ≤ pattern.length)
    (htext : textAt ≤ text.length) (hresume : resumeAt ≤ textAt)
    (hstar : ∀ star ∈ starAt, star < pattern.length)
    (hfuel : (text.length + 1 - resumeAt) * (pattern.length + 1)
      + (pattern.length - patternAt) < fuel) :
    (globLoop pattern text anchored fuel patternAt textAt starAt resumeAt).isSome := by
  induction fuel generalizing patternAt textAt starAt resumeAt with
  | zero => omega
  | succ fuel ih =>
    unfold globLoop
    split
    · -- a star: the part of the path left to resume in gets no longer
      rename_i hget
      have hlt : patternAt < pattern.length := (List.getElem?_eq_some_iff.mp hget).1
      have hmul : (text.length + 1 - textAt) * (pattern.length + 1)
          ≤ (text.length + 1 - resumeAt) * (pattern.length + 1) :=
        Nat.mul_le_mul_right _ (by omega)
      refine ih hlt htext (Nat.le_refl _) ?_ (by omega)
      intro star h
      cases h
      exact hlt
    · split
      · rename_i hmatch
        exact ih hmatch.1 hmatch.2.1 (by omega) hstar (by omega)
      · split
        · rfl
        · split
          · split
            · rfl
            · rename_i star hend
              have hlt : star < pattern.length := hstar star rfl
              have hsub : text.length + 1 - resumeAt = (text.length - resumeAt) + 1 := by omega
              rw [hsub, Nat.add_mul, Nat.one_mul] at hfuel
              refine ih hlt (by omega) (Nat.le_refl _) hstar ?_
              have hsub' : text.length + 1 - (resumeAt + 1) = text.length - resumeAt := by omega
              rw [hsub']
              omega
          · rfl

theorem globMatches_isSome (pattern text : Str) (anchored : Bool) :
    (globLoop pattern text anchored ((text.length + 2) * (pattern.length + 1)) 0 0 none 0).isSome := by
  refine globLoop_isSome (Nat.zero_le _) (Nat.zero_le _) (Nat.le_refl _) (by simp) ?_
  have hmul : (text.length + 2) * (pattern.length + 1)
      = (text.length + 1) * (pattern.length + 1) + (pattern.length + 1) := Nat.succ_mul _ _
  rw [hmul, Nat.sub_zero, Nat.sub_zero]
  omega

/-! ### Rules -/

/-- Rules that permit everything, for hosts with no robots.txt at all. -/
def allowAll : RobotsRules :=
  { crawlDelayS := none, disallow := [], allow := [], sitemaps := [] }

/-- Rules that permit nothing. -/
def disallowAll : RobotsRules := { allowAll with disallow := [['/']] }

/-- Keeps the most specific rule seen so far, the earlier one on a tie. -/
def consider (best : Option (ℕ × Bool)) (specificity : ℕ) (allowed : Bool) :
    Option (ℕ × Bool) :=
  match best with
  | none => some (specificity, allowed)
  | some (current, kept) =>
    if current < specificity then some (specificity, allowed) else some (current, kept)

/-- The most specific rule seen once every pattern of a list is considered. -/
def considerAll (path : Str) (allowed : Bool) (patterns : List Str)
    (best : Option (ℕ × Bool)) : Option (ℕ × Bool) :=
  patterns.foldl (fun best pattern =>
    match matchPath pattern path with
    | some specificity => consider best specificity allowed
    | none => best) best

/-- Whether `path` may be fetched. -/
def allows (rules : RobotsRules) (path : Str) : Bool :=
  let best := considerAll path false rules.disallow none
  let best := considerAll path true rules.allow best
  (best.map Prod.snd).getD true

/-- **The rules that permit nothing forbid every path.** -/
theorem disallowAll_allows {path : Str} (h : path.head? = some '/') :
    allows disallowAll path = false := by
  obtain ⟨rest, rfl⟩ : ∃ rest, path = '/' :: rest := List.head?_eq_some_iff.mp h
  have hfuel : (('/' :: rest).length + 2) * (['/'].length + 1) = (2 * rest.length + 4) + 2 := by
    simp only [List.length_cons, List.length_nil]
    omega
  have hglob : globMatches ['/'] ('/' :: rest) false = true := by
    -- the slash matches, and then the pattern is used up
    rw [globMatches, hfuel]
    simp [globLoop]
  have hmatch : matchPath ['/'] ('/' :: rest) = some 1 := by
    show (if globMatches ['/'] ('/' :: rest) false then some (byteLen ['/']) else none) = some 1
    rw [if_pos hglob]
    rfl
  simp [allows, disallowAll, allowAll, considerAll, hmatch, consider]

/-! ### Parsing -/

/-- The fields the parser knows. -/
inductive Field
  | userAgent
  | disallow
  | allow
  | crawlDelay
  | sitemap
  deriving DecidableEq, Repr

/-- A field by its lower-case name. -/
def Field.named (name : Str) : Option Field :=
  if name = "user-agent".toList then some userAgent
  else if name = "disallow".toList then some disallow
  else if name = "allow".toList then some allow
  else if name = "crawl-delay".toList then some crawlDelay
  else if name = "sitemap".toList then some sitemap
  else none

/-- A line with a known field, and its value. -/
abbrev Record := Field × Str

/-- Reads a line: a comment is cut off, and a line without a colon or with an
unknown field is skipped. -/
def readLine (line : Str) : Option Record :=
  let line := trim (line.takeWhile fun c => c != '#')
  if line = [] then none
  else do
    let (field, value) ← splitOnce ':' line
    let field ← Field.named (asciiLower (trim field))
    some (field, trim value)

/-- The records of a file. -/
def records (body : Str) : List Record := (lines body).filterMap readLine

/-- The seconds a `Crawl-delay` asks for, if it is a number that is finite and
not negative. -/
def delayOf (value : Str) : Option ℕ :=
  match Double.parse value with
  | some seconds => if seconds.isFiniteNonneg then some seconds.ceilU64 else none
  | none => none

/-- What the parser holds between two lines. -/
structure Parser where
  groups : List (List Str × RobotsRules)
  agents : List Str
  rules : RobotsRules
  groupHasRules : Bool
  sitemaps : List Str

def Parser.start : Parser :=
  { groups := [], agents := [], rules := allowAll, groupHasRules := false, sitemaps := [] }

/-- A value joins a list unless it is empty. -/
def pushValue (values : List Str) (value : Str) : List Str :=
  if value = [] then values else values ++ [value]

/-- What one record changes. -/
def Parser.read (p : Parser) : Record → Parser
  | (.userAgent, value) =>
    -- a user-agent line after rules starts a new group
    let p := if p.groupHasRules then
        { p with
          groups := p.groups ++ [(p.agents, p.rules)]
          agents := []
          rules := allowAll
          groupHasRules := false }
      else p
    { p with agents := p.agents ++ [asciiLower value] }
  | (.disallow, value) =>
    { p with
      groupHasRules := true
      rules := { p.rules with disallow := pushValue p.rules.disallow value } }
  | (.allow, value) =>
    { p with
      groupHasRules := true
      rules := { p.rules with allow := pushValue p.rules.allow value } }
  | (.crawlDelay, value) =>
    { p with
      groupHasRules := true
      rules := { p.rules with crawlDelayS := (delayOf value).or p.rules.crawlDelayS } }
  | (.sitemap, value) => { p with sitemaps := pushValue p.sitemaps value }

/-- How specifically an agent value names the crawler: `*` counts as a match of
length zero. -/
def specificity (userAgent agent : Str) : Option ℕ :=
  if agent = ['*'] then some 0
  else if contains userAgent agent then some (byteLen agent)
  else none

/-- Takes the rules of an agent that names the crawler more specifically than
any before. -/
def selectAgent (userAgent : Str) (rules : RobotsRules) (best : Option (RobotsRules × ℕ))
    (agent : Str) : Option (RobotsRules × ℕ) :=
  match specificity userAgent agent with
  | none => best
  | some found => if best.all fun b => b.2 < found then some (rules, found) else best

/-- Picks the group whose user agent matches most specifically. -/
def selectGroup (groups : List (List Str × RobotsRules)) (userAgent : Str) :
    Option RobotsRules :=
  (groups.foldl (fun best group =>
    group.1.foldl (selectAgent (asciiLower userAgent) group.2) best) none).map Prod.fst

/-- Parses a robots.txt body for a given user agent. -/
def parse (body userAgent : Str) : RobotsRules :=
  let p := (records body).foldl Parser.read Parser.start
  let groups :=
    if p.groupHasRules ∧ p.agents ≠ [] then p.groups ++ [(p.agents, p.rules)] else p.groups
  { (selectGroup groups userAgent).getD allowAll with sitemaps := p.sitemaps }

/-! ### The cache -/

/-- How long a fetched robots.txt is trusted before it is refetched. -/
def cacheTtlMs : ℤ := 24 * 60 * 60 * 1000

/-- How long a failed robots.txt fetch is remembered. -/
def unavailableTtlMs : ℤ := 5 * 60 * 1000

/-- A host's rules as they are cached. -/
structure Entry where
  rules : RobotsRules
  fetchedAtMs : ℤ
  ttlMs : ℤ
  deriving DecidableEq, Repr

variable (codec : Codec Entry) (faults : Faults)

/-- Returns a host's rules when the cached copy is still fresh; an entry that
cannot be decoded is reported as absent. -/
def get (turn : ℕ) (db : CrawlDb) (host : Str) (nowMs : ℤ) :
    Except CrawlError (Option RobotsRules) := do
  Frontier.resolve faults .robots
  Frontier.call (faults.read turn)
  match db.robots.get (utf8 host) with
  | none => .ok none
  | some bytes =>
    match codec.decode bytes with
    | none => .ok none
    | some entry =>
      if entry.ttlMs < satSub nowMs entry.fetchedAtMs then .ok none else .ok (some entry.rules)

/-- Stores a host's rules with an explicit lifetime. -/
def putFor (turn : ℕ) (db : CrawlDb) (host : Str) (rules : RobotsRules) (nowMs ttlMs : ℤ) :
    Except CrawlError CrawlDb := do
  let bytes ← Frontier.encode codec { rules, fetchedAtMs := nowMs, ttlMs }
  Frontier.resolve faults .robots
  Frontier.call (faults.write turn)
  .ok { db with robots := db.robots.put (utf8 host) bytes }

variable {codec faults}

theorem get_ok {turn : ℕ} {db : CrawlDb} {host : Str} {nowMs : ℤ} {rules : RobotsRules}
    (h : get codec faults turn db host nowMs = .ok (some rules)) :
    ∃ bytes entry, db.robots.get (utf8 host) = some bytes ∧ codec.decode bytes = some entry ∧
      satSub nowMs entry.fetchedAtMs ≤ entry.ttlMs ∧ rules = entry.rules := by
  rw [get] at h
  obtain ⟨_, _, h⟩ := Frontier.bind_ok h
  obtain ⟨_, _, h⟩ := Frontier.bind_ok h
  split at h
  · cases h
  · rename_i bytes hbytes
    split at h
    · cases h
    · rename_i entry hentry
      split at h
      · cases h
      · rename_i hfresh
        cases h
        exact ⟨bytes, entry, hbytes, hentry, Int.not_lt.mp hfresh, rfl⟩

theorem putFor_ok {turn : ℕ} {db db' : CrawlDb} {host : Str} {rules : RobotsRules}
    {nowMs ttlMs : ℤ} (h : putFor codec faults turn db host rules nowMs ttlMs = .ok db') :
    ∃ bytes, codec.encode { rules, fetchedAtMs := nowMs, ttlMs } = some bytes ∧
      db' = { db with robots := db.robots.put (utf8 host) bytes } := by
  rw [putFor] at h
  obtain ⟨bytes, hbytes, h⟩ := Frontier.bind_ok h
  obtain ⟨_, _, h⟩ := Frontier.bind_ok h
  obtain ⟨_, _, h⟩ := Frontier.bind_ok h
  cases h
  exact ⟨bytes, Frontier.encode_ok hbytes, rfl⟩

end Robots

namespace Postcard

def rulesFormat : Format RobotsRules :=
  ((option u64).pair ((list str).pair ((list str).pair (list str)))).via
    (fun rules => (rules.crawlDelayS, rules.disallow, rules.allow, rules.sitemaps))
    (fun p => ⟨p.1, p.2.1, p.2.2.1, p.2.2.2⟩) fun _ => rfl

def entryFormat : Format Robots.Entry :=
  (rulesFormat.pair (signed.pair signed)).via
    (fun entry => (entry.rules, entry.fetchedAtMs, entry.ttlMs))
    (fun p => ⟨p.1, p.2.1, p.2.2⟩) fun _ => rfl

end Postcard
