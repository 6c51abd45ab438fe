/-
URLs, as far as the crawler looks into them.

Parsing and serialising a URL is the work of the `url` crate, which enters as a
`UrlCrate`: the operations of its `Url` type, over any such type.  What the
crawler builds from them is `hostOf`, `robotsUrl` and `requestPath`.
-/
import MjlSearch.Text

open Text

/-- The operations of `url::Url`. -/
structure UrlCrate where
  Url : Type
  parse : Str → Option Url
  toStr : Url → Str
  scheme : Url → Str
  hostStr : Url → Option Str
  path : Url → Str
  query : Url → Option Str
  setPath : Url → Str → Url
  setQuery : Url → Option Str → Url
  setFragment : Url → Option Str → Url

namespace UrlCrate

variable (urls : UrlCrate)

/-- Extracts the lowercased host of an absolute URL. -/
def hostOf (url : Str) : Option Str := do
  let parsed ← urls.parse url
  let host ← urls.hostStr parsed
  some (asciiLower host)

/-- The robots.txt URL for the origin a page was reached on. -/
def robotsUrl (pageUrl : Str) : Option Str := do
  let parsed ← urls.parse pageUrl
  let parsed := urls.setPath parsed "/robots.txt".toList
  let parsed := urls.setQuery parsed none
  let parsed := urls.setFragment parsed none
  some (urls.toStr parsed)

/-- The path and query of a URL, which is what robots.txt rules match against. -/
def requestPath (url : Str) : Str :=
  match urls.parse url with
  | some parsed =>
    match urls.query parsed with
    | some query => urls.path parsed ++ '?' :: query
    | none => urls.path parsed
  | none => ['/']

/-- A URL with a host has a robots.txt URL. -/
theorem robotsUrl_isSome {url host : Str} (h : urls.hostOf url = some host) :
    (urls.robotsUrl url).isSome := by
  simp only [hostOf, Option.bind_eq_bind, Option.bind_eq_some_iff] at h
  obtain ⟨parsed, hparsed, _⟩ := h
  simp [robotsUrl, hparsed]

end UrlCrate

/-! ### URLs of the plainest form -/

/-- The parts of a URL `scheme://host[:port]/path[?query]`. -/
structure PlainUrl where
  scheme : Str
  host : Str
  port : Str
  path : Str
  query : Option Str

namespace PlainUrl

/-- A host in lower-case letters and dots. -/
def isHost (host : Str) : Bool := host ≠ [] ∧ host.all fun c => c.isLower || c == '.'

/-- A path in letters, digits, slashes and dots, which no query follows. -/
def isPath (path : Str) : Bool :=
  path ≠ [] ∧ path.all fun c => c.isAlphanum || c == '/' || c == '.'

def parseScheme (scheme url : Str) : Option PlainUrl := do
  let rest ← (scheme ++ "://".toList).isPrefixOf? url
  let authority := rest.takeWhile fun c => c != '/'
  let path := rest.dropWhile fun c => c != '/'
  let host := authority.takeWhile fun c => c != ':'
  let port := authority.dropWhile fun c => c != ':'
  if isHost host ∧ isPath path then some { scheme, host, port, path, query := none } else none

def toStr (url : PlainUrl) : Str :=
  url.scheme ++ "://".toList ++ url.host ++ url.port ++ url.path ++
    (url.query.map fun query => '?' :: query).getD []

theorem parseScheme_host {scheme url : Str} {parsed : PlainUrl}
    (h : parseScheme scheme url = some parsed) : isHost parsed.host = true := by
  simp only [parseScheme, Option.bind_eq_bind, Option.bind_eq_some_iff] at h
  obtain ⟨rest, _, h⟩ := h
  split at h
  · rename_i hfits
    cases h
    exact hfits.1
  · cases h

end PlainUrl

/-- The crate on URLs of that form; every other string is refused. -/
def plainUrls : UrlCrate where
  Url := PlainUrl
  parse url :=
    (PlainUrl.parseScheme "http".toList url).or (PlainUrl.parseScheme "https".toList url)
  toStr := PlainUrl.toStr
  scheme := PlainUrl.scheme
  hostStr url := some url.host
  path := PlainUrl.path
  query := PlainUrl.query
  setPath url path := { url with path }
  setQuery url query := { url with query }
  setFragment url _ := url

theorem plainUrls_hostOf {url host : Str} (h : plainUrls.hostOf url = some host) :
    ∀ c ∈ host, 1 < c.toNat := by
  simp only [UrlCrate.hostOf, plainUrls, Option.bind_eq_bind, Option.bind_eq_some_iff,
    Option.some.injEq] at h
  obtain ⟨parsed, hparsed, _, rfl, rfl⟩ := h
  have hhost : PlainUrl.isHost parsed.host = true := by
    rcases Option.or_eq_some_iff.mp hparsed with hp | ⟨_, hp⟩
    · exact PlainUrl.parseScheme_host hp
    · exact PlainUrl.parseScheme_host hp
  intro c hc
  obtain ⟨d, hd, rfl⟩ := List.mem_map.mp hc
  have hall : (d.isLower || d == '.') = true :=
    List.all_eq_true.mp (decide_eq_true_eq.mp hhost).2 d hd
  rw [Bool.or_eq_true, beq_iff_eq] at hall
  rcases hall with hlower | rfl
  · -- a lower-case letter stays as it is
    unfold Char.isLower at hlower
    simp only [Bool.and_eq_true, decide_eq_true_eq, UInt32.le_iff_toNat_le] at hlower
    have ha : 97 ≤ d.toNat := hlower.1
    have hupper : ¬ (d.val ≥ 'A'.val ∧ d.val ≤ 'Z'.val) := by
      rintro ⟨_, hz⟩
      have hz' : d.toNat ≤ 90 := hz
      omega
    unfold Char.toLower
    rw [dif_neg hupper]
    omega
  · decide
