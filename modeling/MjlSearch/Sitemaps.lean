/-
Sitemaps: which responses at a sitemap's URL a visit reads as one.

Three predicates decide in turn: the fetcher refuses a `Content-Type` without `html` or
`xml`, the magic bytes say whether a body is decompressed, and `classify` goes by the
type and, without one, by the URL.

* `visit`, `visit_steps` — a whole visit, and the two steps of the system that make it;
* `isSitemapUrl_canonical` — a sitemap's URL is one in its canonical form;
* `decode_carries` — a body, plain or compressed, is decoded to the text it carries;
* `sitemap_read_iff` — a response at a sitemap's URL is read as a sitemap iff it has no
  readable type, or one with `xml` and without `html`.
-/
import MjlSearch.CanonicalUrls
import MjlSearch.Fetcher

open Text Policy Fetcher Crawler

namespace Sitemaps

/-! ### A whole visit -/

/-- What a visit's two fetches get: the replies to their attempts, and the clock. -/
structure Network where
  robots : ℕ → Sent
  robotsNanos : ℕ → ℕ
  page : ℕ → Sent
  pageNanos : ℕ → ℕ

variable (lib : Libraries) (cli : Cli) (decoders : Decoders) (config : FetchConfig)

/-- The answer to the request for the robots.txt. -/
def robotsAnswer (network : Network) (v : Visit) : Answer :=
  (fetchText decoders config lib.contentHash ((robotsWanted lib v).getD []) network.robots
    network.robotsNanos).2

/-- The answer to the request for the URL. -/
def pageAnswer (network : Network) (v : Visit) : Answer :=
  (fetch decoders config lib.contentHash v.job.url network.page network.pageNanos).2

/-- What a visit knows when it checks its URL. -/
def learned (network : Network) (v : Visit) : Learned :=
  learn lib cli v (robotsAnswer lib decoders config network v)

/-- Visits one URL. -/
def visit (network : Network) (v : Visit) : Outcome :=
  let learned := learned lib cli decoders config network v
  match check lib v learned with
  | .done outcome => outcome
  | _ => report v learned (visited lib (pageAnswer lib decoders config network v))

/-- robots.txt allows the job. -/
def Allowed (network : Network) (v : Visit) : Prop :=
  ∀ rules ∈ (learned lib cli decoders config network v).rules,
    Robots.allows rules (lib.urls.requestPath v.job.url) = true

variable {lib cli decoders config} {network : Network} {v : Visit}

theorem check_allowed (h : Allowed lib cli decoders config network v) :
    check lib v (learned lib cli decoders config network v)
      = .fetching (learned lib cli decoders config network v) := by
  rw [check, if_neg]
  intro hforbidden
  obtain ⟨rules, hrules, hnot⟩ := (Option.any_eq_true _ _).mp hforbidden
  rw [h rules hrules] at hnot
  cases hnot

theorem visit_allowed (h : Allowed lib cli decoders config network v) :
    (visit lib cli decoders config network v).result
      = visited lib (pageAnswer lib decoders config network v) := by
  simp only [visit, check_allowed h]
  rfl

/-- **A visit is two steps of the system**: its robots.txt is checked, and its URL is
fetched, if it still has to be. -/
theorem visit_steps {s : System lib} {p : Process lib} {i : ℕ} (hprocess : s.process = some p)
    (hvisit : p.visits[i]? = some v) (hstage : v.stage = .asking) :
    (exec cli s [.check i (robotsAnswer lib decoders config network v),
        .fetch i (pageAnswer lib decoders config network v)]).2
      = s.resume (moveVisit p i v (.done (visit lib cli decoders config network v))) := by
  have hlt : i < p.visits.length := (List.getElem?_eq_some_iff.mp hvisit).1
  obtain ⟨event, hchecked⟩ : ∃ event,
      step cli s (.check i (robotsAnswer lib decoders config network v)) = some (event,
        s.resume (moveVisit p i v (check lib v (learned lib cli decoders config network v)))) := by
    simp only [step, hprocess, hvisit, hstage]
    exact ⟨_, rfl⟩
  have hmoved : ∀ stage, (moveVisit p i v stage).visits[i]? = some { v with stage } := by
    intro stage
    simp [moveVisit, hlt]
  by_cases hdone : ∃ outcome, check lib v (learned lib cli decoders config network v)
      = .done outcome
  · -- the rules forbid the URL, and no request is made
    obtain ⟨outcome, hdone⟩ := hdone
    have hidle : step cli (s.resume (moveVisit p i v (.done outcome)))
        (.fetch i (pageAnswer lib decoders config network v)) = none := by
      simp only [step, System.resume, hmoved]
    simp only [exec, hchecked, hdone, hidle, visit]
  · have hfetching : check lib v (learned lib cli decoders config network v)
        = .fetching (learned lib cli decoders config network v) := by
      rw [check] at hdone ⊢
      split
      · rename_i hforbidden
        rw [if_pos hforbidden] at hdone
        exact absurd ⟨_, rfl⟩ hdone
      · rfl
    have hfetched : step cli (s.resume (moveVisit p i v
          (.fetching (learned lib cli decoders config network v))))
        (.fetch i (pageAnswer lib decoders config network v))
        = some (.quiet, s.resume (moveVisit p i v
            (.done (report v (learned lib cli decoders config network v)
              (visited lib (pageAnswer lib decoders config network v)))))) := by
      simp only [step, System.resume, hmoved]
      simp [moveVisit, report]
    simp only [exec, hchecked, hfetching, hfetched, visit]

/-! ### The three predicates -/

/-- What the `url` crate promises about paths: setting another part keeps them, and an
`http` or `https` URL is read back as written. -/
structure PathLaws (urls : UrlCrate) : Prop where
  path_setFragment : ∀ url value, urls.path (urls.setFragment url value) = urls.path url
  path_setQuery : ∀ url value, urls.path (urls.setQuery url value) = urls.path url
  scheme_setFragment : ∀ url value, urls.scheme (urls.setFragment url value) = urls.scheme url
  scheme_setQuery : ∀ url value, urls.scheme (urls.setQuery url value) = urls.scheme url
  parse_toStr : ∀ url, isHttp urls url = true → urls.parse (urls.toStr url) = some url

theorem strip_path {urls : UrlCrate} (hlaws : PathLaws urls) (forms : FormUrlencoded)
    (url : urls.Url) :
    urls.path (stripTrackingParams urls forms url) = urls.path url ∧
      urls.scheme (stripTrackingParams urls forms url) = urls.scheme url := by
  rw [stripTrackingParams.eq_def]
  split
  · exact ⟨rfl, rfl⟩
  · dsimp only
    split
    · exact ⟨rfl, rfl⟩
    · split
      · exact ⟨hlaws.path_setQuery _ _, hlaws.scheme_setQuery _ _⟩
      · exact ⟨hlaws.path_setQuery _ _, hlaws.scheme_setQuery _ _⟩

/-- **A sitemap's URL is one in its canonical form.** -/
theorem isSitemapUrl_canonical (hlaws : PathLaws lib.urls) (page : FetchedPage) :
    isSitemapUrl lib.urls (canonicalFinalUrl lib page).finalUrl
      = isSitemapUrl lib.urls page.finalUrl := by
  rw [canonicalFinalUrl]
  split
  · rename_i canonical hcanonical
    simp only [canonicalUrl, Option.bind_eq_bind, Option.bind_eq_some_iff] at hcanonical
    obtain ⟨parsed, hparse, hcanonical⟩ := hcanonical
    split at hcanonical
    · rename_i hhttp
      obtain ⟨hpath, hscheme⟩ :=
        strip_path hlaws lib.forms (lib.urls.setFragment parsed none)
      have hread : lib.urls.parse canonical = some (stripTrackingParams lib.urls lib.forms
          (lib.urls.setFragment parsed none)) := by
        rw [← Option.some.inj hcanonical]
        refine hlaws.parse_toStr _ ?_
        rw [isHttp, hscheme, hlaws.scheme_setFragment]
        exact hhttp
      simp only [isSitemapUrl, hread, hparse, hpath, hlaws.path_setFragment]
    · cases hcanonical
  · rfl

theorem canonicalFinalUrl_contentType (page : FetchedPage) :
    (canonicalFinalUrl lib page).contentType = page.contentType := by
  rw [canonicalFinalUrl]
  split
  · rfl
  · rfl

theorem canonicalFinalUrl_body (page : FetchedPage) :
    (canonicalFinalUrl lib page).body = page.body := by
  rw [canonicalFinalUrl]
  split
  · rfl
  · rfl

/-- The types a response at a sitemap's URL is read as a sitemap under. -/
def ReadAsSitemap (contentType : Option Str) : Prop :=
  contentType = none ∨ isXmlContentType contentType = true

instance (contentType : Option Str) : Decidable (ReadAsSitemap contentType) :=
  inferInstanceAs (Decidable (_ ∨ _))

/-- Such a type passes the fetcher's filter. -/
theorem ReadAsSitemap.isHtmlContentType {contentType : Option Str}
    (h : ReadAsSitemap contentType) : isHtmlContentType contentType = true := by
  rcases contentType with _ | value
  · rfl
  · rcases h with h | h
    · cases h
    · simp only [isXmlContentType, Bool.and_eq_true] at h
      simp only [Fetcher.isHtmlContentType, h.1, Bool.or_true]

/-- **At a sitemap's URL, of the types the fetcher lets through**, these are the sitemaps. -/
theorem classify_iff {url : Str} {contentType : Option Str}
    (hurl : isSitemapUrl lib.urls url = true)
    (hpasses : isHtmlContentType contentType = true) :
    classify lib url contentType = .sitemap ↔ ReadAsSitemap contentType := by
  rcases contentType with _ | value
  · refine iff_of_true ?_ (Or.inl rfl)
    simp only [classify, Option.any_none, isXmlContentType, hurl, if_true, Bool.false_eq_true,
      if_false]
  · simp only [Fetcher.isHtmlContentType, Bool.or_eq_true] at hpasses
    simp only [classify, ReadAsSitemap, isXmlContentType, Option.any_some, reduceCtorEq, false_or]
    by_cases hhtml : contains (asciiLower value) "html".toList = true
    · simp only [hhtml, if_true, Bool.not_true, Bool.and_false, Bool.false_eq_true, reduceCtorEq]
    · have hxml : contains (asciiLower value) "xml".toList = true :=
        hpasses.resolve_left hhtml
      simp only [Bool.not_eq_true] at hhtml
      simp only [hhtml, hxml, Bool.false_eq_true, if_false, Bool.not_false, Bool.and_self, if_true]

/-! ### What a body carries -/

/-- What the gzip reader promises of the files it reads: each starts with the magic bytes,
and is read back whole within the bound. -/
structure GzipLaws (decoders : Decoders) (IsGzip : List UInt8 → List UInt8 → Prop) : Prop where
  magic : ∀ body data, IsGzip body data → gzipMagic.isPrefixOf body = true
  expands : ∀ body data cap, IsGzip body data → data.length ≤ cap →
    decoders.gunzip body cap = some data

/-- A body carries data, plain or compressed. -/
inductive Carries (IsGzip : List UInt8 → List UInt8 → Prop) (body data : List UInt8) : Prop
  | plain (h : gzipMagic.isPrefixOf body = false) (heq : body = data)
  | compressed (h : IsGzip body data)

/-- **A body, plain or compressed, is decoded to the text it carries.** -/
theorem decode_carries {IsGzip : List UInt8 → List UInt8 → Prop}
    (hgzip : GzipLaws decoders IsGzip) {body data : List UInt8} (h : Carries IsGzip body data)
    (hdata : data.length ≤ config.maxBodyBytes) (contentType : Option Str) :
    decode decoders config body contentType = toText decoders contentType data := by
  have hexpanded : gunzipIfCompressed decoders body config.maxBodyBytes = data := by
    rcases h with ⟨hmagic, heq⟩ | hcompressed
    · rw [gunzipIfCompressed, hmagic, Bool.not_false, if_pos rfl, heq]
    · simp [gunzipIfCompressed, hgzip.magic _ _ hcompressed, hgzip.expands _ _ _ hcompressed hdata]
  rw [decode, hexpanded]

/-! ### The decision -/

/-- The URL a visit reports for a final URL. -/
def reportedUrl (lib : Libraries) (url : Str) : Str :=
  (canonicalUrl lib.urls lib.forms url).getD url

theorem canonicalFinalUrl_finalUrl (page : FetchedPage) :
    (canonicalFinalUrl lib page).finalUrl = reportedUrl lib page.finalUrl := by
  rw [canonicalFinalUrl, reportedUrl]
  rcases canonicalUrl lib.urls lib.forms page.finalUrl with _ | canonical
  · rfl
  · rfl

/-- What a page at a sitemap's URL turns out to be, of the types that are let through. -/
theorem visited_page (hlaws : PathLaws lib.urls) {page : FetchedPage}
    (hurl : isSitemapUrl lib.urls page.finalUrl = true)
    (hpasses : isHtmlContentType page.contentType = true) {links : List Str}
    (hlinks : lib.parseSitemap page.body = links) :
    visited lib (.ok page) = .ok (.sitemap (reportedUrl lib page.finalUrl) links) ↔
      ReadAsSitemap page.contentType := by
  have hkind : classify lib (canonicalFinalUrl lib page).finalUrl
      (canonicalFinalUrl lib page).contentType = .sitemap ↔ ReadAsSitemap page.contentType := by
    rw [canonicalFinalUrl_contentType]
    exact classify_iff (by rw [isSitemapUrl_canonical hlaws, hurl]) hpasses
  rw [← hkind]
  simp only [visited]
  rcases classify lib (canonicalFinalUrl lib page).finalUrl
    (canonicalFinalUrl lib page).contentType with _ | _
  · -- a document, or none that parses
    rcases lib.parsePage (canonicalFinalUrl lib page).body (canonicalFinalUrl lib page).finalUrl
      with message | parsed
    · simp
    · simp
  · simp [canonicalFinalUrl_finalUrl, canonicalFinalUrl_body, hlinks]

/-- **A response at a sitemap's URL is read as the sitemap its body carries** iff it has no
readable `Content-Type`, or one that contains `xml` and not `html`. -/
theorem sitemap_read_iff {IsGzip : List UInt8 → List UInt8 → Prop} (hlaws : PathLaws lib.urls)
    (hgzip : GzipLaws decoders IsGzip) (hallowed : Allowed lib cli decoders config network v)
    {n : ℕ} {response : Response} {data : List UInt8}
    (hreaches : Reaches decoders config lib.contentHash v.job.url true network.page
      network.pageNanos n)
    (hresponse : network.page n = .answered response) (hsucceeds : response.Succeeds)
    (hurl : isSitemapUrl lib.urls response.url = true)
    (hcarries : Carries IsGzip response.body data)
    (hbody : response.body.length ≤ config.maxBodyBytes)
    (hdata : data.length ≤ config.maxBodyBytes) :
    (visit lib cli decoders config network v).result
        = .ok (.sitemap (reportedUrl lib response.url)
            (lib.parseSitemap (toText decoders response.mediaType data))) ↔
      ReadAsSitemap response.mediaType := by
  rw [visit_allowed hallowed, pageAnswer, fetch, fetchInner_reaches hreaches]
  rcases htype : isHtmlContentType response.mediaType with _ | _
  · obtain ⟨e, hrefused⟩ : ∃ e, attempt decoders config true (network.page n)
        = .error (.terminal e) := by
      rw [hresponse]
      exact ⟨_, attempt_refused hsucceeds htype⟩
    rw [fetchFrom_terminal hrefused]
    refine iff_of_false (by simp [visited]) fun hread => ?_
    rw [hread.isHtmlContentType] at htype
    cases htype
  · have hpage : attempt decoders config true (network.page n) = .ok {
        finalUrl := response.url
        status := response.status
        contentType := response.mediaType
        body := decode decoders config response.body response.mediaType } := by
      rw [hresponse]
      exact attempt_complete hsucceeds hbody (by rw [htype]; rfl)
    rw [fetchFrom_ok hpage]
    exact visited_page hlaws hurl htype
      (by rw [← decode_carries hgzip hcarries hdata response.mediaType])

/-! ### gzip files of one stored block -/

/-- One bit of a CRC. -/
def crcStep (c : ℕ) : ℕ := if c % 2 = 1 then (c / 2) ^^^ 0xEDB88320 else c / 2

/-- The CRC-32 of a byte string. -/
def crc32 (data : List UInt8) : ℕ :=
  (data.foldl (fun c b => crcStep^[8] (c ^^^ b.toNat)) 0xFFFFFFFF) ^^^ 0xFFFFFFFF

/-- A gzip header without a name, and the start of a last block that is stored. -/
def storedHeader : List UInt8 := [0x1f, 0x8b, 8, 0, 0, 0, 0, 0, 0, 255, 1]

/-- The gzip file that stores a byte string as it is. -/
def storedGzip (data : List UInt8) : List UInt8 :=
  storedHeader ++ (Bytes.toLeBytes 2 data.length ++ (Bytes.toLeBytes 2 (65535 - data.length) ++
    (data ++ (Bytes.toLeBytes 4 (crc32 data) ++ Bytes.toLeBytes 4 data.length))))

theorem storedGzip_length (data : List UInt8) : (storedGzip data).length = data.length + 23 := by
  simp only [storedGzip, List.length_append, Bytes.toLeBytes_length, storedHeader,
    List.length_cons, List.length_nil]
  omega

/-- Reads such a file. -/
def storedGunzip (body : List UInt8) (cap : ℕ) : Option (List UInt8) :=
  let block := body.drop storedHeader.length
  let data := (block.drop 4).take (Bytes.fromLeBytes (block.take 2))
  if storedGzip data = body then some (data.take cap) else none

theorem storedGunzip_storedGzip {data : List UInt8} (h : data.length < 65536) (cap : ℕ) :
    storedGunzip (storedGzip data) cap = some (data.take cap) := by
  have hblock : (storedGzip data).drop storedHeader.length = Bytes.toLeBytes 2 data.length ++
      (Bytes.toLeBytes 2 (65535 - data.length) ++ (data ++
        (Bytes.toLeBytes 4 (crc32 data) ++ Bytes.toLeBytes 4 data.length))) :=
    List.drop_left
  have hlength : Bytes.fromLeBytes (Bytes.toLeBytes 2 data.length) = data.length :=
    Bytes.fromLeBytes_toLeBytes (by omega)
  have hdata : (((storedGzip data).drop storedHeader.length).drop 4).take
      (Bytes.fromLeBytes (((storedGzip data).drop storedHeader.length).take 2)) = data := by
    rw [hblock, List.take_left' (Bytes.toLeBytes_length _ _), hlength, ← List.append_assoc,
      List.drop_left' (by simp), List.take_left]
  rw [storedGunzip]
  simp only [hdata, if_true]

/-- Decoders that read such files, and know no encoding but UTF-8. -/
def storedDecoders : Decoders := { gunzip := storedGunzip, forLabel := fun _ => none }

/-- A body is the gzip file that stores the data. -/
def IsStored (body data : List UInt8) : Prop := data.length < 65536 ∧ body = storedGzip data

theorem storedDecoders_laws : GzipLaws storedDecoders IsStored where
  magic body data h := by
    rw [h.2]
    rfl
  expands body data cap h hcap := by
    rw [h.2]
    show storedGunzip (storedGzip data) cap = some data
    rw [storedGunzip_storedGzip h.1, List.take_of_length_le hcap]

/-! ### A compressed sitemap -/

theorem webUrls_paths : PathLaws CanonicalUrls.webUrls where
  path_setFragment _ _ := rfl
  path_setQuery _ _ := rfl
  scheme_setFragment _ _ := rfl
  scheme_setQuery _ _ := rfl
  parse_toStr url _ := CanonicalUrls.WebUrl.parse_toStr url

def webLibraries : Libraries :=
  { plainLibraries with urls := CanonicalUrls.webUrls, forms := FormEncoding.formUrlencoded }

def sitemapUrl : Str := "https://a.org/sitemap.xml.gz".toList

/-- A sitemap without entries. -/
def emptySitemap : List UInt8 := utf8 "<urlset/>".toList

/-- The sitemap, compressed, under a `Content-Type`. -/
def gzipResponse (contentType : Str) : Response where
  url := sitemapUrl
  status := 200
  contentType := some (utf8 contentType)
  retryAfter := none
  contentLength := none
  chunks := [storedGzip emptySitemap]
  interrupted := none
  declared _ h := by cases h

/-- The first attempt times out, and the second is answered. -/
def secondTime (contentType : Str) : Network where
  robots _ := .failed { message := [], isTimeout := true, isConnect := false, isRequest := false }
  robotsNanos _ := 0
  page
    | 0 => .failed { message := [], isTimeout := true, isConnect := false, isRequest := false }
    | _ => .answered (gzipResponse contentType)
  pageNanos _ := 0

/-- A visit to the sitemap, on a host without rules. -/
def sitemapVisit : Visit where
  job := { url := sitemapUrl, depth := 1 }
  host := "a.org".toList
  cachedRules := some Robots.allowAll
  crawlDelayS := none
  stage := .asking

theorem gzipResponse_carries (contentType : Str) :
    Carries IsStored (gzipResponse contentType).body emptySitemap := by
  refine .compressed ⟨by decide, ?_⟩
  simp [Response.body, gzipResponse]

theorem gzipResponse_length (contentType : Str) : (gzipResponse contentType).body.length = 32 := by
  have hlength : emptySitemap.length = 9 := by decide
  simp [Response.body, gzipResponse, storedGzip_length, hlength]

theorem sitemapVisit_allowed (network : Network) :
    Allowed webLibraries (plainCli [] 1) storedDecoders {} network sitemapVisit := by
  intro rules hrules
  obtain rfl : Robots.allowAll = rules := Option.some.inj hrules
  decide +kernel

/-- **A compressed sitemap is refused under the type that says what it is.** -/
theorem gzip_type_refused :
    Allowed webLibraries (plainCli [] 1) storedDecoders {} (secondTime "application/gzip".toList)
        sitemapVisit ∧
      (gzipResponse "application/gzip".toList).Succeeds ∧
      isSitemapUrl webLibraries.urls (gzipResponse "application/gzip".toList).url = true ∧
      Carries IsStored (gzipResponse "application/gzip".toList).body emptySitemap ∧
      (gzipResponse "application/gzip".toList).body.length = 32 ∧
      (visit webLibraries (plainCli [] 1) storedDecoders {} (secondTime "application/gzip".toList)
        sitemapVisit).result = .error (.unsupportedContent "application/gzip".toList) :=
  ⟨sitemapVisit_allowed _, ⟨by decide, by decide, rfl⟩, by decide +kernel,
    gzipResponse_carries _, gzipResponse_length _, by rfl⟩

/-- Under `application/xml`, the same file is read, by its second request. -/
theorem sitemap_read_iff_sample :
    (visit webLibraries (plainCli [] 1) storedDecoders {} (secondTime "application/xml".toList)
      sitemapVisit).result = .ok (.sitemap sitemapUrl []) := by
  have hreaches : Reaches storedDecoders {} webLibraries.contentHash sitemapUrl true
      (secondTime "application/xml".toList).page (secondTime "application/xml".toList).pageNanos
      1 := by
    intro k hk
    obtain rfl : k = 0 := by omega
    exact ⟨_, _, rfl, rfl⟩
  have hreported : reportedUrl webLibraries sitemapUrl = sitemapUrl := by decide +kernel
  have hread : (visit webLibraries (plainCli [] 1) storedDecoders {}
      (secondTime "application/xml".toList) sitemapVisit).result
        = .ok (.sitemap (reportedUrl webLibraries sitemapUrl) []) :=
    (sitemap_read_iff webUrls_paths storedDecoders_laws (sitemapVisit_allowed _) hreaches rfl
      ⟨by decide, by decide, rfl⟩ (by decide +kernel) (gzipResponse_carries _)
      (by rw [gzipResponse_length]; decide) (by decide)).mpr (Or.inr (by decide +kernel))
  rw [← hreported]
  exact hread

end Sitemaps
