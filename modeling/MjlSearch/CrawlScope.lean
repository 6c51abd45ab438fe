/-
The scope of a crawl: which hosts it may follow links to.

A scope takes its hosts from two lists, the seeds and the hosts the operator
names, and it is restricted as soon as the two lists together name one.

* `allows_iff` — what the scope that is built allows, in terms of the two lists;
* `scope_documented_iff` — it is the scope its documentation describes, except
  where the seeds alone restrict it;
* `seeds_restrict` — a crawl of one seed, without any restriction asked for, is
  kept on the seed's host.
-/
import MjlSearch.Policy

open Text

namespace Policy.CrawlScope

variable (urls : UrlCrate)

/-- The hosts of the seeds. -/
def seedHosts (seeds : List Str) : List Str := seeds.filterMap urls.hostOf

/-- The hosts the operator names, as they are compared. -/
def namedHosts (allowedHosts : List Str) : List Str :=
  allowedHosts.map fun host => asciiLower (trim host)

/-- A URL on the host of a seed. -/
def OnSeedHost (seeds : List Str) (url : Str) : Prop :=
  ∃ host ∈ seedHosts urls seeds, urls.hostOf url = some host

/-- A URL on a host the operator names. -/
def OnNamedHost (allowedHosts : List Str) (url : Str) : Prop :=
  ∃ host ∈ namedHosts allowedHosts, urls.hostOf url = some host

/-- What a scope is documented to allow: everything, unless the operator restricts the
crawl by the flag or by naming a host; then, the hosts of the two lists. -/
def Documented (restricted : Bool) (seeds allowedHosts : List Str) (url : Str) : Prop :=
  restricted = false ∧ allowedHosts = [] ∨
    OnSeedHost urls seeds url ∨ OnNamedHost urls allowedHosts url

variable {urls}

theorem seedHosts_eq_nil_iff {seeds : List Str} :
    seedHosts urls seeds = [] ↔ ∀ seed ∈ seeds, urls.hostOf seed = none := by
  simp [seedHosts, List.filterMap_eq_nil_iff]

theorem namedHosts_eq_nil_iff {allowedHosts : List Str} :
    namedHosts allowedHosts = [] ↔ allowedHosts = [] := by
  simp [namedHosts]

theorem new_restricted (restricted : Bool) (seeds allowedHosts : List Str) :
    (new urls restricted seeds allowedHosts).restricted = false ↔
      restricted = false ∧ seedHosts urls seeds = [] ∧ allowedHosts = [] := by
  show (restricted || !(seedHosts urls seeds ++ namedHosts allowedHosts).isEmpty) = false ↔ _
  simp only [Bool.or_eq_false_iff, Bool.not_eq_false', List.isEmpty_iff, List.append_eq_nil_iff,
    namedHosts_eq_nil_iff]

theorem mem_hosts_iff (restricted : Bool) (seeds allowedHosts : List Str) (url : Str) :
    (∃ host ∈ (new urls restricted seeds allowedHosts).hosts, urls.hostOf url = some host) ↔
      OnSeedHost urls seeds url ∨ OnNamedHost urls allowedHosts url := by
  show (∃ host ∈ seedHosts urls seeds ++ namedHosts allowedHosts, _) ↔ _
  simp only [List.mem_append, OnSeedHost, OnNamedHost, or_and_right, exists_or]

/-- A scope allows a URL if it is not restricted, or knows its host. -/
theorem allows_eq_true_iff (scope : CrawlScope) (url : Str) :
    scope.allows urls url = true ↔
      scope.restricted = false ∨ ∃ host ∈ scope.hosts, urls.hostOf url = some host := by
  rw [allows]
  rcases scope.restricted with _ | _
  · simp
  · rcases urls.hostOf url with _ | host
    · simp
    · simp

/-- **What the scope that is built allows.** -/
theorem allows_iff (restricted : Bool) (seeds allowedHosts : List Str) (url : Str) :
    (new urls restricted seeds allowedHosts).allows urls url = true ↔
      (restricted = false ∧ seedHosts urls seeds = [] ∧ allowedHosts = []) ∨
        OnSeedHost urls seeds url ∨ OnNamedHost urls allowedHosts url := by
  rw [allows_eq_true_iff, new_restricted, mem_hosts_iff]

/-- **The scope is the documented one unless the seeds alone restrict it**: the flag is
off, no host is named, some seed has a host, and the URL is on none of the seeds' hosts. -/
theorem scope_documented_iff (restricted : Bool) (seeds allowedHosts : List Str) (url : Str) :
    ((new urls restricted seeds allowedHosts).allows urls url = true ↔
        Documented urls restricted seeds allowedHosts url) ↔
      restricted = true ∨ allowedHosts ≠ [] ∨ (∀ seed ∈ seeds, urls.hostOf seed = none) ∨
        OnSeedHost urls seeds url := by
  rw [allows_iff, Documented, seedHosts_eq_nil_iff]
  constructor
  · intro hsame
    by_cases hfree : restricted = false ∧ allowedHosts = []
    · -- nothing was asked for, so the documentation allows the URL
      obtain ⟨hflag, rfl⟩ := hfree
      rcases hsame.mpr (Or.inl ⟨hflag, rfl⟩) with ⟨_, hnone, _⟩ | hseed | ⟨host, hhost, _⟩
      · exact Or.inr (Or.inr (Or.inl hnone))
      · exact Or.inr (Or.inr (Or.inr hseed))
      · cases hhost
    · by_cases hflag : restricted = true
      · exact Or.inl hflag
      · refine Or.inr (Or.inl fun hempty => hfree ⟨?_, hempty⟩)
        simpa using hflag
  · intro hcond
    constructor
    · intro hallows
      rcases hallows with ⟨hflag, _, hempty⟩ | hhost
      · exact Or.inl ⟨hflag, hempty⟩
      · exact Or.inr hhost
    · intro hdoc
      rcases hdoc with ⟨rfl, rfl⟩ | hhost
      · rcases hcond with hflag | hnamed | hnone | hseed
        · cases hflag
        · exact absurd rfl hnamed
        · exact Or.inl ⟨rfl, hnone, rfl⟩
        · exact Or.inr (Or.inl hseed)
      · exact Or.inr hhost

/-- **A seed restricts a crawl that nobody restricted**: the crawl of one seed, with the
flag off and no host named, does not follow a link to another host. -/
theorem seeds_restrict :
    (new plainUrls false ["https://a.org/".toList] []).allows plainUrls
        "https://b.org/".toList = false ∧
      Documented plainUrls false ["https://a.org/".toList] [] "https://b.org/".toList := by
  refine ⟨?_, Or.inl ⟨rfl, rfl⟩⟩
  have hseed : plainUrls.hostOf "https://a.org/".toList = some "a.org".toList := by decide
  have hurl : plainUrls.hostOf "https://b.org/".toList = some "b.org".toList := by decide
  rw [Bool.eq_false_iff, ne_eq, allows_iff, seedHosts_eq_nil_iff, OnSeedHost, OnNamedHost, hurl]
  rintro (⟨_, hnone, _⟩ | ⟨host, hhost, hsome⟩ | ⟨host, hhost, _⟩)
  · rw [hnone _ (List.mem_singleton.mpr rfl)] at hseed
    cases hseed
  · obtain ⟨seed, hmem, hof⟩ := List.mem_filterMap.mp hhost
    obtain rfl := List.mem_singleton.mp hmem
    rw [hseed, ← hsome] at hof
    exact absurd (Option.some.inj hof) (by decide)
  · cases hhost

end Policy.CrawlScope
