/-
robots.txt precedence: which rule decides about a path.

The rules that match a path are considered one by one, the `Disallow` rules
first, and the first of the most specific ones decides.

* `considerAll_argmax` — the rule kept is the first that maximises specificity;
* `allows_iff` — a path is allowed iff no rule matches it, or an `Allow` rule is
  more specific than every `Disallow` rule and as specific as any;
* `allows_congr` — the order and the number of the rules do not matter;
* `rules_documented_iff` — the decision is the documented one, except where an
  `Allow` and a `Disallow` rule are the most specific ones together.
-/
import Mathlib.Data.List.MinMax
import MjlSearch.Robots

open Text

namespace Robots

variable {rules rules' : RobotsRules} {path : Str}

/-- What the patterns of a list that match a path are considered with. -/
def candidates (path : Str) (allowed : Bool) (patterns : List Str) : List (ℕ × Bool) :=
  patterns.filterMap fun pattern =>
    (matchPath pattern path).map fun specificity => (specificity, allowed)

/-- The rules that match a path, in the order they are considered. -/
def matching (rules : RobotsRules) (path : Str) : List (ℕ × Bool) :=
  candidates path false rules.disallow ++ candidates path true rules.allow

/-- A pattern of the list matches the path with the given specificity. -/
def Attains (patterns : List Str) (path : Str) (specificity : ℕ) : Prop :=
  ∃ pattern ∈ patterns, matchPath pattern path = some specificity

/-- No rule that matches the path is more specific. -/
def Greatest (rules : RobotsRules) (path : Str) (specificity : ℕ) : Prop :=
  ∀ other, Attains rules.disallow path other ∨ Attains rules.allow path other →
    other ≤ specificity

@[simp] theorem mem_candidates_iff {allowed : Bool} {patterns : List Str} {c : ℕ × Bool} :
    c ∈ candidates path allowed patterns ↔ Attains patterns path c.1 ∧ c.2 = allowed := by
  obtain ⟨specificity, kept⟩ := c
  simp only [candidates, List.mem_filterMap, Option.map_eq_some_iff, Prod.mk.injEq, Attains]
  constructor
  · rintro ⟨pattern, hmem, _, hmatch, rfl, rfl⟩
    exact ⟨⟨pattern, hmem, hmatch⟩, rfl⟩
  · rintro ⟨⟨pattern, hmem, hmatch⟩, rfl⟩
    exact ⟨pattern, hmem, specificity, hmatch, rfl, rfl⟩

theorem mem_matching_iff {c : ℕ × Bool} : c ∈ matching rules path ↔
    (Attains rules.disallow path c.1 ∧ c.2 = false) ∨
      (Attains rules.allow path c.1 ∧ c.2 = true) := by
  simp [matching]

/-- Considering a rule is a step of `List.argmax`: a rule replaces only one that is less
specific. -/
theorem considerAll_foldl (path : Str) (allowed : Bool) (patterns : List Str)
    (best : Option (ℕ × Bool)) : considerAll path allowed patterns best =
      (candidates path allowed patterns).foldl
        (List.argAux fun b c : ℕ × Bool => c.1 < b.1) best := by
  induction patterns generalizing best with
  | nil => rfl
  | cons pattern patterns ih =>
    show considerAll path allowed patterns _ = _
    rw [ih]
    simp only [candidates, List.filterMap_cons]
    rcases matchPath pattern path with _ | specificity
    · rfl
    · rcases best with _ | ⟨current, kept⟩
      · rfl
      · rfl

/-- **The rule kept is the first of those that maximise specificity.** -/
theorem considerAll_argmax (rules : RobotsRules) (path : Str) :
    considerAll path true rules.allow (considerAll path false rules.disallow none)
      = (matching rules path).argmax Prod.fst := by
  rw [considerAll_foldl, considerAll_foldl, ← List.foldl_append]
  rfl

theorem idxOf_append_lt {α : Type} [DecidableEq α] {before after : List α} {a b : α}
    (ha : a ∉ before) (hb : b ∈ before) :
    (before ++ after).idxOf b < (before ++ after).idxOf a := by
  rw [List.idxOf_append_of_notMem ha, List.idxOf_append_of_mem hb]
  have hlt := List.idxOf_lt_length_of_mem hb
  omega

/-- The first of the most specific rules is an `Allow` rule only if no `Disallow` rule is
as specific. -/
theorem argmax_allow {specificity : ℕ}
    (h : (matching rules path).argmax Prod.fst = some (specificity, true)) :
    Attains rules.allow path specificity ∧ Greatest rules path specificity ∧
      ¬ Attains rules.disallow path specificity := by
  obtain ⟨hmem, hgreatest, hfirst⟩ := List.argmax_eq_some_iff.mp h
  have hallow : Attains rules.allow path specificity := by
    rcases mem_matching_iff.mp hmem with ⟨_, hfalse⟩ | ⟨hallow, _⟩
    · cases hfalse
    · exact hallow
  refine ⟨hallow, ?_, ?_⟩
  · rintro other (hother | hother)
    · exact hgreatest (other, false) (mem_matching_iff.mpr (Or.inl ⟨hother, rfl⟩))
    · exact hgreatest (other, true) (mem_matching_iff.mpr (Or.inr ⟨hother, rfl⟩))
  · intro hdisallow
    have hbefore : (specificity, false) ∈ candidates path false rules.disallow :=
      mem_candidates_iff.mpr ⟨hdisallow, rfl⟩
    have hafter : (specificity, true) ∉ candidates path false rules.disallow := by
      simp
    have hle := hfirst (specificity, false) (List.mem_append_left _ hbefore) (Nat.le_refl _)
    exact absurd hle (Nat.not_le_of_lt (idxOf_append_lt hafter hbefore))

theorem argmax_disallow {specificity : ℕ}
    (h : (matching rules path).argmax Prod.fst = some (specificity, false)) :
    Attains rules.disallow path specificity ∧ Greatest rules path specificity := by
  obtain ⟨hmem, hgreatest, _⟩ := List.argmax_eq_some_iff.mp h
  constructor
  · rcases mem_matching_iff.mp hmem with ⟨hdisallow, _⟩ | ⟨_, htrue⟩
    · exact hdisallow
    · cases htrue
  · rintro other (hother | hother)
    · exact hgreatest (other, false) (mem_matching_iff.mpr (Or.inl ⟨hother, rfl⟩))
    · exact hgreatest (other, true) (mem_matching_iff.mpr (Or.inr ⟨hother, rfl⟩))

theorem argmax_none (h : (matching rules path).argmax Prod.fst = none) (specificity : ℕ) :
    ¬ Attains rules.disallow path specificity ∧ ¬ Attains rules.allow path specificity := by
  have hnil : matching rules path = [] := List.argmax_eq_none.mp h
  constructor
  · intro hmatch
    have hmem : (specificity, false) ∈ matching rules path :=
      mem_matching_iff.mpr (Or.inl ⟨hmatch, rfl⟩)
    simp [hnil] at hmem
  · intro hmatch
    have hmem : (specificity, true) ∈ matching rules path :=
      mem_matching_iff.mpr (Or.inr ⟨hmatch, rfl⟩)
    simp [hnil] at hmem

/-- No rule matches the path. -/
def Unmatched (rules : RobotsRules) (path : Str) : Prop :=
  ∀ specificity, ¬ Attains rules.disallow path specificity ∧ ¬ Attains rules.allow path specificity

/-- **Which paths are allowed.** -/
theorem allows_iff (rules : RobotsRules) (path : Str) : allows rules path = true ↔
    Unmatched rules path ∨ ∃ specificity, Attains rules.allow path specificity ∧
      Greatest rules path specificity ∧ ¬ Attains rules.disallow path specificity := by
  have hallows : allows rules path
      = (((matching rules path).argmax Prod.fst).map Prod.snd).getD true := by
    rw [← considerAll_argmax]
    rfl
  rw [hallows]
  rcases hbest : (matching rules path).argmax Prod.fst with _ | ⟨specificity, allowed⟩
  · have hnone : Unmatched rules path := argmax_none hbest
    simp [hnone]
  · rcases allowed with _ | _
    · obtain ⟨hdisallow, hgreatest⟩ := argmax_disallow hbest
      show false = true ↔ _
      refine ⟨by simp, ?_⟩
      rintro (hnone | ⟨other, hallow, hgreatest', hother⟩)
      · exact absurd hdisallow (hnone specificity).1
      · have hle := hgreatest' specificity (Or.inl hdisallow)
        have hle' := hgreatest other (Or.inr hallow)
        rw [Nat.le_antisymm hle' hle] at hother
        exact absurd hdisallow hother
    · have hallow := argmax_allow hbest
      show true = true ↔ _
      exact ⟨fun _ => Or.inr ⟨specificity, hallow⟩, fun _ => rfl⟩

/-- **Only which patterns there are matters**, not their order or number. -/
theorem allows_congr (hdisallow : ∀ pattern, pattern ∈ rules.disallow ↔ pattern ∈ rules'.disallow)
    (hallow : ∀ pattern, pattern ∈ rules.allow ↔ pattern ∈ rules'.allow) (path : Str) :
    allows rules path = allows rules' path := by
  have hattains : ∀ specificity,
      (Attains rules.disallow path specificity ↔ Attains rules'.disallow path specificity) ∧
        (Attains rules.allow path specificity ↔ Attains rules'.allow path specificity) := by
    intro specificity
    simp only [Attains, hdisallow, hallow, and_self]
  rw [Bool.eq_iff_iff, allows_iff, allows_iff]
  simp only [Unmatched, Greatest, fun specificity => (hattains specificity).1,
    fun specificity => (hattains specificity).2]

/-! ### The documented decision -/

/-- What a set of rules is documented to allow: a path that no rule matches, and one for
which an `Allow` rule is as specific as any. -/
def AllowWins (rules : RobotsRules) (path : Str) : Prop :=
  Unmatched rules path ∨
    ∃ specificity, Attains rules.allow path specificity ∧ Greatest rules path specificity

/-- The most specific rules for the path are an `Allow` and a `Disallow` rule. -/
def Tied (rules : RobotsRules) (path : Str) : Prop :=
  ∃ specificity, Attains rules.allow path specificity ∧
    Attains rules.disallow path specificity ∧ Greatest rules path specificity

/-- **The decision is the documented one unless an `Allow` and a `Disallow` rule tie**;
then the path is refused. -/
theorem rules_documented_iff (rules : RobotsRules) (path : Str) :
    (allows rules path = true ↔ AllowWins rules path) ↔ ¬ Tied rules path := by
  rw [allows_iff, AllowWins]
  constructor
  · rintro hsame ⟨specificity, hallow, hdisallow, hgreatest⟩
    rcases hsame.mpr (Or.inr ⟨specificity, hallow, hgreatest⟩) with
      hnone | ⟨other, hallow', hgreatest', hother⟩
    · exact (hnone specificity).2 hallow
    · -- the two greatest specificities are one
      have hle := hgreatest other (Or.inr hallow')
      have hle' := hgreatest' specificity (Or.inr hallow)
      rw [Nat.le_antisymm hle hle'] at hother
      exact hother hdisallow
  · intro hapart
    constructor
    · rintro (hnone | ⟨specificity, hallow, hgreatest, _⟩)
      · exact Or.inl hnone
      · exact Or.inr ⟨specificity, hallow, hgreatest⟩
    · rintro (hnone | ⟨specificity, hallow, hgreatest⟩)
      · exact Or.inl hnone
      · refine Or.inr ⟨specificity, hallow, hgreatest, fun hdisallow => ?_⟩
        exact hapart ⟨specificity, hallow, hdisallow, hgreatest⟩

/-- The rules of a file with the lines `Disallow: /a` and `Allow: /a`. -/
def tiedRules : RobotsRules := { allowAll with disallow := [['/', 'a']], allow := [['/', 'a']] }

/-- **A tie goes to `Disallow`**: with `/a` both disallowed and allowed, the path `/a` is
refused. -/
theorem tie_refused : allows tiedRules ['/', 'a'] = false ∧ AllowWins tiedRules ['/', 'a'] := by
  have hmatch : matchPath ['/', 'a'] ['/', 'a'] = some 2 := by decide
  refine ⟨by decide, Or.inr ⟨2, ⟨['/', 'a'], by simp [tiedRules], hmatch⟩, ?_⟩⟩
  rintro other (⟨pattern, hpattern, hother⟩ | ⟨pattern, hpattern, hother⟩)
  · obtain rfl : pattern = ['/', 'a'] := by simpa [tiedRules] using hpattern
    rw [hmatch] at hother
    exact (Option.some.inj hother).ge
  · obtain rfl : pattern = ['/', 'a'] := by simpa [tiedRules] using hpattern
    rw [hmatch] at hother
    exact (Option.some.inj hother).ge

end Robots
