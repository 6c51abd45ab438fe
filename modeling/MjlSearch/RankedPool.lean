/-
The ranked pool of candidates, and what a query says about a site
(`api.services.ranking`).

The score a hit gets is floating-point arithmetic on its fields, the query, the clock
and the settings; `Scoring` stands for it, and nothing below depends on which it is.

* `orderedPool_urls` — ranking drops duplicates and reorders, and adds nothing;
* `orderedPool_eq` — hits in the order of their scores, none like another, stay as they
  are.
-/
import Mathlib.Data.List.Nodup
import Mathlib.Data.List.Sort
import MjlSearch.Ranking

open Text

namespace Ranking

variable {σ : Type} (lower : Str → Str)

/-! ### Navigation -/

/-- Terms that are part of a written-out hostname rather than part of the subject. -/
def navigationalNoise : List Str :=
  ["www", "http", "https", "com", "org", "net", "io", "co"].map String.toList

/-- Two-part public suffixes. -/
def twoPartSuffix : List Str :=
  ["co", "com", "org", "net", "ac", "gov", "edu"].map String.toList

/-- A character of a term. -/
def isTermChar (c : Char) : Bool := ('a' ≤ c && c ≤ 'z') || ('0' ≤ c && c ≤ '9')

/-- Splits a query into its terms: the longest stretches of term characters. -/
def queryTerms (query : Str) : List Str :=
  ((lower query).splitBy fun a b => isTermChar a == isTermChar b).filter fun part =>
    part.head?.any isTermChar

/-- The site a query is naming, if it names one and says nothing else. -/
def navigationalTarget (terms : List Str) : Option Str :=
  match terms.filter fun term => !navigationalNoise.contains term with
  | [target] => some target
  | _ => none

/-- The label a site is named by. -/
def hostLabel (url : Str) : Str :=
  let host := (hostOf lower url).takeWhile fun c => c != ':'
  let host := ("www.".toList.isPrefixOf? host).getD host
  let labels := (host.splitOn '.').filter fun label => label ≠ []
  match labels.reverse with
  | _ :: second :: third :: _ => if twoPartSuffix.contains second then third else second
  | [_, second] => second
  | [only] => only
  | [] => []

/-! ### Order -/

/-- The score of a hit, for one query, clock and settings. -/
abbrev Scoring (σ : Type) := SearchHit σ → σ

/-- Rescores every hit. -/
def rescore (scoring : Scoring σ) (hits : List (SearchHit σ)) : List (SearchHit σ) :=
  hits.map fun hit => { hit with score := scoring hit }

/-- Python's `str.isspace`, for a character. -/
def isSpace (c : Char) : Bool :=
  let n := c.toNat
  (0x09 ≤ n && n ≤ 0x0D) || (0x1C ≤ n && n ≤ 0x20) || n = 0x85 || n = 0xA0 || n = 0x1680 ||
    (0x2000 ≤ n && n ≤ 0x200A) || n = 0x2028 || n = 0x2029 || n = 0x202F || n = 0x205F || n = 0x3000

/-- Lower-cases a text and makes every stretch of white space one blank. -/
def normalise (text : Str) : Str :=
  [' '].intercalate (((lower text).splitBy fun a b => isSpace a == isSpace b).filter fun part =>
    part.head?.any fun c => !isSpace c)

/-- What two addresses of one document agree in. -/
def duplicateKey (hit : SearchHit σ) : Str × Str × Str :=
  (host lower hit, normalise lower hit.title, hit.snippet)

/-- Drops a page that is already in the list under a different URL.  `seen` holds the
keys of those kept before. -/
def collapse (seen : List (Str × Str × Str)) : List (SearchHit σ) → List (SearchHit σ)
  | [] => []
  | hit :: hits =>
    if duplicateKey lower hit ∈ seen then collapse seen hits
    else hit :: collapse (duplicateKey lower hit :: seen) hits

/-- `collapse`, from the start. -/
def collapseDuplicates (hits : List (SearchHit σ)) : List (SearchHit σ) := collapse lower [] hits

variable {lower}

theorem collapse_sublist (seen : List (Str × Str × Str)) (hits : List (SearchHit σ)) :
    (collapse lower seen hits).Sublist hits := by
  induction hits generalizing seen with
  | nil => exact List.Sublist.refl _
  | cons hit hits ih =>
    rw [collapse]
    split
    · exact (ih seen).cons _
    · exact (ih _).cons_cons _

/-- Hits none of which is like another, or like one kept before, are all kept. -/
theorem collapse_eq {seen : List (Str × Str × Str)} {hits : List (SearchHit σ)}
    (hnodup : (hits.map (duplicateKey lower)).Nodup)
    (hseen : ∀ hit ∈ hits, duplicateKey lower hit ∉ seen) : collapse lower seen hits = hits := by
  induction hits generalizing seen with
  | nil => rfl
  | cons hit hits ih =>
    rw [List.map_cons, List.nodup_cons] at hnodup
    rw [collapse, if_neg (hseen hit List.mem_cons_self), ih hnodup.2]
    intro other hother hmem
    rcases List.mem_cons.mp hmem with heq | hmem
    · exact hnodup.1 (by rw [← heq]; exact List.mem_map_of_mem hother)
    · exact hseen other (List.mem_cons_of_mem _ hother) hmem

/-! ### The policy -/

variable [LinearOrder σ]

/-- The first hit scores at least as much as the second. -/
abbrev AtLeast (a b : SearchHit σ) : Prop := b.score ≤ a.score

instance : Std.Total (AtLeast : SearchHit σ → SearchHit σ → Prop) :=
  ⟨fun a b => le_total b.score a.score⟩

instance : IsTrans (SearchHit σ) AtLeast := ⟨fun _ _ _ hab hbc => le_trans hbc hab⟩

/-- Orders hits by descending score, keeping engine order among ties. -/
def sortByScore (hits : List (SearchHit σ)) : List (SearchHit σ) := hits.insertionSort AtLeast

variable (lower) in
/-- The whole policy except the caps: rescored, sorted, without duplicates. -/
def orderedPool (scoring : Scoring σ) (hits : List (SearchHit σ)) : List (SearchHit σ) :=
  collapseDuplicates lower (sortByScore (rescore scoring hits))

/-- Ranking hands out no URL that is not among the hits, and none twice. -/
theorem orderedPool_urls {scoring : Scoring σ} {hits : List (SearchHit σ)} :
    ∃ ranked : List (SearchHit σ), (orderedPool lower scoring hits).Sublist ranked ∧
      (ranked.map SearchHit.url).Perm (hits.map SearchHit.url) := by
  refine ⟨sortByScore (rescore scoring hits), collapse_sublist _ _, ?_⟩
  have hperm : (sortByScore (rescore scoring hits)).Perm (rescore scoring hits) :=
    List.perm_insertionSort _ _
  have hurls : (rescore scoring hits).map SearchHit.url = hits.map SearchHit.url := by
    rw [rescore, List.map_map]
    rfl
  rw [← hurls]
  exact hperm.map _

/-- **Hits with different scores, none like another, are ranked by their scores.** -/
theorem orderedPool_eq {scoring : Scoring σ} {hits ranked : List (SearchHit σ)}
    (hperm : ranked.Perm (rescore scoring hits))
    (hsorted : ranked.Pairwise fun a b => b.score < a.score)
    (hkeys : (ranked.map (duplicateKey lower)).Nodup) : orderedPool lower scoring hits = ranked := by
  have hle : ranked.Pairwise AtLeast := hsorted.imp fun h => le_of_lt h
  have hsort : (sortByScore (rescore scoring hits)).Pairwise AtLeast :=
    List.pairwise_insertionSort _ _
  have hsame : sortByScore (rescore scoring hits) = ranked := by
    have hperm' : (sortByScore (rescore scoring hits)).Perm ranked :=
      (List.perm_insertionSort _ _).trans hperm.symm
    refine List.Perm.eq_of_pairwise (fun a b ha hb hab hba => ?_) hsort hle hperm'
    -- no two of the hits have the same score
    have hscores : (ranked.map SearchHit.score).Nodup :=
      List.pairwise_map.mpr (hsorted.imp fun h => ne_of_gt h)
    exact List.inj_on_of_nodup_map hscores (hperm'.mem_iff.mp ha) hb (le_antisymm hba hab)
  rw [orderedPool, hsame]
  exact collapse_eq hkeys fun _ _ => List.not_mem_nil

end Ranking
