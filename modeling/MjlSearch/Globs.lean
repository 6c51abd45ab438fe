/-
Patterns with a wildcard, over any alphabet.

A pattern is a word in which one letter, the star, stands for any word.

* `Matches` — a word is the pattern with every star replaced by some word;
* `Rests` — what is left of a word behind the prefixes a pattern matches;
* `rests_star_literal` — two stars with a literal part between them: where the
  part stands at the front of a word, the first star may be forgotten.
-/
import Mathlib.Data.List.Forall2
import Mathlib.Data.Set.Lattice

namespace Globs

variable {α : Type*} (star : α)

/-- A word matches a pattern if replacing each star of the pattern by some word gives it. -/
def Matches (pattern word : List α) : Prop :=
  ∃ parts : List (List α),
    List.Forall₂ (fun c part => c = star ∨ part = [c]) pattern parts ∧ parts.flatten = word

/-- What is left of a word behind the prefixes that match a pattern. -/
def Rests (pattern word : List α) : Set (List α) :=
  {rest | ∃ front, front ++ rest = word ∧ Matches star pattern front}

variable {star} {pattern word rest literal : List α} {c d : α}

@[simp] theorem matches_nil_iff : Matches star [] word ↔ word = [] := by
  constructor
  · rintro ⟨parts, hparts, rfl⟩
    rw [List.forall₂_nil_left_iff.mp hparts]
    rfl
  · rintro rfl
    exact ⟨[], List.Forall₂.nil, rfl⟩

theorem matches_cons_iff : Matches star (c :: pattern) word ↔
    ∃ part rest, (c = star ∨ part = [c]) ∧ Matches star pattern rest ∧ part ++ rest = word := by
  constructor
  · rintro ⟨parts, hparts, rfl⟩
    obtain ⟨part, parts, hpart, hrest, rfl⟩ := List.forall₂_cons_left_iff.mp hparts
    exact ⟨part, parts.flatten, hpart, ⟨parts, hrest, rfl⟩, rfl⟩
  · rintro ⟨part, _, hpart, ⟨parts, hparts, rfl⟩, rfl⟩
    exact ⟨part :: parts, List.Forall₂.cons hpart hparts, rfl⟩

theorem mem_rests_self : [] ∈ Rests star pattern word ↔ Matches star pattern word := by
  simp [Rests]

/-- Some prefix of a word matches a pattern iff something is left behind one. -/
theorem rests_nonempty_iff :
    (Rests star pattern word).Nonempty ↔ ∃ front, front <+: word ∧ Matches star pattern front := by
  constructor
  · rintro ⟨rest, front, hword, hmatch⟩
    exact ⟨front, ⟨rest, hword⟩, hmatch⟩
  · rintro ⟨front, ⟨rest, hword⟩, hmatch⟩
    exact ⟨rest, front, hword, hmatch⟩

@[simp] theorem rests_nil : Rests star [] word = {word} := by
  ext rest
  simp [Rests, eq_comm]

/-- A letter of the pattern takes the same letter of the word. -/
theorem rests_cons_of_ne (h : c ≠ star) :
    Rests star (c :: pattern) word = {rest | ∃ word', word = c :: word' ∧
      rest ∈ Rests star pattern word'} := by
  ext rest
  simp only [Rests, Set.mem_ofPred_eq, matches_cons_iff, h, false_or]
  constructor
  · rintro ⟨_, rfl, _, front, rfl, hmatch, rfl⟩
    exact ⟨front ++ rest, rfl, front, rfl, hmatch⟩
  · rintro ⟨_, rfl, front, rfl, hmatch⟩
    exact ⟨c :: front, rfl, [c], front, rfl, hmatch, rfl⟩

theorem rests_cons_self (h : c ≠ star) :
    Rests star (c :: pattern) (c :: word) = Rests star pattern word := by
  simp [rests_cons_of_ne h]

theorem rests_cons_other (h : c ≠ star) (hd : word.head? ≠ some c) :
    Rests star (c :: pattern) word = ∅ := by
  rw [rests_cons_of_ne h]
  refine Set.eq_empty_of_forall_notMem fun rest => ?_
  rintro ⟨word', rfl, _⟩
  exact hd rfl

/-- A star takes any prefix of the word. -/
theorem rests_star : Rests star (star :: pattern) word = {rest | ∃ word', word' <:+ word ∧
      rest ∈ Rests star pattern word'} := by
  ext rest
  simp only [Rests, Set.mem_ofPred_eq, matches_cons_iff, true_or, true_and]
  constructor
  · rintro ⟨_, rfl, part, front, hmatch, rfl⟩
    exact ⟨front ++ rest, ⟨part, by simp⟩, front, rfl, hmatch⟩
  · rintro ⟨_, ⟨part, rfl⟩, front, rfl, hmatch⟩
    exact ⟨part ++ front, by simp, part, front, hmatch, rfl⟩

theorem rests_star_mono {word' : List α} (h : word' <:+ word) :
    Rests star (star :: pattern) word' ⊆ Rests star (star :: pattern) word := by
  rw [rests_star, rests_star]
  rintro rest ⟨word'', hsuffix, hrest⟩
  exact ⟨word'', hsuffix.trans h, hrest⟩

/-- A star that takes nothing may be left out, and one that takes a letter stays. -/
theorem rests_star_cons : Rests star (star :: pattern) (c :: word) =
    Rests star pattern (c :: word) ∪ Rests star (star :: pattern) word := by
  rw [rests_star, rests_star]
  ext rest
  simp only [List.suffix_cons_iff, Set.mem_ofPred_eq, Set.mem_union]
  constructor
  · rintro ⟨word', rfl | hsuffix, hrest⟩
    · exact Or.inl hrest
    · exact Or.inr ⟨word', hsuffix, hrest⟩
  · rintro (hrest | ⟨word', hsuffix, hrest⟩)
    · exact ⟨_, Or.inl rfl, hrest⟩
    · exact ⟨word', Or.inr hsuffix, hrest⟩

theorem rests_star_nil : Rests star (star :: pattern) [] = Rests star pattern [] := by
  simp [rests_star]

/-- A literal part, one without a star, takes itself. -/
theorem rests_literal (h : ∀ c ∈ literal, c ≠ star) :
    Rests star (literal ++ pattern) word = {rest | ∃ word', word = literal ++ word' ∧
      rest ∈ Rests star pattern word'} := by
  induction literal generalizing word with
  | nil => simp
  | cons c literal ih =>
    rw [List.cons_append, rests_cons_of_ne (h c List.mem_cons_self)]
    ext rest
    simp only [Set.mem_ofPred_eq, ih fun d hd => h d (List.mem_cons_of_mem _ hd)]
    constructor
    · rintro ⟨_, rfl, word', rfl, hrest⟩
      exact ⟨word', rfl, hrest⟩
    · rintro ⟨word', rfl, hrest⟩
      exact ⟨literal ++ word', rfl, word', rfl, hrest⟩

/-- **Where a literal part stands at the front, the star before it may be forgotten**
once a star follows: whatever the first star could take, the second can. -/
theorem rests_star_literal (h : ∀ c ∈ literal, c ≠ star) :
    Rests star (star :: (literal ++ star :: pattern)) (literal ++ word)
      = Rests star (star :: pattern) word := by
  rw [rests_star]
  ext rest
  simp only [Set.mem_ofPred_eq, rests_literal h]
  constructor
  · rintro ⟨_, hsuffix, word', rfl, hrest⟩
    -- the occurrence taken is not before the front one
    have hlength : word'.length ≤ word.length := by
      have hle := hsuffix.length_le
      simp only [List.length_append] at hle
      omega
    have hsuffix' : word' <:+ literal ++ word := (List.suffix_append literal word').trans hsuffix
    exact rests_star_mono
      (List.suffix_of_suffix_length_le hsuffix' (List.suffix_append literal word) hlength) hrest
  · intro hrest
    exact ⟨literal ++ word, List.suffix_rfl, word, rfl, hrest⟩

/-- Behind a star and a last literal part, nothing longer is left than behind the part's
first occurrence. -/
theorem rests_star_last (h : ∀ c ∈ literal, c ≠ star) :
    word ∈ Rests star (star :: literal) (literal ++ word) ∧
      ∀ rest ∈ Rests star (star :: literal) (literal ++ word), rest <:+ word := by
  have hliteral : ∀ word', Rests star literal word' = {rest | word' = literal ++ rest} := by
    intro word'
    have hsplit : Rests star (literal ++ []) word' = _ := rests_literal h
    simpa using hsplit
  simp only [rests_star, hliteral, Set.mem_ofPred_eq]
  refine ⟨⟨literal ++ word, List.suffix_rfl, rfl⟩, ?_⟩
  rintro rest ⟨_, hsuffix, rfl⟩
  have hlength : rest.length ≤ word.length := by
    have hle := hsuffix.length_le
    simp only [List.length_append] at hle
    omega
  exact List.suffix_of_suffix_length_le ((List.suffix_append literal rest).trans hsuffix)
    (List.suffix_append literal word) hlength

end Globs
