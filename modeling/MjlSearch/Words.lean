/-
The words of a list: its longest runs of elements that are not blank.

* `words_append` — two lists that meet at a blank have their words one after the other;
* `length_words_append` — two that meet within a word have one word less;
* `words_append_iff` — when a word may be put for what follows a list.
-/
import Mathlib.Data.List.Basic
import Mathlib.Data.List.TakeWhile

namespace Words

variable {α : Type*} (blank : α → Bool)

/-- The words of a list that a word's beginning stands before. -/
def wordsFrom : List α → List α → List (List α)
  | current, [] => if current = [] then [] else [current]
  | current, a :: s =>
    if blank a then
      if current = [] then wordsFrom [] s else current :: wordsFrom [] s
    else wordsFrom (current ++ [a]) s

def words (s : List α) : List (List α) := wordsFrom blank [] s

/-- Two lists do not meet within a word. -/
def Apart (s t : List α) : Prop :=
  ∀ a ∈ s.getLast?, ∀ b ∈ t.head?, blank a = true ∨ blank b = true

variable {blank} {s t current : List α} {a : α}

@[simp] theorem words_nil : words blank [] = [] := rfl

theorem words_cons_blank (ha : blank a = true) : words blank (a :: s) = words blank s := by
  rw [words, wordsFrom, if_pos ha, if_pos rfl]
  rfl

/-! ### Where lists meet -/

theorem wordsFrom_append_cons (ha : blank a = true) (current s t : List α) :
    wordsFrom blank current (s ++ a :: t) = wordsFrom blank current s ++ words blank t := by
  induction s generalizing current with
  | nil =>
    rw [List.nil_append, wordsFrom, wordsFrom, if_pos ha]
    split
    · rfl
    · rfl
  | cons b s ih =>
    rw [List.cons_append, wordsFrom, wordsFrom]
    split
    · split
      · exact ih _
      · rw [ih, List.cons_append]
    · exact ih _

/-- A blank ends a word. -/
theorem words_append_cons (ha : blank a = true) (s t : List α) :
    words blank (s ++ a :: t) = words blank s ++ words blank t :=
  wordsFrom_append_cons ha [] s t

theorem words_concat_blank (ha : blank a = true) (s : List α) :
    words blank (s ++ [a]) = words blank s := by
  rw [words_append_cons ha, words_nil, List.append_nil]

/-- **Lists that do not meet within a word have their words one after the other.** -/
theorem words_append (h : Apart blank s t) : words blank (s ++ t) = words blank s ++ words blank t := by
  rcases t with _ | ⟨b, t⟩
  · rw [List.append_nil, words_nil, List.append_nil]
  · rcases List.eq_nil_or_concat s with rfl | ⟨front, a, rfl⟩
    · rfl
    · -- the one that is blank ends the word, or begins none
      rcases h a (by simp) b rfl with ha | hb
      · rw [List.concat_eq_append, List.append_assoc, List.singleton_append, words_append_cons ha,
          words_concat_blank ha]
      · rw [words_append_cons hb, words_cons_blank hb]

/-- How many words there are does not depend on how the first began. -/
theorem length_wordsFrom {current' : List α} (h : current ≠ []) (h' : current' ≠ []) (s : List α) :
    (wordsFrom blank current s).length = (wordsFrom blank current' s).length := by
  induction s generalizing current current' with
  | nil => rw [wordsFrom, wordsFrom, if_neg h, if_neg h', List.length_singleton, List.length_singleton]
  | cons a s ih =>
    rw [wordsFrom, wordsFrom]
    split
    · rw [List.length_cons, List.length_cons]
    · exact ih (by simp) (by simp)

theorem length_wordsFrom_append {b : α} (ha : blank a = false) (hb : blank b = false)
    (current s t : List α) :
    (wordsFrom blank current (s ++ a :: b :: t)).length + 1 =
      (wordsFrom blank current (s ++ [a])).length + (words blank (b :: t)).length := by
  induction s generalizing current with
  | nil =>
    have hfalse : ∀ {c : α}, blank c = false → ¬ blank c = true := fun hc => by simp [hc]
    rw [List.nil_append, List.nil_append, words, wordsFrom, if_neg (hfalse ha), wordsFrom,
      if_neg (hfalse hb), wordsFrom, if_neg (hfalse ha), wordsFrom, if_neg (by simp), wordsFrom,
      if_neg (hfalse hb), List.length_singleton, Nat.add_comm 1]
    congr 1
    exact length_wordsFrom (by simp) (by simp) t
  | cons c s ih =>
    rw [List.cons_append, List.cons_append, wordsFrom, wordsFrom]
    split
    · split
      · exact ih _
      · -- a word ends here on both sides
        rw [List.length_cons, List.length_cons]
        have := ih []
        omega
    · exact ih _

/-- **Lists that meet within a word have one word less.** -/
theorem length_words_append (h : ¬ Apart blank s t) :
    (words blank (s ++ t)).length + 1 = (words blank s).length + (words blank t).length := by
  simp only [Apart, not_forall, not_or, Bool.not_eq_true] at h
  obtain ⟨a, hlast, b, hhead, ha, hb⟩ := h
  obtain ⟨front, rfl⟩ := List.getLast?_eq_some_iff.mp hlast
  obtain ⟨back, rfl⟩ := List.head?_eq_some_iff.mp hhead
  rw [List.append_assoc]
  exact length_wordsFrom_append ha hb [] front back

/-! ### What is in the words -/

theorem flatten_wordsFrom (current s : List α) :
    (wordsFrom blank current s).flatten = current ++ s.filter fun a => !blank a := by
  induction s generalizing current with
  | nil =>
    rw [wordsFrom]
    split
    · rename_i h
      simp [h]
    · simp
  | cons a s ih =>
    rw [wordsFrom]
    by_cases ha : blank a = true
    · rw [if_pos ha, List.filter_cons_of_neg (by simp [ha])]
      split
      · rename_i h
        rw [ih, h]
      · rw [List.flatten_cons, ih, List.nil_append]
    · rw [if_neg ha, ih, List.filter_cons_of_pos (by simpa using ha), List.append_assoc]
      rfl

/-- The words hold what is not blank. -/
theorem flatten_words (s : List α) : (words blank s).flatten = s.filter fun a => !blank a :=
  flatten_wordsFrom [] s

theorem wordsFrom_of_no_blank (hs : ∀ a ∈ s, blank a = false) (hne : current ++ s ≠ []) :
    wordsFrom blank current s = [current ++ s] := by
  induction s generalizing current with
  | nil =>
    rw [List.append_nil] at hne ⊢
    rw [wordsFrom, if_neg hne]
  | cons a s ih =>
    rw [List.forall_mem_cons] at hs
    rw [wordsFrom, if_neg (by simp [hs.1]), ih hs.2 (by simp)]
    simp

/-- What has no blank is one word. -/
theorem words_of_no_blank (hs : ∀ a ∈ s, blank a = false) (hne : s ≠ []) : words blank s = [s] :=
  wordsFrom_of_no_blank hs hne

theorem words_eq_nil : words blank s = [] ↔ ∀ a ∈ s, blank a = true := by
  constructor
  · intro h
    have hflatten : (words blank s).flatten = s.filter fun a => !blank a := flatten_words s
    rw [h, List.flatten_nil, eq_comm, List.filter_eq_nil_iff] at hflatten
    exact fun a ha => by simpa using hflatten a ha
  · intro h
    induction s with
    | nil => rfl
    | cons a s ih =>
      rw [List.forall_mem_cons] at h
      rw [words_cons_blank h.1, ih h.2]

theorem mem_wordsFrom (hcurrent : ∀ a ∈ current, blank a = false) {word : List α}
    (h : word ∈ wordsFrom blank current s) : word ≠ [] ∧ ∀ a ∈ word, blank a = false := by
  induction s generalizing current with
  | nil =>
    rw [wordsFrom] at h
    split at h
    · cases h
    · rename_i hne
      rw [List.mem_singleton.mp h]
      exact ⟨hne, hcurrent⟩
  | cons a s ih =>
    rw [wordsFrom] at h
    split at h
    · split at h
      · exact ih (List.forall_mem_nil _) h
      · rename_i hne
        rcases List.mem_cons.mp h with rfl | h
        · exact ⟨hne, hcurrent⟩
        · exact ih (List.forall_mem_nil _) h
    · rename_i ha
      refine ih (fun b hb => ?_) h
      rcases List.mem_append.mp hb with hb | hb
      · exact hcurrent b hb
      · rw [List.mem_singleton.mp hb]
        simpa using ha

/-- A word is not empty and has no blank. -/
theorem mem_words {word : List α} (h : word ∈ words blank s) :
    word ≠ [] ∧ ∀ a ∈ word, blank a = false :=
  mem_wordsFrom (List.forall_mem_nil _) h

/-- Words that blanks stand between are the words of what they make. -/
theorem words_intercalate {b : α} (hb : blank b = true) {ws : List (List α)}
    (h : ∀ word ∈ ws, word ≠ [] ∧ ∀ a ∈ word, blank a = false) :
    words blank ([b].intercalate ws) = ws := by
  induction ws with
  | nil => rfl
  | cons word ws ih =>
    rw [List.forall_mem_cons] at h
    rcases ws with _ | ⟨next, ws⟩
    · rw [List.intercalate_singleton]
      exact words_of_no_blank h.1.2 h.1.1
    · rw [List.intercalate_cons_cons, List.append_assoc, List.singleton_append,
        words_append_cons hb, words_of_no_blank h.1.2 h.1.1, ih h.2]
      rfl

/-! ### Putting a word for what follows -/

/-- What begins a word, and the rest of a list. -/
theorem exists_first_word (hhead : ∀ a ∈ s.head?, blank a = false) :
    ∃ word rest, s = word ++ rest ∧ (∀ a ∈ word, blank a = false) ∧
      (∀ a ∈ rest.head?, blank a = true) ∧ (s ≠ [] → word ≠ []) := by
  refine ⟨s.takeWhile fun a => !blank a, s.dropWhile fun a => !blank a,
    (List.takeWhile_append_dropWhile).symm, fun a ha => ?_, fun a ha => ?_, fun hne => ?_⟩
  · simpa using List.mem_takeWhile_imp ha
  · have hnot := List.head?_dropWhile_not (fun a => !blank a) s
    rw [Option.mem_def.mp ha] at hnot
    simpa using hnot
  · obtain ⟨a, t, rfl⟩ := List.exists_cons_of_ne_nil hne
    rw [List.takeWhile_cons_of_pos (by simp [hhead a rfl])]
    exact List.cons_ne_nil _ _

/-- Where a list with a word behind it meets that word. -/
theorem apart_word {word : List α} (hword : ∀ a ∈ word, blank a = false) (hne : word ≠ []) :
    Apart blank s word ↔ ∀ a ∈ s.getLast?, blank a = true := by
  obtain ⟨b, word, rfl⟩ := List.exists_cons_of_ne_nil hne
  have hb := hword b (List.mem_cons_self ..)
  refine forall_congr' fun a => forall_congr' fun _ => ?_
  constructor
  · intro h
    exact (h b rfl).resolve_right (by simp [hb])
  · exact fun h _ _ => .inl h

theorem filter_no_blank {word : List α} (hword : ∀ a ∈ word, blank a = false) :
    (word.filter fun a => !blank a) = word :=
  List.filter_eq_self.mpr fun a ha => by simp [hword a ha]

/-- Two words make the same of the words before them exactly when they are the same. -/
theorem words_append_word {word word' : List α} (hword : ∀ a ∈ word, blank a = false)
    (hword' : ∀ a ∈ word', blank a = false) (hne : word ≠ []) (hne' : word' ≠ []) :
    (words blank (s ++ word)).length = (words blank (s ++ word')).length ∧
      (words blank (s ++ word) = words blank (s ++ word') → word = word') := by
  constructor
  · by_cases hend : ∀ a ∈ s.getLast?, blank a = true
    · rw [words_append ((apart_word hword hne).mpr hend),
        words_append ((apart_word hword' hne').mpr hend), words_of_no_blank hword hne,
        words_of_no_blank hword' hne', List.length_append, List.length_append,
        List.length_singleton, List.length_singleton]
    · have hlength := length_words_append (mt (apart_word hword hne).mp hend)
      have hlength' := length_words_append (mt (apart_word hword' hne').mp hend)
      rw [words_of_no_blank hword hne, List.length_singleton] at hlength
      rw [words_of_no_blank hword' hne', List.length_singleton] at hlength'
      omega
  · intro h
    have hflatten := congrArg List.flatten h
    rw [flatten_words, flatten_words, List.filter_append, List.filter_append,
      filter_no_blank hword, filter_no_blank hword'] at hflatten
    exact List.append_cancel_left hflatten

/-- **When a word may be put for what follows a list**: it is the only word of what follows,
and no word goes on where what follows begins with a blank. -/
theorem words_append_iff {word : List α} (hword : ∀ a ∈ word, blank a = false) (hne : word ≠ [])
    (b : α) (t : List α) :
    words blank (s ++ word) = words blank (s ++ b :: t) ↔
      words blank (b :: t) = [word] ∧
        (blank b = true → ∀ a ∈ s.getLast?, blank a = true) := by
  by_cases hb : blank b = true
  · rw [words_append_cons hb, words_cons_blank hb, forall_prop_of_true hb]
    by_cases hend : ∀ a ∈ s.getLast?, blank a = true
    · rw [words_append ((apart_word hword hne).mpr hend), words_of_no_blank hword hne,
        List.append_cancel_left_eq, and_iff_left hend, eq_comm]
    · refine iff_of_false (fun h => ?_) fun h => hend h.2
      -- the word goes on, so what follows has none
      have hlength := length_words_append (mt (apart_word hword hne).mp hend)
      rw [h, words_of_no_blank hword hne, List.length_append, List.length_singleton] at hlength
      have hnone : words blank t = [] := List.length_eq_zero_iff.mp (by omega)
      have hflatten := congrArg List.flatten h
      rw [hnone, List.append_nil, flatten_words, flatten_words, List.filter_append,
        filter_no_blank hword] at hflatten
      exact hne (List.append_right_eq_self.mp hflatten)
  · rw [Bool.not_eq_true] at hb
    have hhead : ∀ a ∈ (b :: t).head?, blank a = false := fun a ha => by
      cases ha
      exact hb
    -- what follows begins with a word, and this word is compared
    obtain ⟨first, rest, ht, hfirst, hrest, hfirstne⟩ := exists_first_word hhead
    replace hfirstne := hfirstne (List.cons_ne_nil _ _)
    have hapart : ∀ front : List α, Apart blank front rest := fun _ _ _ c hc => .inr (hrest c hc)
    rw [and_iff_left fun h => by simp [hb] at h, ht, ← List.append_assoc,
      words_append (hapart _), words_append (hapart _), words_of_no_blank hfirst hfirstne]
    obtain ⟨hlength, hsame⟩ := words_append_word (s := s) hword hfirst hne hfirstne
    constructor
    · intro h
      -- both have the same number of words, so no other word follows
      have hlengths := congrArg List.length h
      rw [List.length_append] at hlengths
      have hnone : words blank rest = [] := List.length_eq_zero_iff.mp (by omega)
      rw [hnone, List.append_nil] at h ⊢
      rw [hsame h]
    · intro h
      rw [List.singleton_append, List.cons.injEq] at h
      rw [h.1, h.2, List.append_nil]

end Words
