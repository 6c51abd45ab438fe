/-
robots.txt patterns: what the hand-written matcher accepts.

The loop keeps the last star it met and where in the path it resumes from it.
At every round the prefixes of the path that the whole pattern matches are those
the rest of the pattern, from that star on, matches from there on (`Placed`).

* `globLoop_answer` — the loop stops at the shortest prefix the pattern matches,
  if there is one;
* `globMatches_unanchored` — without an anchor it accepts iff there is one;
* `globMatches_anchored` — with an anchor it accepts iff the whole path matches
  and no shorter prefix does;
* `globMatches_documented_iff` — so it is the documented matcher, except where an
  anchored pattern matches the path and a shorter prefix of it as well.
-/
import MjlSearch.Globs
import MjlSearch.Robots

open Text Globs

namespace Robots

variable {pattern text : Str} {anchored : Bool} {patternAt textAt resumeAt : ℕ}
  {starAt : Option ℕ}

/-- What the cursors of the loop stand for: either no star was met, and what they have
passed matched letter by letter; or a literal part behind the last star matched where
the loop resumed, and nothing that the whole pattern matches was lost. -/
def Placed (pattern text : Str) (patternAt textAt : ℕ) (starAt : Option ℕ) (resumeAt : ℕ) :
    Prop :=
  match starAt with
  | none =>
    Rests '*' pattern text = Rests '*' (pattern.drop patternAt) (text.drop textAt)
  | some star =>
    ∃ literal, (∀ c ∈ literal, c ≠ '*') ∧
      pattern.drop (star + 1) = literal ++ pattern.drop patternAt ∧
      text.drop resumeAt = literal ++ text.drop textAt ∧
      Rests '*' pattern text = Rests '*' ('*' :: pattern.drop (star + 1)) (text.drop resumeAt)

theorem Placed.start : Placed pattern text 0 0 none 0 := by
  simp [Placed]

theorem drop_of_getElem? {s : Str} {i : ℕ} {c : Char} (h : s[i]? = some c) :
    s.drop i = c :: s.drop (i + 1) := by
  obtain ⟨hlt, hget⟩ := List.getElem?_eq_some_iff.mp h
  rw [← hget]
  exact List.drop_eq_getElem_cons hlt

/-- A star: the literal part before it has matched, so the star before that may go. -/
theorem Placed.star (h : Placed pattern text patternAt textAt starAt resumeAt)
    (hstar : pattern[patternAt]? = some '*') :
    Placed pattern text (patternAt + 1) textAt (some patternAt) textAt := by
  have hdrop := drop_of_getElem? hstar
  refine ⟨[], by simp, by simp, by simp, ?_⟩
  rcases starAt with _ | star
  · rw [show Rests '*' pattern text = _ from h, hdrop]
  · obtain ⟨literal, hliteral, hpattern, htext, hrests⟩ := h
    rw [hrests, hpattern, htext, hdrop, rests_star_literal hliteral]

/-- A letter that both have moves the two cursors on. -/
theorem Placed.letter {c : Char} (h : Placed pattern text patternAt textAt starAt resumeAt)
    (hc : c ≠ '*') (hpattern : pattern[patternAt]? = some c) (htext : text[textAt]? = some c) :
    Placed pattern text (patternAt + 1) (textAt + 1) starAt resumeAt := by
  have hpattern := drop_of_getElem? hpattern
  have htext := drop_of_getElem? htext
  rcases starAt with _ | star
  · show Rests '*' pattern text = _
    rw [show Rests '*' pattern text = _ from h, hpattern, htext, rests_cons_self hc]
  · obtain ⟨literal, hliteral, hbehind, hresumed, hrests⟩ := h
    refine ⟨literal ++ [c], ?_, ?_, ?_, hrests⟩
    · intro d hd
      rcases List.mem_append.mp hd with hd | hd
      · exact hliteral d hd
      · rwa [List.mem_singleton.mp hd]
    · rw [hbehind, hpattern, List.append_assoc]
      rfl
    · rw [hresumed, htext, List.append_assoc]
      rfl

/-- Where the pattern's next letter is not the path's, the last star takes one letter
more, and nothing is lost. -/
theorem Placed.resume {c : Char} {star : ℕ}
    (h : Placed pattern text patternAt textAt (some star) resumeAt) (hc : c ≠ '*')
    (hpattern : pattern[patternAt]? = some c) (htext : text[textAt]? ≠ some c) :
    (text.length < resumeAt + 1 → Rests '*' pattern text = ∅) ∧
      Placed pattern text (star + 1) (resumeAt + 1) (some star) (resumeAt + 1) := by
  obtain ⟨literal, hliteral, hbehind, hresumed, hrests⟩ := h
  -- the literal part and the letter behind it do not stand where the loop resumed
  have hnone : Rests '*' (pattern.drop (star + 1)) (text.drop resumeAt) = ∅ := by
    rw [hbehind, hresumed, drop_of_getElem? hpattern, rests_literal hliteral]
    refine Set.eq_empty_of_forall_notMem fun rest => ?_
    rintro ⟨word', hword, hrest⟩
    rw [← List.append_cancel_left hword,
      rests_cons_other hc (by rwa [List.head?_drop])] at hrest
    exact hrest
  by_cases hend : text.length < resumeAt + 1
  · have hempty : text.drop resumeAt = [] := List.drop_eq_nil_of_le (by omega)
    have hempty' : text.drop (resumeAt + 1) = [] := List.drop_eq_nil_of_le (by omega)
    rw [hempty] at hrests hnone
    refine ⟨fun _ => by rw [hrests, rests_star_nil, hnone], [], by simp, by simp, by simp, ?_⟩
    rw [hrests, hempty']
  · refine ⟨fun hlt => absurd hlt hend, [], by simp, by simp, by simp, ?_⟩
    have hcons : text.drop resumeAt = text[resumeAt] :: text.drop (resumeAt + 1) :=
      List.drop_eq_getElem_cons (by omega)
    rw [hcons] at hrests hnone
    rw [hrests, rests_star_cons, hnone, Set.empty_union]

theorem Placed.star_le {star : ℕ}
    (h : Placed pattern text patternAt textAt (some star) resumeAt)
    (hlt : patternAt < pattern.length) : star + 1 ≤ pattern.length := by
  obtain ⟨literal, _, hbehind, _⟩ := h
  have hlength := congrArg List.length hbehind
  simp only [List.length_drop, List.length_append] at hlength
  omega

/-- Where no star was met, a letter that differs ends the search. -/
theorem Placed.differs {c : Char} (h : Placed pattern text patternAt textAt none resumeAt)
    (hc : c ≠ '*') (hpattern : pattern[patternAt]? = some c) (htext : text[textAt]? ≠ some c) :
    Rests '*' pattern text = ∅ := by
  rw [show Rests '*' pattern text = _ from h, drop_of_getElem? hpattern]
  exact rests_cons_other hc (by rwa [List.head?_drop])

/-- At the end of the pattern, the shortest prefix it matches has been passed. -/
theorem Placed.exhausted (h : Placed pattern text pattern.length textAt starAt resumeAt) :
    text.drop textAt ∈ Rests '*' pattern text ∧
      ∀ rest ∈ Rests '*' pattern text, rest <:+ text.drop textAt := by
  have hdrop : pattern.drop pattern.length = [] := List.drop_length
  rcases starAt with _ | star
  · rw [show Rests '*' pattern text = _ from h, hdrop, rests_nil]
    refine ⟨rfl, ?_⟩
    rintro rest rfl
    exact List.suffix_rfl
  · obtain ⟨literal, hliteral, hbehind, hresumed, hrests⟩ := h
    rw [hdrop, List.append_nil] at hbehind
    rw [hrests, hbehind, hresumed]
    exact rests_star_last hliteral

/-- What the loop answers: the pattern matches no prefix of the path, or the shortest
prefix it matches is the whole path or need not be. -/
def Answer (pattern text : Str) (anchored answer : Bool) : Prop :=
  (Rests '*' pattern text = ∅ ∧ answer = false) ∨
    ∃ rest ∈ Rests '*' pattern text, (∀ other ∈ Rests '*' pattern text, other <:+ rest) ∧
      answer = (!anchored || rest.isEmpty)

/-- **The loop stops at the shortest prefix of the path that the pattern matches.** -/
theorem globLoop_answer {fuel : ℕ} {answer : Bool} (hpattern : patternAt ≤ pattern.length)
    (htext : textAt ≤ text.length)
    (h : globLoop pattern text anchored fuel patternAt textAt starAt resumeAt = some answer)
    (hplaced : Placed pattern text patternAt textAt starAt resumeAt) :
    Answer pattern text anchored answer := by
  -- one case for each branch of a round
  induction fuel generalizing patternAt textAt starAt resumeAt with
  | zero => exact absurd h (by simp [globLoop])
  | succ fuel ih =>
    unfold globLoop at h
    by_cases hstar : pattern[patternAt]? = some '*'
    · rw [if_pos hstar] at h
      have hlt : patternAt < pattern.length := (List.getElem?_eq_some_iff.mp hstar).1
      exact ih hlt htext h (hplaced.star hstar)
    · rw [if_neg hstar] at h
      by_cases hletter : patternAt < pattern.length ∧ textAt < text.length ∧
          pattern[patternAt]? = text[textAt]?
      · rw [if_pos hletter] at h
        obtain ⟨hlt, hlt', hsame⟩ := hletter
        have hget : text[textAt]? = some text[textAt] := List.getElem?_eq_getElem hlt'
        rw [hget] at hsame
        refine ih hlt hlt' h (hplaced.letter (fun hc => hstar ?_) hsame hget)
        rw [hsame, hc]
      · rw [if_neg hletter] at h
        by_cases hend : patternAt = pattern.length
        · rw [if_pos hend] at h
          subst hend
          obtain ⟨hmem, hleast⟩ := hplaced.exhausted
          refine Or.inr ⟨_, hmem, hleast, ?_⟩
          have hdone : (text.drop textAt).isEmpty = (textAt == text.length) := by
            rw [Bool.eq_iff_iff, List.isEmpty_iff, List.drop_eq_nil_iff, beq_iff_eq]
            omega
          rw [hdone]
          exact (Option.some.inj h).symm
        · rw [if_neg hend] at h
          -- the pattern's next letter is not the path's
          have hlt : patternAt < pattern.length := by omega
          have hget : pattern[patternAt]? = some pattern[patternAt] :=
            List.getElem?_eq_getElem hlt
          have hc : pattern[patternAt] ≠ '*' := fun hc => hstar (by rw [hget, hc])
          have hother : text[textAt]? ≠ some pattern[patternAt] := by
            intro hsame
            have hlt' : textAt < text.length := (List.getElem?_eq_some_iff.mp hsame).1
            exact hletter ⟨hlt, hlt', by rw [hget, hsame]⟩
          rcases starAt with _ | star
          · exact Or.inl ⟨hplaced.differs hc hget hother, (Option.some.inj h).symm⟩
          · obtain ⟨hnone, hplaced'⟩ := hplaced.resume hc hget hother
            dsimp only at h
            by_cases hlast : text.length < resumeAt + 1
            · rw [if_pos hlast] at h
              exact Or.inl ⟨hnone hlast, (Option.some.inj h).symm⟩
            · rw [if_neg hlast] at h
              exact ih (hplaced.star_le hlt) (by omega) h hplaced'

theorem globMatches_answer (pattern text : Str) (anchored : Bool) :
    Answer pattern text anchored (globMatches pattern text anchored) := by
  obtain ⟨answer, hanswer⟩ :=
    Option.isSome_iff_exists.mp (globMatches_isSome pattern text anchored)
  have hmatches : globMatches pattern text anchored = answer := by
    rw [globMatches, hanswer]
    rfl
  rw [hmatches]
  exact globLoop_answer (Nat.zero_le _) (Nat.zero_le _) hanswer Placed.start

/-- **Without an anchor, a pattern is accepted iff it matches a prefix of the path.** -/
theorem globMatches_unanchored (pattern text : Str) :
    globMatches pattern text false = true ↔
      ∃ front, front <+: text ∧ Matches '*' pattern front := by
  rw [← rests_nonempty_iff]
  rcases globMatches_answer pattern text false with ⟨hnone, hanswer⟩ | ⟨rest, hrest, _, hanswer⟩
  · simp [hnone, hanswer]
  · simpa [hanswer] using ⟨rest, hrest⟩

/-- **With an anchor, a pattern is accepted iff it matches the whole path and no shorter
prefix of it.** -/
theorem globMatches_anchored (pattern text : Str) :
    globMatches pattern text true = true ↔ Matches '*' pattern text ∧
      ∀ front, front <+: text → Matches '*' pattern front → front = text := by
  rcases globMatches_answer pattern text true with
    ⟨hnone, hanswer⟩ | ⟨rest, ⟨front, hfront, hmatch⟩, hleast, hanswer⟩
  · have hwhole : ¬ Matches '*' pattern text := by
      rw [← mem_rests_self, hnone]
      exact id
    simp [hanswer, hwhole]
  · simp only [hanswer, Bool.not_true, Bool.false_or, List.isEmpty_iff]
    constructor
    · rintro rfl
      rw [List.append_nil] at hfront
      subst hfront
      refine ⟨hmatch, fun other ⟨rest, hother⟩ hmatch' => ?_⟩
      -- what any matched prefix leaves is a suffix of nothing
      have hempty : rest = [] := List.suffix_nil.mp (hleast rest ⟨other, hother, hmatch'⟩)
      rw [← hother, hempty, List.append_nil]
    · rintro ⟨_, hshortest⟩
      have hself : front = text := hshortest front ⟨rest, hfront⟩ hmatch
      rw [hself] at hfront
      simpa using hfront

/-! ### The documented matcher -/

/-- What the matcher is documented to accept: a pattern that matches the whole path, if it
is anchored, and one that matches a prefix of the path otherwise. -/
def Documented (pattern text : Str) (anchored : Bool) : Prop :=
  if anchored then Matches '*' pattern text
  else ∃ front, front <+: text ∧ Matches '*' pattern front

/-- A path that a pattern matches as a whole, and of which it matches a shorter prefix. -/
def MatchesTwice (pattern text : Str) : Prop :=
  Matches '*' pattern text ∧ ∃ front, front <+: text ∧ front ≠ text ∧ Matches '*' pattern front

theorem matchPath_anchored_isSome (pattern path : Str) :
    (matchPath (pattern ++ ['$']) path).isSome = globMatches pattern path true := by
  have hlast : ((pattern ++ ['$']).getLast? == some '$') = true := by simp
  rw [matchPath]
  simp only [hlast, if_true, List.dropLast_concat]
  rcases globMatches pattern path true with _ | _
  · rfl
  · rfl

theorem globMatches_documented_iff (pattern text : Str) (anchored : Bool) :
    (globMatches pattern text anchored = true ↔ Documented pattern text anchored) ↔
      ¬ (anchored = true ∧ MatchesTwice pattern text) := by
  rcases anchored with _ | _
  · simp [globMatches_unanchored, Documented]
  · rw [globMatches_anchored]
    simp only [Documented, if_true, true_and, MatchesTwice]
    constructor
    · rintro hsame ⟨hwhole, front, hprefix, hne, hmatch⟩
      exact hne ((hsame.mpr hwhole).2 front hprefix hmatch)
    · intro honce
      refine ⟨fun h => h.1, fun hwhole => ⟨hwhole, fun front hprefix hmatch => ?_⟩⟩
      by_contra hne
      exact honce ⟨hwhole, front, hprefix, hne, hmatch⟩

/-- **The matcher stops, and is the documented one unless an anchored pattern matches the
path twice**; then it refuses a path that it should accept. -/
theorem glob_documented_iff (pattern path : Str) (anchored : Bool) :
    (globLoop pattern path anchored ((path.length + 2) * (pattern.length + 1)) 0 0 none 0
        = some (globMatches pattern path anchored)) ∧
      ((globMatches pattern path anchored = true ↔ Documented pattern path anchored) ↔
        ¬ (anchored = true ∧ MatchesTwice pattern path)) ∧
      (((matchPath (pattern ++ ['$']) path).isSome = true ↔ Matches '*' pattern path) ↔
        ¬ MatchesTwice pattern path) := by
  refine ⟨?_, globMatches_documented_iff pattern path anchored, ?_⟩
  · obtain ⟨answer, hanswer⟩ :=
      Option.isSome_iff_exists.mp (globMatches_isSome pattern path anchored)
    rw [globMatches, hanswer]
    rfl
  · have hanchored := globMatches_documented_iff pattern path true
    rw [matchPath_anchored_isSome]
    simpa [Documented] using hanchored

/-- **A rule for all `.php` files misses one**: the anchored pattern `/*.php` matches the
path `/a.php.php`, but the matcher is content with `/a.php` and then refuses it. -/
theorem anchored_php_missed :
    globMatches "/*.php".toList "/a.php.php".toList true = false ∧
      Documented "/*.php".toList "/a.php.php".toList true ∧
      matchPath "/*.php$".toList "/a.php.php".toList = none := by
  refine ⟨by decide, ?_, by decide⟩
  refine ⟨[['/'], "a.php".toList, ['.'], ['p'], ['h'], ['p']], ?_, rfl⟩
  simp

end Robots
