/-
Streaming HTML extraction (`crawler::parser`), and what it owes to the chunks.

The rewriter delivers a text node in any number of chunks.  The text handlers decode and end
each chunk by itself, and the title is closed after its first, so what is extracted depends
on where the text was cut.

* `collapseWhitespace_eq` — collapsing leaves the words, with a space between any two;
* `chunkWords_iff` — a text node has the words of its chunks iff no cut lies within a
  reference or a word;
* `title_eq_iff` — when the first chunk is title enough;
* `chunking_iff` — when a page is what it is in one piece.
-/
import Mathlib.Algebra.Order.BigOperators.Group.List
import Mathlib.Algebra.Order.Ring.Nat
import MjlSearch.Entities
import MjlSearch.Policy
import MjlSearch.Words

open Text Entities OnePass Words Policy

namespace PageParser

/-! ### The source -/

/-- What the rewriter calls the handlers with, in the order of the document. -/
inductive Event
  /-- A text node, in chunks, within a `title` or within the `body` or both. -/
  | text (inTitle inBody : Bool) (first : Str) (rest : List Str)
  /-- A boilerplate element; the rewriter may refuse to watch for its end tag. -/
  | enter (onEndTag : Except Str Unit)
  /-- The end tag of one. -/
  | leave
  | anchor (href : Str)
  | base (href : Str)
  | description (content : Option Str)
  | openGraph (content : Option Str)

/-- Everything extracted from one page. -/
structure ParsedPage where
  title : Str
  text : Str
  links : List Str
  metaDescription : Option Str
deriving DecidableEq

/-- The variables of `parse` that the handlers write to. -/
structure State where
  title : Str
  text : Str
  links : List Str
  description : Option Str
  openGraphDescription : Option Str
  baseHref : Option Str
  skipDepth : ℕ
  titleTaken : Bool

namespace State

/-- The handler of text in a `title`. -/
def titleChunk (s : State) (chunk : Str) : State :=
  if s.titleTaken then s
  else { s with titleTaken := true, title := pushDecoded s.title chunk }

/-- The handler of text in the `body`. -/
def bodyChunk (s : State) (chunk : Str) : State :=
  if s.skipDepth = 0 then { s with text := pushDecoded s.text chunk ++ [' '] } else s

/-- The handlers of one chunk, in the order in which they were appended. -/
def chunk (inTitle inBody : Bool) (s : State) (chunk : Str) : State :=
  let s := if inTitle then s.titleChunk chunk else s
  if inBody then s.bodyChunk chunk else s

/-- The handlers of one event. -/
def step (s : State) : Event → Except Str State
  | .text inTitle inBody first rest => .ok ((first :: rest).foldl (chunk inTitle inBody) s)
  | .enter onEndTag => onEndTag.map fun _ => { s with skipDepth := s.skipDepth + 1 }
  | .leave => .ok { s with skipDepth := s.skipDepth - 1 }
  | .anchor href => .ok { s with links := s.links ++ [decodeEntities href] }
  | .base href => .ok { s with baseHref := some href }
  | .description content =>
    .ok { s with description := (content.map decodeEntities).or s.description }
  | .openGraph content =>
    .ok { s with openGraphDescription := (content.map decodeEntities).or s.openGraphDescription }

def run (s : State) (events : List Event) : Except Str State := events.foldlM step s

def start : State where
  title := []
  text := []
  links := []
  description := none
  openGraphDescription := none
  baseHref := none
  skipDepth := 0
  titleTaken := false

end State

/-- The loop of `collapse_whitespace`. -/
def collapseFrom (output : Str) (pendingSpace : Bool) : Str → Str
  | [] => output
  | character :: rest =>
    if isWhitespace character then collapseFrom output (decide (output ≠ [])) rest
    else collapseFrom ((if pendingSpace then output ++ [' '] else output) ++ [character]) false rest

/-- Collapses runs of whitespace into single spaces and trims the ends. -/
def collapseWhitespace (input : Str) : Str := collapseFrom [] false input

section

variable (urls : UrlCrate) (join : urls.Url → Str → Option urls.Url)

/-- One round of `resolve_links`: the URL that a raw `href` stands for. -/
def resolveLink (base : urls.Url) (candidate : Str) : Option Str := do
  let candidate := trim candidate
  if candidate = [] ∨ "#".toList <+: candidate then none
  else
    let resolved ← join base candidate
    if isHttp urls resolved then some (urls.toStr (urls.setFragment resolved none)) else none

/-- Resolves raw `href` values against a base, keeping only fetchable, unique URLs. -/
def resolveLinks (raw : List Str) (base : Str) : List Str :=
  match urls.parse base with
  | none => []
  | some base => raw.foldl (fun resolved candidate =>
      match resolveLink urls join base candidate with
      | none => resolved
      | some normalized => if normalized ∈ resolved then resolved else resolved ++ [normalized]) []

/-- The title of a page: its `title`, or its URL. -/
def titleOr (baseUrl title : Str) : Str :=
  let title := collapseWhitespace title
  if title = [] then baseUrl else title

/-- What `parse` makes of its variables. -/
def finish (baseUrl : Str) (s : State) : ParsedPage where
  title := titleOr baseUrl s.title
  text := collapseWhitespace s.text
  links := resolveLinks urls join s.links (s.baseHref.getD baseUrl)
  metaDescription := ((s.description.or s.openGraphDescription).map collapseWhitespace).filter
    fun value => value ≠ []

/-- Extracts title, text, links and metadata from HTML. -/
def parse (events : List Event) (baseUrl : Str) : Except Str ParsedPage :=
  (State.start.run events).map (finish urls join baseUrl)

end

/-! ### Words -/

/-- The words of a text. -/
abbrev wordsOf (s : Str) : List Str := words isWhitespace s

theorem intercalate_concat (separator word : Str) (ws : List Str) (hne : ws ≠ []) :
    separator.intercalate (ws ++ [word]) = separator.intercalate ws ++ separator ++ word := by
  induction ws with
  | nil => exact absurd rfl hne
  | cons first ws ih =>
    rcases ws with _ | ⟨second, ws⟩
    · simp
    · rw [List.cons_append, List.cons_append, List.intercalate_cons_cons, ← List.cons_append,
        ih (List.cons_ne_nil _ _), List.intercalate_cons_cons]
      simp

theorem intercalate_eq_nil {separator : Str} {ws : List Str} (h : ∀ word ∈ ws, word ≠ []) :
    separator.intercalate ws = [] ↔ ws = [] := by
  constructor
  · intro hnil
    rcases ws with _ | ⟨first, ws⟩
    · rfl
    · refine absurd ?_ (h first (List.mem_cons_self ..))
      rcases ws with _ | ⟨second, ws⟩
      · rwa [List.intercalate_singleton] at hnil
      · rw [List.intercalate_cons_cons, List.append_eq_nil_iff, List.append_eq_nil_iff] at hnil
        exact hnil.1.1
  · rintro rfl
    rfl

/-- The loop's output is the words so far; a space is pending when none of them is open. -/
theorem collapseFrom_eq (ws : List Str) (current : Str) (hws : ∀ word ∈ ws, word ≠ []) (s : Str) :
    collapseFrom ([' '].intercalate (ws ++ if current = [] then [] else [current]))
        (decide (current = [] ∧ ws ≠ [])) s =
      [' '].intercalate (ws ++ wordsFrom isWhitespace current s) := by
  induction s generalizing ws current with
  | nil => rw [collapseFrom, wordsFrom]
  | cons c s ih =>
    rw [collapseFrom, wordsFrom]
    by_cases hc : isWhitespace c = true
    · rw [if_pos hc, if_pos hc]
      by_cases hcurrent : current = []
      · -- white space behind white space changes nothing
        have hpending := ih ws [] hws
        simp only [if_true, List.append_nil, true_and] at hpending
        simpa only [hcurrent, if_true, List.append_nil, ne_eq, intercalate_eq_nil hws] using hpending
      · -- the word is complete
        have hws' : ∀ word ∈ ws ++ [current], word ≠ [] := by
          intro word hword
          rcases List.mem_append.mp hword with hword | hword
          · exact hws word hword
          · exact List.mem_singleton.mp hword ▸ hcurrent
        have hpending := ih (ws ++ [current]) [] hws'
        simp only [if_true, List.append_nil, true_and] at hpending
        simpa only [hcurrent, if_false, ne_eq, intercalate_eq_nil hws', List.append_assoc,
          List.singleton_append] using hpending
    · rw [if_neg hc, if_neg hc]
      -- the pending space is written before the word that it was pending for
      have hopen := ih ws (current ++ [c]) hws
      have hne : current ++ [c] ≠ [] := by simp
      rw [if_neg hne, decide_eq_false fun h => hne h.1] at hopen
      rw [← hopen]
      congr 1
      by_cases hcurrent : current = []
      · subst hcurrent
        rcases ws with _ | ⟨first, ws⟩
        · simp
        · rw [List.nil_append, intercalate_concat _ _ _ (List.cons_ne_nil _ _)]
          simp
      · -- the word goes on
        rw [decide_eq_false fun h => hcurrent h.1, if_neg hcurrent, if_neg Bool.false_ne_true]
        rcases ws with _ | ⟨first, ws⟩
        · simp
        · rw [intercalate_concat _ _ _ (List.cons_ne_nil _ _),
            intercalate_concat _ _ _ (List.cons_ne_nil _ _), List.append_assoc _ current]

/-- **Collapsing leaves the words, with one space between any two.** -/
theorem collapseWhitespace_eq (s : Str) :
    collapseWhitespace s = [' '].intercalate (wordsOf s) :=
  collapseFrom_eq [] [] (List.forall_mem_nil _) s

theorem wordsOf_collapse (s : Str) : wordsOf (collapseWhitespace s) = wordsOf s := by
  rw [collapseWhitespace_eq]
  exact words_intercalate (by decide) fun word hword => mem_words hword

/-- Texts are collapsed to the same exactly when they have the same words. -/
theorem collapseWhitespace_inj {s t : Str} :
    collapseWhitespace s = collapseWhitespace t ↔ wordsOf s = wordsOf t := by
  constructor
  · intro h
    rw [← wordsOf_collapse s, h, wordsOf_collapse]
  · intro h
    rw [collapseWhitespace_eq, collapseWhitespace_eq, h]

theorem collapseWhitespace_eq_nil {s : Str} : collapseWhitespace s = [] ↔ wordsOf s = [] := by
  have hnil : collapseWhitespace [] = [] := rfl
  rw [← hnil, collapseWhitespace_inj]
  rfl

theorem wordsOf_append {s t : Str} (h : Apart isWhitespace s t) :
    wordsOf (s ++ t) = wordsOf s ++ wordsOf t := words_append h

/-! ### Cuts -/

/-- How many characters of a text are not white space. -/
def ink (s : Str) : ℕ := (wordsOf s).flatten.length

theorem ink_eq (s : Str) : ink s = (s.filter fun c => !isWhitespace c).length := by
  rw [ink, flatten_words]

theorem ink_append (s t : Str) : ink (s ++ t) = ink s + ink t := by
  rw [ink_eq, ink_eq, ink_eq, List.filter_append, List.length_append]

theorem isWhitespace_of_isEntityChar {c : Char} (h : isEntityChar c = true) :
    isWhitespace c = false := by
  have hrange : (48 ≤ c.toNat ∧ c.toNat ≤ 57) ∨ (65 ≤ c.toNat ∧ c.toNat ≤ 90) ∨
      (97 ≤ c.toNat ∧ c.toNat ≤ 122) ∨ c.toNat = 35 ∨ c.toNat = 43 := by
    unfold isEntityChar Char.isAlphanum Char.isAlpha Char.isUpper Char.isLower Char.isDigit at h
    simp only [Bool.or_eq_true, Bool.and_eq_true, decide_eq_true_eq, beq_iff_eq, ge_iff_le,
      UInt32.le_iff_toNat_le] at h
    rcases h with (((h | h) | h) | rfl) | rfl
    · exact .inr (.inl h)
    · exact .inr (.inr (.inl h))
    · exact .inl h
    · exact .inr (.inr (.inr (.inl rfl)))
    · exact .inr (.inr (.inr (.inr rfl)))
  simp only [isWhitespace, decide_eq_false_iff_not, Bool.decide_or, Bool.or_eq_false_iff]
  omega

/-- A reference has no white space. -/
theorem accepted_no_blank {piece : Str} {a : Char} (h : Accepted piece a) :
    ∀ c ∈ piece, isWhitespace c = false := by
  obtain ⟨entity, rfl, -, -, hdecode⟩ := h
  intro c hc
  rcases List.mem_cons.mp hc with rfl | hc
  · decide
  · rcases List.mem_append.mp hc with hc | hc
    · exact isWhitespace_of_isEntityChar ((decodeEntity_chars hdecode).2 c hc)
    · rw [List.mem_singleton.mp hc]
      decide

variable {s t : Str}

theorem decodeEntities_append (h : CutsNone Accepted s t) :
    decodeEntities (s ++ t) = decodeEntities s ++ decodeEntities t :=
  decodeEntities_eq ((decodeEntities_replaced s).append (decodeEntities_replaced t) h)

/-- A reference that lies across a cut, and what is decoded on both sides of it. -/
structure Straddles (s t front piece back after : Str) (a : Char) : Prop where
  left : s = front ++ piece
  right : t = back ++ after
  piece_ne : piece ≠ []
  back_ne : back ≠ []
  accepted : Accepted (piece ++ back) a

theorem exists_straddles (h : ¬ CutsNone Accepted s t) :
    ∃ front piece back after a, Straddles s t front piece back after a := by
  simp only [CutsNone, not_forall, not_not] at h
  obtain ⟨piece, back, a, hpiece, hback, haccepted, ⟨front, hfront⟩, after, hafter⟩ := h
  exact ⟨front, piece, back, after, a, hfront.symm, hafter.symm, hpiece, hback, haccepted⟩

namespace Straddles

variable {front piece back after : Str} {a : Char} (h : Straddles s t front piece back after a)

include h

theorem decode : decodeEntities s = decodeEntities front ++ piece ∧
    decodeEntities t = back ++ decodeEntities after ∧
    decodeEntities (s ++ t) = decodeEntities front ++ a :: decodeEntities after := by
  obtain ⟨rfl, rfl, hpiece, hback, haccepted⟩ := h
  obtain ⟨hleft, hright, hwhole⟩ := Replaced.cut accepted_marked haccepted hpiece hback
    (decodeEntities_replaced front) (decodeEntities_replaced after)
  refine ⟨decodeEntities_eq hleft, decodeEntities_eq hright, ?_⟩
  rw [← decodeEntities_eq hwhole]
  simp

theorem piece_no_blank : ∀ c ∈ piece, isWhitespace c = false := fun c hc =>
  accepted_no_blank h.accepted c (List.mem_append_left _ hc)

theorem back_no_blank : ∀ c ∈ back, isWhitespace c = false := fun c hc =>
  accepted_no_blank h.accepted c (List.mem_append_right _ hc)

/-- A reference that is cut leaves more than its character. -/
theorem ink_lt : ink (decodeEntities (s ++ t)) < ink (decodeEntities s) + ink (decodeEntities t) := by
  obtain ⟨hleft, hright, hwhole⟩ := h.decode
  have hone : ink [a] ≤ 1 := by
    rw [ink_eq]
    exact List.length_filter_le _ _
  have hlong : ∀ part : Str, (∀ c ∈ part, isWhitespace c = false) → ink part = part.length :=
    fun part hpart => by rw [ink_eq, filter_no_blank hpart]
  have hpiece := List.length_pos_of_ne_nil h.piece_ne
  have hback := List.length_pos_of_ne_nil h.back_ne
  rw [hleft, hright, hwhole, List.append_cons, ink_append, ink_append, ink_append, ink_append,
    hlong piece h.piece_no_blank, hlong back h.back_no_blank]
  omega

end Straddles

/-- No cut between chunks lies within a reference. -/
def Uncut : List Str → Prop
  | [] => True
  | chunk :: rest => CutsNone Accepted chunk rest.flatten ∧ Uncut rest

/-- No cut between chunks lies within a reference or within a word. -/
def Whole : List Str → Prop
  | [] => True
  | chunk :: rest => (CutsNone Accepted chunk rest.flatten ∧
      Apart isWhitespace (decodeEntities chunk) (decodeEntities rest.flatten)) ∧ Whole rest

/-- The words of chunks that are decoded one by one. -/
def chunkWords (chunks : List Str) : List Str := chunks.flatMap fun chunk => wordsOf (decodeEntities chunk)

/-- The words of a text in one piece. -/
def textWords (chunks : List Str) : List Str := wordsOf (decodeEntities chunks.flatten)

theorem chunkWords_cons (chunk : Str) (rest : List Str) :
    chunkWords (chunk :: rest) = wordsOf (decodeEntities chunk) ++ chunkWords rest :=
  List.flatMap_cons

/-- A reference that is cut adds characters. -/
theorem uncut_of_ink (chunks : List Str) :
    (textWords chunks).flatten.length ≤ (chunkWords chunks).flatten.length ∧
      ((textWords chunks).flatten.length = (chunkWords chunks).flatten.length → Uncut chunks) := by
  induction chunks with
  | nil => exact ⟨Nat.le_refl _, fun _ => trivial⟩
  | cons chunk rest ih =>
    rw [chunkWords_cons, List.flatten_append, List.length_append]
    change ink (decodeEntities (chunk ++ rest.flatten)) ≤ ink (decodeEntities chunk) + _ ∧
      (ink (decodeEntities (chunk ++ rest.flatten)) = ink (decodeEntities chunk) + _ → _)
    change ink (decodeEntities rest.flatten) ≤ _ ∧ (ink (decodeEntities rest.flatten) = _ → _) at ih
    by_cases hcut : CutsNone Accepted chunk rest.flatten
    · rw [decodeEntities_append hcut, ink_append]
      exact ⟨by omega, fun h => ⟨hcut, ih.2 (by omega)⟩⟩
    · -- both parts of a reference are text, its character is one
      obtain ⟨front, piece, back, after, a, h⟩ := exists_straddles hcut
      have := h.ink_lt
      exact ⟨by omega, fun h => by omega⟩

/-- A word that is cut adds a word. -/
theorem whole_of_length {chunks : List Str} (huncut : Uncut chunks) :
    (textWords chunks).length ≤ (chunkWords chunks).length ∧
      ((textWords chunks).length = (chunkWords chunks).length → Whole chunks) := by
  induction chunks with
  | nil => exact ⟨Nat.le_refl _, fun _ => trivial⟩
  | cons chunk rest ih =>
    obtain ⟨hcut, huncut⟩ := huncut
    specialize ih huncut
    have htext : textWords (chunk :: rest) =
        wordsOf (decodeEntities chunk ++ decodeEntities rest.flatten) := by
      rw [textWords, List.flatten_cons, decodeEntities_append hcut]
    rw [htext, chunkWords_cons, List.length_append]
    rw [textWords] at ih
    by_cases hapart : Apart isWhitespace (decodeEntities chunk) (decodeEntities rest.flatten)
    · rw [wordsOf_append hapart, List.length_append]
      exact ⟨by omega, fun h => ⟨⟨hcut, hapart⟩, ih.2 (by omega)⟩⟩
    · -- two words are one when they are not cut
      have hlost := length_words_append hapart
      simp only [wordsOf] at ih ⊢
      exact ⟨by omega, fun h => by omega⟩

theorem Whole.words_eq {chunks : List Str} (h : Whole chunks) :
    chunkWords chunks = textWords chunks := by
  induction chunks with
  | nil => rfl
  | cons chunk rest ih =>
    obtain ⟨⟨hcut, hapart⟩, hrest⟩ := h
    rw [chunkWords_cons, ih hrest, textWords, textWords, List.flatten_cons,
      decodeEntities_append hcut, wordsOf_append hapart]

/-- Sums of terms of which none is larger are equal only if the terms are. -/
theorem eq_of_sum_eq {α : Type*} {l : List α} {f g : α → ℕ} (hle : ∀ a ∈ l, f a ≤ g a)
    (hsum : (l.map f).sum = (l.map g).sum) : ∀ a ∈ l, f a = g a := by
  by_contra hne
  simp only [not_forall] at hne
  obtain ⟨a, ha, hne⟩ := hne
  have hlt := List.sum_lt_sum f g hle ⟨a, ha, lt_of_le_of_ne (hle a ha) hne⟩
  omega

theorem length_flatten_flatMap {α : Type*} (l : List α) (f : α → List Str) :
    (l.flatMap f).flatten.length = (l.map fun a => (f a).flatten.length).sum := by
  induction l with
  | nil => rfl
  | cons a l ih => rw [List.flatMap_cons, List.flatten_append, List.length_append, ih, List.map_cons,
      List.sum_cons]

/-- **Text nodes have the words of their chunks iff no cut lies within a reference or a
word.** -/
theorem chunkWords_iff (nodes : List (List Str)) :
    nodes.flatMap chunkWords = nodes.flatMap textWords ↔ ∀ chunks ∈ nodes, Whole chunks := by
  constructor
  · intro heq
    -- first the characters are counted, then the words
    have hink := congrArg (fun ws : List Str => ws.flatten.length) heq
    rw [length_flatten_flatMap, length_flatten_flatMap] at hink
    have huncut : ∀ chunks ∈ nodes, Uncut chunks := fun chunks hchunks =>
      (uncut_of_ink chunks).2
        (eq_of_sum_eq (fun chunks _ => (uncut_of_ink chunks).1) hink.symm chunks hchunks)
    have hcount := congrArg List.length heq
    rw [List.length_flatMap, List.length_flatMap] at hcount
    exact fun chunks hchunks => (whole_of_length (huncut chunks hchunks)).2
      (eq_of_sum_eq (fun chunks h => (whole_of_length (huncut chunks h)).1) hcount.symm
        chunks hchunks)
  · intro h
    exact List.flatMap_congr fun chunks hchunks => (h chunks hchunks).words_eq

/-! ### Titles -/

/-- When the first chunk of a title is title enough: what follows it is white space; or it is
white space itself, and what follows is the page's URL; or it ends within a reference, and
what is decoded from there on is just what the chunk has of that reference. -/
inductive TitleKept (baseUrl first rest : Str) : Prop
  | blank (hcut : CutsNone Accepted first rest) (hrest : wordsOf (decodeEntities rest) = [])
  | url (hcut : CutsNone Accepted first rest) (hfirst : wordsOf (decodeEntities first) = [])
      (hrest : collapseWhitespace (decodeEntities rest) = baseUrl)
  | again {front piece back after : Str} {a : Char}
      (h : Straddles first rest front piece back after a)
      (hword : wordsOf (a :: decodeEntities after) = [piece])
      (hend : isWhitespace a = true → ∀ c ∈ (decodeEntities front).getLast?, isWhitespace c = true)
  | urlAgain {front piece back after : Str} {a : Char}
      (h : Straddles first rest front piece back after a)
      (hblank : wordsOf (decodeEntities front ++ a :: decodeEntities after) = [])
      (hurl : piece = baseUrl)

theorem titleOr_eq_iff {baseUrl s t : Str} :
    titleOr baseUrl s = titleOr baseUrl t ↔ wordsOf s = wordsOf t ∨
      (wordsOf s = [] ∧ collapseWhitespace t = baseUrl) ∨
      (wordsOf t = [] ∧ collapseWhitespace s = baseUrl) := by
  rw [← collapseWhitespace_inj, ← collapseWhitespace_eq_nil, ← collapseWhitespace_eq_nil]
  simp only [titleOr]
  by_cases hs : collapseWhitespace s = []
  · by_cases ht : collapseWhitespace t = []
    · simp [hs, ht]
    · rw [if_pos hs, if_neg ht]
      constructor
      · exact fun h => .inr (.inl ⟨hs, h.symm⟩)
      · rintro (h | ⟨-, h⟩ | ⟨h, -⟩)
        · exact absurd (h ▸ hs) ht
        · exact h.symm
        · exact absurd h ht
  · rw [if_neg hs]
    by_cases ht : collapseWhitespace t = []
    · rw [if_pos ht]
      constructor
      · exact fun h => .inr (.inr ⟨ht, h⟩)
      · rintro (h | ⟨h, -⟩ | ⟨-, h⟩)
        · exact absurd (h ▸ ht) hs
        · exact absurd h hs
        · exact h
    · rw [if_neg ht]
      simp [hs, ht]

theorem wordsOf_eq_append_iff {s t : Str} : wordsOf s = wordsOf (s ++ t) ↔ wordsOf t = [] := by
  constructor
  · intro h
    have hink := congrArg (fun ws : List Str => ws.flatten.length) h
    change ink s = ink (s ++ t) at hink
    rw [ink_append] at hink
    have hnone : (wordsOf t).flatten = [] := List.length_eq_zero_iff.mp (by change ink t = 0; omega)
    refine List.eq_nil_iff_forall_not_mem.mpr fun word hword => (mem_words hword).1 ?_
    exact List.flatten_eq_nil_iff.mp hnone word hword
  · intro h
    have hblank := words_eq_nil.mp h
    rw [wordsOf_append fun _ _ c hc => .inr (hblank c (List.mem_of_mem_head? hc)), h,
      List.append_nil]

theorem wordsOf_blank_append {s : Str} (h : wordsOf s = []) (t : Str) :
    wordsOf (s ++ t) = wordsOf t := by
  have hblank := words_eq_nil.mp h
  rw [wordsOf_append fun c hc _ _ => .inl (hblank c (List.mem_of_getLast? hc)), h,
    List.nil_append]

theorem wordsOf_nil_of_append {s t : Str} (h : wordsOf (s ++ t) = []) :
    wordsOf s = [] ∧ wordsOf t = [] := by
  have hblank := words_eq_nil.mp h
  constructor
  · exact words_eq_nil.mpr fun c hc => hblank c (List.mem_append_left _ hc)
  · exact words_eq_nil.mpr fun c hc => hblank c (List.mem_append_right _ hc)

/-- The part of a cut reference behind nothing but white space is the whole title. -/
theorem Straddles.collapse_piece {front piece back after : Str} {a : Char}
    (h : Straddles s t front piece back after a) (hfront : wordsOf (decodeEntities front) = []) :
    collapseWhitespace (decodeEntities front ++ piece) = piece := by
  rw [collapseWhitespace_eq, wordsOf_blank_append hfront, wordsOf,
    words_of_no_blank h.piece_no_blank h.piece_ne, List.intercalate_singleton]

/-- **When the title of a page is complete.** -/
theorem title_eq_iff {baseUrl first rest : Str} :
    titleOr baseUrl (decodeEntities first) = titleOr baseUrl (decodeEntities (first ++ rest)) ↔
      TitleKept baseUrl first rest := by
  rw [titleOr_eq_iff]
  constructor
  · intro h
    by_cases hcut : CutsNone Accepted first rest
    · rw [decodeEntities_append hcut, wordsOf_eq_append_iff] at h
      rcases h with h | ⟨hfirst, h⟩ | ⟨hwhole, -⟩
      · exact .blank hcut h
      · refine .url hcut hfirst ?_
        rw [← h]
        exact collapseWhitespace_inj.mpr (wordsOf_blank_append hfirst _).symm
      · exact .blank hcut (wordsOf_nil_of_append hwhole).2
    · obtain ⟨front, piece, back, after, a, hs⟩ := exists_straddles hcut
      obtain ⟨hleft, -, hwhole⟩ := hs.decode
      rw [hleft, hwhole] at h
      rcases h with h | ⟨h, -⟩ | ⟨hblank, h⟩
      · obtain ⟨hword, hend⟩ := (words_append_iff hs.piece_no_blank hs.piece_ne _ _).mp h
        exact .again hs hword hend
      · -- the chunk ends with a part of a reference, which is not white space
        obtain ⟨c, piece', hpiece⟩ := List.exists_cons_of_ne_nil hs.piece_ne
        have hc := hs.piece_no_blank c (by simp [hpiece])
        rw [words_eq_nil.mp h c (by simp [hpiece])] at hc
        cases hc
      · refine .urlAgain hs hblank ?_
        rw [← h]
        exact (hs.collapse_piece (wordsOf_nil_of_append hblank).1).symm
  · intro h
    cases h with
    | blank hcut hrest =>
      rw [decodeEntities_append hcut]
      exact .inl (wordsOf_eq_append_iff.mpr hrest)
    | url hcut hfirst hrest =>
      rw [decodeEntities_append hcut]
      refine .inr (.inl ⟨hfirst, ?_⟩)
      rw [← hrest]
      exact collapseWhitespace_inj.mpr (wordsOf_blank_append hfirst _)
    | again h hword hend =>
      obtain ⟨hleft, -, hwhole⟩ := h.decode
      rw [hleft, hwhole]
      exact .inl ((words_append_iff h.piece_no_blank h.piece_ne _ _).mpr ⟨hword, hend⟩)
    | urlAgain h hblank hurl =>
      obtain ⟨hleft, -, hwhole⟩ := h.decode
      rw [hleft, hwhole]
      refine .inr (.inr ⟨hblank, ?_⟩)
      rw [h.collapse_piece (wordsOf_nil_of_append hblank).1, hurl]

/-! ### Runs -/

/-- The same event, with its text in one piece. -/
def Event.whole : Event → Event
  | .text inTitle inBody first rest => .text inTitle inBody (first :: rest).flatten []
  | event => event

/-- The first text within a `title`, in its chunks. -/
def titleNode : List Event → Option (Str × List Str)
  | [] => none
  | .text true _ first rest :: _ => some (first, rest)
  | _ :: events => titleNode events

/-- The texts of the `body` outside of boilerplate, in their chunks. -/
def visible : ℕ → List Event → List (List Str)
  | _, [] => []
  | depth, .text _ inBody first rest :: events =>
    if inBody = true ∧ depth = 0 then (first :: rest) :: visible depth events
    else visible depth events
  | depth, .enter _ :: events => visible (depth + 1) events
  | depth, .leave :: events => visible (depth - 1) events
  | depth, _ :: events => visible depth events

/-- The rewriter refuses to watch for the end of a boilerplate element. -/
def Refused (events : List Event) : Prop := ∃ message, Event.enter (.error message) ∈ events

namespace State

/-- A state without what is written from texts. -/
def textless (s : State) : State := { s with title := [], text := [] }

theorem chunk_fields (inTitle inBody : Bool) (s : State) (c : Str) :
    s.chunk inTitle inBody c =
      { s with
        title := if inTitle = true ∧ s.titleTaken = false then s.title ++ decodeEntities c else s.title
        text := if inBody = true ∧ s.skipDepth = 0 then s.text ++ (decodeEntities c ++ [' '])
          else s.text
        titleTaken := s.titleTaken || inTitle } := by
  obtain ⟨title, text, links, description, openGraph, baseHref, skipDepth, titleTaken⟩ := s
  cases inTitle <;> cases inBody <;> cases titleTaken <;> by_cases hdepth : skipDepth = 0 <;>
    simp [chunk, titleChunk, bodyChunk, pushDecoded_eq, hdepth]

/-- What the chunks of a text do: the first may be the title, and each that is visible is
decoded and ended by itself. -/
theorem foldl_chunk (inTitle inBody : Bool) (s : State) (first : Str) (rest : List Str) :
    (first :: rest).foldl (chunk inTitle inBody) s =
      { s with
        title := if inTitle = true ∧ s.titleTaken = false then s.title ++ decodeEntities first
          else s.title
        text := if inBody = true ∧ s.skipDepth = 0 then
            s.text ++ (first :: rest).flatMap fun c => decodeEntities c ++ [' ']
          else s.text
        titleTaken := s.titleTaken || inTitle } := by
  induction rest generalizing first s with
  | nil =>
    rw [List.foldl_cons, List.foldl_nil, chunk_fields]
    simp
  | cons second rest ih =>
    rw [List.foldl_cons, ih, chunk_fields]
    cases inTitle <;> cases inBody <;> by_cases hdepth : s.skipDepth = 0 <;> simp [hdepth]

theorem run_cons (s : State) (e : Event) (events : List Event) :
    s.run (e :: events) = (s.step e).bind fun s' => s'.run events := by
  rw [run, List.foldlM_cons]
  rfl

/-- What is not written from texts does not depend on chunks. -/
theorem step_textless (s : State) (e : Event) :
    (s.step e).map textless = (s.textless.step e.whole).map textless := by
  cases e with
  | text inTitle inBody first rest =>
    rw [step, Event.whole, step, foldl_chunk, foldl_chunk]
    rfl
  | enter onEndTag => cases onEndTag <;> rfl
  | _ => rfl

theorem run_textless {s t : State} (h : s.textless = t.textless) (events : List Event) :
    (s.run events).map textless = (t.run (events.map Event.whole)).map textless := by
  induction events generalizing s t with
  | nil => exact congrArg Except.ok h
  | cons e events ih =>
    rw [List.map_cons, run_cons, run_cons]
    have hstep : (s.step e).map textless = (t.step e.whole).map textless := by
      -- a text in one piece has one chunk already
      have hwhole : e.whole.whole = e.whole := by cases e <;> simp [Event.whole]
      rw [step_textless, h, step_textless t, hwhole]
    rcases hs : s.step e with m | s'
    · rcases ht : t.step e.whole with m' | t'
      · rw [hs, ht] at hstep
        cases hstep
        rfl
      · rw [hs, ht] at hstep
        cases hstep
    · rcases ht : t.step e.whole with m' | t'
      · rw [hs, ht] at hstep
        cases hstep
      · rw [hs, ht] at hstep
        exact ih (Except.ok.inj hstep)

/-- The texts that a run writes. -/
theorem run_texts {s s' : State} {events : List Event} (h : s.run events = .ok s') :
    s'.title = (if s.titleTaken then s.title else
        s.title ++ (titleNode events).elim [] fun node => decodeEntities node.1) ∧
      s'.text = s.text ++ (visible s.skipDepth events).flatten.flatMap
        fun c => decodeEntities c ++ [' '] := by
  induction events generalizing s with
  | nil =>
    cases h
    simp [titleNode, visible]
  | cons e events ih =>
    rw [run_cons] at h
    cases e with
    | text inTitle inBody first rest =>
      rw [step, foldl_chunk] at h
      obtain ⟨htitle, htext⟩ := ih h
      rw [htitle, htext]
      cases inTitle <;> cases inBody <;> by_cases hdepth : s.skipDepth = 0 <;>
        cases htaken : s.titleTaken <;> simp [titleNode, visible, hdepth]
    | enter onEndTag =>
      rcases onEndTag with m | _
      · cases h
      · exact ih h
    | _ =>
      have hrest := ih h
      exact hrest

theorem run_error_iff (s : State) (events : List Event) :
    (∃ m, s.run events = .error m) ↔ Refused events := by
  induction events generalizing s with
  | nil =>
    constructor
    · rintro ⟨m, h⟩
      cases h
    · rintro ⟨m, h⟩
      cases h
  | cons e events ih =>
    rw [run_cons, Refused]
    simp only [List.mem_cons]
    rcases hs : s.step e with m | s'
    · refine iff_of_true ⟨m, rfl⟩ ?_
      cases e with
      | enter onEndTag =>
        rcases onEndTag with m' | _
        · exact ⟨m', .inl rfl⟩
        · cases hs
      | _ => cases hs
    · -- an event that goes through is no refusal
      change (∃ m, s'.run events = .error m) ↔ _
      rw [ih]
      refine exists_congr fun m => (or_iff_right ?_).symm
      rintro rfl
      cases hs

end State

/-- The words of texts that are ended one by one. -/
theorem wordsOf_ended (texts : List Str) :
    wordsOf (texts.flatMap fun c => decodeEntities c ++ [' ']) = chunkWords texts := by
  induction texts with
  | nil => rfl
  | cons c texts ih =>
    rw [List.flatMap_cons, chunkWords_cons, ← ih, List.append_assoc, List.singleton_append]
    exact words_append_cons (by decide) _ _

theorem titleNode_whole (events : List Event) :
    titleNode (events.map Event.whole) =
      (titleNode events).map fun node => (node.1 ++ node.2.flatten, []) := by
  induction events with
  | nil => rfl
  | cons e events ih =>
    cases e with
    | text inTitle inBody first rest =>
      cases inTitle
      · exact ih
      · rfl
    | _ => exact ih

theorem visible_whole (depth : ℕ) (events : List Event) :
    visible depth (events.map Event.whole) =
      (visible depth events).map fun chunks => [chunks.flatten] := by
  induction events generalizing depth with
  | nil => rfl
  | cons e events ih =>
    cases e with
    | text inTitle inBody first rest =>
      rw [List.map_cons, Event.whole, visible, visible]
      split
      · rw [ih, List.map_cons]
      · exact ih depth
    | _ => exact ih _

theorem chunkWords_flatten (nodes : List (List Str)) :
    chunkWords nodes.flatten = nodes.flatMap chunkWords := by
  induction nodes with
  | nil => rfl
  | cons chunks nodes ih =>
    rw [List.flatten_cons, List.flatMap_cons, ← ih]
    exact List.flatMap_append

theorem chunkWords_whole (nodes : List (List Str)) :
    chunkWords (nodes.map fun chunks => [chunks.flatten]).flatten = nodes.flatMap textWords := by
  induction nodes with
  | nil => rfl
  | cons chunks nodes ih =>
    rw [List.map_cons, List.flatten_cons, List.singleton_append, chunkWords_cons, ih]
    rfl

variable (urls : UrlCrate) (join : urls.Url → Str → Option urls.Url)

/-- Pages of states that differ only in their texts. -/
theorem finish_eq_iff {baseUrl : Str} {s t : State} (h : s.textless = t.textless) :
    finish urls join baseUrl s = finish urls join baseUrl t ↔
      titleOr baseUrl s.title = titleOr baseUrl t.title ∧ wordsOf s.text = wordsOf t.text := by
  obtain ⟨title, text, links, description, openGraph, baseHref, skipDepth, titleTaken⟩ := s
  obtain ⟨title', text', links', description', openGraph', baseHref', skipDepth', titleTaken'⟩ := t
  cases h
  rw [← collapseWhitespace_inj]
  simp [finish]

/-- **A page is what it is in one piece iff** the rewriter refuses it, or the first chunk of
its title is title enough, and no cut within its visible text lies within a reference or a
word. -/
theorem chunking_iff (events : List Event) (baseUrl : Str) :
    parse urls join events baseUrl = parse urls join (events.map Event.whole) baseUrl ↔
      Refused events ∨
        ((∀ node ∈ titleNode events, TitleKept baseUrl node.1 node.2.flatten) ∧
          ∀ chunks ∈ visible 0 events, Whole chunks) := by
  have htextless := State.run_textless (Eq.refl State.start.textless) events
  rw [parse, parse]
  rcases hs : State.start.run events with m | s
  · -- the same element is refused in both
    have hrefused := (State.run_error_iff _ _).mp ⟨m, hs⟩
    refine iff_of_true ?_ (.inl hrefused)
    rcases ht : State.start.run (events.map Event.whole) with m' | t
    · rw [hs, ht] at htextless
      cases htextless
      rfl
    · rw [hs, ht] at htextless
      cases htextless
  · -- a page that is not refused: its texts are compared one by one
    have hkept : ¬ Refused events := fun hrefused => by
      obtain ⟨m, hm⟩ := (State.run_error_iff State.start events).mpr hrefused
      rw [hs] at hm
      cases hm
    rcases ht : State.start.run (events.map Event.whole) with m' | t
    · rw [hs, ht] at htextless
      cases htextless
    · rw [hs, ht] at htextless
      obtain ⟨htitle, htext⟩ := State.run_texts hs
      obtain ⟨htitle', htext'⟩ := State.run_texts ht
      change Except.ok (finish urls join baseUrl s) = Except.ok (finish urls join baseUrl t) ↔ _
      rw [Except.ok.injEq, finish_eq_iff urls join (Except.ok.inj htextless), or_iff_right hkept,
        htitle, htext, htitle', htext', titleNode_whole, visible_whole]
      refine and_congr ?_ ?_
      · change titleOr baseUrl ((titleNode events).elim [] fun node => decodeEntities node.1) =
          titleOr baseUrl (((titleNode events).map fun node => (node.1 ++ node.2.flatten, [])).elim
            [] fun node : Str × List Str => decodeEntities node.1) ↔ _
        rcases titleNode events with _ | node
        · exact iff_of_true rfl fun _ h => by cases h
        · refine title_eq_iff.trans ?_
          constructor
          · intro h node' hnode
            cases hnode
            exact h
          · exact fun h => h node rfl
      · change wordsOf ((visible 0 events).flatten.flatMap fun c => decodeEntities c ++ [' ']) =
          wordsOf (((visible 0 events).map fun chunks => [chunks.flatten]).flatten.flatMap
            fun c => decodeEntities c ++ [' ']) ↔ _
        rw [wordsOf_ended, wordsOf_ended, chunkWords_flatten, chunkWords_whole, chunkWords_iff]

/-- A title and a word, both in two chunks. -/
def chunkedPage : List Event :=
  [.text true false "Long".toList [" title".toList], .text false true "wo".toList ["rd".toList]]

/-- Only the first chunk of the title is taken, and the cut makes two words of one. -/
theorem chunked_page_differs :
    parse plainUrls (fun _ _ => none) chunkedPage "https://a.org/".toList =
        .ok ⟨"Long".toList, "wo rd".toList, [], none⟩ ∧
      parse plainUrls (fun _ _ => none) (chunkedPage.map Event.whole) "https://a.org/".toList =
        .ok ⟨"Long title".toList, "word".toList, [], none⟩ ∧
      parse plainUrls (fun _ _ => none) chunkedPage "https://a.org/".toList ≠
        parse plainUrls (fun _ _ => none) (chunkedPage.map Event.whole) "https://a.org/".toList := by
  have hchunked : parse plainUrls (fun _ _ => none) chunkedPage "https://a.org/".toList =
      .ok ⟨"Long".toList, "wo rd".toList, [], none⟩ := rfl
  have hwhole : parse plainUrls (fun _ _ => none) (chunkedPage.map Event.whole)
      "https://a.org/".toList = .ok ⟨"Long title".toList, "word".toList, [], none⟩ := rfl
  refine ⟨hchunked, hwhole, fun hsame => ?_⟩
  rw [hchunked, hwhole] at hsame
  exact absurd (congrArg ParsedPage.title (Except.ok.inj hsame)) (by decide)

end PageParser
