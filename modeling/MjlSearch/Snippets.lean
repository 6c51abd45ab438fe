/-
The snippets of the search page (`searchui.app`).

A snippet comes from the engine as text with references in it and marks around the matched
terms.  It is cut at the marks, and each part is read and written again.  What the browser
makes of the result is a sequence of characters and marks (`Renders`).

* `Renders.unique` — markup renders to one sequence;
* `parts_splitTags` — the parts between the tags have no tag, and the tags are those of the text;
* `safeSnippet_renders` — whatever comes in, only its own marks come out as markup, and what
  the engine wrote comes out as the text it was made of.
-/
import MjlSearch.Text

open Text

namespace Snippets

/-! ### The source -/

/-- `html.escape`, of one character. -/
def escapeChar (c : Char) : Str :=
  if c = '&' then "&amp;".toList
  else if c = '<' then "&lt;".toList
  else if c = '>' then "&gt;".toList
  else if c = '"' then "&quot;".toList
  else if c = '\'' then "&#x27;".toList
  else [c]

/-- `html.escape`. -/
def escape (s : Str) : Str := s.flatMap escapeChar

/-- `BOLD_TAG.split`: the texts between the tags, and the tags between them. -/
def splitTags : Str → List Str
  | [] => [[]]
  | '<' :: 'b' :: '>' :: rest => [] :: "<b>".toList :: splitTags rest
  | '<' :: '/' :: 'b' :: '>' :: rest => [] :: "</b>".toList :: splitTags rest
  | c :: rest =>
    match splitTags rest with
    | [] => [[c]]
    | part :: parts => (c :: part) :: parts

/-- The tags that the snippet generator is allowed to produce. -/
def boldTags : List Str := ["<b>".toList, "</b>".toList]

/-- What a part of a snippet is rendered as. -/
def renderPart (unescape : Str → Str) (part : Str) : Str :=
  if part ∈ boldTags then part else escape (unescape part)

/-- Renders a snippet, keeping the `<b>` marks and escaping everything else. -/
def safeSnippet (unescape : Str → Str) (markup : Option Str) : Str :=
  (splitTags (markup.getD [])).flatMap (renderPart unescape)

/-! ### What the browser shows -/

inductive Mark
  | opening
  | closing
deriving DecidableEq

def Mark.str : Mark → Str
  | .opening => "<b>".toList
  | .closing => "</b>".toList

/-- A character on the screen, or the beginning or end of what is bold. -/
inductive Shown
  | text (c : Char)
  | mark (m : Mark)
deriving DecidableEq

/-- The characters that have a meaning of their own in markup. -/
def isSpecial (c : Char) : Bool := c == '&' || c == '<' || c == '>' || c == '"' || c == '\''

/-- Markup that has no special character outside of the references that `escape` writes and
the tags of the marks, and what it shows. -/
inductive Renders : Str → List Shown → Prop
  | nil : Renders [] []
  | plain {c : Char} {out : Str} {shown : List Shown} (h : isSpecial c = false)
      (hrest : Renders out shown) : Renders (c :: out) (.text c :: shown)
  | reference {c : Char} {out : Str} {shown : List Shown} (h : isSpecial c = true)
      (hrest : Renders out shown) : Renders (escapeChar c ++ out) (.text c :: shown)
  | tag (m : Mark) {out : Str} {shown : List Shown} (hrest : Renders out shown) :
      Renders (m.str ++ out) (.mark m :: shown)

/-- The marks among what is shown. -/
def marks (shown : List Shown) : List Mark :=
  shown.filterMap fun s => match s with
    | .text _ => none
    | .mark m => some m

theorem marks_append (shown shown' : List Shown) :
    marks (shown ++ shown') = marks shown ++ marks shown' := List.filterMap_append

theorem marks_mark (m : Mark) (shown : List Shown) : marks (.mark m :: shown) = m :: marks shown :=
  rfl

/-- The tags that stand in a text literally, in their order. -/
def literalMarks (s : Str) : List Mark :=
  s.tails.filterMap fun rest =>
    if "<b>".toList <+: rest then some .opening
    else if "</b>".toList <+: rest then some .closing
    else none

variable {out out' : Str} {shown shown' : List Shown}

theorem Renders.append (h : Renders out shown) (h' : Renders out' shown') :
    Renders (out ++ out') (shown ++ shown') := by
  induction h with
  | nil => exact h'
  | plain h _ ih => exact .plain h ih
  | reference h _ ih =>
    rw [List.append_assoc]
    exact .reference h ih
  | tag m _ ih =>
    rw [List.append_assoc]
    exact .tag m ih

theorem escapeChar_plain {c : Char} (h : isSpecial c = false) : escapeChar c = [c] := by
  simp only [isSpecial, Bool.or_eq_false_iff, beq_eq_false_iff_ne] at h
  obtain ⟨⟨⟨⟨hamp, hlt⟩, hgt⟩, hquot⟩, hapos⟩ := h
  rw [escapeChar, if_neg hamp, if_neg hlt, if_neg hgt, if_neg hquot, if_neg hapos]

/-- What is escaped shows what it was. -/
theorem renders_escape (s : Str) : Renders (escape s) (s.map .text) := by
  induction s with
  | nil => exact .nil
  | cons c s ih =>
    rw [escape, List.flatMap_cons]
    rcases hc : isSpecial c with _ | _
    · rw [escapeChar_plain hc]
      exact .plain hc ih
    · exact .reference hc ih

/-- The special characters, one by one. -/
theorem isSpecial_iff {c : Char} :
    isSpecial c = true ↔ c = '&' ∨ c = '<' ∨ c = '>' ∨ c = '"' ∨ c = '\'' := by
  simp [isSpecial, or_assoc]

/-- How what is shown is written. -/
def Shown.code : Shown → Str
  | .text c => escapeChar c
  | .mark m => m.str

theorem Renders.eq_code (h : Renders out shown) : out = shown.flatMap Shown.code := by
  induction h with
  | nil => rfl
  | plain h _ ih => rw [List.flatMap_cons, ← ih, Shown.code, escapeChar_plain h, List.singleton_append]
  | reference _ _ ih => rw [List.flatMap_cons, ← ih, Shown.code]
  | tag m _ ih => rw [List.flatMap_cons, ← ih, Shown.code]

theorem escapeChar_special {c : Char} (h : isSpecial c = true) :
    ∃ name, escapeChar c = '&' :: name := by
  rcases isSpecial_iff.mp h with rfl | rfl | rfl | rfl | rfl
  · exact ⟨"amp;".toList, by decide⟩
  · exact ⟨"lt;".toList, by decide⟩
  · exact ⟨"gt;".toList, by decide⟩
  · exact ⟨"quot;".toList, by decide⟩
  · exact ⟨"#x27;".toList, by decide⟩

theorem Mark.str_eq (m : Mark) : ∃ name, m.str = '<' :: name := by
  cases m with
  | opening => exact ⟨"b>".toList, rfl⟩
  | closing => exact ⟨"/b>".toList, rfl⟩

/-- Of two references of which one begins the other's text, both are the same. -/
theorem escapeChar_cancel {c d : Char} {s t : Str} (hc : isSpecial c = true)
    (hd : isSpecial d = true) (h : escapeChar c ++ s = escapeChar d ++ t) : c = d ∧ s = t := by
  have hamp : escapeChar '&' = ['&', 'a', 'm', 'p', ';'] := rfl
  have hlt : escapeChar '<' = ['&', 'l', 't', ';'] := rfl
  have hgt : escapeChar '>' = ['&', 'g', 't', ';'] := rfl
  have hquot : escapeChar '"' = ['&', 'q', 'u', 'o', 't', ';'] := rfl
  have hapos : escapeChar '\'' = ['&', '#', 'x', '2', '7', ';'] := rfl
  rcases isSpecial_iff.mp hc with rfl | rfl | rfl | rfl | rfl <;>
    rcases isSpecial_iff.mp hd with rfl | rfl | rfl | rfl | rfl <;>
      simp_all

/-- No code begins another. -/
theorem Shown.code_cancel {x y : Shown} {s t : Str} (h : x.code ++ s = y.code ++ t) :
    x = y ∧ s = t := by
  have hmixed : ∀ {c : Char} {m : Mark} {s t : Str}, escapeChar c ++ s ≠ m.str ++ t := by
    -- a tag begins with a bracket, a code with an ampersand or with what is not special
    intro c m s t heq
    obtain ⟨tag, htag⟩ := m.str_eq
    rcases hc : isSpecial c with _ | _
    · rw [escapeChar_plain hc, htag] at heq
      rw [(List.cons.inj heq).1] at hc
      cases hc
    · obtain ⟨name, hname⟩ := escapeChar_special hc
      rw [hname, htag] at heq
      exact absurd (List.cons.inj heq).1 (by decide)
  cases x with
  | text c =>
    cases y with
    | text d =>
      simp only [Shown.code] at h
      rcases hc : isSpecial c with _ | _
      · rcases hd : isSpecial d with _ | _
        · rw [escapeChar_plain hc, escapeChar_plain hd] at h
          obtain ⟨rfl, rfl⟩ := List.cons.inj h
          exact ⟨rfl, rfl⟩
        · obtain ⟨name, hname⟩ := escapeChar_special hd
          rw [escapeChar_plain hc, hname] at h
          rw [(List.cons.inj h).1] at hc
          cases hc
      · rcases hd : isSpecial d with _ | _
        · obtain ⟨name, hname⟩ := escapeChar_special hc
          rw [escapeChar_plain hd, hname] at h
          rw [← (List.cons.inj h).1] at hd
          cases hd
        · obtain ⟨rfl, rfl⟩ := escapeChar_cancel hc hd h
          exact ⟨rfl, rfl⟩
    | mark m => exact absurd h hmixed
  | mark m =>
    cases y with
    | text d => exact absurd h.symm hmixed
    | mark m' =>
      cases m with
      | opening => cases m' with
        | opening => exact ⟨rfl, List.append_cancel_left h⟩
        | closing => exact absurd (List.cons.inj (List.cons.inj h).2).1 (by decide)
      | closing => cases m' with
        | opening => exact absurd (List.cons.inj (List.cons.inj h).2).1 (by decide)
        | closing => exact ⟨rfl, List.append_cancel_left h⟩

theorem Shown.code_ne_nil (x : Shown) : x.code ≠ [] := by
  cases x with
  | text c =>
    rcases hc : isSpecial c with _ | _
    · rw [Shown.code, escapeChar_plain hc]
      exact List.cons_ne_nil _ _
    · obtain ⟨name, hname⟩ := escapeChar_special hc
      rw [Shown.code, hname]
      exact List.cons_ne_nil _ _
  | mark m => cases m <;> exact List.cons_ne_nil _ _

/-- **Markup shows one thing.** -/
theorem Renders.unique (h : Renders out shown) (h' : Renders out shown') : shown = shown' := by
  have heq := h.eq_code.symm.trans h'.eq_code
  clear h h'
  induction shown generalizing shown' with
  | nil =>
    rcases shown' with _ | ⟨y, shown'⟩
    · rfl
    · rw [List.flatMap_nil, List.flatMap_cons, eq_comm, List.append_eq_nil_iff] at heq
      exact absurd heq.1 y.code_ne_nil
  | cons x shown ih =>
    rcases shown' with _ | ⟨y, shown'⟩
    · rw [List.flatMap_nil, List.flatMap_cons, List.append_eq_nil_iff] at heq
      exact absurd heq.1 x.code_ne_nil
    · rw [List.flatMap_cons, List.flatMap_cons] at heq
      obtain ⟨rfl, hrest⟩ := Shown.code_cancel heq
      rw [ih hrest]

/-! ### Parts -/

/-- Texts that are no tags, with tags between them. -/
inductive Parts : List Str → List Mark → Prop
  | last {front : Str} (h : front ∉ boldTags) : Parts [front] []
  | cons {front : Str} {parts : List Str} {ms : List Mark} (h : front ∉ boldTags) (m : Mark)
      (hrest : Parts parts ms) : Parts (front :: m.str :: parts) (m :: ms)

/-- A text begins with no tag. -/
def Untagged (s : Str) : Prop := ¬ "<b>".toList <+: s ∧ ¬ "</b>".toList <+: s

theorem splitTags_opening (rest : Str) :
    splitTags ("<b>".toList ++ rest) = [] :: "<b>".toList :: splitTags rest := rfl

theorem splitTags_closing (rest : Str) :
    splitTags ("</b>".toList ++ rest) = [] :: "</b>".toList :: splitTags rest := rfl

theorem splitTags_cons {c : Char} {rest : Str} (h : Untagged (c :: rest)) :
    splitTags (c :: rest) = (c :: (splitTags rest).headD []) :: (splitTags rest).tail := by
  rw [splitTags.eq_def]
  split
  · rename_i heq
    cases heq
  · rename_i rest' heq
    exact absurd ⟨rest', heq.symm⟩ h.1
  · rename_i rest' heq
    exact absurd ⟨rest', heq.symm⟩ h.2
  · rename_i heq
    cases heq
    rcases splitTags _ with _ | ⟨part, parts⟩
    · rfl
    · rfl

theorem untagged_of_ne {c : Char} (hc : c ≠ '<') (s : Str) : Untagged (c :: s) :=
  ⟨fun h => hc (List.cons_prefix_cons.mp h).1.symm,
    fun h => hc (List.cons_prefix_cons.mp h).1.symm⟩

/-- What the splitter goes on from, having found no tag. -/
theorem untagged_of_split {c : Char} {rest : Str}
    (hopening : ∀ rest', c = '<' → rest = 'b' :: '>' :: rest' → False)
    (hclosing : ∀ rest', c = '<' → rest = '/' :: 'b' :: '>' :: rest' → False) :
    Untagged (c :: rest) := by
  constructor
  · rintro ⟨rest', heq⟩
    cases heq
    exact hopening _ rfl rfl
  · rintro ⟨rest', heq⟩
    cases heq
    exact hclosing _ rfl rfl

theorem literalMarks_cons {c : Char} {s : Str} (h : Untagged (c :: s)) :
    literalMarks (c :: s) = literalMarks s := by
  refine List.filterMap_cons_none ?_
  rw [if_neg h.1, if_neg h.2]

theorem literalMarks_tag (m : Mark) (s : Str) : literalMarks (m.str ++ s) = m :: literalMarks s := by
  -- no tag begins within a tag
  have hrest : ∀ {name : Str}, '<' ∉ name → literalMarks (name ++ s) = literalMarks s := by
    intro name hname
    induction name with
    | nil => rfl
    | cons c name ih =>
      rw [List.mem_cons, not_or] at hname
      rw [List.cons_append, literalMarks_cons (untagged_of_ne (Ne.symm hname.1) _), ih hname.2]
  cases m with
  | opening =>
    have htag : "<b>".toList <+: '<' :: ("b>".toList ++ s) := List.prefix_append "<b>".toList s
    rw [← @hrest "b>".toList (by decide)]
    exact List.filterMap_cons_some (if_pos htag)
  | closing =>
    have htag : "</b>".toList <+: '<' :: ("/b>".toList ++ s) := List.prefix_append "</b>".toList s
    have hother : ¬ "<b>".toList <+: '<' :: ("/b>".toList ++ s) := fun h =>
      absurd (List.cons_prefix_cons.mp (List.cons_prefix_cons.mp h).2).1 (by decide)
    rw [← @hrest "/b>".toList (by decide)]
    exact List.filterMap_cons_some ((if_neg hother).trans (if_pos htag))

/-- The first part begins the text. -/
theorem splitTags_front (s : Str) : ∃ front parts, splitTags s = front :: parts ∧ front <+: s := by
  induction s using splitTags.induct with
  | case1 => exact ⟨[], [], rfl, List.nil_prefix⟩
  | case2 rest _ => exact ⟨[], _, rfl, List.nil_prefix⟩
  | case3 rest _ => exact ⟨[], _, rfl, List.nil_prefix⟩
  | case4 c rest _ _ hparts ih =>
    -- a text is never split into nothing
    obtain ⟨front, parts, hsplit, -⟩ := ih
    rw [hsplit] at hparts
    cases hparts
  | case5 c rest hopening hclosing part parts hparts ih =>
    obtain ⟨front, parts', hsplit, hfront⟩ := ih
    refine ⟨c :: front, parts', ?_, List.cons_prefix_cons.mpr ⟨rfl, hfront⟩⟩
    rw [splitTags_cons (untagged_of_split hopening hclosing), hsplit]
    rfl

/-- What begins a text that begins with no tag is no tag. -/
theorem Untagged.not_mem {front s : Str} (h : Untagged s) (hfront : front <+: s) :
    front ∉ boldTags := by
  intro hmem
  rcases List.mem_cons.mp hmem with rfl | hmem
  · exact h.1 hfront
  · rw [List.mem_singleton.mp hmem] at hfront
    exact h.2 hfront

/-- **The parts of a text** are texts that are no tags, and between them its own tags. -/
theorem parts_splitTags (s : Str) : Parts (splitTags s) (literalMarks s) := by
  induction s using splitTags.induct with
  | case1 => exact .last (by decide)
  | case2 rest ih =>
    have hmarks := literalMarks_tag .opening rest
    change Parts ([] :: Mark.opening.str :: splitTags rest) (literalMarks (Mark.opening.str ++ rest))
    rw [hmarks]
    exact .cons (by decide) .opening ih
  | case3 rest ih =>
    have hmarks := literalMarks_tag .closing rest
    change Parts ([] :: Mark.closing.str :: splitTags rest) (literalMarks (Mark.closing.str ++ rest))
    rw [hmarks]
    exact .cons (by decide) .closing ih
  | case4 c rest _ _ hparts _ =>
    obtain ⟨front, parts, hsplit, -⟩ := splitTags_front rest
    rw [hsplit] at hparts
    cases hparts
  | case5 c rest hopening hclosing part parts hparts ih =>
    have huntagged : Untagged (c :: rest) := untagged_of_split hopening hclosing
    obtain ⟨front, parts', hsplit, hfront⟩ := splitTags_front (c :: rest)
    have hnone := huntagged.not_mem hfront
    rw [splitTags_cons huntagged, hparts] at hsplit ⊢
    cases hsplit
    rw [literalMarks_cons huntagged]
    rw [hparts] at ih
    generalize literalMarks rest = ms at ih ⊢
    -- the first part is one character longer, and still no tag
    cases ih with
    | last _ => exact .last hnone
    | cons _ m hrest => exact .cons hnone m hrest

/-! ### Snippets -/

variable {unescape : Str → Str}

/-- Parts show their own marks and nothing else that is markup. -/
theorem Parts.renders (unescape : Str → Str) {parts : List Str} {ms : List Mark}
    (h : Parts parts ms) :
    ∃ shown, Renders (parts.flatMap (renderPart unescape)) shown ∧ marks shown = ms := by
  have htext : ∀ s : Str, marks ((unescape s).map Shown.text) = [] := by
    intro s
    rw [marks, List.filterMap_map]
    exact List.filterMap_eq_nil_iff.mpr fun _ _ => rfl
  induction h with
  | @last front hfront =>
    refine ⟨(unescape front).map .text, ?_, htext front⟩
    rw [List.flatMap_singleton, renderPart, if_neg hfront]
    exact renders_escape _
  | @cons front parts ms hfront m hrest ih =>
    obtain ⟨shown, hshown, hmarks⟩ := ih
    have hm : m.str ∈ boldTags := by cases m <;> decide
    refine ⟨(unescape front).map .text ++ .mark m :: shown, ?_, ?_⟩
    · rw [List.flatMap_cons, List.flatMap_cons, renderPart, if_neg hfront, renderPart, if_pos hm]
      exact (renders_escape _).append (.tag m hshown)
    · rw [marks_append, htext front, List.nil_append, marks_mark, hmarks]

/-- What the engine writes: the pieces of a text, escaped, with marks around the marked ones. -/
def engineMarkup (pieces : List (Bool × Str)) : Str :=
  pieces.flatMap fun piece =>
    if piece.1 then "<b>".toList ++ escape piece.2 ++ "</b>".toList else escape piece.2

/-- What is to be seen of it. -/
def shownOf (pieces : List (Bool × Str)) : List Shown :=
  pieces.flatMap fun piece =>
    if piece.1 then .mark .opening :: (piece.2.map .text ++ [.mark .closing])
    else piece.2.map .text

theorem not_mem_escape (s : Str) : '<' ∉ escape s := by
  rw [escape, List.mem_flatMap]
  rintro ⟨c, -, hc⟩
  rcases hspecial : isSpecial c with _ | _
  · rw [escapeChar_plain hspecial, List.mem_singleton] at hc
    subst hc
    cases hspecial
  · rcases isSpecial_iff.mp hspecial with rfl | rfl | rfl | rfl | rfl <;> revert hc <;> decide

theorem splitTags_append {s : Str} (hs : '<' ∉ s) (t : Str) :
    splitTags (s ++ t) = (s ++ (splitTags t).headD []) :: (splitTags t).tail := by
  induction s with
  | nil =>
    obtain ⟨front, parts, hsplit, -⟩ := splitTags_front t
    rw [List.nil_append, hsplit]
    rfl
  | cons c s ih =>
    rw [List.mem_cons, not_or] at hs
    rw [List.cons_append, splitTags_cons (untagged_of_ne (Ne.symm hs.1) _), ih hs.2]
    rfl

theorem escape_append (s t : Str) : escape (s ++ t) = escape s ++ escape t := List.flatMap_append

/-- A text that is escaped is rendered as it is. -/
theorem renderPart_escape (hundo : ∀ s, unescape (escape s) = s) (s : Str) :
    renderPart unescape (escape s) = escape s := by
  rw [renderPart, if_neg, hundo]
  intro hmem
  refine not_mem_escape s ?_
  rcases List.mem_cons.mp hmem with heq | hmem
  · rw [heq]
    decide
  · rw [List.mem_singleton.mp hmem]
    decide

/-- What the engine wrote, behind a text that is escaped. -/
theorem engineMarkup_renders (hundo : ∀ s, unescape (escape s) = s) (pieces : List (Bool × Str))
    (s : Str) :
    Renders ((splitTags (escape s ++ engineMarkup pieces)).flatMap (renderPart unescape))
      (s.map .text ++ shownOf pieces) := by
  induction pieces generalizing s with
  | nil =>
    rw [engineMarkup, List.flatMap_nil, splitTags_append (not_mem_escape s), shownOf,
      List.flatMap_nil, List.append_nil]
    change Renders ([escape s ++ []].flatMap _) _
    rw [List.append_nil, List.flatMap_singleton, renderPart_escape hundo]
    exact renders_escape s
  | cons piece pieces ih =>
    obtain ⟨marked, text⟩ := piece
    rw [engineMarkup, shownOf, List.flatMap_cons, List.flatMap_cons, ← engineMarkup, ← shownOf]
    cases marked with
    | false =>
      -- there is no tag between two pieces that are not marked: they are one part
      have hrest := ih (s ++ text)
      rw [escape_append, List.append_assoc, List.map_append, List.append_assoc] at hrest
      exact hrest
    | true =>
      have hrest := ih []
      change Renders ((splitTags (engineMarkup pieces)).flatMap _) (shownOf pieces) at hrest
      change Renders ((splitTags (escape s ++ ("<b>".toList ++ escape text ++ "</b>".toList ++
        engineMarkup pieces))).flatMap _) (s.map .text ++ (.mark .opening ::
          (text.map .text ++ [.mark .closing]) ++ shownOf pieces))
      rw [List.append_assoc, List.append_assoc, splitTags_append (not_mem_escape s),
        splitTags_opening, splitTags_append (not_mem_escape text), splitTags_closing]
      change Renders (((escape s ++ []) :: Mark.opening.str :: (escape text ++ []) ::
        Mark.closing.str :: splitTags (engineMarkup pieces)).flatMap _) _
      have hmark : ∀ m : Mark, renderPart unescape m.str = m.str := fun m =>
        if_pos (by cases m <;> decide)
      rw [List.append_nil, List.append_nil, List.flatMap_cons, List.flatMap_cons,
        List.flatMap_cons, List.flatMap_cons, renderPart_escape hundo, renderPart_escape hundo,
        hmark, hmark]
      have hbold := (renders_escape text).append (.tag .closing hrest)
      have hwhole := (renders_escape s).append (.tag .opening hbold)
      simpa using hwhole

/-- **Snippets cannot inject markup**: whatever comes in, what comes out is text and
references, and the tags that stood in it; and what the engine writes comes out as the text it
was made of, with its marks. -/
theorem safeSnippet_renders (unescape : Str → Str) :
    (∀ markup : Option Str, ∃ shown, Renders (safeSnippet unescape markup) shown ∧
      marks shown = literalMarks (markup.getD [])) ∧
    ((∀ s, unescape (escape s) = s) → ∀ pieces : List (Bool × Str), ∀ shown,
      Renders (safeSnippet unescape (some (engineMarkup pieces))) shown ↔
        shown = shownOf pieces) := by
  refine ⟨fun markup => (parts_splitTags _).renders unescape, fun hundo pieces shown => ?_⟩
  have hrenders := engineMarkup_renders hundo pieces []
  constructor
  · exact fun h => h.unique hrenders
  · rintro rfl
    exact hrenders

/-- `html.unescape`, of the references that `escape` writes. -/
def unescapeWritten : Str → Str
  | '&' :: 'a' :: 'm' :: 'p' :: ';' :: s => '&' :: unescapeWritten s
  | '&' :: 'l' :: 't' :: ';' :: s => '<' :: unescapeWritten s
  | '&' :: 'g' :: 't' :: ';' :: s => '>' :: unescapeWritten s
  | '&' :: 'q' :: 'u' :: 'o' :: 't' :: ';' :: s => '"' :: unescapeWritten s
  | '&' :: '#' :: 'x' :: '2' :: '7' :: ';' :: s => '\'' :: unescapeWritten s
  | c :: s => c :: unescapeWritten s
  | [] => []

theorem unescapeWritten_escape (s : Str) : unescapeWritten (escape s) = s := by
  induction s with
  | nil => rfl
  | cons c s ih =>
    rw [escape, List.flatMap_cons, ← escape]
    rcases hc : isSpecial c with _ | _
    · rw [escapeChar_plain hc, List.singleton_append, unescapeWritten.eq_def]
      have hamp : c ≠ '&' := by
        rintro rfl
        cases hc
      split
      all_goals grind
    · rcases isSpecial_iff.mp hc with rfl | rfl | rfl | rfl | rfl
      all_goals
        change _ :: unescapeWritten (escape s) = _
        rw [ih]

/-- A page whose own text looks like a tag and like a reference. -/
theorem literal_tag_shown :
    Renders (safeSnippet unescapeWritten (some (engineMarkup
        [(true, "a&lt;".toList), (false, "<b>\"".toList)])))
      (shownOf [(true, "a&lt;".toList), (false, "<b>\"".toList)]) :=
  ((safeSnippet_renders unescapeWritten).2 unescapeWritten_escape _ _).mpr rfl

end Snippets
