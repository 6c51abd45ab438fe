/-
What `parse` takes from a document.

The handlers see a page as a stream: tags as they open, text as it comes, and the end tags of
boilerplate.  What they keep is counted in a depth and noted in a flag.  Here a page is a tree
of elements, and what is extracted is said of the tree: of a text, by the elements it lies in.

* `Nodes.events` — the tree as the rewriter reports it, selector by selector;
* `visible_events` — the depth is that of the tree: it shows what no boilerplate contains;
* `State.run_tags` — the other variables, by the tags in the order of the document;
* `parse_document` — so the stream gives what the tree holds, its texts in one piece; in chunks
  it does when they are `WellCut`.
-/
import MjlSearch.PageParser

open Text Entities OnePass Words Policy

namespace PageParser

/-! ### Documents -/

/-- A start tag: its name, and its attributes in their order. -/
structure Tag where
  name : Str
  attributes : List (Str × Str)

/-- Nodes that follow one another, in their order.  A text comes in chunks. -/
inductive Nodes
  | nil
  | text (first : Str) (rest : List Str) (next : Nodes)
  | element (tag : Tag) (children next : Nodes)

namespace Tag

/-- The value of an attribute. -/
def getAttribute (tag : Tag) (name : Str) : Option Str :=
  (tag.attributes.find? fun pair => pair.1 = name).map Prod.snd

/-- Elements whose content is chrome rather than content. -/
def boilerplate : List Str :=
  ["nav".toList, "header".toList, "footer".toList, "aside".toList, "script".toList,
    "style".toList, "noscript".toList, "template".toList, "svg".toList, "form".toList,
    "iframe".toList]

def isBoilerplate (tag : Tag) : Bool := tag.name ∈ boilerplate

/-- `a[href]` -/
def anchorHref (tag : Tag) : Option Str :=
  if tag.name = "a".toList then tag.getAttribute "href".toList else none

/-- `base[href]` -/
def baseHref (tag : Tag) : Option Str :=
  if tag.name = "base".toList then tag.getAttribute "href".toList else none

/-- `meta[name=description]` -/
def isDescription (tag : Tag) : Bool :=
  tag.name = "meta".toList ∧ tag.getAttribute "name".toList = some "description".toList

/-- `meta[property='og:description']` -/
def isOpenGraph (tag : Tag) : Bool :=
  tag.name = "meta".toList ∧ tag.getAttribute "property".toList = some "og:description".toList

/-- The description that the tag gives, if it gives one. -/
def description (tag : Tag) : Option Str :=
  if tag.isDescription then tag.getAttribute "content".toList else none

def openGraph (tag : Tag) : Option Str :=
  if tag.isOpenGraph then tag.getAttribute "content".toList else none

/-- The handlers that the tag is passed to, in the order in which they were appended. -/
def opened (tag : Tag) : List Event :=
  (if tag.isBoilerplate then [.enter (.ok ())] else []) ++
    (tag.anchorHref.toList.map .anchor ++ (tag.baseHref.toList.map .base ++
      ((if tag.isDescription then [.description (tag.getAttribute "content".toList)] else []) ++
        if tag.isOpenGraph then [.openGraph (tag.getAttribute "content".toList)] else [])))

/-- The handler of its end tag. -/
def closed (tag : Tag) : List Event := if tag.isBoilerplate then [.leave] else []

end Tag

namespace Nodes

/-- The tree as the rewriter reports it. -/
def events (inTitle inBody : Bool) : Nodes → List Event
  | nil => []
  | text first rest next => .text inTitle inBody first rest :: next.events inTitle inBody
  | element tag children next =>
    tag.opened ++ (children.events (inTitle || tag.name = "title".toList)
      (inBody || tag.name = "body".toList) ++ (tag.closed ++ next.events inTitle inBody))

/-- The tags of the tree, in the order of the document. -/
def tags : Nodes → List Tag
  | nil => []
  | text _ _ next => next.tags
  | element tag children next => tag :: (children.tags ++ next.tags)

/-- The texts of the tree in the order of the document, each with the elements it lies in. -/
def texts (ancestors : List Tag) : Nodes → List (List Tag × Str × List Str)
  | nil => []
  | text first rest next => (ancestors, first, rest) :: next.texts ancestors
  | element tag children next => children.texts (tag :: ancestors) ++ next.texts ancestors

end Nodes

/-- Within an element of this name. -/
def within (name : Str) (ancestors : List Tag) : Bool := ancestors.any fun tag => tag.name = name

/-- A text is shown when it lies in the body, and in no boilerplate. -/
def isShown (ancestors : List Tag) : Bool :=
  within "body".toList ancestors && !ancestors.any Tag.isBoilerplate

/-- The texts that are shown. -/
def shownTexts (texts : List (List Tag × Str × List Str)) : List (List Str) :=
  (texts.filter fun node => isShown node.1).map fun node => node.2.1 :: node.2.2

/-- The first text within a `title`. -/
def titleText (texts : List (List Tag × Str × List Str)) : Option (Str × List Str) :=
  (texts.find? fun node => within "title".toList node.1).map Prod.snd

/-- What a document holds, however its texts are cut: its title, the words that it shows, the
links of its anchors, and its description. -/
def held (urls : UrlCrate) (join : urls.Url → Str → Option urls.Url) (page : Nodes)
    (baseUrl : Str) : ParsedPage where
  title := titleOr baseUrl ((titleText (page.texts [])).elim [] fun node =>
    decodeEntities (node.1 ++ node.2.flatten))
  text := [' '].intercalate ((shownTexts (page.texts [])).flatMap textWords)
  links := resolveLinks urls join ((page.tags.filterMap Tag.anchorHref).map decodeEntities)
    ((page.tags.filterMap Tag.baseHref).getLast?.getD baseUrl)
  metaDescription := (((page.tags.filterMap Tag.description).getLast?.or
    (page.tags.filterMap Tag.openGraph).getLast?).map
      fun content => collapseWhitespace (decodeEntities content)).filter fun value => value ≠ []

/-- The texts of a document are cut where nothing is lost: the first chunk of the title is title
enough, and no cut within a text that is shown lies within a reference or a word. -/
structure WellCut (baseUrl : Str) (page : Nodes) : Prop where
  title : ∀ node ∈ titleText (page.texts []), TitleKept baseUrl node.1 node.2.flatten
  shown : ∀ chunks ∈ shownTexts (page.texts []), Whole chunks

/-! ### Texts -/

variable {ancestors : List Tag}

theorem within_cons (name : Str) (tag : Tag) (ancestors : List Tag) :
    within name (tag :: ancestors) = (within name ancestors || decide (tag.name = name)) := by
  rw [within, List.any_cons, Bool.or_comm]
  rfl

theorem titleNode_append (es fs : List Event) :
    titleNode (es ++ fs) = (titleNode es).or (titleNode fs) := by
  induction es with
  | nil => rfl
  | cons e es ih =>
    cases e with
    | text inTitle inBody first rest =>
      cases inTitle
      · exact ih
      · rfl
    | _ => exact ih

theorem titleNode_opened (tag : Tag) : titleNode tag.opened = none := by
  rw [Tag.opened]
  cases tag.anchorHref <;> cases tag.baseHref <;> cases tag.isBoilerplate <;>
    cases tag.isDescription <;> cases tag.isOpenGraph <;> rfl

theorem titleNode_closed (tag : Tag) : titleNode tag.closed = none := by
  rw [Tag.closed]
  cases tag.isBoilerplate <;> rfl

theorem titleText_append (ts us : List (List Tag × Str × List Str)) :
    titleText (ts ++ us) = (titleText ts).or (titleText us) := by
  rw [titleText, titleText, titleText, List.find?_append]
  cases ts.find? fun node => within "title".toList node.1 <;> rfl

/-- The first text that is passed to the handler of the title is the first within a title. -/
theorem titleNode_events (page : Nodes) (ancestors : List Tag) (inBody : Bool) :
    titleNode (page.events (within "title".toList ancestors) inBody) =
      titleText (page.texts ancestors) := by
  induction page generalizing ancestors inBody with
  | nil => rfl
  | text first rest next ih =>
    have hrest := ih ancestors inBody
    cases htitle : within "title".toList ancestors with
    | true => simp only [Nodes.events, Nodes.texts, titleText, List.find?_cons, htitle, titleNode,
        Option.map_some]
    | false =>
      simp only [Nodes.events, Nodes.texts, titleText, List.find?_cons, htitle] at hrest ⊢
      exact hrest
  | element tag children next ihc ihn =>
    rw [Nodes.events, Nodes.texts, titleNode_append, titleNode_opened, Option.none_or,
      titleNode_append, titleNode_append, titleNode_closed, Option.none_or, titleText_append,
      ← ihn ancestors inBody, ← within_cons, ihc]

/-- What is visible behind some events, at the depth that they leave. -/
theorem visible_opened (tag : Tag) (depth : ℕ) (events : List Event) :
    visible depth (tag.opened ++ events) =
      visible (if tag.isBoilerplate then depth + 1 else depth) events := by
  rw [Tag.opened]
  cases tag.anchorHref <;> cases tag.baseHref <;> cases tag.isBoilerplate <;>
    cases tag.isDescription <;> cases tag.isOpenGraph <;> rfl

theorem visible_closed (tag : Tag) (depth : ℕ) (events : List Event) :
    visible (if tag.isBoilerplate then depth + 1 else depth) (tag.closed ++ events) =
      visible depth events := by
  rw [Tag.closed]
  cases tag.isBoilerplate <;> rfl

theorem shownTexts_append (ts us : List (List Tag × Str × List Str)) :
    shownTexts (ts ++ us) = shownTexts ts ++ shownTexts us := by
  rw [shownTexts, List.filter_append, List.map_append]
  rfl

/-- The depth at a place of the tree: how many elements of boilerplate it lies in. -/
def depthAt (ancestors : List Tag) : ℕ := ancestors.countP Tag.isBoilerplate

theorem depthAt_cons (tag : Tag) (ancestors : List Tag) :
    depthAt (tag :: ancestors) =
      if tag.isBoilerplate then depthAt ancestors + 1 else depthAt ancestors := by
  rw [depthAt, List.countP_cons, depthAt]
  cases tag.isBoilerplate <;> rfl

theorem isShown_iff (ancestors : List Tag) :
    isShown ancestors = true ↔ within "body".toList ancestors = true ∧ depthAt ancestors = 0 := by
  rw [isShown, Bool.and_eq_true, Bool.not_eq_true', depthAt, List.countP_eq_zero, List.any_eq_false]

/-- **The depth that is counted is the depth of the tree**: what is visible are the texts that
are shown, and behind the nodes the depth is what it was before. -/
theorem visible_events (page : Nodes) (ancestors : List Tag) (inTitle : Bool)
    (events : List Event) :
    visible (depthAt ancestors)
        (page.events inTitle (within "body".toList ancestors) ++ events) =
      shownTexts (page.texts ancestors) ++ visible (depthAt ancestors) events := by
  induction page generalizing ancestors inTitle events with
  | nil => rfl
  | text first rest next ih =>
    rw [Nodes.events, Nodes.texts, List.cons_append, visible, shownTexts, List.filter_cons]
    by_cases hshown : isShown ancestors = true
    · rw [if_pos hshown, if_pos ((isShown_iff ancestors).mp hshown), ih]
      rfl
    · rw [if_neg hshown, if_neg fun hc => hshown ((isShown_iff ancestors).mpr hc), ih]
      rfl
  | element tag children next ihc ihn =>
    rw [Nodes.events, Nodes.texts, List.append_assoc, List.append_assoc, List.append_assoc,
      visible_opened, ← depthAt_cons, ← within_cons, ihc, depthAt_cons, visible_closed, ihn,
      shownTexts_append, List.append_assoc]

/-! ### Tags -/

/-- The events of an anchor, a base, and of the two kinds of description. -/
def anchorOf : Event → Option Str
  | .anchor href => some href
  | _ => none

def baseOf : Event → Option Str
  | .base href => some href
  | _ => none

def descriptionOf : Event → Option Str
  | .description content => content
  | _ => none

def openGraphOf : Event → Option Str
  | .openGraph content => content
  | _ => none

theorem getLast?_cons_or {α : Type} (a : α) (l : List α) :
    (a :: l).getLast? = l.getLast?.or (some a) := by
  rw [List.getLast?_cons, Option.or_some]

namespace State

/-- **The variables that tags are written to**, after a run. -/
theorem run_tags {s s' : State} {events : List Event} (h : s.run events = .ok s') :
    s'.links = s.links ++ (events.filterMap anchorOf).map decodeEntities ∧
    s'.baseHref = (events.filterMap baseOf).getLast?.or s.baseHref ∧
    s'.description = ((events.filterMap descriptionOf).getLast?.map decodeEntities).or
      s.description ∧
    s'.openGraphDescription = ((events.filterMap openGraphOf).getLast?.map decodeEntities).or
      s.openGraphDescription := by
  induction events generalizing s with
  | nil =>
    cases h
    simp
  | cons e events ih =>
    rw [run_cons] at h
    cases e with
    | text inTitle inBody first rest =>
      rw [step, foldl_chunk] at h
      have hrest := ih h
      exact hrest
    | enter onEndTag =>
      rcases onEndTag with m | _
      · cases h
      · have hrest := ih h
        exact hrest
    | leave =>
      have hrest := ih h
      exact hrest
    | anchor href =>
      obtain ⟨hlinks, hrest⟩ := ih h
      refine ⟨?_, hrest⟩
      rw [hlinks, List.filterMap_cons_some (rfl : anchorOf (.anchor href) = some href)]
      simp
    | base href =>
      obtain ⟨hlinks, hbase, hrest⟩ := ih h
      refine ⟨hlinks, ?_, hrest⟩
      rw [hbase, List.filterMap_cons_some (rfl : baseOf (.base href) = some href),
        getLast?_cons_or]
      simp
    | description content =>
      obtain ⟨hlinks, hbase, hdescription, hgraph⟩ := ih h
      refine ⟨hlinks, hbase, ?_, hgraph⟩
      rw [hdescription]
      cases content with
      | none => rfl
      | some content =>
        rw [List.filterMap_cons_some (rfl : descriptionOf (.description (some content)) =
          some content), getLast?_cons_or]
        cases (events.filterMap descriptionOf).getLast? <;> rfl
    | openGraph content =>
      obtain ⟨hlinks, hbase, hdescription, hgraph⟩ := ih h
      refine ⟨hlinks, hbase, hdescription, ?_⟩
      rw [hgraph]
      cases content with
      | none => rfl
      | some content =>
        rw [List.filterMap_cons_some (rfl : openGraphOf (.openGraph (some content)) =
          some content), getLast?_cons_or]
        cases (events.filterMap openGraphOf).getLast? <;> rfl

end State

/-- What a handler is passed, tag by tag: `f` says what of an event, and `g` what of its tag. -/
theorem filterMap_events {f : Event → Option Str} {g : Tag → Option Str}
    (htext : ∀ inTitle inBody first rest, f (.text inTitle inBody first rest) = none)
    (hopened : ∀ tag : Tag, tag.opened.filterMap f = (g tag).toList)
    (hclosed : ∀ tag : Tag, tag.closed.filterMap f = []) (page : Nodes) (inTitle inBody : Bool) :
    (page.events inTitle inBody).filterMap f = page.tags.filterMap g := by
  induction page generalizing inTitle inBody with
  | nil => rfl
  | text first rest next ih =>
    rw [Nodes.events, Nodes.tags, List.filterMap_cons_none (htext _ _ _ _), ih]
  | element tag children next ihc ihn =>
    rw [Nodes.events, Nodes.tags, List.filterMap_append, List.filterMap_append,
      List.filterMap_append, hopened, ihc, hclosed, ihn, List.nil_append, List.filterMap_cons,
      List.filterMap_append]
    cases g tag <;> rfl

theorem closed_filterMap {f : Event → Option Str} (hleave : f .leave = none) (tag : Tag) :
    tag.closed.filterMap f = [] := by
  rw [Tag.closed]
  cases tag.isBoilerplate
  · rfl
  · exact List.filterMap_cons_none hleave

theorem anchors_events (page : Nodes) (inTitle inBody : Bool) :
    (page.events inTitle inBody).filterMap anchorOf = page.tags.filterMap Tag.anchorHref := by
  refine filterMap_events (fun _ _ _ _ => rfl) (fun tag => ?_) (closed_filterMap rfl) page _ _
  rw [Tag.opened]
  cases tag.anchorHref <;> cases tag.baseHref <;> cases tag.isBoilerplate <;>
    cases tag.isDescription <;> cases tag.isOpenGraph <;> rfl

theorem bases_events (page : Nodes) (inTitle inBody : Bool) :
    (page.events inTitle inBody).filterMap baseOf = page.tags.filterMap Tag.baseHref := by
  refine filterMap_events (fun _ _ _ _ => rfl) (fun tag => ?_) (closed_filterMap rfl) page _ _
  rw [Tag.opened]
  cases tag.anchorHref <;> cases tag.baseHref <;> cases tag.isBoilerplate <;>
    cases tag.isDescription <;> cases tag.isOpenGraph <;> rfl

theorem descriptions_events (page : Nodes) (inTitle inBody : Bool) :
    (page.events inTitle inBody).filterMap descriptionOf =
      page.tags.filterMap Tag.description := by
  refine filterMap_events (fun _ _ _ _ => rfl) (fun tag => ?_) (closed_filterMap rfl) page _ _
  rw [Tag.opened, Tag.description]
  cases tag.anchorHref <;> cases tag.baseHref <;> cases tag.isBoilerplate <;>
    cases tag.isDescription <;> cases tag.isOpenGraph <;>
    cases tag.getAttribute "content".toList <;> rfl

theorem openGraphs_events (page : Nodes) (inTitle inBody : Bool) :
    (page.events inTitle inBody).filterMap openGraphOf = page.tags.filterMap Tag.openGraph := by
  refine filterMap_events (fun _ _ _ _ => rfl) (fun tag => ?_) (closed_filterMap rfl) page _ _
  rw [Tag.opened, Tag.openGraph]
  cases tag.anchorHref <;> cases tag.baseHref <;> cases tag.isBoilerplate <;>
    cases tag.isDescription <;> cases tag.isOpenGraph <;>
    cases tag.getAttribute "content".toList <;> rfl

/-! ### The whole document -/

theorem error_not_mem_opened (tag : Tag) (message : Str) :
    Event.enter (.error message) ∉ tag.opened := by
  have hone : ∀ (c : Prop) [Decidable c] (event : Event), Event.enter (.error message) ≠ event →
      Event.enter (.error message) ∉ if c then [event] else [] := by
    intro c _ event hne
    split
    · rwa [List.mem_singleton]
    · exact List.not_mem_nil
  rw [Tag.opened]
  simp only [List.mem_append, List.mem_map, not_or]
  refine ⟨hone _ _ nofun, ?_, ?_, hone _ _ nofun, hone _ _ nofun⟩
  · rintro ⟨href, -, h⟩
    cases h
  · rintro ⟨href, -, h⟩
    cases h

/-- No element of a tree is refused: each has its end tag. -/
theorem not_refused (page : Nodes) (inTitle inBody : Bool) :
    ¬ Refused (page.events inTitle inBody) := by
  rintro ⟨m, hm⟩
  induction page generalizing inTitle inBody with
  | nil => cases hm
  | text first rest next ih =>
    rcases List.mem_cons.mp hm with hc | hm
    · cases hc
    · exact ih _ _ hm
  | element tag children next ihc ihn =>
    rw [Nodes.events, List.mem_append, List.mem_append, List.mem_append] at hm
    rcases hm with hm | hm | hm | hm
    · exact error_not_mem_opened tag m hm
    · exact ihc _ _ hm
    · rw [Tag.closed] at hm
      split at hm
      · cases List.mem_singleton.mp hm
      · cases hm
    · exact ihn _ _ hm

theorem not_refused_whole {events : List Event} (h : ¬ Refused events) :
    ¬ Refused (events.map Event.whole) := by
  rintro ⟨m, hm⟩
  obtain ⟨event, hevent, hwhole⟩ := List.mem_map.mp hm
  cases event with
  | enter onEndTag =>
    cases hwhole
    exact h ⟨m, hevent⟩
  | _ => cases hwhole

/-- Handlers of tags are passed the same, whatever the chunks. -/
theorem filterMap_whole {f : Event → Option Str}
    (htext : ∀ inTitle inBody first rest, f (.text inTitle inBody first rest) = none)
    (events : List Event) : (events.map Event.whole).filterMap f = events.filterMap f := by
  rw [List.filterMap_map]
  refine List.filterMap_congr fun event _ => ?_
  cases event with
  | text inTitle inBody first rest => exact (htext _ _ _ _).trans (htext _ _ _ _).symm
  | _ => rfl

variable (urls : UrlCrate) (join : urls.Url → Str → Option urls.Url)

/-- What the handlers make of events, each chunk of a text decoded by itself. -/
def extracted (events : List Event) (baseUrl : Str) : ParsedPage where
  title := titleOr baseUrl ((titleNode events).elim [] fun node => decodeEntities node.1)
  text := [' '].intercalate ((visible 0 events).flatMap chunkWords)
  links := resolveLinks urls join ((events.filterMap anchorOf).map decodeEntities)
    ((events.filterMap baseOf).getLast?.getD baseUrl)
  metaDescription := (((events.filterMap descriptionOf).getLast?.or
    (events.filterMap openGraphOf).getLast?).map
      fun content => collapseWhitespace (decodeEntities content)).filter fun value => value ≠ []

/-- **What is kept of a stream**, if no element of it is refused. -/
theorem parse_events {events : List Event} (h : ¬ Refused events) (baseUrl : Str) :
    parse urls join events baseUrl = .ok (extracted urls join events baseUrl) := by
  rcases hs : State.start.run events with m | s
  · exact absurd ((State.run_error_iff _ _).mp ⟨m, hs⟩) h
  · obtain ⟨htitle, htext⟩ := State.run_texts hs
    obtain ⟨hlinks, hbase, hdescription, hgraph⟩ := State.run_tags hs
    rw [parse, hs]
    refine congrArg Except.ok ?_
    rw [finish, extracted]
    refine (ParsedPage.mk.injEq ..).mpr ⟨?_, ?_, ?_, ?_⟩
    · rw [htitle]
      rfl
    · rw [htext, collapseWhitespace_eq]
      show [' '].intercalate (wordsOf ((visible 0 events).flatten.flatMap
        fun c => decodeEntities c ++ [' '])) = _
      rw [wordsOf_ended, chunkWords_flatten]
    · rw [hlinks, hbase]
      show resolveLinks urls join ([] ++ _) ((Option.or _ none).getD baseUrl) = _
      rw [List.nil_append, Option.or_none]
    · rw [hdescription, hgraph]
      show ((((Option.map decodeEntities _).or none).or ((Option.map decodeEntities _).or
        none)).map collapseWhitespace).filter _ = _
      rw [Option.or_none, Option.or_none, ← Option.map_or, Option.map_map]
      rfl

/-- The texts of a document that the handlers see. -/
theorem texts_events (page : Nodes) :
    titleNode (page.events false false) = titleText (page.texts []) ∧
      visible 0 (page.events false false) = shownTexts (page.texts []) := by
  refine ⟨titleNode_events page [] false, ?_⟩
  have hvisible := visible_events page [] false []
  rw [List.append_nil, visible, List.append_nil] at hvisible
  exact hvisible

/-- In one piece, the texts of a document are decoded as they are. -/
theorem extracted_whole (page : Nodes) (baseUrl : Str) :
    extracted urls join ((page.events false false).map Event.whole) baseUrl =
      held urls join page baseUrl := by
  obtain ⟨htitle, hvisible⟩ := texts_events page
  rw [extracted, held, titleNode_whole, visible_whole, htitle, hvisible, ← chunkWords_flatten,
    chunkWords_whole, filterMap_whole (fun _ _ _ _ => rfl), filterMap_whole (fun _ _ _ _ => rfl),
    filterMap_whole (fun _ _ _ _ => rfl), filterMap_whole (fun _ _ _ _ => rfl), anchors_events,
    bases_events, descriptions_events, openGraphs_events, Option.elim_map]
  rfl

/-- In chunks, they are what they are in one piece when they are cut well. -/
theorem extracted_eq_iff (page : Nodes) (baseUrl : Str) :
    extracted urls join (page.events false false) baseUrl = held urls join page baseUrl ↔
      WellCut baseUrl page := by
  obtain ⟨htitle, hvisible⟩ := texts_events page
  have hwords : ∀ f : List Str → List Str, (∀ chunks, ∀ word ∈ f chunks, word ≠ [] ∧
      ∀ c ∈ word, isWhitespace c = false) → ∀ word ∈ (shownTexts (page.texts [])).flatMap f,
        word ≠ [] ∧ ∀ c ∈ word, isWhitespace c = false := by
    intro f hf word hword
    obtain ⟨chunks, -, hword⟩ := List.mem_flatMap.mp hword
    exact hf chunks word hword
  have hchunked := hwords chunkWords fun chunks word hword => by
    obtain ⟨chunk, -, hword⟩ := List.mem_flatMap.mp hword
    exact mem_words hword
  have htexts := hwords textWords fun chunks word hword => mem_words hword
  have htext : [' '].intercalate ((shownTexts (page.texts [])).flatMap chunkWords)
      = [' '].intercalate ((shownTexts (page.texts [])).flatMap textWords) ↔
        ∀ chunks ∈ shownTexts (page.texts []), Whole chunks := by
    rw [← chunkWords_iff]
    constructor
    · -- the words are read back from the text
      intro h
      have hread := congrArg wordsOf h
      rwa [wordsOf, wordsOf, words_intercalate (by decide) hchunked,
        words_intercalate (by decide) htexts] at hread
    · exact fun h => congrArg _ h
  rw [extracted, held, htitle, hvisible, anchors_events, bases_events, descriptions_events,
    openGraphs_events, ParsedPage.mk.injEq]
  refine ⟨fun h => ⟨fun node hnode => ?_, htext.mp h.2.1⟩,
    fun h => ⟨?_, htext.mpr h.shown, rfl, rfl⟩⟩
  · have hsame := h.1
    rw [hnode] at hsame
    exact title_eq_iff.mp hsame
  · rcases hnode : titleText (page.texts []) with _ | node
    · rfl
    · exact title_eq_iff.mpr (h.title node hnode)

/-- **The stream gives what the tree holds.**  For every document whose elements are closed, its
texts in one piece: the title is that of the first text within a `title`, the text has the words
of just those texts that lie in the body and in no boilerplate, however deep, in their order; the
links are those of all anchors, within boilerplate as well, against the last base; and the
description is the last one given, before any of Open Graph.  In whatever chunks the texts come,
the links and the description are these, and the title and the text are exactly when the texts
are cut well. -/
theorem parse_document (page : Nodes) (baseUrl : Str) :
    parse urls join ((page.events false false).map Event.whole) baseUrl =
        .ok (held urls join page baseUrl) ∧
      ∃ parsed, parse urls join (page.events false false) baseUrl = .ok parsed ∧
        parsed.links = (held urls join page baseUrl).links ∧
        parsed.metaDescription = (held urls join page baseUrl).metaDescription ∧
        (parsed = held urls join page baseUrl ↔ WellCut baseUrl page) := by
  have hkept := not_refused page false false
  refine ⟨?_, _, parse_events urls join hkept baseUrl, ?_, ?_,
    extracted_eq_iff urls join page baseUrl⟩
  · rw [parse_events urls join (not_refused_whole hkept), extracted_whole]
  · rw [extracted, anchors_events, bases_events]
    rfl
  · rw [extracted, descriptions_events, openGraphs_events]
    rfl

/-- A page with a title, a menu that has a menu in it, a heading and a link. -/
def menuPage : Nodes :=
  .element ⟨"title".toList, []⟩ (.text "A &amp; B".toList [] .nil)
    (.element ⟨"body".toList, []⟩
      (.element ⟨"header".toList, []⟩
        (.element ⟨"nav".toList, []⟩
          (.element ⟨"a".toList, [("href".toList, "https://a.org/x".toList)]⟩
            (.text "Menu".toList [] .nil) .nil)
          (.text "Site".toList [] .nil))
        (.text "A  heading".toList [] (.element ⟨"p".toList, []⟩ (.text "text".toList [] .nil) .nil)))
      .nil)

example : (parse plainUrls (fun _ _ => none) (menuPage.events false false)
    "https://a.org/".toList).toOption.map (fun page => (page.title, page.text)) =
      some ("A & B".toList, "A heading text".toList) := by decide

end PageParser
