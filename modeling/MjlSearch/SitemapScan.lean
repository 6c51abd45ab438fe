/-
The sitemap scanner (`crawler::sitemap`), and the records it keeps.

The scanner knows no records: it takes what stands between a tag whose name begins with
`loc` and the next closing tag whose name does.  A tag that a malformed record leaves open
(`LeftOpen`) therefore takes the next record's `<loc>` for a part of its text.

* `Scanned.append` — a text is scanned in parts, each from where the last one stopped;
* `mem_entries_iff` — when a `<loc>` element is read as what it is;
* `crossing_iff` — when something is read across a cut of the text;
* `Document.Readable.returned`, `Document.apart_iff` — when the other URLs are returned, and when
  nothing is made of two records;
* `kept_iff` — a malformed record costs nothing iff no tag is open where it matters.
-/
import Mathlib.Data.List.Sort
import MjlSearch.Entities
import MjlSearch.Policy

open Text Entities Policy

namespace SitemapScan

/-! ### The source -/

/-- Index of `needle` in `haystack`, ignoring ASCII case. -/
def findIgnoreCase (haystack needle : Str) : Option ℕ :=
  if needle = [] then none
  else haystack.tails.findIdx? fun rest => (asciiLower needle).isPrefixOf (asciiLower rest)

/-- Unwraps a `CDATA` section, leaving anything else untouched. -/
def stripCdata (value : Str) : Str :=
  match "<![CDATA[".toList.isPrefixOf? value with
  | some inner => ("]]>".toList.isSuffixOf? inner).getD inner
  | none => value

/-- Cleans one `<loc>` value into a fetchable absolute URL. -/
def normalize (urls : UrlCrate) (raw : Str) : Option Str := do
  let text := stripCdata (trim raw)
  let decoded := decodeEntities text
  let parsed ← urls.parse (trim decoded)
  if isHttp urls parsed then some (urls.toStr parsed) else none

/-- Where the content behind the next opening tag begins. -/
def contentStart (rest : Str) : Option ℕ := do
  let opening ← findIgnoreCase rest "<loc".toList
  let tagEnd ← findChar (rest.drop (opening + 4)) '>'
  some (opening + 4 + (tagEnd + 1))

/-- One round of the scanner: the next value, and the text from its closing tag on. -/
def nextLoc (rest : Str) : Option (Str × Str) := do
  let start ← contentStart rest
  let content := rest.drop start
  let closing ← findIgnoreCase content "</loc".toList
  some (content.take closing, content.drop closing)

/-- The loop of `parse`, for at most `fuel` rounds. -/
def parseUpTo (urls : UrlCrate) : ℕ → Str → List Str
  | 0, _ => []
  | fuel + 1, rest =>
    match nextLoc rest with
    | none => []
    | some (raw, rest) => (normalize urls raw).toList ++ parseUpTo urls fuel rest

/-- Extracts every URL from a sitemap or sitemap index body. -/
def parse (urls : UrlCrate) (body : Str) : List Str := parseUpTo urls body.length body

/-! ### What is read, and where -/

/-- A value that the scanner reads, and where in the body it stands. -/
structure Entry where
  start : ℕ
  raw : Str
deriving DecidableEq

/-- The values read from a text that stands at `offset`, and how much of it is left. -/
inductive Scanned : ℕ → Str → List Entry → ℕ → Str → Prop
  | stop {offset : ℕ} {s : Str} (h : nextLoc s = none) : Scanned offset s [] offset s
  | read {offset start closing stopped : ℕ} {s rest : Str} {entries : List Entry}
      (hstart : contentStart s = some start)
      (hclosing : findIgnoreCase (s.drop start) "</loc".toList = some closing)
      (hrest : Scanned (offset + start + closing) (s.drop (start + closing)) entries stopped rest) :
      Scanned offset s (⟨offset + start, (s.drop start).take closing⟩ :: entries) stopped rest

/-- The values that the scanner reads, in at most `fuel` rounds. -/
def entriesUpTo : ℕ → ℕ → Str → List Entry
  | 0, _, _ => []
  | fuel + 1, offset, rest =>
    match contentStart rest with
    | none => []
    | some start =>
      match findIgnoreCase (rest.drop start) "</loc".toList with
      | none => []
      | some closing => ⟨offset + start, (rest.drop start).take closing⟩ ::
          entriesUpTo fuel (offset + start + closing) (rest.drop (start + closing))

/-- The values that the scanner reads. -/
def entries (body : Str) : List Entry := entriesUpTo body.length 0 body

/-- A text leaves a tag open: behind its last tags that are closed there is one that is not,
and `content` is what follows it. -/
inductive LeftOpen : Str → Str → Prop
  | here {s : Str} {start : ℕ} (hstart : contentStart s = some start)
      (hclosing : findIgnoreCase (s.drop start) "</loc".toList = none) : LeftOpen s (s.drop start)
  | later {s raw rest content : Str} (hnext : nextLoc s = some (raw, rest))
      (hrest : LeftOpen rest content) : LeftOpen s content

/-! ### Searching -/

/-- A text begins with another, whatever the case. -/
def Starts (part s : Str) : Prop := asciiLower part <+: asciiLower s

theorem length_asciiLower (s : Str) : (asciiLower s).length = s.length := List.length_map _

variable {s t part front back : Str} {n : ℕ}

theorem Starts.length_le (h : Starts part s) : part.length ≤ s.length := by
  have hle := List.IsPrefix.length_le h
  rwa [length_asciiLower, length_asciiLower] at hle

theorem not_starts_nil (hpart : part ≠ []) : ¬ Starts part [] := by
  intro h
  exact hpart (List.length_eq_zero_iff.mp (Nat.le_zero.mp h.length_le))

theorem Starts.drop_append (h : Starts part (s.drop n)) (t : Str) :
    Starts part ((s ++ t).drop n) := by
  rw [List.drop_append, Starts, asciiLower, asciiLower, List.map_append]
  exact h.trans (List.prefix_append _ _)

theorem Starts.of_drop_append (h : Starts part ((s ++ t).drop n))
    (hn : n + part.length ≤ s.length) : Starts part (s.drop n) := by
  rw [List.drop_append] at h
  refine List.prefix_of_prefix_length_le h ?_ ?_
  · rw [asciiLower, asciiLower, List.map_append]
    exact List.prefix_append _ _
  · rw [length_asciiLower, length_asciiLower, List.length_drop]
    omega

theorem findIgnoreCase_eq_some (hpart : part ≠ []) :
    findIgnoreCase s part = some n ↔
      Starts part (s.drop n) ∧ ∀ i < n, ¬ Starts part (s.drop i) := by
  rw [findIgnoreCase, if_neg hpart, List.findIdx?_eq_some_iff_getElem]
  simp only [List.getElem_tails, List.isPrefixOf_iff_prefix, List.length_tails]
  constructor
  · rintro ⟨-, hfound, hfirst⟩
    exact ⟨hfound, fun i hi => hfirst i hi⟩
  · rintro ⟨hfound, hfirst⟩
    refine ⟨?_, hfound, fun i hi => hfirst i hi⟩
    have hlength := Starts.length_le hfound
    have := List.length_pos_of_ne_nil hpart
    rw [List.length_drop] at hlength
    omega

theorem findIgnoreCase_eq_none (hpart : part ≠ []) :
    findIgnoreCase s part = none ↔ ∀ i, ¬ Starts part (s.drop i) := by
  rw [findIgnoreCase, if_neg hpart, List.findIdx?_eq_none_iff]
  simp only [List.mem_tails, ← Bool.not_eq_true, List.isPrefixOf_iff_prefix]
  constructor
  · exact fun h i => h _ (List.drop_suffix i s)
  · rintro h rest ⟨front, rfl⟩
    have hnone := h front.length
    rwa [List.drop_left] at hnone

theorem findIgnoreCase_length (hpart : part ≠ []) (h : findIgnoreCase s part = some n) :
    n + part.length ≤ s.length := by
  have hlength := ((findIgnoreCase_eq_some hpart).mp h).1.length_le
  have := List.length_pos_of_ne_nil hpart
  rw [List.length_drop] at hlength
  omega

/-- What is found stays found when more follows. -/
theorem findIgnoreCase_append (hpart : part ≠ []) (h : findIgnoreCase s part = some n) (t : Str) :
    findIgnoreCase (s ++ t) part = some n := by
  have hlength := findIgnoreCase_length hpart h
  rw [findIgnoreCase_eq_some hpart] at h ⊢
  exact ⟨h.1.drop_append t, fun i hi hs => h.2 i hi (hs.of_drop_append (by omega))⟩

/-- What is found only when more follows reaches into what follows. -/
theorem findIgnoreCase_beyond (hpart : part ≠ []) (hnone : findIgnoreCase s part = none)
    (h : findIgnoreCase (s ++ t) part = some n) : s.length < n + part.length := by
  by_contra hle
  rw [findIgnoreCase_eq_some hpart] at h
  rw [findIgnoreCase_eq_none hpart] at hnone
  exact hnone n (h.1.of_drop_append (by omega))

theorem findChar_append {c : Char} (h : findChar s c = some n) (t : Str) :
    findChar (s ++ t) c = some n := by
  rw [findChar] at h ⊢
  rw [List.findIdx?_append, h]
  rfl

theorem findChar_beyond {c : Char} (hnone : findChar s c = none) (t : Str) :
    findChar (s ++ t) c = (findChar t c).map fun i => i + s.length := by
  rw [findChar] at hnone ⊢
  rw [List.findIdx?_append, hnone]
  rfl

/-- Only the bracket itself is a bracket in lower case. -/
theorem toLower_bracket {c : Char} (h : c.toLower = '<') : c = '<' := by
  unfold Char.toLower at h
  split at h
  · rename_i hupper
    have hval := congrArg Char.val h
    change c.val + ('a'.val - 'A'.val) = '<'.val at hval
    have hge : 'A'.val.toNat ≤ c.val.toNat := hupper.1
    have hle : c.val.toNat ≤ 'Z'.val.toNat := hupper.2
    have hsum := congrArg UInt32.toNat hval
    rw [UInt32.toNat_add] at hsum
    have hoffset : ('a'.val - 'A'.val).toNat = 32 := by decide
    have hA : 'A'.val.toNat = 65 := by decide
    have hZ : 'Z'.val.toNat = 90 := by decide
    have hbracket : '<'.val.toNat = 60 := by decide
    omega
  · exact h

theorem Starts.head {tail : Str} (h : Starts ('<' :: tail) s) : s.head? = some '<' := by
  rcases s with _ | ⟨c, s⟩
  · exact absurd h (not_starts_nil (List.cons_ne_nil _ _))
  · have hhead := (List.cons_prefix_cons.mp h).1
    rw [List.head?_cons, toLower_bracket hhead.symm]

theorem getElem?_bracket (before back : Str) :
    (before ++ '<' :: back)[before.length]? = some '<' := by
  rw [List.getElem?_append_right (Nat.le_refl _), Nat.sub_self]
  rfl

/-- A closing or opening tag's name has no bracket in it. -/
theorem Starts.not_inside {tail : Str} {m : ℕ} (h : Starts ('<' :: tail) (s.drop n))
    (htail : '<' ∉ asciiLower tail) (hm : s[m]? = some '<') (hnm : n < m) :
    n + tail.length < m := by
  by_contra hle
  have hget : (asciiLower ('<' :: tail))[m - n]? = (asciiLower (s.drop n))[m - n]? := by
    refine (List.prefix_iff_getElem?.mp h (m - n) ?_).symm ▸ List.getElem?_eq_getElem ?_
    all_goals
      rw [length_asciiLower, List.length_cons]
      omega
  obtain ⟨i, hi⟩ : ∃ i, m - n = i + 1 := ⟨m - n - 1, by omega⟩
  have hmi : n + (i + 1) = m := by omega
  rw [hi, asciiLower, asciiLower, List.map_cons, List.getElem?_cons_succ, List.getElem?_map,
    List.getElem?_map, List.getElem?_drop, hmi, hm, ← List.getElem?_map] at hget
  exact htail (List.mem_of_getElem? hget)

/-! ### Rounds -/

theorem loc_ne_nil : "<loc".toList ≠ [] := by decide

theorem closing_ne_nil : "</loc".toList ≠ [] := by decide

theorem contentStart_eq_some {a : ℕ} :
    contentStart s = some a ↔ ∃ opening tagEnd, findIgnoreCase s "<loc".toList = some opening ∧
      findChar (s.drop (opening + 4)) '>' = some tagEnd ∧ a = opening + 4 + (tagEnd + 1) := by
  simp only [contentStart, Option.bind_eq_bind, Option.bind_eq_some_iff, Option.some.injEq]
  constructor
  · rintro ⟨opening, hopening, tagEnd, htagEnd, rfl⟩
    exact ⟨opening, tagEnd, hopening, htagEnd, rfl⟩
  · rintro ⟨opening, tagEnd, hopening, htagEnd, rfl⟩
    exact ⟨opening, hopening, tagEnd, htagEnd, rfl⟩

theorem findChar_length {c : Char} (h : findChar s c = some n) : n < s.length := by
  obtain ⟨front, back, rfl, -, rfl⟩ := findChar_eq_some.mp h
  simp

/-- Content begins behind a tag, within the text. -/
theorem contentStart_le {a : ℕ} (h : contentStart s = some a) : 5 ≤ a ∧ a ≤ s.length := by
  obtain ⟨opening, tagEnd, -, htagEnd, rfl⟩ := contentStart_eq_some.mp h
  have hlength := findChar_length htagEnd
  rw [List.length_drop] at hlength
  omega

theorem contentStart_append {a : ℕ} (h : contentStart s = some a) (t : Str) :
    contentStart (s ++ t) = some a := by
  obtain ⟨opening, tagEnd, hopening, htagEnd, rfl⟩ := contentStart_eq_some.mp h
  have hlength := findIgnoreCase_length loc_ne_nil hopening
  change opening + 4 ≤ s.length at hlength
  refine contentStart_eq_some.mpr
    ⟨opening, tagEnd, findIgnoreCase_append loc_ne_nil hopening t, ?_, rfl⟩
  rw [List.drop_append_of_le_length hlength]
  exact findChar_append htagEnd t

/-- Content that begins only when more follows begins in what follows. -/
theorem contentStart_beyond {a : ℕ} (hnone : contentStart s = none)
    (h : contentStart (s ++ t) = some a) : s.length < a := by
  obtain ⟨opening, tagEnd, hopening, htagEnd, rfl⟩ := contentStart_eq_some.mp h
  rcases hfound : findIgnoreCase s "<loc".toList with _ | opening'
  · have hbeyond := findIgnoreCase_beyond loc_ne_nil hfound hopening
    change s.length < opening + 4 at hbeyond
    omega
  · rw [findIgnoreCase_append loc_ne_nil hfound t, Option.some.injEq] at hopening
    subst hopening
    have hlength := findIgnoreCase_length loc_ne_nil hfound
    change opening' + 4 ≤ s.length at hlength
    rw [List.drop_append_of_le_length hlength] at htagEnd
    rcases htag : findChar (s.drop (opening' + 4)) '>' with _ | tagEnd'
    · rw [findChar_beyond htag, Option.map_eq_some_iff] at htagEnd
      obtain ⟨i, -, rfl⟩ := htagEnd
      rw [List.length_drop]
      omega
    · have hstart := contentStart_eq_some.mpr ⟨opening', tagEnd', hfound, htag, rfl⟩
      rw [hnone] at hstart
      cases hstart

theorem nextLoc_eq_some {raw rest : Str} :
    nextLoc s = some (raw, rest) ↔ ∃ start closing, contentStart s = some start ∧
      findIgnoreCase (s.drop start) "</loc".toList = some closing ∧
        raw = (s.drop start).take closing ∧ rest = s.drop (start + closing) := by
  simp only [nextLoc, Option.bind_eq_bind, Option.bind_eq_some_iff, Option.some.injEq,
    Prod.mk.injEq, List.drop_drop]
  constructor
  · rintro ⟨start, hstart, closing, hclosing, rfl, rfl⟩
    exact ⟨start, closing, hstart, hclosing, rfl, rfl⟩
  · rintro ⟨start, closing, hstart, hclosing, rfl, rfl⟩
    exact ⟨start, hstart, closing, hclosing, rfl, rfl⟩

theorem nextLoc_eq_none :
    nextLoc s = none ↔ ∀ start, contentStart s = some start →
      findIgnoreCase (s.drop start) "</loc".toList = none := by
  constructor
  · intro h start hstart
    by_contra hclosing
    obtain ⟨closing, hclosing⟩ := Option.ne_none_iff_exists'.mp hclosing
    have hnext := nextLoc_eq_some.mpr ⟨start, closing, hstart, hclosing, rfl, rfl⟩
    rw [h] at hnext
    cases hnext
  · intro h
    rcases hnext : nextLoc s with _ | ⟨raw, rest⟩
    · rfl
    · obtain ⟨start, closing, hstart, hclosing, -, -⟩ := nextLoc_eq_some.mp hnext
      rw [h start hstart] at hclosing
      cases hclosing

/-- Nothing is read of content that no closing tag follows. -/
theorem nextLoc_of_unclosed {start : ℕ} (hstart : contentStart s = some start)
    (hnone : findIgnoreCase (s.drop start) "</loc".toList = none) : nextLoc s = none := by
  refine nextLoc_eq_none.mpr fun other hother => ?_
  rw [hstart, Option.some.injEq] at hother
  rwa [← hother]

theorem nextLoc_of_unopened (hnone : contentStart s = none) : nextLoc s = none := by
  refine nextLoc_eq_none.mpr fun other hother => ?_
  rw [hnone] at hother
  cases hother

/-! ### Scanning -/

variable {offset stopped : ℕ} {rest : Str} {es es' : List Entry}

theorem Scanned.stops (h : Scanned offset s es stopped rest) : nextLoc rest = none := by
  induction h with
  | stop h => exact h
  | read _ _ _ ih => exact ih

theorem Scanned.offset_eq (h : Scanned offset s es stopped rest) :
    offset + s.length = stopped + rest.length := by
  induction h with
  | stop _ => rfl
  | @read offset start closing stopped s rest entries hstart hclosing hrest ih =>
    have hlength := findIgnoreCase_length closing_ne_nil hclosing
    rw [List.length_drop] at ih hlength
    change closing + 5 ≤ s.length - start at hlength
    omega

theorem Scanned.unique (h : Scanned offset s es stopped rest) {stopped' : ℕ} {rest' : Str}
    (h' : Scanned offset s es' stopped' rest') : es = es' ∧ stopped = stopped' ∧ rest = rest' := by
  induction h generalizing es' with
  | stop hstop =>
    cases h' with
    | stop _ => exact ⟨rfl, rfl, rfl⟩
    | read hstart hclosing _ =>
      rw [nextLoc_eq_none.mp hstop _ hstart] at hclosing
      cases hclosing
  | read hstart hclosing hrest ih =>
    cases h' with
    | stop hstop =>
      rw [nextLoc_eq_none.mp hstop _ hstart] at hclosing
      cases hclosing
    | read hstart' hclosing' hrest' =>
      rw [hstart, Option.some.injEq] at hstart'
      subst hstart'
      rw [hclosing, Option.some.injEq] at hclosing'
      subst hclosing'
      obtain ⟨rfl, rfl, rfl⟩ := ih hrest'
      exact ⟨rfl, rfl, rfl⟩

/-- **A text is scanned in parts**: where the scan of the first part stops, that of the whole
goes on with what is left of it. -/
theorem Scanned.append {stopped' : ℕ} {rest' : Str} (h : Scanned offset s es stopped rest)
    (h' : Scanned stopped (rest ++ t) es' stopped' rest') :
    Scanned offset (s ++ t) (es ++ es') stopped' rest' := by
  induction h with
  | stop _ => exact h'
  | @read offset start closing stopped s rest entries hstart hclosing hrest ih =>
    have hle := (contentStart_le hstart).2
    have hlength := findIgnoreCase_length closing_ne_nil hclosing
    rw [List.length_drop] at hlength
    have hrest' := ih h'
    rw [← List.drop_append_of_le_length (by omega)] at hrest'
    have hread := Scanned.read (contentStart_append hstart t)
      (by rw [List.drop_append_of_le_length hle]
          exact findIgnoreCase_append closing_ne_nil hclosing t) hrest'
    rwa [List.drop_append_of_le_length hle,
      List.take_append_of_le_length (by rw [List.length_drop]; omega)] at hread

theorem entriesUpTo_scanned (fuel offset : ℕ) (s : Str) (hfuel : s.length ≤ fuel) :
    ∃ stopped rest, Scanned offset s (entriesUpTo fuel offset s) stopped rest := by
  induction fuel generalizing offset s with
  | zero =>
    obtain rfl := List.length_eq_zero_iff.mp (Nat.le_zero.mp hfuel)
    exact ⟨offset, [], .stop (by decide)⟩
  | succ fuel ih =>
    rw [entriesUpTo]
    rcases hstart : contentStart s with _ | start
    · exact ⟨offset, s, .stop (nextLoc_of_unopened hstart)⟩
    · dsimp only
      rcases hclosing : findIgnoreCase (s.drop start) "</loc".toList with _ | closing
      · exact ⟨offset, s, .stop (nextLoc_of_unclosed hstart hclosing)⟩
      · have hpos := contentStart_le hstart
        obtain ⟨stopped, rest, hrest⟩ := ih (offset + start + closing) (s.drop (start + closing))
          (by rw [List.length_drop]; omega)
        exact ⟨stopped, rest, .read hstart hclosing hrest⟩

theorem entries_scanned (s : Str) : ∃ stopped rest, Scanned 0 s (entries s) stopped rest :=
  entriesUpTo_scanned _ _ _ (Nat.le_refl _)

theorem Scanned.offset_le (h : Scanned offset s es stopped rest) : offset ≤ stopped := by
  induction h with
  | stop _ => exact Nat.le_refl _
  | read _ _ _ ih => omega

/-- What the scan of a text reads lies within it, behind a tag. -/
theorem Scanned.bounds (h : Scanned offset s es stopped rest) :
    ∀ e ∈ es, offset + 5 ≤ e.start ∧ e.start + e.raw.length ≤ stopped := by
  induction h with
  | stop _ => exact fun e he => absurd he List.not_mem_nil
  | @read offset start closing stopped s rest entries hstart hclosing hrest ih =>
    have hpos := contentStart_le hstart
    have hstopped := hrest.offset_le
    intro e he
    rcases List.mem_cons.mp he with rfl | he
    · dsimp only
      rw [List.length_take]
      omega
    · have := ih e he
      omega

/-- The values are read in the order of the text. -/
theorem Scanned.sorted (h : Scanned offset s es stopped rest) :
    es.Pairwise fun e e' => e.start < e'.start := by
  induction h with
  | stop _ => exact .nil
  | read hstart hclosing hrest ih =>
    refine List.pairwise_cons.mpr ⟨fun e he => ?_, ih⟩
    have := hrest.bounds e he
    dsimp only
    omega

/-- A tag that a text leaves open is left open by what the scan leaves of it. -/
theorem Scanned.leftOpen_iff (h : Scanned offset s es stopped rest) {content : Str} :
    LeftOpen s content ↔ ∃ start, contentStart rest = some start ∧ content = rest.drop start := by
  induction h with
  | @stop offset s hstop =>
    constructor
    · intro hopen
      cases hopen with
      | here hstart _ => exact ⟨_, hstart, rfl⟩
      | later hnext _ =>
        rw [hstop] at hnext
        cases hnext
    · rintro ⟨start, hstart, rfl⟩
      exact .here hstart (nextLoc_eq_none.mp hstop start hstart)
  | @read offset start closing stopped s rest entries hstart hclosing hrest ih =>
    rw [← ih]
    have hnext := nextLoc_eq_some.mpr ⟨start, closing, hstart, hclosing, rfl, rfl⟩
    constructor
    · intro hopen
      cases hopen with
      | here hstart' hnone =>
        rw [hstart, Option.some.injEq] at hstart'
        subst hstart'
        rw [hnone] at hclosing
        cases hclosing
      | later hnext' hopen =>
        rw [hnext] at hnext'
        cases hnext'
        exact hopen
    · exact LeftOpen.later hnext

/-- The first value of a scan, and those behind it. -/
theorem Scanned.first (h : Scanned offset s es stopped rest) {start closing : ℕ}
    (hstart : contentStart s = some start)
    (hclosing : findIgnoreCase (s.drop start) "</loc".toList = some closing) :
    ∃ tail, es = ⟨offset + start, (s.drop start).take closing⟩ :: tail ∧
      ∀ e ∈ tail, offset + start + closing + 5 ≤ e.start := by
  cases h with
  | stop hstop =>
    rw [nextLoc_eq_none.mp hstop _ hstart] at hclosing
    cases hclosing
  | read hstart' hclosing' hrest =>
    rw [hstart, Option.some.injEq] at hstart'
    subst hstart'
    rw [hclosing, Option.some.injEq] at hclosing'
    subst hclosing'
    exact ⟨_, rfl, fun e he => (hrest.bounds e he).1⟩

/-- Nothing is read before the content of the first tag. -/
theorem Scanned.behind (h : Scanned offset s es stopped rest) (e : Entry) (he : e ∈ es) :
    ∃ start, contentStart s = some start ∧ offset + start ≤ e.start := by
  cases h with
  | stop _ => cases he
  | read hstart hclosing hrest =>
    refine ⟨_, hstart, ?_⟩
    rcases List.mem_cons.mp he with rfl | he
    · exact Nat.le_refl _
    · have := hrest.bounds e he
      omega

/-- Nothing is read where a text ends before the next closing tag. -/
theorem Scanned.nothing (h : Scanned offset s es stopped rest) (hnone : nextLoc s = none) :
    es = [] :=
  (h.unique (.stop hnone)).1

/-- The scan of a text that is cut in two. -/
theorem entries_append (front back : Str) :
    ∃ es es' stopped stopped' rest rest', Scanned 0 front es stopped rest ∧
      Scanned stopped (rest ++ back) es' stopped' rest' ∧
      entries (front ++ back) = es ++ es' := by
  obtain ⟨stopped, rest, hfront⟩ := entries_scanned front
  obtain ⟨stopped', rest', hback⟩ := entriesUpTo_scanned _ stopped (rest ++ back) (Nat.le_refl _)
  obtain ⟨_, _, hwhole⟩ := entries_scanned (front ++ back)
  exact ⟨_, _, _, _, _, _, hfront, hback, (hwhole.unique (hfront.append hback)).1⟩

/-! ### What is read across a cut -/

/-- **What is read across a cut of the text**: the content of a tag that the text before the
cut leaves open, up to the first closing tag behind it. -/
theorem crossing_iff {front back : Str} {e : Entry} :
    (e ∈ entries (front ++ back) ∧ e.start < front.length ∧
        front.length < e.start + e.raw.length) ↔
      ∃ content closing, LeftOpen front content ∧ content ≠ [] ∧
        findIgnoreCase (content ++ back) "</loc".toList = some closing ∧
        content.length < closing ∧
        e = ⟨front.length - content.length, (content ++ back).take closing⟩ := by
  obtain ⟨es, es', stopped, stopped', rest, rest', hfront, hback, hentries⟩ :=
    entries_append front back
  have hoffset := hfront.offset_eq
  rw [Nat.zero_add] at hoffset
  rw [hentries]
  constructor
  · rintro ⟨he, hstart, hend⟩
    rcases List.mem_append.mp he with he | he
    · have := hfront.bounds e he
      omega
    · obtain ⟨start, hbegin, hbehind⟩ := hback.behind e he
      rcases hopen : contentStart rest with _ | a
      · -- no tag is open, and the next one opens behind the cut
        have := contentStart_beyond hopen hbegin
        omega
      · have hle := (contentStart_le hopen).2
        have hbegins := contentStart_append hopen back
        have hnone := nextLoc_eq_none.mp hfront.stops a hopen
        rcases hclosing : findIgnoreCase ((rest ++ back).drop a) "</loc".toList with _ | closing
        · rw [hback.nothing (nextLoc_of_unclosed hbegins hclosing)] at he
          cases he
        · obtain ⟨tail, rfl, htail⟩ := hback.first hbegins hclosing
          rw [List.drop_append_of_le_length hle] at hclosing he
          have hbeyond := findIgnoreCase_beyond closing_ne_nil hnone hclosing
          have hlength := List.length_drop (i := a) (l := rest)
          change (rest.drop a).length < closing + 5 at hbeyond
          rcases List.mem_cons.mp he with rfl | he
          · dsimp only at hstart hend
            rw [List.length_take] at hend
            refine ⟨rest.drop a, closing, hfront.leftOpen_iff.mpr ⟨a, hopen, rfl⟩, ?_, hclosing,
              by omega, ?_⟩
            · exact List.length_pos_iff.mp (by omega)
            · rw [hlength]
              congr 1
              omega
          · have := htail e he
            omega
  · rintro ⟨content, closing, hopen, hne, hclosing, hlt, rfl⟩
    obtain ⟨start, hstart, rfl⟩ := hfront.leftOpen_iff.mp hopen
    have hle := (contentStart_le hstart).2
    have hpos := List.length_pos_of_ne_nil hne
    have hlength := findIgnoreCase_length closing_ne_nil hclosing
    rw [← List.drop_append_of_le_length hle] at hclosing ⊢
    obtain ⟨tail, rfl, -⟩ := hback.first (contentStart_append hstart back) hclosing
    have hplace : stopped + start = front.length - (rest.drop start).length := by
      rw [List.length_drop]
      omega
    rw [List.length_drop] at hpos hlt
    rw [List.length_append, List.length_drop] at hlength
    rw [hplace]
    refine ⟨List.mem_append_right _ (List.mem_cons_self ..), ?_, ?_⟩
    · dsimp only
      rw [List.length_drop]
      omega
    · dsimp only
      rw [List.length_take, List.length_drop, List.length_drop, List.length_append]
      omega

/-! ### When an element is read -/

/-- A `loc` element of a document; its text may have CDATA sections. -/
structure Loc where
  name : Str
  attributes : Str
  text : Str
  endName : Str
  space : Str
  name_eq : asciiLower name = "loc".toList
  attributes_ok : '<' ∉ attributes ∧ ∀ c ∈ attributes.head?, isWhitespace c = true
  endName_eq : asciiLower endName = "loc".toList
  space_ok : ∀ c ∈ space, isWhitespace c = true

namespace Loc

variable (l : Loc)

def tag : Str := '<' :: (l.name ++ l.attributes ++ ['>'])

def ending : Str := '<' :: '/' :: (l.endName ++ l.space ++ ['>'])

/-- The element as the document has it. -/
def str : Str := l.tag ++ l.text ++ l.ending

theorem starts_tag (more : Str) : Starts "<loc".toList (l.tag ++ more) := by
  have hlower : asciiLower (l.tag ++ more) =
      "<loc".toList ++ asciiLower (l.attributes ++ '>' :: more) := by
    have hname := l.name_eq
    rw [asciiLower] at hname
    simp [tag, asciiLower, hname]
  rw [Starts, hlower]
  exact List.prefix_append _ _

theorem starts_ending (more : Str) : Starts "</loc".toList (l.ending ++ more) := by
  have hlower : asciiLower (l.ending ++ more) =
      "</loc".toList ++ asciiLower (l.space ++ '>' :: more) := by
    have hname := l.endName_eq
    rw [asciiLower] at hname
    simp [ending, asciiLower, hname]
  rw [Starts, hlower]
  exact List.prefix_append _ _

theorem not_mem_name {c : Char} (hc : c.toLower ∉ "loc".toList) : c ∉ l.name := by
  intro hmem
  have hlower : c.toLower ∈ asciiLower l.name := List.mem_map_of_mem hmem
  rw [l.name_eq] at hlower
  exact hc hlower

/-- A tag has one opening bracket. -/
theorem not_mem_tag : '<' ∉ l.name ++ l.attributes ++ ['>'] := by
  have hname : '<' ∉ l.name := l.not_mem_name (by decide)
  simp [hname, l.attributes_ok.1]

theorem name_length : l.name.length = 3 := by
  rw [← length_asciiLower, l.name_eq]
  rfl

theorem tag_length : l.tag.length = l.attributes.length + 5 := by
  simp [tag, l.name_length]
  omega

end Loc

/-- No closing tag begins before the end of an opening tag, except before the tag. -/
theorem tag_le_closing (l : Loc) {before more : Str} {q : ℕ}
    (h : Starts "</loc".toList ((before ++ (l.tag ++ more)).drop q))
    (hq : before.length < q + 5) : before.length + l.tag.length ≤ q := by
  have hbracket : (before ++ (l.tag ++ more))[before.length]? = some '<' :=
    getElem?_bracket before _
  by_contra hlt
  rcases Nat.lt_or_ge q before.length with hinside | hbehind
  · -- the bracket of the opening tag would stand within the closing tag
    have hclosing : Starts ('<' :: "/loc".toList) ((before ++ (l.tag ++ more)).drop q) := h
    have := hclosing.not_inside (by decide) hbracket hinside
    change q + 4 < before.length at this
    omega
  · obtain ⟨i, rfl⟩ := Nat.exists_eq_add_of_le hbehind
    rw [List.drop_append, List.drop_of_length_le (by omega), List.nil_append,
      Nat.add_sub_cancel_left] at h
    rcases i with _ | j
    · have hopening := l.starts_tag more
      rw [List.drop_zero] at h
      have hle := List.prefix_of_prefix_length_le hopening h (by decide)
      exact absurd hle (by decide)
    · -- there is no other bracket in the tag
      have hclosing : Starts ('<' :: "/loc".toList) ((l.tag ++ more).drop (j + 1)) := h
      have hhead := hclosing.head
      rw [List.head?_drop, List.getElem?_append_left (by omega), Loc.tag,
        List.getElem?_cons_succ] at hhead
      exact l.not_mem_tag (List.mem_of_getElem? hhead)

/-- Where the content of an element begins that stands behind a text with no open tag. -/
theorem contentStart_loc (l : Loc) {before : Str} (more : Str) (hnone : contentStart before = none) :
    ∃ i, findChar (l.attributes ++ '>' :: more) '>' = some i ∧
      contentStart (before ++ (l.tag ++ more)) = some (before.length + (4 + (i + 1))) := by
  obtain ⟨i, hi⟩ : ∃ i, findChar (l.attributes ++ '>' :: more) '>' = some i := by
    rcases hi : findChar (l.attributes ++ '>' :: more) '>' with _ | i
    · exact absurd (findChar_eq_none.mp hi) (by simp)
    · exact ⟨i, rfl⟩
  refine ⟨i, hi, contentStart_eq_some.mpr ?_⟩
  have hname : l.tag ++ more = ('<' :: l.name) ++ (l.attributes ++ '>' :: more) := by
    simp [Loc.tag]
  have hlength : ('<' :: l.name).length = 4 := by
    rw [List.length_cons, l.name_length]
  have hnogt : findChar ('<' :: l.name) '>' = none := by
    rw [findChar_eq_none, List.mem_cons, not_or]
    exact ⟨by decide, l.not_mem_name (by decide)⟩
  rcases hfound : findIgnoreCase before "<loc".toList with _ | opening
  · -- the element's own tag is the first
    refine ⟨before.length, i, ?_, ?_, by omega⟩
    · rw [findIgnoreCase_eq_some loc_ne_nil, List.drop_left]
      refine ⟨l.starts_tag more, fun j hj hstarts => ?_⟩
      have hbracket : (before ++ (l.tag ++ more))[before.length]? = some '<' :=
        getElem?_bracket before _
      have hopening : Starts ('<' :: "loc".toList) ((before ++ (l.tag ++ more)).drop j) := hstarts
      have hend := hopening.not_inside (by decide) hbracket hj
      change j + 3 < before.length at hend
      exact (findIgnoreCase_eq_none loc_ne_nil).mp hfound j
        (hstarts.of_drop_append (by change j + 4 ≤ before.length; omega))
    · rw [← List.drop_drop, List.drop_left, hname, ← hlength, List.drop_left]
      exact hi
  · -- a tag that the text leaves unfinished ends where the element's own tag does
    have hle := findIgnoreCase_length loc_ne_nil hfound
    change opening + 4 ≤ before.length at hle
    have hnogt' : findChar (before.drop (opening + 4)) '>' = none := by
      rcases htag : findChar (before.drop (opening + 4)) '>' with _ | tagEnd
      · rfl
      · rw [contentStart_eq_some.mpr ⟨opening, tagEnd, hfound, htag, rfl⟩] at hnone
        cases hnone
    refine ⟨opening, i + 4 + (before.drop (opening + 4)).length,
      findIgnoreCase_append loc_ne_nil hfound _, ?_, ?_⟩
    · rw [List.drop_append_of_le_length hle, findChar_beyond hnogt', hname, findChar_beyond hnogt,
        hi, hlength]
      rfl
    · rw [List.length_drop]
      omega

theorem findChar_attributes (l : Loc) {more : Str} {i : ℕ}
    (hi : findChar (l.attributes ++ '>' :: more) '>' = some i) :
    i ≤ l.attributes.length ∧ ('>' ∉ l.attributes ↔ i = l.attributes.length) := by
  rcases hgt : findChar l.attributes '>' with _ | j
  · rw [findChar_beyond hgt] at hi
    have hhead : findChar ('>' :: more) '>' = some 0 := by
      rw [findChar, List.findIdx?_cons]
      rfl
    rw [hhead] at hi
    obtain rfl : 0 + l.attributes.length = i := Option.some.inj hi
    rw [Nat.zero_add]
    exact ⟨Nat.le_refl _, iff_of_true (findChar_eq_none.mp hgt) rfl⟩
  · rw [findChar_append hgt, Option.some.injEq] at hi
    subst hi
    have hlt := findChar_length hgt
    refine ⟨by omega, iff_of_false (fun hnone => ?_) (by omega)⟩
    rw [findChar_eq_none.mpr hnone] at hgt
    cases hgt

/-- The closing tag of an element is found at its text's end, or before. -/
theorem closing_text (l : Loc) (more : Str) :
    ∃ closing, findIgnoreCase (l.text ++ (l.ending ++ more)) "</loc".toList = some closing ∧
      closing ≤ l.text.length ∧
      (findIgnoreCase l.text "</loc".toList = none ↔ closing = l.text.length) := by
  have hending : Starts "</loc".toList ((l.text ++ (l.ending ++ more)).drop l.text.length) := by
    rw [List.drop_left]
    exact l.starts_ending more
  rcases hfound : findIgnoreCase (l.text ++ (l.ending ++ more)) "</loc".toList with _ | closing
  · exact absurd hending ((findIgnoreCase_eq_none closing_ne_nil).mp hfound _)
  · obtain ⟨hstarts, hfirst⟩ := (findIgnoreCase_eq_some closing_ne_nil).mp hfound
    have hle : closing ≤ l.text.length := Nat.le_of_not_lt fun hlt => hfirst _ hlt hending
    refine ⟨closing, rfl, hle, ?_⟩
    constructor
    · intro hnone
      by_contra hne
      have hbeyond := findIgnoreCase_beyond closing_ne_nil hnone hfound
      have hbracket : (l.text ++ (l.ending ++ more))[l.text.length]? = some '<' :=
        getElem?_bracket l.text _
      have hclosing : Starts ('<' :: "/loc".toList)
          ((l.text ++ (l.ending ++ more)).drop closing) := hstarts
      have hend := hclosing.not_inside (by decide) hbracket (by omega)
      change l.text.length < closing + 5 at hbeyond
      change closing + 4 < l.text.length at hend
      omega
    · rintro rfl
      rcases hnone : findIgnoreCase l.text "</loc".toList with _ | i
      · rfl
      · have hlength := findIgnoreCase_length closing_ne_nil hnone
        rw [findIgnoreCase_append closing_ne_nil hnone, Option.some.injEq] at hfound
        change i + 5 ≤ l.text.length at hlength
        omega

/-- No value is read from where a tag ends, if the content before it begins no later: the first
closing tag is behind the tag then. -/
theorem Scanned.misses {l : Loc} {before more : Str} {start : ℕ}
    (h : Scanned offset (before ++ (l.tag ++ more)) es stopped rest)
    (hstart : contentStart (before ++ (l.tag ++ more)) = some start)
    (hlt : start < before.length + l.tag.length)
    (hclosing : ∀ closing, findIgnoreCase ((before ++ (l.tag ++ more)).drop start)
      "</loc".toList = some closing → before.length < start + closing + 5) :
    ∀ e ∈ es, e.start ≠ offset + before.length + l.tag.length := by
  intro e he
  rcases hfound : findIgnoreCase ((before ++ (l.tag ++ more)).drop start) "</loc".toList with
    _ | closing
  · rw [h.nothing (nextLoc_of_unclosed hstart hfound)] at he
    cases he
  · obtain ⟨tail, rfl, htail⟩ := h.first hstart hfound
    have hstarts := ((findIgnoreCase_eq_some closing_ne_nil).mp hfound).1
    rw [List.drop_drop] at hstarts
    have hbehind := tag_le_closing l hstarts (hclosing closing hfound)
    rcases List.mem_cons.mp he with rfl | he
    · dsimp only
      omega
    · have := htail e he
      omega

/-- **When an element is read as what it is**: the text before it leaves no tag open, there is
no bracket among its attributes and no closing tag within its text. -/
theorem mem_entries_iff (l : Loc) (front more : Str) :
    (⟨front.length + l.tag.length, l.text⟩ : Entry) ∈ entries (front ++ (l.str ++ more)) ↔
      (¬ ∃ content, LeftOpen front content) ∧ '>' ∉ l.attributes ∧
        findIgnoreCase l.text "</loc".toList = none := by
  obtain ⟨es, es', stopped, stopped', rest, rest', hfront, hback, hentries⟩ :=
    entries_append front (l.str ++ more)
  have hoffset := hfront.offset_eq
  have htag := l.tag_length
  rw [Nat.zero_add] at hoffset
  have hstr : l.str ++ more = l.tag ++ (l.text ++ (l.ending ++ more)) := by
    simp [Loc.str]
  rw [hstr] at hback
  have hmem : (⟨front.length + l.tag.length, l.text⟩ : Entry) ∈ entries (front ++ (l.str ++ more)) ↔
      (⟨front.length + l.tag.length, l.text⟩ : Entry) ∈ es' := by
    rw [hentries, List.mem_append, or_iff_right]
    intro he
    have := (hfront.bounds _ he).2
    dsimp only at this
    omega
  rw [hmem]
  clear hmem
  rcases hopen : contentStart rest with _ | a
  · have hclosed : ¬ ∃ content, LeftOpen front content := by
      rintro ⟨content, hcontent⟩
      obtain ⟨start, hstart, -⟩ := hfront.leftOpen_iff.mp hcontent
      rw [hopen] at hstart
      cases hstart
    rw [and_iff_right hclosed]
    obtain ⟨i, hi, hbegins⟩ := contentStart_loc l (l.text ++ (l.ending ++ more)) hopen
    obtain ⟨hile, hnogt⟩ := findChar_attributes l hi
    obtain ⟨closing, hclosing, hclosingle, hnone⟩ := closing_text l more
    rw [hnogt, hnone]
    by_cases hlast : i = l.attributes.length
    · -- its content begins with its text
      have hplace : rest.length + (4 + (i + 1)) = rest.length + l.tag.length := by omega
      have hcontent : (rest ++ (l.tag ++ (l.text ++ (l.ending ++ more)))).drop
          (rest.length + l.tag.length) = l.text ++ (l.ending ++ more) := by
        rw [← List.drop_drop, List.drop_left, List.drop_left]
      rw [hplace] at hbegins
      obtain ⟨tail, rfl, htail⟩ := hback.first hbegins (by rw [hcontent]; exact hclosing)
      rw [hcontent, List.take_append_of_le_length hclosingle, and_iff_right hlast,
        List.mem_cons, or_iff_left fun he => by have := htail _ he; dsimp only at this; omega,
        Entry.mk.injEq, and_iff_right (by omega)]
      constructor
      · intro htext
        have hlength := congrArg List.length htext
        rw [List.length_take] at hlength
        omega
      · rintro rfl
        rw [List.take_length]
    · -- its content begins within its tag
      refine iff_of_false (fun he => ?_) fun h => hlast h.1
      have hstart := hback.misses hbegins (by omega) (fun closing _ => by omega) _ he
      dsimp only at hstart
      omega
  · -- the open tag takes the element for a part of its content
    refine iff_of_false (fun he => ?_)
      (fun h => h.1 ⟨_, hfront.leftOpen_iff.mpr ⟨a, hopen, rfl⟩⟩)
    have hle := (contentStart_le hopen).2
    have hbegins := contentStart_append hopen (l.tag ++ (l.text ++ (l.ending ++ more)))
    have hnone := nextLoc_eq_none.mp hfront.stops a hopen
    have hbeyond : ∀ closing, findIgnoreCase
        ((rest ++ (l.tag ++ (l.text ++ (l.ending ++ more)))).drop a) "</loc".toList = some closing →
        rest.length < a + closing + 5 := by
      intro closing hclosing
      rw [List.drop_append_of_le_length hle] at hclosing
      have hlt := findIgnoreCase_beyond closing_ne_nil hnone hclosing
      rw [List.length_drop] at hlt
      change rest.length - a < closing + 5 at hlt
      omega
    have hstart := hback.misses hbegins (by omega) hbeyond _ he
    dsimp only at hstart
    omega

/-! ### Documents -/

/-- A piece of a document: an element with a URL, or anything else. -/
inductive Piece
  | loc (l : Loc)
  | other (text : Str)

def Piece.str : Piece → Str
  | .loc l => l.str
  | .other text => text

/-- What pieces are written as. -/
def written (pieces : List Piece) : Str := pieces.flatMap Piece.str

/-- A well-formed record, in any letter case, and the white space behind it. -/
structure Record where
  opening : Str
  elements : List Piece
  closing : Str
  space : Str
  opening_eq : asciiLower opening = "<url>".toList
  closing_eq : asciiLower closing = "</url>".toList
  space_ok : ∀ c ∈ space, isWhitespace c = true

def Record.pieces (r : Record) : List Piece :=
  .other r.opening :: (r.elements ++ [.other (r.closing ++ r.space)])

/-- A sitemap of which one record may be malformed. -/
structure Document where
  header : Str
  before : List Record
  malformed : Str
  after : List Record
  footer : Str

/-- The elements with a URL among pieces that follow a text, each with all text before it. -/
def locsFrom : Str → List Piece → List (Str × Loc)
  | _, [] => []
  | front, .loc l :: pieces => (front, l) :: locsFrom (front ++ l.str) pieces
  | front, .other text :: pieces => locsFrom (front ++ text) pieces

/-- What the scanner reads of an element that it reads as what it is. -/
def entryOf (front : Str) (l : Loc) : Entry := ⟨front.length + l.tag.length, l.text⟩

namespace Document

variable (doc : Document)

def records : List Str :=
  (doc.before.map fun r => written r.pieces) ++
    doc.malformed :: doc.after.map fun r => written r.pieces

def body : Str := doc.header ++ (doc.records.flatten ++ doc.footer)

/-- The pieces of the document; the malformed record is one. -/
def pieces : List Piece :=
  .other doc.header :: (doc.before.flatMap Record.pieces ++
    .other doc.malformed :: (doc.after.flatMap Record.pieces ++ [.other doc.footer]))

/-- The elements of the well-formed records. -/
def locs : List (Str × Loc) := locsFrom [] doc.pieces

/-- The elements with an http or https URL. -/
def httpLocs (urls : UrlCrate) : List (Str × Loc) :=
  doc.locs.filter fun found => (normalize urls found.2.text).isSome

/-- A place between two records that cuts the body. -/
def Cut (front back : Str) : Prop :=
  ∃ left right : List Str, doc.records = left ++ right ∧ left.flatten ≠ [] ∧
    right.flatten ≠ [] ∧ front = doc.header ++ left.flatten ∧ back = right.flatten ++ doc.footer

/-- **A malformed record costs nothing**: every http or https URL of the other records is
returned, in their order, and no URL is made of text of two records.  The URLs are read from
their own elements: one that other text happens to spell does not stand in for its element. -/
structure Kept (urls : UrlCrate) : Prop where
  inPlace : ((doc.httpLocs urls).map fun found => entryOf found.1 found.2).Sublist
    (entries doc.body)
  returned : (doc.locs.filterMap fun found => normalize urls found.2.text).Sublist
    (parse urls doc.body)
  apart : ∀ e ∈ entries doc.body, ∀ front back, doc.Cut front back →
    e.start < front.length → front.length < e.start + e.raw.length → normalize urls e.raw = none

/-- No element with a URL stands where a tag is open, has a bracket among its attributes or a
closing tag in its text; and a tag that is open between two records makes no URL of what
follows it up to the next closing tag. -/
structure Readable (urls : UrlCrate) : Prop where
  locs : ∀ front l, (front, l) ∈ doc.httpLocs urls →
    (¬ ∃ content, LeftOpen front content) ∧ '>' ∉ l.attributes ∧
      findIgnoreCase l.text "</loc".toList = none
  cuts : ∀ front back content closing, doc.Cut front back → LeftOpen front content →
    content ≠ [] → findIgnoreCase (content ++ back) "</loc".toList = some closing →
    content.length < closing → normalize urls ((content ++ back).take closing) = none

end Document

variable {urls : UrlCrate}

theorem parseUpTo_eq (fuel offset : ℕ) (s : Str) :
    parseUpTo urls fuel s =
      (entriesUpTo fuel offset s).filterMap fun e => normalize urls e.raw := by
  induction fuel generalizing offset s with
  | zero => rfl
  | succ fuel ih =>
    rw [parseUpTo, entriesUpTo]
    rcases hstart : contentStart s with _ | start
    · rw [nextLoc_of_unopened hstart]
      rfl
    · dsimp only
      rcases hclosing : findIgnoreCase (s.drop start) "</loc".toList with _ | closing
      · rw [nextLoc_of_unclosed hstart hclosing]
        rfl
      · rw [nextLoc_eq_some.mpr ⟨start, closing, hstart, hclosing, rfl, rfl⟩, List.filterMap_cons]
        dsimp only
        rw [ih (offset + start + closing)]
        rcases normalize urls ((s.drop start).take closing) with _ | url
        · rfl
        · rfl

/-- The scanner returns the URLs of what it reads. -/
theorem parse_eq (s : Str) :
    parse urls s = (entries s).filterMap fun e => normalize urls e.raw :=
  parseUpTo_eq s.length 0 s

theorem locsFrom_written {acc : Str} {pieces : List Piece} {l : Loc}
    (h : (front, l) ∈ locsFrom acc pieces) :
    ∃ more, acc ++ written pieces = front ++ (l.str ++ more) := by
  induction pieces generalizing acc with
  | nil => cases h
  | cons piece pieces ih =>
    cases piece with
    | loc l' =>
      rcases List.mem_cons.mp h with heq | h
      · cases heq
        exact ⟨written pieces, rfl⟩
      · obtain ⟨more, hmore⟩ := ih h
        exact ⟨more, by rw [← hmore, List.append_assoc]; rfl⟩
    | other text =>
      obtain ⟨more, hmore⟩ := ih h
      exact ⟨more, by rw [← hmore, List.append_assoc]; rfl⟩

theorem locsFrom_length {acc : Str} {pieces : List Piece} {found : Str × Loc}
    (h : found ∈ locsFrom acc pieces) : acc.length ≤ found.1.length := by
  induction pieces generalizing acc with
  | nil => cases h
  | cons piece pieces ih =>
    cases piece with
    | loc l =>
      rcases List.mem_cons.mp h with rfl | h
      · exact Nat.le_refl _
      · have := ih h
        rw [List.length_append] at this
        omega
    | other text =>
      have := ih h
      rw [List.length_append] at this
      omega

theorem locsFrom_sorted (acc : Str) (pieces : List Piece) :
    (locsFrom acc pieces).Pairwise fun found found' =>
      (entryOf found.1 found.2).start < (entryOf found'.1 found'.2).start := by
  induction pieces generalizing acc with
  | nil => exact .nil
  | cons piece pieces ih =>
    cases piece with
    | loc l =>
      refine List.pairwise_cons.mpr ⟨fun found hfound => ?_, ih _⟩
      have hlength := locsFrom_length hfound
      have htag := found.2.tag_length
      rw [List.length_append, Loc.str, List.length_append, List.length_append] at hlength
      dsimp only [entryOf]
      omega
    | other text => exact ih _

theorem written_append (pieces pieces' : List Piece) :
    written (pieces ++ pieces') = written pieces ++ written pieces' := List.flatMap_append

theorem written_records (records : List Record) :
    written (records.flatMap Record.pieces) =
      (records.map fun r => written r.pieces).flatten := by
  induction records with
  | nil => rfl
  | cons r records ih =>
    rw [List.flatMap_cons, written_append, ih]
    rfl

theorem Document.written_pieces (doc : Document) : written doc.pieces = doc.body := by
  have hcons : ∀ (text : Str) (pieces : List Piece),
      written (.other text :: pieces) = text ++ written pieces := fun _ _ => rfl
  have hnil : written [] = [] := rfl
  rw [Document.pieces, hcons, written_append, hcons, written_append, hcons, hnil,
    written_records, written_records, Document.body, Document.records]
  simp

/-- Lists whose elements are found in another, both in one order, are its sublists. -/
theorem sublist_of_sorted {es es' : List Entry} (h : es.Pairwise fun e e' => e.start < e'.start)
    (h' : es'.Pairwise fun e e' => e.start < e'.start) : es.Sublist es' ↔ ∀ e ∈ es, e ∈ es' := by
  constructor
  · exact fun hsub e he => hsub.subset he
  · intro hmem
    have hnodup : es.Nodup := h.imp fun hlt heq => by
      rw [heq] at hlt
      exact lt_irrefl _ hlt
    have : Std.Antisymm (fun e e' : Entry => e.start < e'.start) :=
      ⟨fun e e' hlt hgt => absurd hgt (Nat.lt_asymm hlt)⟩
    exact List.sublist_of_subperm_of_pairwise (List.subperm_of_subset hnodup hmem) h h'

theorem Document.httpLocs_sorted (doc : Document) (urls : UrlCrate) :
    ((doc.httpLocs urls).map fun found => entryOf found.1 found.2).Pairwise
      fun e e' => e.start < e'.start :=
  List.pairwise_map.mpr ((locsFrom_sorted [] doc.pieces).filter _)

/-- The URLs of the elements that have one. -/
theorem Document.httpLocs_urls (doc : Document) (urls : UrlCrate) :
    ((doc.httpLocs urls).map fun found => entryOf found.1 found.2).filterMap
        (fun e => normalize urls e.raw) =
      doc.locs.filterMap fun found => normalize urls found.2.text := by
  rw [Document.httpLocs]
  induction doc.locs with
  | nil => rfl
  | cons found locs ih =>
    rw [List.filter_cons, List.filterMap_cons]
    rcases hurl : normalize urls found.2.text with _ | url
    · exact ih
    · have hentry : normalize urls (entryOf found.1 found.2).raw = some url := hurl
      rw [if_pos Option.isSome_some, List.map_cons, List.filterMap_cons, hentry, ih]

theorem Document.Cut.body_eq {doc : Document} {front back : Str} (h : doc.Cut front back) :
    doc.body = front ++ back := by
  obtain ⟨left, right, hrecords, -, -, rfl, rfl⟩ := h
  rw [Document.body, hrecords]
  simp

/-- The elements with a URL are read in place iff each is read. -/
theorem Document.inPlace_iff (urls : UrlCrate) (doc : Document) :
    ((doc.httpLocs urls).map fun found => entryOf found.1 found.2).Sublist (entries doc.body) ↔
      ∀ front l, (front, l) ∈ doc.httpLocs urls →
        (¬ ∃ content, LeftOpen front content) ∧ '>' ∉ l.attributes ∧
          findIgnoreCase l.text "</loc".toList = none := by
  obtain ⟨stopped, rest, hscanned⟩ := entries_scanned doc.body
  rw [sublist_of_sorted (doc.httpLocs_sorted urls) hscanned.sorted, List.forall_mem_map,
    Prod.forall]
  refine forall_congr' fun front => forall_congr' fun l => forall_congr' fun hfound => ?_
  obtain ⟨more, hmore⟩ := locsFrom_written (List.mem_of_mem_filter hfound)
  rw [List.nil_append, doc.written_pieces] at hmore
  rw [hmore]
  exact mem_entries_iff l front more

/-- **The URLs of the other records are returned**, in their order. -/
theorem Document.Readable.returned {doc : Document} (h : doc.Readable urls) :
    (doc.locs.filterMap fun found => normalize urls found.2.text).Sublist
      (parse urls doc.body) := by
  have hreturned := ((doc.inPlace_iff urls).mpr h.locs).filterMap fun e => normalize urls e.raw
  rwa [← parse_eq, doc.httpLocs_urls] at hreturned

/-- **No URL is made of text of two records** iff no tag that is open between two makes one. -/
theorem Document.apart_iff (urls : UrlCrate) (doc : Document) :
    (∀ e ∈ entries doc.body, ∀ front back, doc.Cut front back → e.start < front.length →
        front.length < e.start + e.raw.length → normalize urls e.raw = none) ↔
      ∀ front back content closing, doc.Cut front back → LeftOpen front content →
        content ≠ [] → findIgnoreCase (content ++ back) "</loc".toList = some closing →
        content.length < closing → normalize urls ((content ++ back).take closing) = none := by
  constructor
  · intro hapart front back content closing hcut hopen hne hclosing hlt
    have hcrossing := crossing_iff.mpr ⟨content, closing, hopen, hne, hclosing, hlt, rfl⟩
    rw [← hcut.body_eq] at hcrossing
    have hnone := hapart _ hcrossing.1 front back hcut hcrossing.2.1 hcrossing.2.2
    exact hnone
  · intro hcuts e he front back hcut hstart hend
    rw [hcut.body_eq] at he
    obtain ⟨content, closing, hopen, hne, hclosing, hlt, rfl⟩ := crossing_iff.mp ⟨he, hstart, hend⟩
    exact hcuts front back content closing hcut hopen hne hclosing hlt

/-- **A malformed record costs nothing if, and only if, no tag is open where it matters.** -/
theorem kept_iff (urls : UrlCrate) (doc : Document) : doc.Kept urls ↔ doc.Readable urls := by
  constructor
  · intro hkept
    exact ⟨(doc.inPlace_iff urls).mp hkept.inPlace, (doc.apart_iff urls).mp hkept.apart⟩
  · intro hreadable
    exact ⟨(doc.inPlace_iff urls).mpr hreadable.locs, hreadable.returned,
      (doc.apart_iff urls).mpr hreadable.cuts⟩

/-! ### A tag that a record leaves open -/

def plainLoc (url : Str) : Loc where
  name := "loc".toList
  attributes := []
  text := url
  endName := "loc".toList
  space := []
  name_eq := by decide
  attributes_ok := ⟨List.not_mem_nil, by simp⟩
  endName_eq := by decide
  space_ok := by simp

def plainRecord (url : Str) : Record where
  opening := "<url>".toList
  elements := [.loc (plainLoc url)]
  closing := "</url>".toList
  space := []
  opening_eq := by decide
  closing_eq := by decide
  space_ok := by simp

/-- The malformed record opens a tag and does not close it. -/
def openTagSitemap : Document where
  header := "<urlset>".toList
  before := []
  malformed := "<url><loc></url>".toList
  after := [plainRecord "https://b.org/2".toList]
  footer := "</urlset>".toList

/-- The record behind a tag that is left open is lost. -/
theorem open_tag_loses_next :
    (¬ ∃ front back, ∃ l : Loc, openTagSitemap.malformed = front ++ (l.str ++ back)) ∧
      (openTagSitemap.locs.filterMap fun found => normalize plainUrls found.2.text)
        = ["https://b.org/2".toList] ∧
      parse plainUrls openTagSitemap.body = [] ∧ ¬ openTagSitemap.Kept plainUrls := by
  have hurls : (openTagSitemap.locs.filterMap fun found => normalize plainUrls found.2.text)
      = ["https://b.org/2".toList] := by decide
  have hparse : parse plainUrls openTagSitemap.body = [] := by decide
  refine ⟨?_, hurls, hparse, fun hkept => ?_⟩
  · rintro ⟨front, back, l, hmalformed⟩
    obtain ⟨closing, hclosing, -⟩ := closing_text l back
    have hnone : findIgnoreCase openTagSitemap.malformed "</loc".toList = none := by decide
    rw [findIgnoreCase_eq_none closing_ne_nil] at hnone
    refine hnone (front.length + (l.tag.length + l.text.length)) ?_
    rw [hmalformed, ← List.drop_drop, List.drop_left, Loc.str]
    simp only [List.append_assoc]
    rw [← List.drop_drop, List.drop_left, List.drop_left]
    exact l.starts_ending back
  · have hreturned := hkept.returned
    rw [hurls, hparse] at hreturned
    cases hreturned

end SitemapScan
