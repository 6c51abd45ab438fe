/-
Which group of a robots.txt applies.

A file, its sitemaps aside, is a sequence of blocks; a block is user-agent lines
followed by rule lines, and a new one starts where a user-agent line follows a
rule line.  The blocks with at least one rule line are the groups.

* `block_split` — a block is its user-agent lines followed by its rule lines;
* `read_tracks` — the parser, line by line, keeps the blocks read so far;
* `parse_selects_first_greatest` — parsing takes the rules of the first of the
  groups that name the crawler most specifically.
-/
import MjlSearch.Robots

open Text Machine

namespace Robots

/-- A line that makes a rule. -/
def isRule (r : Record) : Bool :=
  r.1 = .disallow ∨ r.1 = .allow ∨ r.1 = .crawlDelay

/-- A sitemap line stands outside the groups. -/
def isSitemap (r : Record) : Bool := r.1 = .sitemap

/-- Whether two lines that follow each other belong together. -/
def together (a b : Record) : Bool := !(isRule a && b.1 = .userAgent)

/-- The longest stretches of lines that belong together. -/
def blocks (rs : List Record) : List (List Record) :=
  (rs.filter fun r => !isSitemap r).splitBy together

/-- The blocks with a rule. -/
def groups (rs : List Record) : List (List Record) :=
  (blocks rs).filter fun block => block.any isRule

/-- The agents a block names, in lower case. -/
def agentsOf (block : List Record) : List Str :=
  block.filterMap fun r => if r.1 = .userAgent then some (asciiLower r.2) else none

/-- The values of a field that are not empty, in file order. -/
def valuesOf (field : Field) (block : List Record) : List Str :=
  block.filterMap fun r => if r.1 = field ∧ r.2 ≠ [] then some r.2 else none

/-- The last delay a block asks for. -/
def crawlDelayOf (block : List Record) : Option ℕ :=
  (block.filterMap fun r => if r.1 = .crawlDelay then delayOf r.2 else none).getLast?

/-- The rules of a block. -/
def rulesOf (block : List Record) : RobotsRules :=
  { crawlDelayS := crawlDelayOf block
    disallow := valuesOf .disallow block
    allow := valuesOf .allow block
    sitemaps := [] }

/-- How specifically a block names the crawler: its most specific agent counts. -/
def groupSpecificity (userAgent : Str) (block : List Record) : Option ℕ :=
  ((agentsOf block).filterMap (specificity userAgent)).max?

/-- An element with a greatest value, the first of them: those before it have less,
those after it no more, or no value at all. -/
def FirstGreatest {α : Type} (value : α → Option ℕ) (l : List α) (a : α) : Prop :=
  ∃ before after m, l = before ++ a :: after ∧ value a = some m ∧
    (∀ b ∈ before, ∀ n, value b = some n → n < m) ∧
    ∀ b ∈ after, ∀ n, value b = some n → n ≤ m

/-- A block is its user-agent lines followed by its rule lines. -/
theorem block_split {rs block : List Record} (h : block ∈ blocks rs) :
    ∃ agents rules, block = agents ++ rules ∧ (∀ r ∈ agents, r.1 = .userAgent) ∧
      ∀ r ∈ rules, isRule r = true := by
  have hkind : ∀ r ∈ block, r.1 = .userAgent ∨ isRule r = true := by
    intro r hr
    have hmem : r ∈ rs.filter fun r => !isSitemap r := by
      rw [← List.flatten_splitBy together (rs.filter fun r => !isSitemap r)]
      exact List.mem_flatten.mpr ⟨block, h, hr⟩
    have hnot := (List.mem_filter.mp hmem).2
    rcases r with ⟨field, value⟩
    cases field <;> simp_all [isRule, isSitemap]
  have hchain : block.IsChain fun a b => together a b = true := List.isChain_of_mem_splitBy h
  clear h
  induction block with
  | nil => exact ⟨[], [], rfl, by simp, by simp⟩
  | cons a block ih =>
    obtain ⟨agents, rules, hsplit, hagents, hrules⟩ :=
      ih (fun r hr => hkind r (List.mem_cons_of_mem _ hr)) hchain.tail
    rcases hkind a List.mem_cons_self with hagent | hrule
    · refine ⟨a :: agents, rules, by rw [hsplit, List.cons_append], ?_, hrules⟩
      intro r hr
      rcases List.mem_cons.mp hr with rfl | hr
      · exact hagent
      · exact hagents r hr
    · -- no user-agent line follows a rule line in a block
      have hnone : agents = [] := by
        rcases agents with _ | ⟨b, agents⟩
        · rfl
        · rw [hsplit, List.cons_append] at hchain
          have htogether : together a b = true := (List.isChain_cons_cons.mp hchain).1
          have hb : b.1 = .userAgent := hagents b List.mem_cons_self
          simp [together, hrule, hb] at htogether
      subst hnone
      refine ⟨[], a :: rules, by rw [hsplit, List.nil_append, List.nil_append], by simp, ?_⟩
      intro r hr
      rcases List.mem_cons.mp hr with rfl | hr
      · exact hrule
      · exact hrules r hr

/-! ### The parser keeps the blocks -/

theorem splitBy_snoc_new {α : Type} {r : α → α → Bool} {l : List α} {a : α}
    (h : ∀ x ∈ l.getLast?, r x a = false) :
    (l ++ [a]).splitBy r = l.splitBy r ++ [[a]] :=
  List.splitBy_append_cons [] h

theorem splitBy_snoc_same {α : Type} {r : α → α → Bool} {l last : List α} {a b : α}
    {front : List (List α)} (h : l.splitBy r = front ++ [last ++ [b]]) (hr : r b a = true) :
    (l ++ [a]).splitBy r = front ++ [last ++ [b] ++ [a]] := by
  obtain ⟨hflat, hnil, hchain, hbound⟩ := List.splitBy_eq_iff.mp h
  refine List.splitBy_eq_iff.mpr ⟨?_, ?_, ?_, ?_⟩
  · rw [hflat]
    simp
  · simp only [List.mem_append, List.mem_singleton, not_or] at hnil ⊢
    exact ⟨hnil.1, by simp⟩
  · intro m hm
    rcases List.mem_append.mp hm with hm | hm
    · exact hchain m (List.mem_append_left _ hm)
    · rw [List.mem_singleton.mp hm]
      have hlast := hchain (last ++ [b]) (by simp)
      refine List.isChain_append.mpr ⟨hlast, List.isChain_singleton a, ?_⟩
      intro x hx y hy
      simp only [List.getLast?_append, List.getLast?_singleton, Option.some_or,
        Option.mem_def, Option.some.injEq, List.head?_cons] at hx hy
      rw [← hx, ← hy]
      exact hr
  · rw [List.isChain_append] at hbound ⊢
    refine ⟨hbound.1, List.isChain_singleton _, ?_⟩
    intro x hx y hy
    obtain ⟨hx', hy', hxy⟩ := hbound.2.2 x hx (last ++ [b]) (by simp)
    simp only [List.head?_cons, Option.mem_def, Option.some.injEq] at hy
    subst hy
    refine ⟨hx', by simp, ?_⟩
    rw [← hxy]
    congr 1
    rw [List.head_append_of_ne_nil (by simp)]

/-- The next line joins the last block, or starts a new one. -/
theorem blocks_snoc {rs : List Record} {front : List (List Record)} {last : List Record}
    {r : Record} (h : blocks rs = front ++ if last = [] then [] else [last])
    (hfirst : last = [] → front = []) (hr : isSitemap r = false) :
    blocks (rs ++ [r]) =
      if ∀ b ∈ last.getLast?, together b r = true then front ++ [last ++ [r]]
      else front ++ [last] ++ [[r]] := by
  have hfilter : ((rs ++ [r]).filter fun r => !isSitemap r)
      = (rs.filter fun r => !isSitemap r) ++ [r] := by
    rw [List.filter_append, List.filter_cons_of_pos (by rw [hr]; rfl), List.filter_nil]
  rw [blocks, hfilter]
  rw [blocks] at h
  rcases List.eq_nil_or_concat last with rfl | ⟨init, b, rfl⟩
  · rw [hfirst rfl, if_pos rfl, List.append_nil, List.splitBy_eq_nil] at h
    rw [h, hfirst rfl, if_pos (by simp)]
    rfl
  · rw [List.concat_eq_append] at *
    rw [if_neg (by simp)] at h
    have hlast : (rs.filter fun r => !isSitemap r).getLast? = some b := by
      rw [← List.flatten_splitBy together (rs.filter fun r => !isSitemap r), h]
      simp
    by_cases ht : together b r = true
    · rw [splitBy_snoc_same h ht, if_pos (by simpa using ht)]
    · rw [splitBy_snoc_new (by simpa [hlast] using ht), h, if_neg (by simpa using ht)]

/-- What the parser holds once it has read `rs`: the blocks before the last one as
groups, and the last one beside them. -/
structure Tracks (rs : List Record) (p : Parser) (front : List (List Record))
    (last : List Record) : Prop where
  split : blocks rs = front ++ if last = [] then [] else [last]
  first : last = [] → front = []
  ruled : ∀ block ∈ front, block.any isRule = true
  groups : p.groups = front.map fun block => (agentsOf block, rulesOf block)
  agents : p.agents = agentsOf last
  rules : p.rules = rulesOf last
  hasRules : p.groupHasRules = last.any isRule
  sitemaps : p.sitemaps = valuesOf .sitemap rs

theorem Tracks.start : Tracks [] Parser.start [] [] :=
  ⟨rfl, fun _ => rfl, by simp, rfl, rfl, rfl, rfl, rfl⟩

theorem valuesOf_snoc (field : Field) (block : List Record) (r : Record) :
    valuesOf field (block ++ [r])
      = if r.1 = field then pushValue (valuesOf field block) r.2 else valuesOf field block := by
  rw [valuesOf, List.filterMap_append]
  by_cases hfield : r.1 = field
  · by_cases hvalue : r.2 = []
    · simp [hfield, hvalue, pushValue, valuesOf]
    · simp [hfield, hvalue, pushValue, valuesOf]
  · simp [hfield, valuesOf]

theorem agentsOf_snoc (block : List Record) (r : Record) :
    agentsOf (block ++ [r])
      = if r.1 = .userAgent then agentsOf block ++ [asciiLower r.2] else agentsOf block := by
  rw [agentsOf, List.filterMap_append]
  by_cases hfield : r.1 = .userAgent
  · simp [hfield, agentsOf]
  · simp [hfield, agentsOf]

theorem crawlDelayOf_snoc (block : List Record) (r : Record) :
    crawlDelayOf (block ++ [r])
      = if r.1 = .crawlDelay then (delayOf r.2).or (crawlDelayOf block)
        else crawlDelayOf block := by
  rw [crawlDelayOf, List.filterMap_append, List.getLast?_append]
  by_cases hfield : r.1 = .crawlDelay
  · rcases hdelay : delayOf r.2 with _ | seconds
    · simp [hfield, hdelay, crawlDelayOf]
    · simp [hfield, hdelay]
  · simp [hfield, crawlDelayOf]

/-- A user-agent line is not a rule line, so it stays with the lines before it
exactly when none of them is a rule. -/
theorem userAgent_joins {rs : List Record} {front : List (List Record)} {last : List Record}
    {value : Str} (h : blocks rs = front ++ if last = [] then [] else [last]) :
    (∀ b ∈ last.getLast?, together b (.userAgent, value) = true) ↔ last.any isRule = false := by
  rcases List.eq_nil_or_concat last with rfl | ⟨init, b, rfl⟩
  · simp
  · rw [List.concat_eq_append] at *
    have hmem : init ++ [b] ∈ blocks rs := by
      rw [h, if_neg (by simp)]
      simp
    have hlast : (∀ c ∈ (init ++ [b]).getLast?, together c (.userAgent, value) = true)
        ↔ isRule b = false := by
      simp [together]
    rw [hlast]
    constructor
    · intro hb
      -- rule lines come last in a block, and this block ends with another line
      obtain ⟨agents, rules, hsplit, hagents, hrules⟩ := block_split hmem
      have hnone : rules = [] := by
        rcases List.eq_nil_or_concat rules with hnil | ⟨rules', c, rfl⟩
        · exact hnil
        · rw [List.concat_eq_append, ← List.append_assoc] at hsplit
          have hbc : b = c := List.singleton_inj.mp (List.append_inj_right' hsplit rfl)
          have hc := hrules c (by simp)
          rw [← hbc, hb] at hc
          cases hc
      rw [hsplit, hnone, List.append_nil, List.any_eq_false]
      intro r hr
      simp [isRule, hagents r hr]
    · intro hany
      rw [List.any_append, Bool.or_eq_false_iff] at hany
      simpa using hany.2

theorem Tracks.read {rs : List Record} {p : Parser} {front : List (List Record)}
    {last : List Record} (h : Tracks rs p front last) (r : Record) :
    ∃ front' last', Tracks (rs ++ [r]) (p.read r) front' last' := by
  obtain ⟨hsplit, hfirst, hfront, hgroups, hagents, hrules, hhas, hsitemaps⟩ := h
  rcases r with ⟨field, value⟩
  -- a rule line joins the last block
  have hjoin : ∀ field : Field, isRule (field, value) = true →
      blocks (rs ++ [(field, value)])
        = front ++ if last ++ [(field, value)] = [] then [] else [last ++ [(field, value)]] := by
    intro field hrule
    have hsite : isSitemap (field, value) = false := by
      cases field <;> simp_all [isRule, isSitemap]
    have htogether : ∀ b ∈ last.getLast?, together b (field, value) = true := by
      intro b _
      cases field <;> simp_all [isRule, together]
    rw [blocks_snoc hsplit hfirst hsite, if_pos htogether, if_neg (by simp)]
  have hsites : ∀ field : Field, field ≠ .sitemap →
      p.sitemaps = valuesOf .sitemap (rs ++ [(field, value)]) := by
    intro field hne
    rw [valuesOf_snoc, if_neg hne, hsitemaps]
  cases field with
  | userAgent =>
    have hnext := blocks_snoc (r := (.userAgent, value)) hsplit hfirst rfl
    by_cases hany : last.any isRule = true
    · have hnot : ¬ ∀ b ∈ last.getLast?, together b (.userAgent, value) = true := by
        rw [userAgent_joins hsplit, hany]
        simp
      rw [if_neg hnot] at hnext
      refine ⟨front ++ [last], [(.userAgent, value)], ?_, by simp, ?_, ?_, ?_, ?_, ?_, ?_⟩
      · rw [hnext, if_neg (by simp)]
      · intro block hblock
        rcases List.mem_append.mp hblock with hb | hb
        · exact hfront block hb
        · rw [List.mem_singleton.mp hb, hany]
      · simp [Parser.read, hhas, hany, hgroups, hagents, hrules]
      · simp [Parser.read, hhas, hany, agentsOf]
      · simp [Parser.read, hhas, hany, rulesOf, allowAll, valuesOf, crawlDelayOf]
      · simp [Parser.read, hhas, hany, isRule]
      · rw [← hsites .userAgent (by decide)]
        simp [Parser.read, hhas, hany]
    · rw [Bool.not_eq_true] at hany
      rw [if_pos ((userAgent_joins hsplit).mpr hany)] at hnext
      refine ⟨front, last ++ [(.userAgent, value)], ?_, by simp, hfront, ?_, ?_, ?_, ?_, ?_⟩
      · rw [hnext, if_neg (by simp)]
      · simp [Parser.read, hhas, hany, hgroups]
      · simp [Parser.read, hhas, hany, hagents, agentsOf_snoc]
      · simp [Parser.read, hhas, hany, hrules, rulesOf, valuesOf_snoc, crawlDelayOf_snoc]
      · rw [List.any_append, hany]
        simp [Parser.read, hhas, hany, isRule]
      · rw [← hsites .userAgent (by decide)]
        simp [Parser.read, hhas, hany]
  | disallow =>
    refine ⟨front, last ++ [(.disallow, value)], hjoin _ rfl, by simp, hfront, hgroups, ?_, ?_,
      ?_, hsites _ (by decide)⟩
    · rw [agentsOf_snoc, if_neg (by simp)]
      exact hagents
    · simp [Parser.read, hrules, rulesOf, valuesOf_snoc, crawlDelayOf_snoc]
    · simp [Parser.read, isRule]
  | allow =>
    refine ⟨front, last ++ [(.allow, value)], hjoin _ rfl, by simp, hfront, hgroups, ?_, ?_,
      ?_, hsites _ (by decide)⟩
    · rw [agentsOf_snoc, if_neg (by simp)]
      exact hagents
    · simp [Parser.read, hrules, rulesOf, valuesOf_snoc, crawlDelayOf_snoc]
    · simp [Parser.read, isRule]
  | crawlDelay =>
    refine ⟨front, last ++ [(.crawlDelay, value)], hjoin _ rfl, by simp, hfront, hgroups, ?_, ?_,
      ?_, hsites _ (by decide)⟩
    · rw [agentsOf_snoc, if_neg (by simp)]
      exact hagents
    · simp [Parser.read, hrules, rulesOf, valuesOf_snoc, crawlDelayOf_snoc]
    · simp [Parser.read, isRule]
  | sitemap =>
    refine ⟨front, last, ?_, hfirst, hfront, hgroups, hagents, hrules, hhas, ?_⟩
    · rw [← hsplit, blocks, List.filter_append]
      simp [blocks, isSitemap]
    · rw [valuesOf_snoc, if_pos rfl]
      simp [Parser.read, hsitemaps]

/-- **The parser, line by line, keeps the blocks read so far.** -/
theorem read_tracks (rs : List Record) :
    ∃ front last, Tracks rs (rs.foldl Parser.read Parser.start) front last := by
  induction rs using List.reverseRecOn with
  | nil => exact ⟨[], [], Tracks.start⟩
  | append_singleton rs r ih =>
    obtain ⟨front, last, h⟩ := ih
    rw [List.foldl_append, List.foldl_cons, List.foldl_nil]
    exact h.read r

/-! ### The selection -/

/-- Keeps the first element of greatest value, under its image. -/
def keepGreater {α ρ : Type} (value : α → Option ℕ) (image : α → ρ) (best : Option (ρ × ℕ))
    (a : α) : Option (ρ × ℕ) :=
  match value a with
  | none => best
  | some m => if best.all fun b => b.2 < m then some (image a, m) else best

/-- **Going through a list with `keepGreater` finds its first greatest element.** -/
theorem foldl_keepGreater {α ρ : Type} (value : α → Option ℕ) (image : α → ρ) (l : List α) :
    (l.foldl (keepGreater value image) none = none ∧ ∀ a ∈ l, value a = none) ∨
    ∃ before a after m, l = before ++ a :: after ∧ value a = some m ∧
      (∀ b ∈ before, ∀ n, value b = some n → n < m) ∧
      (∀ b ∈ after, ∀ n, value b = some n → n ≤ m) ∧
      l.foldl (keepGreater value image) none = some (image a, m) := by
  induction l using List.reverseRecOn with
  | nil => exact Or.inl ⟨rfl, by simp⟩
  | append_singleton l c ih =>
    rw [List.foldl_append, List.foldl_cons, List.foldl_nil]
    rcases hc : value c with _ | n
    · -- an element without a value changes nothing
      rcases ih with ⟨hbest, hnone⟩ | ⟨before, a, after, m, rfl, ha, hbefore, hafter, hbest⟩
      · refine Or.inl ⟨by rw [hbest, keepGreater, hc], ?_⟩
        intro a ha
        rcases List.mem_append.mp ha with ha | ha
        · exact hnone a ha
        · rw [List.mem_singleton.mp ha, hc]
      · refine Or.inr ⟨before, a, after ++ [c], m, by simp, ha, hbefore, ?_, ?_⟩
        · intro b hb k hk
          rcases List.mem_append.mp hb with hb | hb
          · exact hafter b hb k hk
          · rw [List.mem_singleton.mp hb, hc] at hk
            cases hk
        · rw [hbest, keepGreater, hc]
    · rcases ih with ⟨hbest, hnone⟩ | ⟨before, a, after, m, rfl, ha, hbefore, hafter, hbest⟩
      · refine Or.inr ⟨l, c, [], n, rfl, hc, ?_, by simp, by rw [hbest, keepGreater, hc]; rfl⟩
        intro b hb k hk
        rw [hnone b hb] at hk
        cases hk
      · by_cases hlt : m < n
        · refine Or.inr ⟨before ++ a :: after, c, [], n, rfl, hc, ?_, by simp, ?_⟩
          · intro b hb k hk
            rcases List.mem_append.mp hb with hb | hb
            · exact lt_trans (hbefore b hb k hk) hlt
            · rcases List.mem_cons.mp hb with rfl | hb
              · rw [ha] at hk
                cases hk
                exact hlt
              · exact lt_of_le_of_lt (hafter b hb k hk) hlt
          · rw [hbest, keepGreater, hc]
            simp [hlt]
        · refine Or.inr ⟨before, a, after ++ [c], m, by simp, ha, hbefore, ?_, ?_⟩
          · intro b hb k hk
            rcases List.mem_append.mp hb with hb | hb
            · exact hafter b hb k hk
            · rw [List.mem_singleton.mp hb, hc] at hk
              cases hk
              exact Nat.not_lt.mp hlt
          · rw [hbest, keepGreater, hc]
            simp [hlt]

/-- A group's agents together count as its most specific one. -/
theorem foldl_selectAgent (userAgent : Str) (rules : RobotsRules) (agents : List Str)
    (best : Option (RobotsRules × ℕ)) :
    agents.foldl (selectAgent userAgent rules) best =
      match (agents.filterMap (specificity userAgent)).max? with
      | none => best
      | some m => if best.all fun b => b.2 < m then some (rules, m) else best := by
  induction agents generalizing best with
  | nil => rfl
  | cons agent agents ih =>
    rw [List.foldl_cons, ih]
    rcases hagent : specificity userAgent agent with _ | n
    · rw [List.filterMap_cons_none hagent, selectAgent, hagent]
    · rw [List.filterMap_cons_some hagent, List.max?_cons, selectAgent, hagent]
      rcases hrest : (agents.filterMap (specificity userAgent)).max? with _ | m
      · rfl
      · rcases best with _ | ⟨rules', k⟩
        · by_cases hnm : n < m
          · simp [hnm, Nat.max_eq_right (le_of_lt hnm)]
          · simp [hnm, Nat.max_eq_left (Nat.not_lt.mp hnm)]
        · by_cases hkn : k < n
          · by_cases hnm : n < m
            · have hkm : k < m := lt_trans hkn hnm
              have hmax : max n m = m := Nat.max_eq_right (le_of_lt hnm)
              simp only [Option.elim_some, hmax]
              simp [hkn, hkm, hnm]
            · simp [hkn, hnm, Nat.max_eq_left (Nat.not_lt.mp hnm)]
          · by_cases hkm : k < m
            · have hnm : n ≤ m := le_of_lt (lt_of_le_of_lt (Nat.not_lt.mp hkn) hkm)
              simp [hkn, hkm, Nat.max_eq_right hnm]
            · have hmax : ¬ k < max n m := by omega
              simp only [Option.elim_some, Option.all_some, hmax]
              simp [hkn, hkm]

/-- Selecting among the blocks of a file. -/
theorem selectGroup_eq (bs : List (List Record)) (userAgent : Str) :
    selectGroup (bs.map fun block => (agentsOf block, rulesOf block)) userAgent
      = (bs.foldl (keepGreater (groupSpecificity (asciiLower userAgent)) rulesOf) none).map
          Prod.fst := by
  rw [selectGroup, List.foldl_map]
  congr 2
  funext best block
  rw [foldl_selectAgent, keepGreater, groupSpecificity]

/-- Parsing a file selects one of its groups, and takes its sitemaps wherever they
stand. -/
theorem parse_spec (body userAgent : Str) :
    parse body userAgent =
      { (selectGroup ((groups (records body)).map fun block => (agentsOf block, rulesOf block))
          userAgent).getD allowAll with
        sitemaps := valuesOf .sitemap (records body) } := by
  obtain ⟨front, last, h⟩ := read_tracks (records body)
  have hfront : front.filter (fun block => block.any isRule) = front :=
    List.filter_eq_self.mpr h.ruled
  have hgroups : groups (records body)
      = front ++ if last.any isRule then [last] else [] := by
    rw [groups, h.split, List.filter_append, hfront]
    congr 1
    by_cases hnil : last = []
    · rw [if_pos hnil, hnil]
      rfl
    · rw [if_neg hnil, List.filter_singleton, Bool.cond_eq_ite]
  have hselect : selectGroup
      (if last.any isRule = true ∧ agentsOf last ≠ [] then
        (front.map fun block => (agentsOf block, rulesOf block)) ++ [(agentsOf last, rulesOf last)]
      else front.map fun block => (agentsOf block, rulesOf block)) userAgent
      = selectGroup ((groups (records body)).map fun block => (agentsOf block, rulesOf block))
          userAgent := by
    rw [hgroups]
    by_cases hany : last.any isRule = true
    · rw [if_pos hany, List.map_append, List.map_singleton]
      by_cases hagents : agentsOf last = []
      · -- rules that no agent line stands before apply to nobody
        rw [if_neg (by simp [hagents]), selectGroup, selectGroup, List.foldl_append, hagents]
        rfl
      · rw [if_pos ⟨hany, hagents⟩]
    · rw [if_neg (by simp [hany]), if_neg hany, List.append_nil]
  rw [parse]
  dsimp only
  rw [h.groups, h.agents, h.rules, h.hasRules, h.sitemaps, hselect]

/-- **Parsing takes the rules of the first group that names the crawler most
specifically**, and every sitemap of the file. -/
theorem parse_selects_first_greatest (body userAgent : Str) :
    (parse body userAgent).sitemaps = valuesOf .sitemap (records body) ∧
    ((∃ group, FirstGreatest (groupSpecificity (asciiLower userAgent)) (groups (records body))
          group ∧
        (parse body userAgent).disallow = valuesOf .disallow group ∧
        (parse body userAgent).allow = valuesOf .allow group ∧
        (parse body userAgent).crawlDelayS = crawlDelayOf group) ∨
      ((∀ group ∈ groups (records body), groupSpecificity (asciiLower userAgent) group = none) ∧
        (parse body userAgent).disallow = [] ∧ (parse body userAgent).allow = [] ∧
        (parse body userAgent).crawlDelayS = none)) := by
  rw [parse_spec, selectGroup_eq]
  refine ⟨rfl, ?_⟩
  rcases foldl_keepGreater (groupSpecificity (asciiLower userAgent)) rulesOf
      (groups (records body)) with
    ⟨hbest, hnone⟩ | ⟨before, group, after, m, hsplit, hvalue, hbefore, hafter, hbest⟩
  · rw [hbest]
    exact Or.inr ⟨hnone, rfl, rfl, rfl⟩
  · rw [hbest]
    exact Or.inl ⟨group, ⟨before, after, m, hsplit, hvalue, hbefore, hafter⟩, rfl, rfl, rfl⟩

/-- The blocks that name the crawler most specifically. -/
def greatestBlocks (userAgent : Str) (bs : List (List Record)) : List (List Record) :=
  let greatest := (bs.filterMap (groupSpecificity userAgent)).max?
  bs.filter fun block => (groupSpecificity userAgent block).isSome ∧
    groupSpecificity userAgent block = greatest

/-- What they disallow together, whether a rule follows their agents or not. -/
def greatestDisallow (body userAgent : Str) : List Str :=
  (greatestBlocks (asciiLower userAgent) (blocks (records body))).flatMap (valuesOf .disallow)

/-- A file whose rules for every crawler stand in two groups. -/
def twoGroups : Str := "User-agent: *\nDisallow: /a\nUser-agent: *\nDisallow: /b\n".toList

/-- A file that ends with an agent and no rule for it. -/
def bareGroup : Str := "User-agent: *\nDisallow: /\nUser-agent: MJLsearchBot\n".toList

/-- The second of two groups for the same agent is not read, and an agent at the end of the file
is dropped when no rule follows it. -/
theorem groups_dropped :
    (parse twoGroups "MJLsearchBot".toList).disallow = ["/a".toList] ∧
      greatestDisallow twoGroups "MJLsearchBot".toList = ["/a".toList, "/b".toList] ∧
      (parse twoGroups "MJLsearchBot".toList).disallow
        ≠ greatestDisallow twoGroups "MJLsearchBot".toList ∧
      (parse bareGroup "MJLsearchBot".toList).disallow = ["/".toList] ∧
      greatestDisallow bareGroup "MJLsearchBot".toList = [] ∧
      (parse bareGroup "MJLsearchBot".toList).disallow
        ≠ greatestDisallow bareGroup "MJLsearchBot".toList := by
  decide

end Robots
