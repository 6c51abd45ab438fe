/-
The seed list (`scripts.make_seeds`): the pages of the sites, taken in turn.

* `interleave_eq` — the list is the start of one round robin over the sites, without
  repetitions; so the share does not change it (`interleave_share`);
* `interleave_fair` — no page beyond the share comes before one within it.
-/
import MjlSearch.StableSort
import Mathlib.Data.List.Dedup
import Mathlib.Data.List.TakeWhile
import Mathlib.Tactic.Linarith

open StableSort

namespace Seeds

variable {α : Type*}

/-- What has been collected: the list, and the set of what is on it. -/
structure Collected (α : Type*) where
  out : List α
  seen : List α

/-- The length of the longest list. -/
def deepest (perSite : List (List α)) : ℕ := (perSite.map List.length).max?.getD 0

section
variable [DecidableEq α]

/-- A page is collected unless it was seen; the list is returned when the budget is spent. -/
def collect (limit : ℕ) (c : Collected α) (page : α) : Except (List α) (Collected α) :=
  if page ∈ c.seen then .ok c
  else
    let out := c.out ++ [page]
    if limit ≤ out.length then .error out else .ok { out, seen := page :: c.seen }

/-- The body of both passes: the page at a depth of a site, if there is one. -/
def visit (limit depth : ℕ) (c : Collected α) (pages : List α) : Except (List α) (Collected α) :=
  match pages[depth]? with
  | none => .ok c
  | some page => collect limit c page

/-- A pass over all sites at each of some depths. -/
def pass (limit : ℕ) (perSite : List (List α)) (c : Collected α) (depths : List ℕ) :
    Except (List α) (Collected α) :=
  depths.foldlM (fun c depth => perSite.foldlM (visit limit depth) c) c

/-- Round-robins the sites, with each one capped at `share` pages. -/
def interleave (perSite : List (List α)) (limit share : ℕ) : List α :=
  let first := (List.range (deepest perSite)).takeWhile fun depth => depth != share
  let second := List.range' share (deepest perSite - share)
  match pass limit perSite ⟨[], []⟩ first >>= fun c => pass limit perSite c second with
  | .error out => out
  | .ok c => c.out

end

/-! ### The order of the pages -/

/-- The pages at one depth after the other, site by site. -/
def roundRobin (perSite : List (List α)) (depths : List ℕ) : List α :=
  depths.flatMap fun depth => perSite.filterMap fun pages => pages[depth]?

theorem mem_roundRobin {perSite : List (List α)} {depths : List ℕ} {page : α} :
    page ∈ roundRobin perSite depths ↔
      ∃ depth ∈ depths, ∃ pages ∈ perSite, pages[depth]? = some page := by
  simp [roundRobin]

/-- The depths of the two passes are all depths, in order. -/
theorem takeWhile_append_range' (n share : ℕ) :
    ((List.range n).takeWhile fun depth => depth != share) ++ List.range' share (n - share) =
      List.range n := by
  have hbefore : ∀ depth ∈ List.range (min n share), (depth != share) = true := by
    intro depth hdepth
    rw [List.mem_range] at hdepth
    exact bne_iff_ne.mpr (by omega)
  rcases Nat.lt_or_ge share n with hlt | hge
  · obtain ⟨k, rfl⟩ := Nat.exists_eq_add_of_lt hlt
    rw [Nat.min_eq_right hlt.le] at hbefore
    have hcount : share + k + 1 - share = k + 1 := by omega
    have hstop : ((List.range' share (k + 1)).takeWhile fun depth => depth != share) = [] := by
      rw [List.range'_succ, List.takeWhile_cons_of_neg (by simp)]
    rw [hcount, Nat.add_assoc, List.range_add, ← List.range'_eq_map_range,
      List.takeWhile_append_of_pos hbefore, hstop, List.append_nil]
  · rw [Nat.min_eq_left hge] at hbefore
    rw [List.takeWhile_eq_self_iff.mpr hbefore, Nat.sub_eq_zero_of_le hge, List.range'_zero,
      List.append_nil]

theorem length_le_deepest {perSite : List (List α)} {pages : List α} (h : pages ∈ perSite) :
    pages.length ≤ deepest perSite :=
  List.le_max?_getD_of_mem (List.mem_map_of_mem h)

/-- A page of a site is at one of the depths. -/
theorem mem_roundRobin_iff {perSite : List (List α)} {page : α} :
    page ∈ roundRobin perSite (List.range (deepest perSite)) ↔ page ∈ perSite.flatten := by
  rw [mem_roundRobin, List.mem_flatten]
  constructor
  · rintro ⟨depth, -, pages, hpages, hpage⟩
    exact ⟨pages, hpages, List.mem_of_getElem? hpage⟩
  · rintro ⟨pages, hpages, hpage⟩
    obtain ⟨depth, hdepth⟩ := List.mem_iff_getElem?.mp hpage
    obtain ⟨hlt, -⟩ := List.getElem?_eq_some_iff.mp hdepth
    exact ⟨depth, List.mem_range.mpr (hlt.trans_le (length_le_deepest hpages)), pages, hpages,
      hdepth⟩

/-- The pages that stand within the share of a site are those of the first pass. -/
theorem mem_roundRobin_take {perSite : List (List α)} {share : ℕ} {page : α} :
    page ∈ roundRobin perSite (List.range (min share (deepest perSite))) ↔
      ∃ pages ∈ perSite, page ∈ pages.take share := by
  rw [mem_roundRobin]
  constructor
  · rintro ⟨depth, hdepth, pages, hpages, hpage⟩
    rw [List.mem_range] at hdepth
    refine ⟨pages, hpages, List.mem_of_getElem? (i := depth) ?_⟩
    rw [List.getElem?_take_of_lt (by omega), hpage]
  · rintro ⟨pages, hpages, hpage⟩
    obtain ⟨depth, hdepth⟩ := List.mem_iff_getElem?.mp hpage
    obtain ⟨hlt, -⟩ := List.getElem?_eq_some_iff.mp hdepth
    rw [List.length_take] at hlt
    have hle := length_le_deepest hpages
    refine ⟨depth, List.mem_range.mpr (by omega), pages, hpages, ?_⟩
    rw [← hdepth, List.getElem?_take_of_lt (by omega)]

/-- The depths within the share come first. -/
theorem roundRobin_split (perSite : List (List α)) (share : ℕ) :
    ∃ rest, roundRobin perSite (List.range (deepest perSite)) =
      roundRobin perSite (List.range (min share (deepest perSite))) ++ rest := by
  obtain ⟨k, hk⟩ := Nat.exists_eq_add_of_le (Nat.min_le_right share (deepest perSite))
  refine ⟨roundRobin perSite ((List.range k).map (min share (deepest perSite) + ·)), ?_⟩
  rw [roundRobin, roundRobin, roundRobin, ← List.flatMap_append, ← List.range_add, ← hk]

/-! ### The list -/

variable [DecidableEq α]

theorem foldlM_visit (limit depth : ℕ) (perSite : List (List α)) (c : Collected α) :
    perSite.foldlM (visit limit depth) c =
      (perSite.filterMap fun pages => pages[depth]?).foldlM (collect limit) c := by
  induction perSite generalizing c with
  | nil => rfl
  | cons pages perSite ih =>
    rw [List.foldlM_cons, visit, List.filterMap_cons]
    cases pages[depth]? with
    | none => exact ih c
    | some page =>
      rw [List.foldlM_cons]
      exact bind_congr ih

/-- A pass collects the pages of a round robin. -/
theorem pass_eq (limit : ℕ) (perSite : List (List α)) (c : Collected α) (depths : List ℕ) :
    pass limit perSite c depths = (roundRobin perSite depths).foldlM (collect limit) c := by
  induction depths generalizing c with
  | nil => rfl
  | cons depth depths ih =>
    rw [pass, List.foldlM_cons, roundRobin, List.flatMap_cons, List.foldlM_append, foldlM_visit]
    exact bind_congr ih

/-- **Collecting gives the first of each page, up to the budget.** -/
theorem collect_firsts {limit : ℕ} (l : List α) (c : Collected α) (h : c.out.length < limit) :
    (match l.foldlM (collect limit) c with
      | .error out => out
      | .ok c => c.out) = (c.out ++ firsts id c.seen l).take limit := by
  induction l generalizing c with
  | nil =>
    rw [firsts, List.append_nil, List.take_of_length_le h.le]
    rfl
  | cons page l ih =>
    rw [List.foldlM_cons, collect, firsts, id]
    by_cases hseen : page ∈ c.seen
    · rw [if_pos hseen, if_pos hseen]
      exact ih c h
    · rw [if_neg hseen, if_neg hseen]
      by_cases hfull : limit ≤ (c.out ++ [page]).length
      · -- the page is the last of the budget
        have hlength : limit = (c.out ++ [page]).length := by
          rw [List.length_append, List.length_singleton] at hfull ⊢
          omega
        rw [if_pos hfull, List.append_cons c.out page (firsts id _ l), hlength, List.take_left]
        rfl
      · rw [if_neg hfull]
        have hnext := ih ⟨c.out ++ [page], page :: c.seen⟩ (Nat.not_le.mp hfull)
        rw [List.append_assoc] at hnext
        exact hnext

/-- **The list is the start of one round robin, without repetitions.** -/
theorem interleave_eq (perSite : List (List α)) {limit : ℕ} (hlimit : 1 ≤ limit) (share : ℕ) :
    interleave perSite limit share =
      (firsts id [] (roundRobin perSite (List.range (deepest perSite)))).take limit := by
  have hpasses : ∀ first second : List ℕ,
      (pass limit perSite ⟨[], []⟩ first >>= fun c => pass limit perSite c second) =
        (roundRobin perSite (first ++ second)).foldlM (collect limit) ⟨[], []⟩ := by
    intro first second
    rw [roundRobin, List.flatMap_append, List.foldlM_append, pass_eq]
    exact bind_congr fun c => pass_eq limit perSite c second
  rw [interleave, hpasses, takeWhile_append_range']
  exact collect_firsts _ _ hlimit

/-- The share that a site is capped at changes nothing. -/
theorem interleave_share (perSite : List (List α)) {limit : ℕ} (hlimit : 1 ≤ limit)
    (share share' : ℕ) : interleave perSite limit share = interleave perSite limit share' := by
  rw [interleave_eq perSite hlimit, interleave_eq perSite hlimit]

/-- **The list is fair and complete**: it has no page twice, as many as the budget and the
sites allow, each from a site, and a page that no site has within its share comes behind every
page that one has. -/
theorem interleave_fair (perSite : List (List α)) {limit : ℕ} (hlimit : 1 ≤ limit) (share : ℕ) :
    (interleave perSite limit share).Nodup ∧
      (interleave perSite limit share).length = min limit perSite.flatten.toFinset.card ∧
      (∀ page ∈ interleave perSite limit share, ∃ pages ∈ perSite, page ∈ pages) ∧
      ∀ before page after, interleave perSite limit share = before ++ page :: after →
        (∀ pages ∈ perSite, page ∉ pages.take share) →
        ∀ pages ∈ perSite, ∀ other ∈ pages.take share, other ∈ before := by
  have hsame : (roundRobin perSite (List.range (deepest perSite))).toFinset =
      perSite.flatten.toFinset := by
    refine Finset.ext fun page => ?_
    rw [List.mem_toFinset, List.mem_toFinset, mem_roundRobin_iff]
  rw [interleave_eq perSite hlimit]
  refine ⟨(nodup_firsts_id _).sublist (List.take_sublist _ _), ?_, fun page hpage => ?_, ?_⟩
  · rw [List.length_take, length_firsts_id, hsame]
  · have hmem := mem_firsts_id.mp (List.mem_of_mem_take hpage)
    exact List.mem_flatten.mp (mem_roundRobin_iff.mp hmem)
  · intro before page after hlist hbeyond pages hpages other hother
    obtain ⟨rest, hsplit⟩ := roundRobin_split perSite share
    have hall := List.take_append_drop limit
      (firsts id [] (roundRobin perSite (List.range (deepest perSite))))
    rw [hlist, hsplit, List.append_assoc, List.cons_append] at hall
    have hpage : page ∉ roundRobin perSite (List.range (min share (deepest perSite))) := by
      intro hmem
      obtain ⟨pages, hpages, hpage⟩ := mem_roundRobin_take.mp hmem
      exact hbeyond pages hpages hpage
    have hother' := mem_roundRobin_take.mpr ⟨pages, hpages, hother⟩
    have hbefore := firsts_before hall.symm hpage hother' List.not_mem_nil
    rwa [List.map_id] at hbefore

/-- Two sites that share a page, a share of one and a budget of three. -/
theorem interleave_fair_two :
    (interleave [[1, 2], [1, 3, 4]] 3 1).Nodup ∧
      (interleave [[1, 2], [1, 3, 4]] 3 1).length =
        min 3 ([[1, 2], [1, 3, 4]] : List (List ℕ)).flatten.toFinset.card ∧
      (∀ page ∈ interleave [[1, 2], [1, 3, 4]] 3 1,
        ∃ pages ∈ ([[1, 2], [1, 3, 4]] : List (List ℕ)), page ∈ pages) ∧
      ∀ before page after, interleave [[1, 2], [1, 3, 4]] 3 1 = before ++ page :: after →
        (∀ pages ∈ ([[1, 2], [1, 3, 4]] : List (List ℕ)), page ∉ pages.take 1) →
        ∀ pages ∈ ([[1, 2], [1, 3, 4]] : List (List ℕ)), ∀ other ∈ pages.take 1,
          other ∈ before :=
  interleave_fair [[1, 2], [1, 3, 4]] (by decide) 1

end Seeds
