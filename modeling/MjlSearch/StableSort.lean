/-
A stable sort, seen class by class, and the list of the first of each class.

* `filter_insertionSort` — sorting a list sorts the elements with a property among themselves;
* `insertionSort_eq_cons` — the first of a sorted list is the earliest of the largest;
* `firsts` — the elements that no element before them has the key of;
* `mem_firsts_id`, `length_firsts_id` — each element of a list, once.
-/
import Mathlib.Data.Finset.Card
import Mathlib.Data.List.Nodup
import Mathlib.Data.List.Sort

namespace StableSort

variable {α κ : Type*}

section

variable {r : α → α → Prop} [DecidableRel r] [Std.Total r] [IsTrans α r]

omit [Std.Total r] in
theorem filter_orderedInsert (p : α → Bool) (a : α) {l : List α} (hl : l.Pairwise r) :
    (l.orderedInsert r a).filter p =
      if p a = true then (l.filter p).orderedInsert r a else l.filter p := by
  induction l with
  | nil => by_cases ha : p a = true <;> simp [ha]
  | cons b l ih =>
    have hrest := ih hl.of_cons
    rw [List.orderedInsert_cons]
    by_cases hab : r a b
    · rw [if_pos hab, List.filter_cons]
      by_cases ha : p a = true
      · rw [if_pos ha, if_pos ha]
        -- what is kept of the list still comes behind the new element
        rcases hkept : (b :: l).filter p with _ | ⟨c, kept⟩
        · rfl
        · have hc : c ∈ b :: l := List.mem_of_mem_filter (hkept ▸ List.mem_cons_self ..)
          rw [List.orderedInsert_cons_of_le]
          rcases List.mem_cons.mp hc with rfl | hc
          · exact hab
          · exact IsTrans.trans a b c hab (List.rel_of_pairwise_cons hl hc)
      · rw [if_neg ha, if_neg ha]
    · rw [if_neg hab, List.filter_cons, List.filter_cons, hrest]
      by_cases hb : p b = true
      · rw [if_pos hb, if_pos hb]
        split
        · rw [List.orderedInsert_of_not_le _ _ hab]
        · rfl
      · rw [if_neg hb, if_neg hb]

/-- **Sorting sorts the elements with a property among themselves.** -/
theorem filter_insertionSort (p : α → Bool) (l : List α) :
    (l.insertionSort r).filter p = (l.filter p).insertionSort r := by
  induction l with
  | nil => rfl
  | cons a l ih =>
    rw [List.insertionSort_cons, filter_orderedInsert p a (List.pairwise_insertionSort r l), ih,
      List.filter_cons]
    split
    · rfl
    · rfl

/-- **The first of a sorted list** is the earliest of the largest. -/
theorem insertionSort_eq_cons {l rest : List α} {a : α} (h : l.insertionSort r = a :: rest) :
    ∃ before after, l = before ++ a :: after ∧ (∀ b ∈ before, ¬ r b a) ∧ ∀ b ∈ after, r a b := by
  induction l generalizing a rest with
  | nil => cases h
  | cons c l ih =>
    rw [List.insertionSort_cons] at h
    rcases hsorted : l.insertionSort r with _ | ⟨b, sorted⟩
    · have hnil : l = [] := by
        have hlength := List.length_insertionSort r l
        rw [hsorted] at hlength
        exact List.length_eq_zero_iff.mp hlength.symm
      subst hnil
      cases h
      exact ⟨[], [], rfl, List.forall_mem_nil _, List.forall_mem_nil _⟩
    · rw [hsorted, List.orderedInsert_cons] at h
      have hall : ∀ d ∈ l, d = b ∨ r b d := by
        intro d hd
        have hmem : d ∈ b :: sorted := hsorted ▸ (List.mem_insertionSort r).mpr hd
        have hpairs : (b :: sorted).Pairwise r := hsorted ▸ List.pairwise_insertionSort r l
        exact (List.mem_cons.mp hmem).imp id fun hd => List.rel_of_pairwise_cons hpairs hd
      split at h
      · -- the new element is before all others
        rename_i hcb
        cases h
        refine ⟨[], l, rfl, List.forall_mem_nil _, fun d hd => ?_⟩
        rcases hall d hd with rfl | hbd
        · exact hcb
        · exact IsTrans.trans _ _ _ hcb hbd
      · -- it is behind the first, which stays the first
        rename_i hcb
        cases h
        obtain ⟨before, after, rfl, hbefore, hafter⟩ := ih hsorted
        exact ⟨c :: before, after, rfl, List.forall_mem_cons.mpr ⟨hcb, hbefore⟩, hafter⟩

end

/-! ### The first of each key -/

variable [DecidableEq κ] (key : α → κ)

/-- The elements of a list whose key is none of those seen, nor that of an element before
them. -/
def firsts (seen : List κ) : List α → List α
  | [] => []
  | a :: l => if key a ∈ seen then firsts seen l else a :: firsts (key a :: seen) l

variable {key} {seen : List κ} {l : List α} {a : α}

theorem mem_firsts_iff :
    a ∈ firsts key seen l ↔ ∃ before after, l = before ++ a :: after ∧ key a ∉ seen ∧
      ∀ b ∈ before, key b ≠ key a := by
  induction l generalizing seen with
  | nil => simp [firsts]
  | cons c l ih =>
    rw [firsts]
    constructor
    · intro h
      split at h
      · -- its key is seen already
        rename_i hc
        obtain ⟨before, after, rfl, ha, hbefore⟩ := ih.mp h
        refine ⟨c :: before, after, rfl, ha, List.forall_mem_cons.mpr ⟨?_, hbefore⟩⟩
        intro heq
        exact ha (heq ▸ hc)
      · rename_i hc
        rcases List.mem_cons.mp h with rfl | h
        · exact ⟨[], l, rfl, hc, List.forall_mem_nil _⟩
        · obtain ⟨before, after, rfl, ha, hbefore⟩ := ih.mp h
          rw [List.mem_cons, not_or] at ha
          exact ⟨c :: before, after, rfl, ha.2,
            List.forall_mem_cons.mpr ⟨fun heq => ha.1 heq.symm, hbefore⟩⟩
    · rintro ⟨before, after, heq, ha, hbefore⟩
      rcases before with _ | ⟨d, before⟩
      · cases heq
        rw [if_neg ha]
        exact List.mem_cons_self ..
      · cases heq
        rw [List.forall_mem_cons] at hbefore
        split
        · exact ih.mpr ⟨before, after, rfl, ha, hbefore.2⟩
        · refine List.mem_cons_of_mem _ (ih.mpr ⟨before, after, rfl, ?_, hbefore.2⟩)
          rw [List.mem_cons, not_or]
          exact ⟨fun heq => hbefore.1 heq.symm, ha⟩

/-- No two of the firsts have one key. -/
theorem nodup_firsts (seen : List κ) (l : List α) : ((firsts key seen l).map key).Nodup := by
  induction l generalizing seen with
  | nil => exact List.nodup_nil
  | cons a l ih =>
    rw [firsts]
    split
    · exact ih seen
    · rw [List.map_cons, List.nodup_cons]
      refine ⟨fun hmem => ?_, ih _⟩
      obtain ⟨b, hb, heq⟩ := List.mem_map.mp hmem
      obtain ⟨before, after, -, hseen, -⟩ := mem_firsts_iff.mp hb
      exact hseen (heq ▸ List.mem_cons_self ..)

/-- Every key has a first. -/
theorem exists_first {k : κ} (h : k ∈ l.map key) :
    ∃ before a after, l = before ++ a :: after ∧ key a = k ∧ ∀ b ∈ before, key b ≠ key a := by
  induction l with
  | nil => cases h
  | cons c l ih =>
    by_cases hc : key c = k
    · exact ⟨[], c, l, rfl, hc, List.forall_mem_nil _⟩
    · rw [List.map_cons, List.mem_cons] at h
      obtain ⟨before, a, after, rfl, ha, hbefore⟩ := ih (h.resolve_left fun heq => hc heq.symm)
      exact ⟨c :: before, a, after, rfl, ha,
        List.forall_mem_cons.mpr ⟨fun heq => hc (heq.trans ha), hbefore⟩⟩

/-- The firsts of a list come before what a list behind it adds. -/
theorem firsts_before {l' before after : List α} {b : α}
    (h : firsts key seen (l ++ l') = before ++ b :: after) (hb : b ∉ l) (ha : a ∈ l)
    (hseen : key a ∉ seen) : key a ∈ before.map key := by
  induction l generalizing seen before with
  | nil => cases ha
  | cons c l ih =>
    rw [List.mem_cons, not_or] at hb
    rw [List.cons_append, firsts] at h
    by_cases hc : key c ∈ seen
    · -- its key is seen already, so it is not the one
      rw [if_pos hc] at h
      rcases List.mem_cons.mp ha with rfl | ha
      · exact absurd hc hseen
      · exact ih h hb.2 ha hseen
    · rw [if_neg hc] at h
      rcases before with _ | ⟨d, before⟩
      · exact absurd (List.cons.inj h).1.symm hb.1
      · obtain ⟨rfl, hrest⟩ := List.cons.inj h
        rw [List.map_cons]
        by_cases hkey : key a = key c
        · rw [hkey]
          exact List.mem_cons_self ..
        · have ha' : a ∈ l := (List.mem_cons.mp ha).resolve_left fun heq => hkey (heq ▸ rfl)
          refine List.mem_cons_of_mem _ (ih hrest hb.2 ha' ?_)
          rw [List.mem_cons, not_or]
          exact ⟨hkey, hseen⟩

/-! ### Each element once -/

variable [DecidableEq α]

theorem mem_firsts_id : a ∈ firsts id [] l ↔ a ∈ l := by
  constructor
  · intro h
    obtain ⟨before, after, rfl, -, -⟩ := mem_firsts_iff.mp h
    exact List.mem_append_right _ (List.mem_cons_self ..)
  · intro h
    obtain ⟨before, first, after, hsplit, rfl, hfirst⟩ := exists_first (by rwa [List.map_id])
    exact mem_firsts_iff.mpr ⟨before, after, hsplit, List.not_mem_nil, hfirst⟩

theorem nodup_firsts_id (l : List α) : (firsts id [] l).Nodup := by
  have h : ((firsts id [] l).map id).Nodup := nodup_firsts [] l
  rwa [List.map_id] at h

theorem length_firsts_id (l : List α) : (firsts id [] l).length = l.toFinset.card := by
  rw [← List.toFinset_card_of_nodup (nodup_firsts_id l)]
  refine congrArg Finset.card (Finset.ext fun a => ?_)
  rw [List.mem_toFinset, List.mem_toFinset, mem_firsts_id]

end StableSort
