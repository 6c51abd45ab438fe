/-
An ordered map, kept as its entries by increasing key.

A `Store` carries the order of its entries, so a store with two entries of one
key, or with entries out of order, cannot be built.

* `mem_put`, `mem_delete` — what the two updates leave in the store;
* `get_eq_some_iff` — reading a key finds its entry;
* `seek_spec`, `seek_eq_none` — seeking finds the first entry from a key on;
* `length_delete`, `length_put_new`, `length_put_known` — how many entries there are;
* `filter_put_last`, `filter_delete_first` — a part of the entries behaves as a
  queue, when entries are put after all of it and deleted at its front.
-/
import Mathlib.Data.List.Nodup
import Mathlib.Data.List.Pairwise
import Mathlib.Order.Defs.LinearOrder
import Mathlib.Order.Lattice

/-- A finite map with ordered keys. -/
@[ext] structure Store (κ ν : Type*) [LinearOrder κ] where
  entries : List (κ × ν)
  sorted : entries.Pairwise fun p q => p.1 < q.1

namespace Store

variable {κ ν : Type*} [LinearOrder κ]

/-- The store without entries. -/
def empty : Store κ ν := ⟨[], List.Pairwise.nil⟩

/-- The value of a key. -/
def get (s : Store κ ν) (k : κ) : Option ν :=
  (s.entries.find? fun e => decide (e.1 = k)).map Prod.snd

/-- Write a key, replacing its value. -/
def put (s : Store κ ν) (k : κ) (v : ν) : Store κ ν where
  entries := (s.entries.filter fun e => decide (e.1 < k)) ++
    (k, v) :: s.entries.filter fun e => decide (k < e.1)
  sorted := by
    have hle : ∀ e ∈ s.entries.filter fun e => decide (e.1 < k), e.1 < k := fun e he => by
      simpa using (List.mem_filter.mp he).2
    have hge : ∀ e ∈ s.entries.filter fun e => decide (k < e.1), k < e.1 := fun e he => by
      simpa using (List.mem_filter.mp he).2
    refine List.pairwise_append.mpr ⟨s.sorted.filter _, ?_, ?_⟩
    · exact List.pairwise_cons.mpr ⟨hge, s.sorted.filter _⟩
    · intro p hp q hq
      rcases List.mem_cons.mp hq with rfl | hq
      · exact hle p hp
      · exact lt_trans (hle p hp) (hge q hq)

/-- Delete a key. -/
def delete (s : Store κ ν) (k : κ) : Store κ ν where
  entries := s.entries.filter fun e => decide (e.1 ≠ k)
  sorted := s.sorted.filter _

/-- The first entry whose key is not before `lo`. -/
def seek (s : Store κ ν) (lo : κ) : Option (κ × ν) :=
  s.entries.find? fun e => decide (lo ≤ e.1)

@[simp] theorem entries_empty : (empty : Store κ ν).entries = [] := rfl

theorem mem_put {s : Store κ ν} {k : κ} {v : ν} {e : κ × ν} :
    e ∈ (s.put k v).entries ↔ e = (k, v) ∨ (e ∈ s.entries ∧ e.1 ≠ k) := by
  have hne : e.1 ≠ k ↔ e.1 < k ∨ k < e.1 := ne_iff_lt_or_gt
  rw [put, List.mem_append, List.mem_cons, List.mem_filter, List.mem_filter,
    decide_eq_true_eq, decide_eq_true_eq, hne]
  constructor
  · rintro (⟨h, hlt⟩ | rfl | ⟨h, hlt⟩)
    · exact Or.inr ⟨h, Or.inl hlt⟩
    · exact Or.inl rfl
    · exact Or.inr ⟨h, Or.inr hlt⟩
  · rintro (rfl | ⟨h, hlt | hlt⟩)
    · exact Or.inr (Or.inl rfl)
    · exact Or.inl ⟨h, hlt⟩
    · exact Or.inr (Or.inr ⟨h, hlt⟩)

theorem mem_delete {s : Store κ ν} {k : κ} {e : κ × ν} :
    e ∈ (s.delete k).entries ↔ e ∈ s.entries ∧ e.1 ≠ k := by
  rw [delete, List.mem_filter, decide_eq_true_eq]

theorem keys_nodup (s : Store κ ν) : (s.entries.map Prod.fst).Nodup := by
  rw [List.Nodup, List.pairwise_map]
  exact s.sorted.imp fun h => ne_of_lt h

theorem entries_nodup (s : Store κ ν) : s.entries.Nodup := s.keys_nodup.of_map

/-- A new key adds its entry, and nothing else. -/
theorem put_perm {s : Store κ ν} {k : κ} (v : ν) (h : ∀ e ∈ s.entries, e.1 ≠ k) :
    (s.put k v).entries.Perm ((k, v) :: s.entries) := by
  have hnodup : ((k, v) :: s.entries).Nodup :=
    List.nodup_cons.mpr ⟨fun hmem => h _ hmem rfl, s.entries_nodup⟩
  rw [List.perm_ext_iff_of_nodup (s.put k v).entries_nodup hnodup]
  intro e
  rw [mem_put, List.mem_cons]
  constructor
  · rintro (rfl | ⟨he, _⟩)
    · exact Or.inl rfl
    · exact Or.inr he
  · rintro (rfl | he)
    · exact Or.inl rfl
    · exact Or.inr ⟨he, h e he⟩

/-- A key has one entry. -/
theorem eq_of_mem {s : Store κ ν} {e e' : κ × ν} (h : e ∈ s.entries) (h' : e' ∈ s.entries)
    (hk : e.1 = e'.1) : e = e' :=
  List.inj_on_of_nodup_map s.keys_nodup h h' hk

/-- Deleting a key takes its entry, and no other. -/
theorem filter_deleted (s : Store κ ν) {e : κ × ν} (he : e ∈ s.entries)
    [DecidablePred fun x => x ∉ (s.delete e.1).entries] :
    (s.entries.filter fun x => x ∉ (s.delete e.1).entries) = [e] := by
  refine List.perm_singleton.mp ?_
  rw [List.perm_ext_iff_of_nodup (s.entries_nodup.filter _) (List.nodup_singleton e)]
  intro x
  rw [List.mem_filter, decide_eq_true_eq, mem_delete, List.mem_singleton]
  constructor
  · rintro ⟨hx, hgone⟩
    exact eq_of_mem hx he (not_not.mp fun hne => hgone ⟨hx, hne⟩)
  · rintro rfl
    exact ⟨he, fun hc => hc.2 rfl⟩

theorem get_eq_some_iff {s : Store κ ν} {k : κ} {v : ν} :
    s.get k = some v ↔ (k, v) ∈ s.entries := by
  rw [get, Option.map_eq_some_iff]
  constructor
  · rintro ⟨e, he, rfl⟩
    have hk : e.1 = k := by simpa using List.find?_some he
    rw [← hk]
    exact List.mem_of_find?_eq_some he
  · intro h
    obtain ⟨e, he⟩ : ∃ e, s.entries.find? (fun e => decide (e.1 = k)) = some e := by
      rw [← Option.isSome_iff_exists, List.find?_isSome]
      exact ⟨_, h, by simp⟩
    have hk : e.1 = k := by simpa using List.find?_some he
    have heq : e = (k, v) := eq_of_mem (List.mem_of_find?_eq_some he) h hk
    exact ⟨e, he, by rw [heq]⟩

theorem get_put_self (s : Store κ ν) (k : κ) (v : ν) : (s.put k v).get k = some v :=
  get_eq_some_iff.mpr (mem_put.mpr (Or.inl rfl))

theorem get_put_of_ne (s : Store κ ν) {k k' : κ} (v : ν) (h : k' ≠ k) :
    (s.put k v).get k' = s.get k' := by
  refine Option.ext fun w => ?_
  rw [get_eq_some_iff, get_eq_some_iff, mem_put]
  constructor
  · rintro (heq | ⟨hmem, _⟩)
    · exact absurd (congrArg Prod.fst heq) h
    · exact hmem
  · exact fun hmem => Or.inr ⟨hmem, h⟩

/-- What `seek` finds is the first entry from `lo` on. -/
theorem seek_spec {s : Store κ ν} {lo : κ} {e : κ × ν} (h : s.seek lo = some e) :
    e ∈ s.entries ∧ lo ≤ e.1 ∧ ∀ e' ∈ s.entries, lo ≤ e'.1 → e.1 ≤ e'.1 := by
  rw [seek, List.find?_eq_some_iff_append] at h
  obtain ⟨hlo, front, back, hentries, hfront⟩ := h
  have hsorted := s.sorted
  rw [hentries, List.pairwise_append, List.pairwise_cons] at hsorted
  refine ⟨by rw [hentries]; simp, by simpa using hlo, fun e' he' hlo' => ?_⟩
  rw [hentries, List.mem_append, List.mem_cons] at he'
  rcases he' with he' | rfl | he'
  · have := hfront e' he'
    simp [hlo'] at this
  · exact le_refl _
  · exact le_of_lt (hsorted.2.1.1 e' he')

theorem seek_eq_none {s : Store κ ν} {lo : κ} (h : s.seek lo = none) :
    ∀ e ∈ s.entries, e.1 < lo := by
  intro e he
  rw [seek, List.find?_eq_none] at h
  simpa using h e he

/-! ### How many entries there are -/

theorem get_eq_none_iff {s : Store κ ν} {k : κ} : s.get k = none ↔ ∀ e ∈ s.entries, e.1 ≠ k := by
  rw [get, Option.map_eq_none_iff, List.find?_eq_none]
  simp

theorem delete_perm {s : Store κ ν} {e : κ × ν} (he : e ∈ s.entries) :
    s.entries.Perm (e :: (s.delete e.1).entries) := by
  have hnodup : (e :: (s.delete e.1).entries).Nodup :=
    List.nodup_cons.mpr ⟨fun hmem => (mem_delete.mp hmem).2 rfl, (s.delete e.1).entries_nodup⟩
  rw [List.perm_ext_iff_of_nodup s.entries_nodup hnodup]
  intro x
  rw [List.mem_cons, mem_delete]
  constructor
  · intro hx
    by_cases hk : x.1 = e.1
    · exact Or.inl (eq_of_mem hx he hk)
    · exact Or.inr ⟨hx, hk⟩
  · rintro (rfl | ⟨hx, _⟩)
    · exact he
    · exact hx

theorem length_delete {s : Store κ ν} {e : κ × ν} (he : e ∈ s.entries) :
    (s.delete e.1).entries.length + 1 = s.entries.length :=
  (delete_perm he).length_eq.symm

/-- A key that is not there adds one entry. -/
theorem length_put_new {s : Store κ ν} {k : κ} (v : ν) (h : s.get k = none) :
    (s.put k v).entries.length = s.entries.length + 1 :=
  (put_perm v (get_eq_none_iff.mp h)).length_eq

/-- A key that is there keeps their number. -/
theorem length_put_known {s : Store κ ν} {k : κ} {w : ν} (v : ν) (h : s.get k = some w) :
    (s.put k v).entries.length = s.entries.length := by
  have hnodup : ((k, v) :: (s.delete k).entries).Nodup :=
    List.nodup_cons.mpr ⟨fun hmem => (mem_delete.mp hmem).2 rfl, (s.delete k).entries_nodup⟩
  have hperm : (s.put k v).entries.Perm ((k, v) :: (s.delete k).entries) := by
    rw [List.perm_ext_iff_of_nodup (s.put k v).entries_nodup hnodup]
    intro e
    rw [mem_put, List.mem_cons, mem_delete]
  rw [hperm.length_eq, List.length_cons]
  exact length_delete (get_eq_some_iff.mp h)

/-! ### Parts of the entries as queues -/

/-- An entry put after all of a part of the entries joins it at its end. -/
theorem filter_put_last (s : Store κ ν) {k : κ} {v : ν} {p : κ × ν → Bool}
    (hp : p (k, v) = true) (hlast : ∀ e ∈ s.entries, p e = true → e.1 < k) :
    (s.put k v).entries.filter p = s.entries.filter p ++ [(k, v)] := by
  have hafter : (s.entries.filter fun e => decide (k < e.1)).filter p = [] := by
    rw [List.filter_filter, List.filter_eq_nil_iff]
    intro e he
    by_cases hpe : p e = true
    · simp [le_of_lt (hlast e he hpe)]
    · simp [hpe]
  have hbefore : (s.entries.filter fun e => decide (e.1 < k)).filter p = s.entries.filter p := by
    rw [List.filter_filter]
    refine List.filter_congr fun e he => ?_
    by_cases hpe : p e = true
    · simp [hpe, hlast e he hpe]
    · simp [hpe]
  rw [put, List.filter_append, List.filter_cons_of_pos hp, hafter, hbefore]

/-- An entry with a new key leaves the parts it is not in alone. -/
theorem filter_put_other (s : Store κ ν) {k : κ} {v : ν} {p : κ × ν → Bool}
    (hp : p (k, v) = false) (hnew : ∀ e ∈ s.entries, e.1 ≠ k) :
    (s.put k v).entries.filter p = s.entries.filter p := by
  have hsplit : ∀ l : List (κ × ν), (l.Pairwise fun a b => a.1 < b.1) →
      (∀ e ∈ l, e.1 ≠ k) →
      (l.filter fun e => decide (e.1 < k)) ++ (l.filter fun e => decide (k < e.1)) = l := by
    intro l
    induction l with
    | nil => exact fun _ _ => rfl
    | cons a l ih =>
      intro hsorted hne
      obtain ⟨ha, hl⟩ := List.pairwise_cons.mp hsorted
      rcases lt_or_gt_of_ne (hne a List.mem_cons_self) with hlt | hgt
      · rw [List.filter_cons_of_pos (by simpa using hlt),
          List.filter_cons_of_neg (by simpa using le_of_lt hlt), List.cons_append,
          ih hl fun e he => hne e (List.mem_cons_of_mem _ he)]
      · -- everything from here on is after `k`
        have hall : ∀ e ∈ l, k < e.1 := fun e he => lt_trans hgt (ha e he)
        rw [List.filter_cons_of_neg (by simpa using le_of_lt hgt),
          List.filter_cons_of_pos (by simpa using hgt),
          List.filter_eq_nil_iff.mpr (by
            intro e he
            simpa using le_of_lt (hall e he)),
          List.filter_eq_self.mpr (by
            intro e he
            simpa using hall e he), List.nil_append]
  rw [put, List.filter_append, List.filter_cons_of_neg (by simp [hp]), ← List.filter_append,
    hsplit _ s.sorted hnew]

/-- Deleting the first entry of a part removes its front. -/
theorem filter_delete_first (s : Store κ ν) {e : κ × ν} {p : κ × ν → Bool}
    (he : e ∈ s.entries) (hp : p e = true)
    (hfirst : ∀ e' ∈ s.entries, p e' = true → e.1 ≤ e'.1) :
    s.entries.filter p = e :: (s.delete e.1).entries.filter p := by
  have hmem : e ∈ s.entries.filter p := List.mem_filter.mpr ⟨he, hp⟩
  have hsorted := s.sorted.filter p
  obtain ⟨front, back, hsplit⟩ := List.append_of_mem hmem
  have hfront : front = [] := by
    rcases List.eq_nil_or_concat front with h | ⟨init, a, h⟩
    · exact h
    · have ha : a ∈ s.entries.filter p := by
        rw [hsplit, h]
        simp
      rw [hsplit, List.pairwise_append] at hsorted
      have hlt : a.1 < e.1 := hsorted.2.2 a (by rw [h]; simp) e List.mem_cons_self
      have hle := hfirst a (List.mem_filter.mp ha).1 (List.mem_filter.mp ha).2
      exact absurd hle (not_le_of_gt hlt)
  rw [hfront, List.nil_append] at hsplit
  rw [delete, List.filter_filter]
  have hrest : s.entries.filter (fun a => p a && decide (a.1 ≠ e.1))
      = (s.entries.filter p).filter fun a => decide (a.1 ≠ e.1) := by
    rw [List.filter_filter]
    exact List.filter_congr fun a _ => Bool.and_comm _ _
  rw [hrest, hsplit, List.filter_cons_of_neg (by simp)]
  congr 1
  rw [hsplit] at hsorted
  exact (List.filter_eq_self.mpr fun a ha => by
    simpa using (ne_of_lt ((List.pairwise_cons.mp hsorted).1 a ha)).symm).symm

/-- Deleting an entry leaves the parts it is not in alone. -/
theorem filter_delete_other (s : Store κ ν) {e : κ × ν} {p : κ × ν → Bool}
    (he : e ∈ s.entries) (hp : p e = false) :
    (s.delete e.1).entries.filter p = s.entries.filter p := by
  rw [delete, List.filter_filter]
  refine List.filter_congr fun a ha => ?_
  by_cases hk : a.1 = e.1
  · rw [eq_of_mem ha he hk, hp, Bool.false_and]
  · simp [hk]

end Store
