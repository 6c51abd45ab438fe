/-
Tables under upserts: the last writer of a key wins.

A table is a partial map from keys to values and a log is a list of entries.
Applying a log to a table writes its entries one after the other.

* `upsertAll_apply` — the value at a key is the last one the log writes there,
  and the old one where the log does not mention the key;
* `upsertAll_absorb` — a log forgets every earlier write to the keys it
  mentions, which is what makes a replay harmless;
* `view_replaceRow` — a list of rows in which a key is first deleted and then
  added behaves as the table with that key upserted, and keeps its keys
  distinct (`keys_nodup_replaceRow`).
-/
import Mathlib.Data.List.Basic
import Mathlib.Data.List.Nodup
import Mathlib.Logic.Function.Basic

namespace LastWriter

variable {κ ν : Type*} [DecidableEq κ]

/-- A partial map from keys to values. -/
abbrev Table (κ ν : Type*) := κ → Option ν

/-- Write one entry, replacing whatever the key held. -/
def upsert (m : Table κ ν) (e : κ × ν) : Table κ ν :=
  Function.update m e.1 (some e.2)

/-- Write the entries of a log one after the other. -/
def upsertAll (m : Table κ ν) (l : List (κ × ν)) : Table κ ν :=
  l.foldl upsert m

/-- The last value a log writes at a key, if it mentions the key at all. -/
def lastWrite : List (κ × ν) → κ → Option ν
  | [], _ => none
  | e :: l, k => (lastWrite l k).or (if e.1 = k then some e.2 else none)

@[simp] theorem upsertAll_nil (m : Table κ ν) : upsertAll m [] = m := rfl

@[simp] theorem upsertAll_cons (m : Table κ ν) (e : κ × ν) (l : List (κ × ν)) :
    upsertAll m (e :: l) = upsertAll (upsert m e) l := rfl

theorem upsertAll_append (m : Table κ ν) (l l' : List (κ × ν)) :
    upsertAll m (l ++ l') = upsertAll (upsertAll m l) l' := by
  rw [upsertAll, List.foldl_append]
  rfl

theorem upsert_apply (m : Table κ ν) (e : κ × ν) (k : κ) :
    upsert m e k = if e.1 = k then some e.2 else m k := by
  rw [upsert, Function.update_apply]
  by_cases h : e.1 = k
  · rw [if_pos h, if_pos h.symm]
  · rw [if_neg h, if_neg (fun hk => h hk.symm)]

/-- **The last writer wins.** -/
theorem upsertAll_apply (m : Table κ ν) (l : List (κ × ν)) (k : κ) :
    upsertAll m l k = (lastWrite l k).or (m k) := by
  induction l generalizing m with
  | nil => rfl
  | cons e l ih =>
    rw [upsertAll_cons, ih, upsert_apply, lastWrite]
    by_cases h : e.1 = k
    · rw [if_pos h, if_pos h]
      cases lastWrite l k <;> rfl
    · rw [if_neg h, if_neg h]
      cases lastWrite l k <;> rfl

theorem lastWrite_isSome {l : List (κ × ν)} {k : κ} :
    (lastWrite l k).isSome ↔ k ∈ l.map Prod.fst := by
  induction l with
  | nil => simp [lastWrite]
  | cons e l ih =>
    rw [lastWrite, List.map_cons, List.mem_cons, Option.isSome_or, Bool.or_eq_true, ih]
    by_cases h : e.1 = k
    · simp [h]
    · simp [h, Ne.symm h]

/-- **A log forgets earlier writes to the keys it mentions.** -/
theorem upsertAll_absorb (m : Table κ ν) {l l' : List (κ × ν)}
    (h : ∀ k ∈ l.map Prod.fst, k ∈ l'.map Prod.fst) :
    upsertAll (upsertAll m l) l' = upsertAll m l' := by
  funext k
  rw [upsertAll_apply, upsertAll_apply, upsertAll_apply m l']
  by_cases hk : k ∈ l'.map Prod.fst
  · obtain ⟨v, hv⟩ := Option.isSome_iff_exists.mp (lastWrite_isSome.mpr hk)
    rw [hv]
    rfl
  · have hl : lastWrite l k = none := by
      rw [← Option.not_isSome_iff_eq_none, lastWrite_isSome]
      exact fun hc => hk (h k hc)
    rw [hl, Option.none_or]

theorem upsertAll_idem (m : Table κ ν) (l : List (κ × ν)) :
    upsertAll (upsertAll m l) l = upsertAll m l :=
  upsertAll_absorb m fun _ hk => hk

/-! ### Rows: the list a table is stored as -/

/-- The table a list of rows stands for: the first row of a key decides. -/
def view : List (κ × ν) → Table κ ν
  | [], _ => none
  | r :: rows, k => if r.1 = k then some r.2 else view rows k

theorem view_isSome {rows : List (κ × ν)} {k : κ} :
    (view rows k).isSome ↔ k ∈ rows.map Prod.fst := by
  induction rows with
  | nil => simp [view]
  | cons r rows ih =>
    rw [view, List.map_cons, List.mem_cons]
    by_cases h : r.1 = k
    · simp [h]
    · rw [if_neg h, ih]
      simp [Ne.symm h]

/-- Delete every row of a key. -/
def deleteRows (rows : List (κ × ν)) (k : κ) : List (κ × ν) :=
  rows.filter fun r => !decide (r.1 = k)

/-- Delete every row of the entry's key, then add the entry. -/
def replaceRow (rows : List (κ × ν)) (e : κ × ν) : List (κ × ν) :=
  deleteRows rows e.1 ++ [e]

theorem keys_nodup_replaceRow {rows : List (κ × ν)} (h : (rows.map Prod.fst).Nodup)
    (e : κ × ν) : ((replaceRow rows e).map Prod.fst).Nodup := by
  have hsub : ((deleteRows rows e.1).map Prod.fst).Nodup :=
    h.sublist (List.filter_sublist.map Prod.fst)
  have hnot : e.1 ∉ (deleteRows rows e.1).map Prod.fst := by
    intro hmem
    obtain ⟨r, hr, hre⟩ := List.mem_map.mp hmem
    have := (List.mem_filter.mp hr).2
    simp [hre] at this
  rw [replaceRow, List.map_append, List.map_singleton]
  exact List.nodup_append.mpr ⟨hsub, List.nodup_singleton _, by
    intro a ha b hb
    rw [List.mem_singleton] at hb
    subst hb
    exact fun hab => hnot (hab ▸ ha)⟩

/-- A key has one row at most, so replacing it leaves no fewer rows. -/
theorem length_le_replaceRow {rows : List (κ × ν)} (h : (rows.map Prod.fst).Nodup)
    (e : κ × ν) : rows.length ≤ (replaceRow rows e).length := by
  have hdeleted : rows.length ≤ (deleteRows rows e.1).length + 1 := by
    induction rows with
    | nil => exact Nat.zero_le _
    | cons r rows ih =>
      obtain ⟨hnot, hrows⟩ := List.nodup_cons.mp h
      by_cases hkey : r.1 = e.1
      · -- no other row has the key
        have hall : deleteRows rows e.1 = rows := by
          refine List.filter_eq_self.mpr fun r' hr' => ?_
          have hne : r'.1 ≠ e.1 := by
            intro heq
            rw [hkey, ← heq] at hnot
            exact hnot (List.mem_map_of_mem hr')
          simp [hne]
        have hcons : deleteRows (r :: rows) e.1 = deleteRows rows e.1 := by
          simp [deleteRows, hkey]
        rw [hcons, hall]
        exact Nat.le_refl _
      · have hcons : deleteRows (r :: rows) e.1 = r :: deleteRows rows e.1 := by
          simp [deleteRows, hkey]
        rw [hcons, List.length_cons, List.length_cons]
        exact Nat.succ_le_succ (ih hrows)
  rw [replaceRow, List.length_append, List.length_singleton]
  exact hdeleted

theorem view_append (rows rows' : List (κ × ν)) (k : κ) :
    view (rows ++ rows') k = (view rows k).or (view rows' k) := by
  induction rows with
  | nil => rfl
  | cons r rows ih =>
    rw [List.cons_append, view, view, ih]
    by_cases h : r.1 = k
    · rw [if_pos h, if_pos h]
      rfl
    · rw [if_neg h, if_neg h]

theorem view_deleteRows (rows : List (κ × ν)) (k k' : κ) :
    view (deleteRows rows k) k' = if k = k' then none else view rows k' := by
  induction rows with
  | nil => simp [deleteRows, view]
  | cons r rows ih =>
    have hcons : deleteRows (r :: rows) k
        = if r.1 = k then deleteRows rows k else r :: deleteRows rows k := by
      by_cases h : r.1 = k <;> simp [deleteRows, h]
    rw [hcons, view]
    by_cases hr : r.1 = k
    · rw [if_pos hr, ih]
      by_cases hk : k = k'
      · rw [if_pos hk, if_pos hk]
      · rw [if_neg hk, if_neg hk, if_neg (fun h => hk (hr.symm.trans h))]
    · rw [if_neg hr, view, ih]
      by_cases hk : k = k'
      · rw [if_pos hk, if_pos hk, if_neg (fun h => hr (h.trans hk.symm))]
      · rw [if_neg hk, if_neg hk]

/-- Deleting a key's rows and adding one is an upsert of the table. -/
theorem view_replaceRow (rows : List (κ × ν)) (e : κ × ν) :
    view (replaceRow rows e) = upsert (view rows) e := by
  funext k
  rw [replaceRow, view_append, view_deleteRows, upsert_apply, view, view]
  by_cases h : e.1 = k
  · rw [if_pos h, if_pos h, if_pos h]
    rfl
  · rw [if_neg h, if_neg h, if_neg h]
    cases view rows k <;> rfl

end LastWriter
