/-
A place that is written again and again, each time under a stamp of its own, and what may be
said of a reading that is kept under the stamp that was seen before it.

An instant is the list of the events done so far, so a later instant is a longer list.

* `held_between` — a stamp that is seen twice was there all the time between;
* `kept_reading_current` — who sees the stamp that a reading is kept under may take the
  reading: what was read has been there since.
-/
import Mathlib.Data.List.Induction
import Mathlib.Data.List.Nodup

namespace Stamps

variable {ε V S : Type*} (write : ε → Option V) (stamp : V → Option S)

/-- What the place holds when `es` are done: the last value written, or `v` when there is
none. -/
def held (v : V) (es : List ε) : V := es.foldl (fun v e => (write e).getD v) v

/-- No two values that the place comes to hold have the same stamp. -/
def Distinct (v : V) (es : List ε) : Prop :=
  ((v :: es.filterMap write).filterMap stamp).Nodup

variable {write stamp} {v : V} {es fs gs : List ε}

@[simp] theorem held_nil : held write v [] = v := rfl

theorem held_append (fs gs : List ε) : held write v (fs ++ gs) = held write (held write v fs) gs :=
  List.foldl_append

theorem held_snoc (es : List ε) (e : ε) :
    held write v (es ++ [e]) = (write e).getD (held write v es) := held_append es [e]

/-- The value is the one at the start or was written. -/
theorem held_mem (es : List ε) : held write v es ∈ v :: es.filterMap write := by
  induction es using List.reverseRecOn with
  | nil => exact List.mem_cons_self
  | append_singleton es e ih =>
    rw [held_snoc, List.filterMap_append, ← List.cons_append]
    rcases hwrite : write e with _ | w
    · exact List.mem_append_left _ ih
    · refine List.mem_append_right _ ?_
      simp [hwrite]

/-- It was written, when something was. -/
theorem held_mem_of_written (hne : es.filterMap write ≠ []) :
    held write v es ∈ es.filterMap write := by
  induction es using List.reverseRecOn with
  | nil => exact absurd rfl hne
  | append_singleton es e ih =>
    rw [held_snoc, List.filterMap_append]
    rcases hwrite : write e with _ | w
    · refine List.mem_append_left _ (ih ?_)
      simpa [List.filterMap_append, hwrite] using hne
    · refine List.mem_append_right _ ?_
      simp [hwrite]

theorem held_of_unwritten (h : es.filterMap write = []) : held write v es = v := by
  have hmem : held write v es ∈ v :: es.filterMap write := held_mem es
  rw [h] at hmem
  exact List.mem_singleton.mp hmem

theorem Distinct.of_prefix (h : Distinct write stamp v es) (hfs : fs <+: es) :
    Distinct write stamp v fs := by
  obtain ⟨gs, rfl⟩ := hfs
  rw [Distinct, List.filterMap_append, ← List.cons_append, List.filterMap_append] at h
  exact h.of_append_left

/-- **A stamp that is seen twice was there all the time between.** -/
theorem held_between (hdistinct : Distinct write stamp v es) {s : S} (hfs : fs <+: gs)
    (hgs : gs <+: es) (hfirst : stamp (held write v fs) = some s)
    (hlast : stamp (held write v es) = some s) : held write v gs = held write v fs := by
  obtain ⟨more, rfl⟩ := hfs
  obtain ⟨rest, rfl⟩ := hgs
  -- had there been a write, the stamp would stand once before it and once after
  have hnone : (more ++ rest).filterMap write = [] := by
    by_contra hne
    rw [Distinct, List.append_assoc, List.filterMap_append, ← List.cons_append,
      List.filterMap_append] at hdistinct
    rw [List.append_assoc, held_append] at hlast
    have hbefore : s ∈ (v :: fs.filterMap write).filterMap stamp :=
      List.mem_filterMap.mpr ⟨_, held_mem fs, hfirst⟩
    have hafter : s ∈ ((more ++ rest).filterMap write).filterMap stamp :=
      List.mem_filterMap.mpr ⟨_, held_mem_of_written hne, hlast⟩
    exact List.disjoint_of_nodup_append hdistinct hbefore hafter
  rw [List.filterMap_append, List.append_eq_nil_iff] at hnone
  rw [held_append, held_of_unwritten hnone.1]

/-- **Who sees the stamp that a reading is kept under may take the reading**: a stamp was seen
at `taken`, the place was read at `read`, and the same stamp is seen at `seen`.  What was read
has been there at `seen`, or since. -/
theorem kept_reading_current (hdistinct : Distinct write stamp v es) {s : S}
    {taken read seen : List ε} (htaken : taken <+: read) (hread : read <+: es)
    (hseen : seen <+: es) (hstamp : stamp (held write v taken) = some s)
    (hsame : stamp (held write v seen) = some s) :
    ∃ now, seen <+: now ∧ now <+: es ∧ held write v now = held write v read := by
  rcases List.prefix_or_prefix_of_prefix hread hseen with hbefore | hafter
  · -- the reading lies between two sights of the stamp
    have hkept := held_between (hdistinct.of_prefix hseen) htaken hbefore hstamp hsame
    have hthen := held_between (hdistinct.of_prefix hseen) (htaken.trans hbefore)
      List.prefix_rfl hstamp hsame
    exact ⟨seen, List.prefix_rfl, hseen, hthen.trans hkept.symm⟩
  · exact ⟨read, hafter, hread, rfl⟩

end Stamps
