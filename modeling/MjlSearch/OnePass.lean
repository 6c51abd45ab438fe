/-
Replacing marked pieces of a list in one pass from the left.

Which pieces are replaced, and by what, is a relation `R`.  A pass replaces a piece where
one begins, copies an element where none does, and never looks at what it has written.
When every piece begins with a mark that it does not have again (`Marked`), pieces do not
overlap, and the pass is a function of the list.

* `exists_replaced`, `Replaced.unique` — every list has one result;
* `Replaced.append` — a list may be cut where no piece lies across the cut;
* `Replaced.eq_iff` — a pass that replaces more has another result exactly when it finds more.
-/
import Mathlib.Data.List.Basic
import Mathlib.Data.List.Infix

namespace OnePass

variable {α : Type*}

/-- The result of one pass. -/
inductive Replaced (R : List α → α → Prop) : List α → List α → Prop
  | nil : Replaced R [] []
  | replaced {piece : List α} {a : α} {rest out : List α} (h : R piece a)
      (hrest : Replaced R rest out) : Replaced R (piece ++ rest) (a :: out)
  | copied {a : α} {rest out : List α} (h : ∀ piece b, R piece b → ¬ piece <+: a :: rest)
      (hrest : Replaced R rest out) : Replaced R (a :: rest) (a :: out)

/-- Every piece is the mark and something without it, and no piece begins another. -/
structure Marked (R : List α → α → Prop) (mark : α) : Prop where
  starts : ∀ piece a, R piece a → ∃ body, piece = mark :: body ∧ mark ∉ body ∧ body ≠ []
  unique : ∀ piece a piece' a', R piece a → R piece' a' → piece <+: piece' →
    piece = piece' ∧ a = a'

/-- A piece of the list. -/
def Occurs (R : List α → α → Prop) (s : List α) : Prop :=
  ∃ before piece a after, s = before ++ piece ++ after ∧ R piece a

variable {R R' : List α → α → Prop} {mark : α} {s t out out' : List α}

/-! ### Marks -/

/-- Two pieces that begin one list are the same. -/
theorem Marked.eq_of_prefix (hm : Marked R mark) {piece piece' : List α} {a a' : α}
    (h : R piece a) (h' : R piece' a') (hp : piece <+: s) (hp' : piece' <+: s) :
    piece = piece' ∧ a = a' := by
  rcases List.prefix_or_prefix_of_prefix hp hp' with hle | hle
  · exact hm.unique _ _ _ _ h h' hle
  · obtain ⟨rfl, rfl⟩ := hm.unique _ _ _ _ h' h hle
    exact ⟨rfl, rfl⟩

theorem Marked.of_le (hm : Marked R' mark) (hle : ∀ piece a, R piece a → R' piece a) :
    Marked R mark :=
  ⟨fun piece a h => hm.starts piece a (hle piece a h), fun _ _ _ _ h h' =>
    hm.unique _ _ _ _ (hle _ _ h) (hle _ _ h')⟩

/-- No piece begins with anything but the mark. -/
theorem Marked.not_prefix (hm : Marked R mark) {a : α} (ha : a ≠ mark) (rest : List α)
    (piece : List α) (b : α) (h : R piece b) : ¬ piece <+: a :: rest := by
  obtain ⟨body, rfl, -, -⟩ := hm.starts _ _ h
  intro hp
  exact ha (List.cons_prefix_cons.mp hp).1.symm

/-- What has no mark is copied. -/
theorem Replaced.copy (hm : Marked R mark) {front : List α} (hfront : mark ∉ front)
    (h : Replaced R s out) : Replaced R (front ++ s) (front ++ out) := by
  induction front with
  | nil => exact h
  | cons a front ih =>
    rw [List.mem_cons, not_or] at hfront
    exact .copied (hm.not_prefix (Ne.symm hfront.1) _) (ih hfront.2)

theorem Replaced.of_not_mem (hm : Marked R mark) (hs : mark ∉ s) : Replaced R s s := by
  have h := Replaced.copy hm hs .nil
  rwa [List.append_nil] at h

/-! ### One result -/

theorem Replaced.inversion (h : Replaced R s out) :
    (s = [] ∧ out = []) ∨
      (∃ piece a rest out', R piece a ∧ s = piece ++ rest ∧ out = a :: out' ∧
        Replaced R rest out') ∨
      ∃ a rest out', (∀ piece b, R piece b → ¬ piece <+: a :: rest) ∧ s = a :: rest ∧
        out = a :: out' ∧ Replaced R rest out' := by
  cases h with
  | nil => exact .inl ⟨rfl, rfl⟩
  | replaced h hrest => exact .inr (.inl ⟨_, _, _, _, h, rfl, rfl, hrest⟩)
  | copied h hrest => exact .inr (.inr ⟨_, _, _, h, rfl, rfl, hrest⟩)

/-- **Every list has a result.** -/
theorem exists_replaced (hm : Marked R mark) (s : List α) : ∃ out, Replaced R s out := by
  induction hn : s.length using Nat.strong_induction_on generalizing s with
  | _ n ih =>
    subst hn
    -- a piece is not empty, so what follows it is shorter
    by_cases hfound : ∃ piece a, R piece a ∧ piece <+: s
    · obtain ⟨piece, a, h, rest, rfl⟩ := hfound
      obtain ⟨body, hbody, -, -⟩ := hm.starts _ _ h
      have hshorter : rest.length < (piece ++ rest).length := by
        rw [hbody, List.length_append, List.length_cons]
        omega
      obtain ⟨out, hout⟩ := ih rest.length hshorter rest rfl
      exact ⟨a :: out, .replaced h hout⟩
    · rcases s with _ | ⟨a, rest⟩
      · exact ⟨[], .nil⟩
      · obtain ⟨out, hout⟩ := ih rest.length (by simp) rest rfl
        exact ⟨a :: out, .copied (fun piece b h hp => hfound ⟨piece, b, h, hp⟩) hout⟩

/-- **And only one.** -/
theorem Replaced.unique (hm : Marked R mark) (h : Replaced R s out) (h' : Replaced R s out') :
    out = out' := by
  induction h generalizing out' with
  | nil =>
    rcases h'.inversion with ⟨-, rfl⟩ | ⟨piece, a, rest, _, hpiece, hs, -, -⟩ | ⟨_, _, _, -, hs, -⟩
    · rfl
    · obtain ⟨body, rfl, -, -⟩ := hm.starts _ _ hpiece
      cases hs
    · cases hs
  | @replaced piece a rest out hpiece hrest ih =>
    rcases h'.inversion with ⟨hs, -⟩ | ⟨piece', a', rest', out'', hpiece', hs, rfl, hrest'⟩ |
      ⟨a', rest', out'', hnone, hs, rfl, hrest'⟩
    · obtain ⟨body, rfl, -, -⟩ := hm.starts _ _ hpiece
      cases hs
    · -- both begin the list, so they are one piece
      have hbegins : piece' <+: piece ++ rest := by
        rw [hs]
        exact List.prefix_append _ _
      obtain ⟨rfl, rfl⟩ := hm.eq_of_prefix hpiece hpiece' (List.prefix_append _ _) hbegins
      rw [List.append_cancel_left hs] at ih
      rw [ih hrest']
    · exact absurd (hs ▸ List.prefix_append piece rest) (hnone _ _ hpiece)
  | @copied a rest out hnone hrest ih =>
    rcases h'.inversion with ⟨hs, -⟩ | ⟨piece, a', rest', out'', hpiece, hs, rfl, hrest'⟩ |
      ⟨a', rest', out'', -, hs, rfl, hrest'⟩
    · cases hs
    · exact absurd (hs ▸ List.prefix_append piece rest') (hnone _ _ hpiece)
    · cases hs
      rw [ih hrest']

/-- Where nothing is to replace, nothing changes. -/
theorem Replaced.eq_self (h : Replaced R s out) (hnone : ¬ Occurs R s) : out = s := by
  induction h with
  | nil => rfl
  | @replaced piece a rest out hpiece hrest ih =>
    exact absurd ⟨[], piece, a, rest, rfl, hpiece⟩ hnone
  | @copied a rest out h hrest ih =>
    rw [ih]
    rintro ⟨before, piece, b, after, rfl, hpiece⟩
    exact hnone ⟨a :: before, piece, b, after, rfl, hpiece⟩

/-! ### Cuts -/

/-- No piece lies across the cut between two lists. -/
def CutsNone (R : List α → α → Prop) (s t : List α) : Prop :=
  ∀ front back a, front ≠ [] → back ≠ [] → R (front ++ back) a →
    ¬ (front <:+ s ∧ back <+: t)

/-- **A list may be cut where no piece lies across the cut.** -/
theorem Replaced.append (h : Replaced R s out) (h' : Replaced R t out') (hcut : CutsNone R s t) :
    Replaced R (s ++ t) (out ++ out') := by
  induction h with
  | nil => exact h'
  | @replaced piece a rest out hpiece hrest ih =>
    rw [List.append_assoc]
    refine .replaced hpiece (ih fun front back b hfront hback hb hin => ?_)
    exact hcut front back b hfront hback hb ⟨hin.1.trans (List.suffix_append _ _), hin.2⟩
  | @copied a rest out hnone hrest ih =>
    refine .copied (fun piece b hpiece hp => ?_) (ih fun front back b hfront hback hb hin => ?_)
    · obtain ⟨after, hafter⟩ := hp
      change piece ++ after = (a :: rest) ++ t at hafter
      rcases List.append_eq_append_iff.mp hafter with ⟨back, hs, -⟩ |
        ⟨back, hpieces, ht⟩
      · exact hnone _ _ hpiece ⟨back, hs.symm⟩
      · -- the piece reaches the cut: it ends there, or lies across
        by_cases hback : back = []
        · rw [hback, List.append_nil] at hpieces
          exact hnone _ _ hpiece (by rw [hpieces])
        · exact hcut (a :: rest) back b (List.cons_ne_nil _ _) hback (hpieces ▸ hpiece)
            ⟨List.suffix_refl _, ⟨after, ht.symm⟩⟩
    · exact hcut front back b hfront hback hb ⟨hin.1.trans (List.suffix_cons _ _), hin.2⟩

/-- No piece lies across a cut before a mark. -/
theorem cutsNone_mark (hm : Marked R mark) (s t : List α) : CutsNone R s (mark :: t) := by
  rintro front back a hfront hback h ⟨-, hprefix⟩
  obtain ⟨body, hbody, hmark, -⟩ := hm.starts _ _ h
  -- behind the cut the piece would have its mark once more
  obtain ⟨b, back, rfl⟩ := List.exists_cons_of_ne_nil hback
  obtain rfl := (List.cons_prefix_cons.mp hprefix).1
  obtain ⟨c, front, rfl⟩ := List.exists_cons_of_ne_nil hfront
  rw [List.cons_append, List.cons.injEq] at hbody
  exact hmark (hbody.2 ▸ List.mem_append_right _ (List.mem_cons_self ..))

/-- **A piece that is cut** is copied on both sides of the cut. -/
theorem Replaced.cut (hm : Marked R mark) {front back : List α} {a : α} (h : R (front ++ back) a)
    (hfront : front ≠ []) (hback : back ≠ []) (hs : Replaced R s out) (ht : Replaced R t out') :
    Replaced R (s ++ front) (out ++ front) ∧ Replaced R (back ++ t) (back ++ out') ∧
      Replaced R (s ++ (front ++ back ++ t)) (out ++ a :: out') := by
  obtain ⟨body, hbody, hmark, -⟩ := hm.starts _ _ h
  obtain ⟨b, front, rfl⟩ := List.exists_cons_of_ne_nil hfront
  rw [List.cons_append, List.cons.injEq] at hbody
  obtain ⟨rfl, rfl⟩ := hbody
  rw [List.mem_append, not_or] at hmark
  have hcopied : Replaced R (b :: front) (b :: front) := by
    refine .copied (fun piece c hpiece hp => ?_) (.of_not_mem hm hmark.1)
    -- a piece that begins the front begins the whole piece, and is shorter
    obtain ⟨hsame, -⟩ := hm.eq_of_prefix h hpiece (List.prefix_refl _)
      (hp.trans (List.prefix_append _ _))
    rw [← hsame] at hp
    have hlength := hp.length_le
    rw [List.length_append] at hlength
    exact hback (List.length_eq_zero_iff.mp (by omega))
  exact ⟨hs.append hcopied (cutsNone_mark hm _ _), ht.copy hm hmark.2,
    hs.append (.replaced h ht) (cutsNone_mark hm _ _)⟩

/-! ### Passes that replace more -/

/-- A piece within a piece and what follows it is that piece, or follows it. -/
theorem occurs_append (hm : Marked R' mark) (hle : ∀ piece a, R piece a → R' piece a)
    {piece : List α} {a : α} (h : R' piece a) (rest : List α) :
    Occurs R (piece ++ rest) ↔ R piece a ∨ Occurs R rest := by
  constructor
  · rintro ⟨before, other, b, after, heq, hother⟩
    obtain ⟨body, hbody, hmark, -⟩ := hm.starts _ _ h
    obtain ⟨body', hbody', -, -⟩ := hm.starts _ _ (hle _ _ hother)
    rw [List.append_assoc] at heq
    rcases List.append_eq_append_iff.mp heq with ⟨inner, hbefore, hrest⟩ | ⟨inner, hpiece, hrest⟩
    · exact .inr ⟨inner, other, b, after, hrest.trans (List.append_assoc _ _ _).symm, hother⟩
    · rcases before with _ | ⟨first, before⟩
      · -- both begin the list
        obtain ⟨rfl, rfl⟩ := hm.eq_of_prefix h (hle _ _ hother) (List.prefix_append piece rest)
          (heq ▸ List.prefix_append _ _)
        exact .inl hother
      · rcases inner with _ | ⟨second, inner⟩
        · exact .inr ⟨[], other, b, after, hrest.symm, hother⟩
        · -- the mark would stand within the first piece
          rw [hbody', List.cons_append, List.cons_append, List.cons.injEq] at hrest
          rw [hbody, List.cons_append, List.cons.injEq] at hpiece
          refine absurd ?_ hmark
          rw [hpiece.2, ← hrest.1]
          simp
  · rintro (hpiece | ⟨before, other, b, after, rfl, hother⟩)
    · exact ⟨[], piece, a, rest, rfl, hpiece⟩
    · exact ⟨piece ++ before, other, b, after, by simp, hother⟩

theorem occurs_cons {a : α} {rest : List α}
    (hnone : ∀ piece b, R piece b → ¬ piece <+: a :: rest) :
    Occurs R (a :: rest) ↔ Occurs R rest := by
  constructor
  · rintro ⟨before, piece, b, after, heq, hpiece⟩
    rcases before with _ | ⟨first, before⟩
    · exact absurd (heq ▸ List.prefix_append piece after) (hnone _ _ hpiece)
    · cases heq
      exact ⟨before, piece, b, after, rfl, hpiece⟩
  · rintro ⟨before, piece, b, after, rfl, hpiece⟩
    exact ⟨a :: before, piece, b, after, rfl, hpiece⟩

/-- **Two passes, one of which replaces more**: its result is no longer, and is the same
exactly when there is nothing that it alone replaces. -/
theorem Replaced.eq_iff (hm : Marked R' mark) (hle : ∀ piece a, R piece a → R' piece a)
    (h : Replaced R s out) (h' : Replaced R' s out') :
    out'.length ≤ out.length ∧
      (out = out' ↔ ¬ Occurs (fun piece a => R' piece a ∧ ¬ R piece a) s) := by
  have hmR := hm.of_le hle
  have hextra : ∀ piece a, R' piece a ∧ ¬ R piece a → R' piece a := fun _ _ hp => hp.1
  induction h' generalizing out with
  | nil =>
    obtain rfl := h.unique hmR .nil
    refine ⟨le_refl _, iff_of_true rfl ?_⟩
    rintro ⟨before, piece, a, after, heq, hpiece, -⟩
    obtain ⟨body, rfl, -, -⟩ := hm.starts _ _ hpiece
    simp at heq
  | @replaced piece a rest out' hpiece hrest ih =>
    obtain ⟨out₁, hout₁⟩ := exists_replaced hmR rest
    obtain ⟨hlength, hiff⟩ := ih hout₁
    rw [occurs_append hm hextra hpiece]
    by_cases hboth : R piece a
    · obtain rfl := h.unique hmR (.replaced hboth hout₁)
      refine ⟨Nat.succ_le_succ hlength, ?_⟩
      rw [List.cons.injEq, and_iff_right rfl, hiff]
      simp [hboth]
    · -- the other pass copies the whole piece
      obtain ⟨body, hbody, hmark, hne⟩ := hm.starts _ _ hpiece
      have hcopied : Replaced R (piece ++ rest) (piece ++ out₁) := by
        have hnone : ∀ other b, R other b → ¬ other <+: piece ++ rest := by
          intro other b hother hp
          obtain ⟨rfl, rfl⟩ := hm.eq_of_prefix hpiece (hle _ _ hother)
            (List.prefix_append _ _) hp
          exact hboth hother
        rw [hbody] at hnone ⊢
        exact .copied hnone (hout₁.copy hmR hmark)
      obtain rfl := h.unique hmR hcopied
      have hlonger : 1 < piece.length := by
        rw [hbody, List.length_cons]
        have := List.length_pos_of_ne_nil hne
        omega
      rw [List.length_append, List.length_cons]
      refine ⟨by omega, iff_of_false (fun heq => ?_) (by simp [hpiece, hboth])⟩
      have hsame := congrArg List.length heq
      rw [List.length_append, List.length_cons] at hsame
      omega
  | @copied a rest out' hnone hrest ih =>
    obtain ⟨out₁, hout₁⟩ := exists_replaced hmR rest
    obtain ⟨hlength, hiff⟩ := ih hout₁
    have hcopied : Replaced R (a :: rest) (a :: out₁) :=
      .copied (fun piece b hp => hnone piece b (hle _ _ hp)) hout₁
    obtain rfl := h.unique hmR hcopied
    rw [occurs_cons fun piece b hp => hnone piece b hp.1, List.cons.injEq, and_iff_right rfl]
    exact ⟨Nat.succ_le_succ hlength, hiff⟩

end OnePass
