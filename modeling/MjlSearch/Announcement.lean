/-
The announcement of a start (`api.sound`): one chime, however many workers start.

Each worker looks at the stamp that the last announcement left, takes a lock without waiting
for it, looks again, and writes the stamp; a worker that then finds nothing to play the chime
with takes the stamp away again.  The steps of the workers interleave in any order, files may
fail them, and a worker may die, which gives back its lock.

* `Guarded` — while a claim is young, the stamp shows it, and who is about to write the stamp
  has seen that no claim is;
* `Stepped.guarded` — every step keeps it so, if the clock does not go back, no claim is given
  up late, and who has the lock sees the stamp that is there;
* `announced_once` — stamped claims that are kept lie a window apart, and the first of a quiet
  start is made.
-/
import Mathlib.Algebra.Order.Ring.Int
import Mathlib.Logic.Function.Basic
import Mathlib.Tactic.Linarith
import MjlSearch.Runs

open Runs

namespace Announcement

variable {ι K : Type*}

/-! ### The source -/

/-- How far a worker's call of `play_startup_sound` is, where there is `fcntl`.  A claim has the
time of its stamp, or none where no stamp could be written. -/
inductive Stage (K : Type*)
  | idle
  | timed (time : K)
  | unannounced
  | opened
  | locked
  | retimed (time : K)
  | free
  | stamping
  | refused
  | granted (stamped : Option K)
  | left
  | claimed (stamped : Option K)
  | played (stamped : Option K)
  | released
  | dead (stamped : Option K)
  deriving DecidableEq

/-- The time of the stamp of a claim that is not given up. -/
def Stage.stampedAt : Stage K → Option K
  | granted stamped | claimed stamped | played stamped | dead stamped => stamped
  | _ => none

/-- The clock, the stamp's time of modification when the file is there, who holds the lock, and
the workers. -/
structure World (ι K : Type*) where
  clock : K
  stamp : Option K
  holder : Option ι
  stages : ι → Stage K

/-- A step of the clock or of a worker; some come to an `OSError`, beside the one for a stamp that
is not there. -/
inductive Event (ι K : Type*)
  | tick (now : K)
  | readClock (i : ι)
  | stat (i : ι) (fails : Bool)
  | openLock (i : ι) (fails : Bool)
  | flock (i : ι) (fails : Bool)
  | openStamp (i : ι) (fails : Bool)
  | writeStamp (i : ι) (fails : Bool)
  | close (i : ι)
  | play (i : ι)
  | release (i : ι) (fails : Bool)
  | die (i : ι)
  deriving DecidableEq

section steps

variable [DecidableEq ι]

/-- A worker comes to its next part. -/
def World.goOn (w : World ι K) (i : ι) (stage : Stage K) : World ι K :=
  { w with stages := Function.update w.stages i stage }

/-- Closing the lock file gives back the lock, if it is this worker that holds it. -/
def World.unlock (w : World ι K) (i : ι) : World ι K :=
  { w with holder := if w.holder = some i then none else w.holder }

variable [Sub K] [LT K] [DecidableLT K]

/-- What a worker sees of the stamp: nothing, when it cannot look. -/
def World.seen (w : World ι K) (fails : Bool) : Option K := if fails then none else w.stamp

/-- `_recently_announced`, when the clock was read and the stamp looked at: `age < window`. -/
def recentlyAnnounced (window time : K) : Option K → Bool
  | some mtime => decide (time - mtime < window)
  | none => false

/-- One step, where it is possible. -/
def step (window : K) (w : World ι K) : Event ι K → Option (World ι K)
  | .tick now => some { w with clock := now }
  | .readClock i =>
    match w.stages i with
    | .idle => some (w.goOn i (.timed w.clock))
    | .locked => some (w.goOn i (.retimed w.clock))
    | _ => none
  | .stat i fails =>
    match w.stages i with
    | .timed time =>
      some (w.goOn i (if recentlyAnnounced window time (w.seen fails) then .left
        else .unannounced))
    | .retimed time =>
      some (w.goOn i (if recentlyAnnounced window time (w.seen fails) then .refused else .free))
    | _ => none
  | .openLock i fails =>
    match w.stages i with
    -- an unwritable directory must not silence a machine that could beep
    | .unannounced => some (w.goOn i (if fails then .claimed none else .opened))
    | _ => none
  | .flock i fails =>
    match w.stages i with
    | .opened =>
      if fails || w.holder.isSome then some (w.goOn i .refused)
      else some { w.goOn i .locked with holder := some i }
    | _ => none
  | .openStamp i fails =>
    match w.stages i with
    | .free =>
      if fails then some (w.goOn i (.granted none))
      else some { w.goOn i .stamping with stamp := some w.clock }
    | _ => none
  | .writeStamp i fails =>
    match w.stages i with
    | .stamping =>
      if fails then some (w.goOn i (.granted none))
      -- a file that is gone does not come back by being written to
      else some { w.goOn i (.granted (some w.clock)) with stamp := w.stamp.map fun _ => w.clock }
    | _ => none
  | .close i =>
    match w.stages i with
    | .refused => some ((w.unlock i).goOn i .left)
    | .granted stamped => some ((w.unlock i).goOn i (.claimed stamped))
    | _ => none
  | .play i =>
    match w.stages i with
    | .claimed stamped => some (w.goOn i (.played stamped))
    | _ => none
  | .release i fails =>
    match w.stages i with
    | .claimed _ => some { w.goOn i .released with stamp := if fails then w.stamp else none }
    | _ => none
  | .die i => some ((w.unlock i).goOn i (.dead (w.stages i).stampedAt))

/-- Before any worker has begun. -/
def fresh (clock : K) (stamp : Option K) : World ι K := ⟨clock, stamp, none, fun _ => .idle⟩

end steps

/-! ### What a step does -/

section goOn

variable [DecidableEq ι] {w : World ι K} {i j : ι}

@[simp] theorem goOn_self (w : World ι K) (i : ι) (stage : Stage K) :
    (w.goOn i stage).stages i = stage := Function.update_self ..

theorem goOn_other (w : World ι K) (stage : Stage K) (h : j ≠ i) :
    (w.goOn i stage).stages j = w.stages j := Function.update_of_ne h ..

/-- When a worker stamped a claim that it has not given up. -/
def World.stampedAt (w : World ι K) (i : ι) : Option K := (w.stages i).stampedAt

theorem goOn_stampedAt {stage : Stage K} (h : stage.stampedAt = w.stampedAt i) (j : ι) :
    (w.goOn i stage).stampedAt j = w.stampedAt j := by
  by_cases hji : j = i
  · subst hji
    rw [World.stampedAt, goOn_self, h]
  · rw [World.stampedAt, goOn_other w stage hji, World.stampedAt]

/-- Who gives up a claim has none; the others have theirs. -/
theorem released_stampedAt (k : ι) (t : K) (h : (w.goOn i .released).stampedAt k = some t) :
    k ≠ i ∧ w.stampedAt k = some t := by
  by_cases hki : k = i
  · subst hki
    rw [World.stampedAt, goOn_self] at h
    cases h
  · rw [World.stampedAt, goOn_other w _ hki] at h
    exact ⟨hki, h⟩

end goOn

section cases_

variable [Sub K] [LT K] [DecidableLT K] {window : K} {w w' : World ι K} {e : Event ι K} {i j : ι}

/-- The steps of a worker that leave everything else as it is. -/
inductive Moves (window : K) (w : World ι K) (i : ι) : Event ι K → Stage K → Prop
  | timed (h : w.stages i = .idle) : Moves window w i (.readClock i) (.timed w.clock)
  | retimed (h : w.stages i = .locked) : Moves window w i (.readClock i) (.retimed w.clock)
  | turned {time : K} {fails : Bool} (h : w.stages i = .timed time)
      (hrecent : recentlyAnnounced window time (w.seen fails) = true) :
      Moves window w i (.stat i fails) .left
  | passed {time : K} {fails : Bool} (h : w.stages i = .timed time) :
      Moves window w i (.stat i fails) .unannounced
  | beaten {time : K} {fails : Bool} (h : w.stages i = .retimed time)
      (hrecent : recentlyAnnounced window time (w.seen fails) = true) :
      Moves window w i (.stat i fails) .refused
  | freed {time : K} {fails : Bool} (h : w.stages i = .retimed time)
      (hrecent : recentlyAnnounced window time (w.seen fails) = false) :
      Moves window w i (.stat i fails) .free
  | unopened (h : w.stages i = .unannounced) : Moves window w i (.openLock i true) (.claimed none)
  | opened (h : w.stages i = .unannounced) : Moves window w i (.openLock i false) .opened
  | busy {fails : Bool} (h : w.stages i = .opened) (hbusy : fails = true ∨ w.holder ≠ none) :
      Moves window w i (.flock i fails) .refused
  | unstamped (h : w.stages i = .free) : Moves window w i (.openStamp i true) (.granted none)
  | unwritten (h : w.stages i = .stamping) : Moves window w i (.writeStamp i true) (.granted none)
  | played {stamped : Option K} (h : w.stages i = .claimed stamped) :
      Moves window w i (.play i) (.played stamped)

/-- The steps with which a worker gives back the lock, if it has it. -/
inductive Closes (w : World ι K) (i : ι) : Event ι K → Stage K → Prop
  | refused (h : w.stages i = .refused) : Closes w i (.close i) .left
  | granted {stamped : Option K} (h : w.stages i = .granted stamped) :
      Closes w i (.close i) (.claimed stamped)
  | died : Closes w i (.die i) (.dead (w.stages i).stampedAt)

theorem Moves.stampedAt {stage : Stage K} (h : Moves window w i e stage) :
    stage.stampedAt = w.stampedAt i := by
  unfold World.stampedAt
  cases h with
  | timed h | retimed h | turned h | passed h | beaten h | freed h | unopened h | opened h
  | busy h | unstamped h | unwritten h | played h =>
    rw [h]
    rfl

omit [Sub K] [LT K] [DecidableLT K] in
theorem Closes.stampedAt {stage : Stage K} (h : Closes w i e stage) :
    stage.stampedAt = w.stampedAt i := by
  unfold World.stampedAt
  cases h with
  | refused h | granted h =>
    rw [h]
    rfl
  | died => rfl

variable [DecidableEq ι]

/-- What a step may be. -/
inductive Stepped (window : K) (w : World ι K) : Event ι K → World ι K → Prop
  | tick (now : K) : Stepped window w (.tick now) { w with clock := now }
  | move (i : ι) {e : Event ι K} {stage : Stage K} (h : Moves window w i e stage) :
      Stepped window w e (w.goOn i stage)
  | close (i : ι) {e : Event ι K} {stage : Stage K} (h : Closes w i e stage) :
      Stepped window w e ((w.unlock i).goOn i stage)
  | locked (i : ι) (h : w.stages i = .opened) (hfree : w.holder = none) :
      Stepped window w (.flock i false) { w.goOn i .locked with holder := some i }
  | stamping (i : ι) (h : w.stages i = .free) :
      Stepped window w (.openStamp i false) { w.goOn i .stamping with stamp := some w.clock }
  | wrote (i : ι) (h : w.stages i = .stamping) :
      Stepped window w (.writeStamp i false)
        { w.goOn i (.granted (some w.clock)) with stamp := w.stamp.map fun _ => w.clock }
  | released (i : ι) {stamped : Option K} (h : w.stages i = .claimed stamped) :
      Stepped window w (.release i false) { w.goOn i .released with stamp := none }
  | unreleased (i : ι) {stamped : Option K} (h : w.stages i = .claimed stamped) :
      Stepped window w (.release i true) (w.goOn i .released)

theorem step_cases (h : step window w e = some w') : Stepped window w e w' := by
  cases e with
  | tick now =>
    cases h
    exact .tick now
  | readClock i =>
    unfold step at h
    dsimp only at h
    split at h
    · rename_i hstage
      cases h
      exact .move i (.timed hstage)
    · rename_i hstage
      cases h
      exact .move i (.retimed hstage)
    · cases h
  | stat i fails =>
    unfold step at h
    dsimp only at h
    split at h
    · rename_i time hstage
      cases h
      by_cases hrecent : recentlyAnnounced window time (w.seen fails) = true
      · rw [if_pos hrecent]
        exact .move i (.turned hstage hrecent)
      · rw [if_neg hrecent]
        exact .move i (.passed hstage)
    · rename_i time hstage
      cases h
      by_cases hrecent : recentlyAnnounced window time (w.seen fails) = true
      · rw [if_pos hrecent]
        exact .move i (.beaten hstage hrecent)
      · rw [if_neg hrecent]
        exact .move i (.freed hstage (Bool.not_eq_true _ ▸ hrecent))
    · cases h
  | openLock i fails =>
    unfold step at h
    dsimp only at h
    split at h
    · rename_i hstage
      cases h
      cases fails with
      | true => exact .move i (.unopened hstage)
      | false => exact .move i (.opened hstage)
    · cases h
  | flock i fails =>
    unfold step at h
    dsimp only at h
    split at h
    · rename_i hstage
      split at h
      · rename_i hbusy
        cases h
        rw [Bool.or_eq_true, Option.isSome_iff_ne_none] at hbusy
        exact .move i (.busy hstage hbusy)
      · rename_i hbusy
        cases h
        rw [Bool.not_eq_true, Bool.or_eq_false_iff, Option.isSome_eq_false_iff,
          Option.isNone_iff_eq_none] at hbusy
        obtain ⟨rfl, hfree⟩ := hbusy
        exact .locked i hstage hfree
    · cases h
  | openStamp i fails =>
    unfold step at h
    dsimp only at h
    split at h
    · rename_i hstage
      cases fails with
      | true =>
        cases h
        exact .move i (.unstamped hstage)
      | false =>
        cases h
        exact .stamping i hstage
    · cases h
  | writeStamp i fails =>
    unfold step at h
    dsimp only at h
    split at h
    · rename_i hstage
      cases fails with
      | true =>
        cases h
        exact .move i (.unwritten hstage)
      | false =>
        cases h
        exact .wrote i hstage
    · cases h
  | close i =>
    unfold step at h
    dsimp only at h
    split at h
    · rename_i hstage
      cases h
      exact .close i (.refused hstage)
    · rename_i hstage
      cases h
      exact .close i (.granted hstage)
    · cases h
  | play i =>
    unfold step at h
    dsimp only at h
    split at h
    · rename_i hstage
      cases h
      exact .move i (.played hstage)
    · cases h
  | release i fails =>
    unfold step at h
    dsimp only at h
    split at h
    · rename_i hstage
      cases h
      cases fails with
      | true => exact .unreleased i hstage
      | false => exact .released i hstage
    · cases h
  | die i =>
    cases h
    exact .close i .died

end cases_

/-! ### Claims -/

section claims

variable [CommRing K] [LinearOrder K] {window : K} {w w' : World ι K} {e : Event ι K} {i j : ι}

/-- No claim that is kept is younger than the window. -/
def NoneYoung (window : K) (w : World ι K) : Prop :=
  ∀ j t, w.stampedAt j = some t → t + window ≤ w.clock

/-- What a worker knows by being where it is. -/
def Knows (window : K) (w : World ι K) (i : ι) : Stage K → Prop
  | .timed time => time ≤ w.clock
  | .locked => w.holder = some i
  | .retimed time => w.holder = some i ∧ time ≤ w.clock
  | .free => w.holder = some i ∧ NoneYoung window w
  | .stamping => w.holder = some i ∧ NoneYoung window w ∧ w.stamp ≠ none
  | _ => True

/-- Two claims that are stamped and kept lie a window apart. -/
def Apart (window : K) (w : World ι K) : Prop :=
  ∀ i j s t, i ≠ j → w.stampedAt i = some s → w.stampedAt j = some t →
    s + window ≤ t ∨ t + window ≤ s

/-- The stamp shows a claim as long as it is young. -/
structure Guarded (window : K) (w : World ι K) : Prop where
  past : ∀ i t, w.stampedAt i = some t → t ≤ w.clock
  shown : ∀ i t, w.stampedAt i = some t → w.clock < t + window → ∃ m, w.stamp = some m ∧ t ≤ m
  apart : Apart window w
  knows : ∀ i, Knows window w i (w.stages i)

/-- The clock does not go back; who has the lock sees the stamp, if it is there; and a claim is
given up in time: with a stamp of its own, that is still young. -/
def Orderly (window : K) (w : World ι K) : Event ι K → Prop
  | .tick now => w.clock ≤ now
  | .stat i true => w.stamp = none ∨ w.holder ≠ some i
  | .release i false => ∃ t, w.stampedAt i = some t ∧ w.clock < t + window
  | _ => True

theorem guarded_fresh (window clock : K) (stamp : Option K) :
    Guarded window (fresh clock stamp : World ι K) := by
  refine ⟨?_, ?_, ?_, fun _ => trivial⟩
  · intro i t h
    cases h
  · intro i t h
    cases h
  · intro i j s t _ h
    cases h

/-- Who does not hold the lock knows no less when the time goes on. -/
theorem Knows.elsewhere {stage : Stage K} (h : Knows window w j stage) (hnot : w.holder ≠ some j)
    (hclock : w.clock ≤ w'.clock) : Knows window w' j stage := by
  cases stage with
  | timed time => exact le_trans h hclock
  | locked => exact absurd h hnot
  | retimed time => exact absurd h.1 hnot
  | free => exact absurd h.1 hnot
  | stamping => exact absurd h.1 hnot
  | idle | unannounced | opened | refused | granted _ | left | claimed _ | played _ | released
  | dead _ => trivial

/-- What a worker knows stays true where there are no new claims, and its lock and the stamp are
what they were. -/
theorem Knows.imp {stage : Stage K} (h : Knows window w j stage)
    (hholder : w.holder = some j → w'.holder = some j)
    (hstamped : ∀ k t, w'.stampedAt k = some t → w.stampedAt k = some t)
    (hclock : w.clock ≤ w'.clock) (hstamp : w.stamp ≠ none → w'.stamp ≠ none) :
    Knows window w' j stage := by
  have hyoung : NoneYoung window w → NoneYoung window w' :=
    fun hold k t ht => le_trans (hold k t (hstamped k t ht)) hclock
  cases stage with
  | timed time => exact le_trans h hclock
  | locked => exact hholder h
  | retimed time => exact ⟨hholder h.1, le_trans h.2 hclock⟩
  | free => exact ⟨hholder h.1, hyoung h.2⟩
  | stamping => exact ⟨hholder h.1, hyoung h.2.1, hstamp h.2.2⟩
  | idle | unannounced | opened | refused | granted _ | left | claimed _ | played _ | released
  | dead _ => trivial

/-- Beside a young claim nobody is about to write the stamp. -/
theorem Knows.besideYoung {stage : Stage K} (h : Knows window w j stage) {t : K}
    (ht : w.stampedAt i = some t) (hyoung : w.clock < t + window) (hclock : w.clock ≤ w'.clock)
    (hholder : w'.holder = w.holder) : Knows window w' j stage := by
  cases stage with
  | timed time => exact le_trans h hclock
  | locked => exact hholder.trans h
  | retimed time => exact ⟨hholder.trans h.1, le_trans h.2 hclock⟩
  | free => exact absurd (h.2 i t ht) (not_le.mpr hyoung)
  | stamping => exact absurd (h.2.1 i t ht) (not_le.mpr hyoung)
  | idle | unannounced | opened | refused | granted _ | left | claimed _ | played _ | released
  | dead _ => trivial

theorem Closes.knows {stage : Stage K} (h : Closes w i e stage) : Knows window w' j stage := by
  cases h with
  | refused _ | granted _ | died => trivial

/-- Claims, clock and stamp as they were: it is the workers that have to be looked at. -/
theorem Guarded.same (hg : Guarded window w) (hstamped : ∀ k, w'.stampedAt k = w.stampedAt k)
    (hclock : w'.clock = w.clock) (hstamp : w'.stamp = w.stamp)
    (hknows : ∀ k, Knows window w' k (w'.stages k)) : Guarded window w' := by
  refine ⟨?_, ?_, ?_, hknows⟩
  · intro k t ht
    rw [hclock]
    exact hg.past k t (hstamped k ▸ ht)
  · intro k t ht hyoung
    rw [hstamp]
    exact hg.shown k t (hstamped k ▸ ht) (hclock ▸ hyoung)
  · intro i j s t hij hs ht
    exact hg.apart i j s t hij (hstamped i ▸ hs) (hstamped j ▸ ht)

section goesOn

variable [DecidableEq ι]

/-- What the workers know once one of them has gone on. -/
theorem knows_goOn {stage : Stage K} (hself : Knows window w' i stage)
    (hother : ∀ k, k ≠ i → Knows window w' k (w.stages k)) (k : ι) :
    Knows window w' k ((w.goOn i stage).stages k) := by
  by_cases hki : k = i
  · subst hki
    rw [goOn_self]
    exact hself
  · rw [goOn_other w _ hki]
    exact hother k hki

omit [CommRing K] [LinearOrder K] [DecidableEq ι] in
theorem holder_unique {k : ι} (hholder : w.holder = some i) (hki : k ≠ i) : w.holder ≠ some k := by
  intro hk
  exact hki (Option.some.inj (hk.symm.trans hholder))

/-- The lock was free, so nobody else knows what only its holder knows. -/
theorem Guarded.locked (hg : Guarded window w) (h : w.stages i = .opened)
    (hfree : w.holder = none) :
    Guarded window { w.goOn i .locked with holder := some i } := by
  have hstamped : ∀ k, (w.goOn i .locked).stampedAt k = w.stampedAt k := by
    refine goOn_stampedAt ?_
    rw [World.stampedAt, h]
    rfl
  refine hg.same hstamped rfl rfl (knows_goOn rfl ?_)
  intro k _
  refine (hg.knows k).elsewhere ?_ (le_refl _)
  rw [hfree]
  exact (Option.some_ne_none k).symm

/-- The stamp is as young as the clock once it is opened, and no claim that is kept is young. -/
theorem Guarded.stamping (hg : Guarded window w) (h : w.stages i = .free) :
    Guarded window { w.goOn i .stamping with stamp := some w.clock } := by
  obtain ⟨hholder, hold⟩ : w.holder = some i ∧ NoneYoung window w := by
    have hknows := hg.knows i
    rwa [h] at hknows
  have hstamped : ∀ k, (w.goOn i .stamping).stampedAt k = w.stampedAt k := by
    refine goOn_stampedAt ?_
    rw [World.stampedAt, h]
    rfl
  refine ⟨?_, ?_, ?_, knows_goOn ⟨hholder, ?_, Option.some_ne_none _⟩ ?_⟩
  · intro k t ht
    exact hg.past k t ((hstamped k).symm.trans ht)
  · intro k t ht _
    exact ⟨w.clock, rfl, hg.past k t ((hstamped k).symm.trans ht)⟩
  · intro k l s t hkl hs ht
    exact hg.apart k l s t hkl ((hstamped k).symm.trans hs) ((hstamped l).symm.trans ht)
  · intro j t ht
    exact hold j t ((hstamped j).symm.trans ht)
  · intro k hki
    exact (hg.knows k).elsewhere (holder_unique hholder hki) (le_refl _)

/-- The new claim comes a window after each that is kept, and the stamp shows it. -/
theorem Guarded.wrote (hg : Guarded window w) (h : w.stages i = .stamping) :
    Guarded window
      { w.goOn i (.granted (some w.clock)) with stamp := w.stamp.map fun _ => w.clock } := by
  obtain ⟨hholder, hold, hstamp⟩ :
      w.holder = some i ∧ NoneYoung window w ∧ w.stamp ≠ none := by
    have hknows := hg.knows i
    rwa [h] at hknows
  obtain ⟨m, hm⟩ := Option.ne_none_iff_exists'.mp hstamp
  have hself : (w.goOn i (.granted (some w.clock))).stampedAt i = some w.clock := by
    rw [World.stampedAt, goOn_self]
    rfl
  have hother : ∀ k, k ≠ i →
      (w.goOn i (.granted (some w.clock))).stampedAt k = w.stampedAt k := by
    intro k hki
    rw [World.stampedAt, goOn_other w _ hki, World.stampedAt]
  have hpast : ∀ k t, (w.goOn i (.granted (some w.clock))).stampedAt k = some t →
      t ≤ w.clock := by
    intro k t ht
    by_cases hki : k = i
    · subst hki
      rw [hself] at ht
      exact (Option.some.inj ht).ge
    · exact hg.past k t ((hother k hki).symm.trans ht)
  refine ⟨hpast, ?_, ?_, knows_goOn trivial ?_⟩
  · intro k t ht _
    refine ⟨w.clock, ?_, hpast k t ht⟩
    show w.stamp.map _ = _
    rw [hm]
    rfl
  · -- the new claim is the first of the two, or the second, or neither
    intro k l s t hkl hs ht
    by_cases hki : k = i
    · subst hki
      have hs' : w.clock = s := Option.some.inj (hself.symm.trans hs)
      right
      exact hs' ▸ hold l t ((hother l (Ne.symm hkl)).symm.trans ht)
    · by_cases hli : l = i
      · subst hli
        have ht' : w.clock = t := Option.some.inj (hself.symm.trans ht)
        left
        exact ht' ▸ hold k s ((hother k hki).symm.trans hs)
      · exact hg.apart k l s t hkl ((hother k hki).symm.trans hs) ((hother l hli).symm.trans ht)
  · intro k hki
    exact (hg.knows k).elsewhere (holder_unique hholder hki) (le_refl _)

/-- No other claim is young beside the one that is given up, so the stamp may go. -/
theorem Guarded.released (hg : Guarded window w) {s : K} (hs : w.stampedAt i = some s)
    (hyoung : w.clock < s + window) :
    Guarded window { w.goOn i .released with stamp := none } := by
  have hother := released_stampedAt (w := w) (i := i)
  refine ⟨?_, ?_, ?_, knows_goOn trivial ?_⟩
  · intro k t ht
    exact hg.past k t (hother k t ht).2
  · intro k t ht hyoung'
    obtain ⟨hki, ht⟩ := hother k t ht
    have hpast := hg.past k t ht
    have hpast' := hg.past i s hs
    rcases hg.apart k i t s hki ht hs with hapart | hapart
    · exact absurd (le_trans hapart hpast') (not_le.mpr hyoung')
    · exact absurd (le_trans hapart hpast) (not_le.mpr hyoung)
  · intro k l s t hkl hs ht
    exact hg.apart k l s t hkl (hother k s hs).2 (hother l t ht).2
  · intro k _
    exact (hg.knows k).besideYoung hs hyoung (le_refl _) rfl

/-- The stamp that could not be unlinked shows what it showed. -/
theorem Guarded.unreleased (hg : Guarded window w) : Guarded window (w.goOn i .released) := by
  have hother := released_stampedAt (w := w) (i := i)
  refine ⟨?_, ?_, ?_, knows_goOn trivial ?_⟩
  · intro k t ht
    exact hg.past k t (hother k t ht).2
  · intro k t ht
    exact hg.shown k t (hother k t ht).2
  · intro k l s t hkl hs ht
    exact hg.apart k l s t hkl (hother k s hs).2 (hother l t ht).2
  · intro k _
    exact (hg.knows k).imp id (fun j t ht => (hother j t ht).2) (le_refl _) id

end goesOn

variable [IsStrictOrderedRing K]

/-- Who finds no recent stamp learns that no claim is young. -/
theorem Guarded.noneYoung (hg : Guarded window w) {time : K} (htime : time ≤ w.clock)
    (hstale : recentlyAnnounced window time w.stamp = false) : NoneYoung window w := by
  intro j t ht
  by_contra hyoung
  obtain ⟨m, hm, hle⟩ := hg.shown j t ht (not_le.mp hyoung)
  rw [hm, recentlyAnnounced, decide_eq_false_iff_not, not_lt] at hstale
  linarith

theorem Moves.knows {stage : Stage K} (hg : Guarded window w) (h : Moves window w i e stage)
    (horderly : Orderly window w e) : Knows window w i stage := by
  have hknows := hg.knows i
  cases h with
  | timed _ => exact le_refl _
  | retimed h =>
    rw [h] at hknows
    exact ⟨hknows, le_refl _⟩
  | @freed time fails h hstale =>
    rw [h] at hknows
    refine ⟨hknows.1, hg.noneYoung hknows.2 ?_⟩
    cases fails with
    | false => exact hstale
    | true =>
      rw [Or.resolve_right horderly (absurd hknows.1)]
      rfl
  | turned _ _ | passed _ | beaten _ _ | unopened _ | opened _ | busy _ _ | unstamped _
  | unwritten _ | played _ => trivial

variable [DecidableEq ι]

/-- **A step keeps the claims guarded.** -/
theorem Stepped.guarded (hg : Guarded window w) (h : Stepped window w e w')
    (horderly : Orderly window w e) : Guarded window w' := by
  cases h with
  | tick now =>
    have hclock : w.clock ≤ now := horderly
    refine ⟨?_, ?_, hg.apart, ?_⟩
    · intro i t ht
      exact le_trans (hg.past i t ht) hclock
    · intro i t ht hyoung
      exact hg.shown i t ht (lt_of_le_of_lt hclock hyoung)
    · intro i
      exact (hg.knows i).imp id (fun _ _ => id) hclock id
  | move i h =>
    have hstamped := goOn_stampedAt (w := w) h.stampedAt
    have hsame : ∀ j t, (w.goOn i _).stampedAt j = some t → w.stampedAt j = some t :=
      fun j _ => (hstamped j).symm.trans
    refine hg.same hstamped rfl rfl (knows_goOn ?_ ?_)
    · exact (h.knows hg horderly).imp id hsame (le_refl _) id
    · intro k _
      exact (hg.knows k).imp id hsame (le_refl _) id
  | close i h =>
    have hstamped := goOn_stampedAt (w := w.unlock i) h.stampedAt
    refine hg.same hstamped rfl rfl (knows_goOn h.knows ?_)
    intro k hki
    refine (hg.knows k).imp ?_ (fun j _ => (hstamped j).symm.trans) (le_refl _) id
    intro hholder
    exact (if_neg (holder_unique hholder hki.symm)).trans hholder
  | locked i h hfree => exact hg.locked h hfree
  | stamping i h => exact hg.stamping h
  | wrote i h => exact hg.wrote h
  | released i h =>
    obtain ⟨s, hs, hyoung⟩ : ∃ s, w.stampedAt i = some s ∧ w.clock < s + window := horderly
    exact hg.released hs hyoung
  | unreleased i h => exact hg.unreleased

/-- A step of an orderly run. -/
abbrev OrderlyStep (window : K) (w : World ι K) (e : Event ι K) (w' : World ι K) : Prop :=
  step window w e = some w' ∧ Orderly window w e

variable {start : K} {stamp : Option K} {es : List (Event ι K)}

theorem run_guarded (h : Run (OrderlyStep window) (fresh start stamp) es w) : Guarded window w :=
  h.invariant (guarded_fresh window start stamp) fun _ _ _ hg hstep =>
    (step_cases hstep.1).guarded hg hstep.2

/-! ### Undisturbed runs -/

/-- No file fails the worker, and it does not die. -/
def Event.Undisturbed : Event ι K → Prop
  | .stat _ fails | .openLock _ fails | .flock _ fails | .openStamp _ fails
  | .writeStamp _ fails | .release _ fails => fails = false
  | .die _ => False
  | _ => True

/-- The worker has a claim, and has not given it up. -/
def Stage.Keeps : Stage K → Prop
  | .granted _ | .claimed _ | .played _ => True
  | _ => False

/-- The worker has had a claim. -/
def Stage.Claims : Stage K → Prop
  | .granted _ | .claimed _ | .played _ | .released => True
  | _ => False

/-- The worker goes on with the lock in hand. -/
def Stage.Locking : Stage K → Prop
  | .locked | .retimed _ | .free | .stamping => True
  | _ => False

/-- The worker has not come out of `_claim_announcement`. -/
def Stage.UnderWay : Stage K → Prop
  | .timed _ | .unannounced | .opened | .locked | .retimed _ | .free | .stamping | .refused
  | .granted _ => True
  | _ => False

/-- Claims are stamped, and since the start. -/
structure Since (start : K) (w : World ι K) : Prop where
  clock : start ≤ w.clock
  stamped : ∀ i, (w.stages i).Keeps → ∃ t, w.stampedAt i = some t ∧ start ≤ t

omit [CommRing K] [IsStrictOrderedRing K] [DecidableEq ι] in
theorem since_fresh (start : K) (stamp : Option K) :
    Since start (fresh start stamp : World ι K) := ⟨le_refl _, fun _ hi => False.elim hi⟩

omit [CommRing K] [IsStrictOrderedRing K] in
/-- Another stage of one worker. -/
theorem Since.goOn {stage : Stage K} (hs : Since start w)
    (hstage : stage.Keeps → ∃ t, stage.stampedAt = some t ∧ start ≤ t) :
    ∀ k, ((w.goOn i stage).stages k).Keeps →
      ∃ t, (w.goOn i stage).stampedAt k = some t ∧ start ≤ t := by
  intro k hk
  by_cases hki : k = i
  · subst hki
    rw [goOn_self] at hk
    rw [World.stampedAt, goOn_self]
    exact hstage hk
  · rw [goOn_other w _ hki] at hk
    rw [World.stampedAt, goOn_other w _ hki]
    exact hs.stamped k hk

omit [IsStrictOrderedRing K] in
theorem Stepped.since (hs : Since start w) (h : Stepped window w e w')
    (horderly : Orderly window w e) (hcalm : e.Undisturbed) : Since start w' := by
  cases h with
  | tick now => exact ⟨le_trans hs.clock horderly, hs.stamped⟩
  | move i h =>
    refine ⟨hs.clock, hs.goOn ?_⟩
    intro hkeeps
    rw [h.stampedAt]
    cases h with
    | timed _ | retimed _ | turned _ _ | passed _ | beaten _ _ | freed _ _ | opened _
    | busy _ _ => exact hkeeps.elim
    | unopened _ | unstamped _ | unwritten _ => exact Bool.noConfusion hcalm
    | played h =>
      refine hs.stamped i ?_
      rw [h]
      trivial
  | close i h =>
    have hs' : Since start (w.unlock i) := ⟨hs.clock, hs.stamped⟩
    refine ⟨hs.clock, hs'.goOn ?_⟩
    intro hkeeps
    rw [h.stampedAt]
    cases h with
    | refused _ => exact hkeeps.elim
    | granted h =>
      refine hs.stamped i ?_
      rw [h]
      trivial
    | died => exact hkeeps.elim
  | locked i h hfree => exact ⟨hs.clock, hs.goOn fun hkeeps => hkeeps.elim⟩
  | stamping i h => exact ⟨hs.clock, hs.goOn fun hkeeps => hkeeps.elim⟩
  | wrote i h => exact ⟨hs.clock, hs.goOn fun _ => ⟨w.clock, rfl, hs.clock⟩⟩
  | released i h | unreleased i h => exact ⟨hs.clock, hs.goOn fun hkeeps => hkeeps.elim⟩

omit [IsStrictOrderedRing K] in
/-- A claim that was made is not unmade. -/
theorem Stepped.claims (h : Stepped window w e w') (hcalm : e.Undisturbed)
    (hclaims : (w.stages i).Claims) : (w'.stages i).Claims := by
  have hgoOn : ∀ k (stage : Stage K), (k = i → stage.Claims) →
      ((w.goOn k stage).stages i).Claims := by
    intro k stage hstage
    by_cases hik : i = k
    · subst hik
      rw [goOn_self]
      exact hstage rfl
    · rw [goOn_other w _ hik]
      exact hclaims
  have hnot : ∀ {k stage}, w.stages k = stage → ¬ stage.Claims → k ≠ i := by
    rintro k stage hk hstage rfl
    exact hstage (hk ▸ hclaims)
  cases h with
  | tick now => exact hclaims
  | move k h =>
    refine hgoOn k _ ?_
    intro hki
    cases h with
    | timed h | retimed h | turned h | passed h | beaten h | freed h | opened h | unopened h
    | busy h | unstamped h | unwritten h => exact absurd hki (hnot h id)
    | played _ => trivial
  | close k h =>
    refine hgoOn k _ ?_
    intro hki
    cases h with
    | refused h => exact absurd hki (hnot h id)
    | granted _ => trivial
    | died => exact hcalm.elim
  | locked k h hfree => exact hgoOn k _ fun hki => absurd hki (hnot h id)
  | stamping k h => exact hgoOn k _ fun hki => absurd hki (hnot h id)
  | wrote k h => exact hgoOn k _ fun _ => trivial
  | released k h | unreleased k h => exact hgoOn k _ fun _ => trivial

/-- Nobody has claimed yet: the stamp is as old as it was, or about to be written, and who was
turned away met somebody who has the lock. -/
structure Unclaimed (window start : K) (w : World ι K) : Prop where
  clock : start ≤ w.clock
  stamp : ∀ m, w.stamp = some m → m + window ≤ start ∨ ∃ h, w.stages h = .stamping
  reads : ∀ i time, w.stages i = .timed time ∨ w.stages i = .retimed time → start ≤ time
  turned : ∀ i, w.stages i = .left ∨ w.stages i = .refused → ∃ h, (w.stages h).Locking
  holder : ∀ h, w.holder = some h → (w.stages h).Locking

omit [DecidableEq ι] in
/-- The stamp that a quiet start found is not recent for any worker. -/
theorem Unclaimed.stale (hu : Unclaimed window start w) {time : K} (htime : start ≤ time)
    {fails : Bool} (hrecent : recentlyAnnounced window time (w.seen fails) = true) :
    ∃ h, w.stages h = .stamping := by
  have hsees : fails = false := by
    rcases fails
    · rfl
    · cases hrecent
  subst hsees
  change recentlyAnnounced window time w.stamp = true at hrecent
  cases hstamp : w.stamp with
  | none =>
    rw [hstamp] at hrecent
    cases hrecent
  | some m =>
    rw [hstamp] at hrecent
    have hlt : time - m < window := of_decide_eq_true hrecent
    refine (hu.stamp m hstamp).resolve_left ?_
    intro hold
    linarith

omit [IsStrictOrderedRing K] in
/-- A worker that is not about to write the stamp moves on without a claim. -/
theorem Unclaimed.goOn {stage : Stage K} (hu : Unclaimed window start w)
    (hstamping : w.stages i ≠ .stamping)
    (hreads : ∀ time, stage = .timed time ∨ stage = .retimed time → start ≤ time)
    (hlocking : (w.stages i).Locking → stage.Locking)
    (hturned : stage = .left ∨ stage = .refused → ∃ h, h ≠ i ∧ (w.stages h).Locking) :
    Unclaimed window start (w.goOn i stage) := by
  have hkept : ∀ h, (w.stages h).Locking → ((w.goOn i stage).stages h).Locking := by
    intro h hh
    by_cases hhi : h = i
    · subst hhi
      rw [goOn_self]
      exact hlocking hh
    · rwa [goOn_other w _ hhi]
  refine ⟨hu.clock, ?_, ?_, ?_, fun h hh => hkept h (hu.holder h hh)⟩
  · intro m hm
    rcases hu.stamp m hm with hold | ⟨h, hh⟩
    · exact Or.inl hold
    · right
      refine ⟨h, ?_⟩
      rw [goOn_other w _ (by rintro rfl; exact hstamping hh), hh]
  · intro k time hk
    by_cases hki : k = i
    · subst hki
      rw [goOn_self] at hk
      exact hreads time hk
    · rw [goOn_other w _ hki] at hk
      exact hu.reads k time hk
  · intro k hk
    by_cases hki : k = i
    · subst hki
      rw [goOn_self] at hk
      obtain ⟨h, hne, hh⟩ := hturned hk
      refine ⟨h, ?_⟩
      rwa [goOn_other w _ hne]
    · rw [goOn_other w _ hki] at hk
      obtain ⟨h, hh⟩ := hu.turned k hk
      exact ⟨h, hkept h hh⟩

/-- **The first claim is made**: while there is none, nobody is turned away for nothing. -/
theorem Stepped.unclaimed (hg : Guarded window w) (hu : Unclaimed window start w)
    (h : Stepped window w e w') (horderly : Orderly window w e) (hcalm : e.Undisturbed) :
    (∃ i, (w'.stages i).Claims) ∨ Unclaimed window start w' := by
  cases h with
  | tick now => exact Or.inr ⟨le_trans hu.clock horderly, hu.stamp, hu.reads, hu.turned, hu.holder⟩
  | move i h =>
    cases h with
    | timed h =>
      refine Or.inr (hu.goOn (by simp [h]) ?_ (by simp [h, Stage.Locking]) (by simp))
      rintro time (hstage | hstage)
      · cases hstage
        exact hu.clock
      · cases hstage
    | retimed h =>
      refine Or.inr (hu.goOn (by simp [h]) ?_ (fun _ => trivial) (by simp))
      rintro time (hstage | hstage)
      · cases hstage
      · cases hstage
        exact hu.clock
    | turned h hrecent =>
      obtain ⟨k, hk⟩ := hu.stale (hu.reads i _ (Or.inl h)) hrecent
      refine Or.inr (hu.goOn (by simp [h]) (by simp) (by simp [h, Stage.Locking]) fun _ => ?_)
      refine ⟨k, ?_, by simp [hk, Stage.Locking]⟩
      rintro rfl
      rw [h] at hk
      cases hk
    | passed h =>
      exact Or.inr (hu.goOn (by simp [h]) (by simp) (by simp [h, Stage.Locking]) (by simp))
    | beaten h hrecent =>
      -- two workers would have the lock
      obtain ⟨k, hk⟩ := hu.stale (hu.reads i _ (Or.inr h)) hrecent
      have hki := hg.knows k
      have hi := hg.knows i
      rw [hk] at hki
      rw [h] at hi
      have hsame : k = i := Option.some.inj (hki.1.symm.trans hi.1)
      rw [hsame, h] at hk
      cases hk
    | freed h _ =>
      exact Or.inr (hu.goOn (by simp [h]) (by simp) (fun _ => trivial) (by simp))
    | opened h =>
      exact Or.inr (hu.goOn (by simp [h]) (by simp) (by simp [h, Stage.Locking]) (by simp))
    | busy h hbusy =>
      have hfails : _ = false := hcalm
      rw [hfails] at hbusy
      obtain ⟨k, hk⟩ := Option.ne_none_iff_exists'.mp (hbusy.resolve_left Bool.false_ne_true)
      have hlocking := hu.holder k hk
      refine Or.inr (hu.goOn (by simp [h]) (by simp) (by simp [h, Stage.Locking]) fun _ => ?_)
      refine ⟨k, ?_, hlocking⟩
      rintro rfl
      rw [h] at hlocking
      exact hlocking
    | unopened _ | unstamped _ | unwritten _ => exact Bool.noConfusion hcalm
    | played h =>
      left
      refine ⟨i, ?_⟩
      rw [goOn_self]
      trivial
  | close i h =>
    cases h with
    | refused h =>
      obtain ⟨k, hk⟩ := hu.turned i (Or.inr h)
      have hne : ∀ {k}, (w.stages k).Locking → k ≠ i := by
        rintro k hk rfl
        rw [h] at hk
        exact hk
      have hunlock : w.unlock i = w := by
        have hholder : ¬ w.holder = some i := fun hi => hne (hu.holder i hi) rfl
        rw [World.unlock, if_neg hholder]
      rw [hunlock]
      refine Or.inr (hu.goOn (by simp [h]) (by simp) (by simp [h, Stage.Locking]) fun _ => ?_)
      exact ⟨k, hne hk, hk⟩
    | granted h =>
      left
      refine ⟨i, ?_⟩
      rw [goOn_self]
      trivial
    | died => exact hcalm.elim
  | locked i h hfree =>
    have hgone : Unclaimed window start (w.goOn i .locked) :=
      hu.goOn (by simp [h]) (by simp) (fun _ => trivial) (by simp)
    refine Or.inr ⟨hgone.clock, hgone.stamp, hgone.reads, hgone.turned, ?_⟩
    intro k hk
    cases Option.some.inj hk
    show ((w.goOn i .locked).stages i).Locking
    rw [goOn_self]
    trivial
  | stamping i h =>
    have hgone : Unclaimed window start (w.goOn i .stamping) :=
      hu.goOn (by simp [h]) (by simp) (fun _ => trivial) (by simp)
    refine Or.inr ⟨hgone.clock, ?_, hgone.reads, hgone.turned, hgone.holder⟩
    intro m _
    exact Or.inr ⟨i, goOn_self ..⟩
  | wrote i h =>
    left
    refine ⟨i, ?_⟩
    show ((w.goOn i (.granted (some w.clock))).stages i).Claims
    rw [goOn_self]
    trivial
  | released i h =>
    left
    refine ⟨i, ?_⟩
    show ((w.goOn i .released).stages i).Claims
    rw [goOn_self]
    trivial
  | unreleased i h =>
    left
    refine ⟨i, ?_⟩
    rw [goOn_self]
    trivial

/-- A start is quiet: the stamp, if there is one, is out of the window. -/
def Quiet (window start : K) (stamp : Option K) : Prop := ∀ m, stamp = some m → m + window ≤ start

omit [IsStrictOrderedRing K] [DecidableEq ι] in
theorem unclaimed_fresh (hquiet : Quiet window start stamp) :
    Unclaimed window start (fresh start stamp : World ι K) := by
  refine ⟨le_refl _, fun m hm => Or.inl (hquiet m hm), ?_, ?_, ?_⟩
  · rintro i time (h | h) <;> cases h
  · rintro i (h | h) <;> cases h
  · intro i h
    cases h

/-- What an undisturbed start comes to. -/
structure Announced (window start : K) (stamp : Option K) (w : World ι K) : Prop where
  once : w.clock < start + window → ∀ i j, (w.stages i).Keeps → (w.stages j).Keeps → i = j
  first : Quiet window start stamp → (∀ i, ¬ (w.stages i).UnderWay) →
    ∀ i, w.stages i = .left → ∃ j, (w.stages j).Claims

/-- **One chime for a start**: claims that are stamped and kept lie a window apart.  Undisturbed,
only one is kept within a window, and in a quiet start nobody is turned away but for another's
claim. -/
theorem announced_once (h : Run (OrderlyStep window) (fresh start stamp) es w) :
    Apart window w ∧ ((∀ e ∈ es, e.Undisturbed) → Announced window start stamp w) := by
  have hg := run_guarded h
  refine ⟨hg.apart, fun hcalm => ?_⟩
  have hrun := h.restrict hcalm
  have hs : Since start w := hrun.invariant (since_fresh start stamp) fun _ _ _ hs hstep =>
    (step_cases hstep.1.1).since hs hstep.1.2 hstep.2
  refine ⟨?_, ?_⟩
  · intro hclock i j hi hj
    by_contra hij
    obtain ⟨s, hs', hstart⟩ := hs.stamped i hi
    obtain ⟨t, ht, hstart'⟩ := hs.stamped j hj
    have hsclock := hg.past i s hs'
    have htclock := hg.past j t ht
    rcases hg.apart i j s t hij hs' ht with hle | hle
    · linarith
    · linarith
  · intro hquiet hover i hleft
    have hinv : Guarded window w ∧ ((∃ i, (w.stages i).Claims) ∨ Unclaimed window start w) := by
      refine hrun.invariant (I := fun w => Guarded window w ∧
        ((∃ i, (w.stages i).Claims) ∨ Unclaimed window start w))
        ⟨guarded_fresh _ _ _, Or.inr (unclaimed_fresh hquiet)⟩ ?_
      rintro v e v' ⟨hg, hv⟩ ⟨⟨hstep, horderly⟩, hcalm⟩
      have hstepped := step_cases hstep
      refine ⟨hstepped.guarded hg horderly, ?_⟩
      rcases hv with ⟨i, hi⟩ | hu
      · exact Or.inl ⟨i, hstepped.claims hcalm hi⟩
      · exact hstepped.unclaimed hg hu horderly hcalm
    refine hinv.2.resolve_right ?_
    intro hu
    obtain ⟨k, hk⟩ := hu.turned i (Or.inl hleft)
    refine hover k ?_
    revert hk
    cases w.stages k with
    | locked | retimed _ | free | stamping => exact fun _ => trivial
    | idle | timed _ | unannounced | opened | refused | granted _ | left | claimed _ | played _
    | released | dead _ => exact False.elim

end claims

/-! ### Two workers -/

/-- The second worker comes to the lock while the first has it. -/
def twoWorkers : List (Event ℕ ℤ) :=
  [.readClock 0, .stat 0 false, .readClock 1, .stat 1 false, .openLock 0 false, .openLock 1 false,
    .flock 0 false, .flock 1 false, .close 1, .readClock 0, .tick 101, .stat 0 false,
    .openStamp 0 false, .writeStamp 0 false, .close 0, .play 0]

theorem announced_once_sample : ∃ w : World ℕ ℤ, w.stages 0 = .played (some 101) ∧
    w.stages 1 = .left ∧ Apart 5 w ∧ Announced 5 100 (some 90) w := by
  have hrun : ∃ w, Run (OrderlyStep 5) (fresh 100 (some 90)) twoWorkers w ∧
      w.stages 0 = .played (some 101) ∧ w.stages 1 = .left :=
    ⟨_, Run.cons ⟨rfl, trivial⟩ <| Run.cons ⟨rfl, trivial⟩ <| Run.cons ⟨rfl, trivial⟩ <|
      Run.cons ⟨rfl, trivial⟩ <| Run.cons ⟨rfl, trivial⟩ <| Run.cons ⟨rfl, trivial⟩ <|
      Run.cons ⟨rfl, trivial⟩ <| Run.cons ⟨rfl, trivial⟩ <| Run.cons ⟨rfl, trivial⟩ <|
      Run.cons ⟨rfl, trivial⟩ <| Run.cons ⟨rfl, show (100 : ℤ) ≤ 101 by decide⟩ <|
      Run.cons ⟨rfl, trivial⟩ <| Run.cons ⟨rfl, trivial⟩ <| Run.cons ⟨rfl, trivial⟩ <|
      Run.cons ⟨rfl, trivial⟩ <| Run.single ⟨rfl, trivial⟩, rfl, rfl⟩
  obtain ⟨w, hrun, hplayed, hleft⟩ := hrun
  obtain ⟨hapart, hannounced⟩ := announced_once hrun
  refine ⟨w, hplayed, hleft, hapart, hannounced ?_⟩
  intro e he
  simp only [twoWorkers, List.mem_cons, List.not_mem_nil, or_false] at he
  rcases he with rfl | rfl | rfl | rfl | rfl | rfl | rfl | rfl | rfl | rfl | rfl | rfl | rfl | rfl |
    rfl | rfl <;> trivial

end Announcement
