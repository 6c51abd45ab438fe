/-
The spool directory: what the two processes share.

A directory is a finite map from names to contents, and a listing of it is its
names in an order the file system chooses (`Lists`).  A listing is one step of
the model, as are `create`, `rename` and `remove`.

* `sealedSegments` is the indexer's view, `nextSpoolSequence` the crawler's;
* `Segments dir segs` says that the readable files of `dir` are the numbered
  segments `segs`, in increasing order;
* `sealedSegments_eq` — every listing of such a directory is sorted into the
  segments' names in that order.
-/
import Mathlib.Data.List.Sort
import MjlSearch.Spool

open Text Spool ByteSource

/-- The files of a directory: contents by name. -/
abbrev Directory := Str → Option (List UInt8)

namespace Directory

/-- `File::create`: an empty file, whatever stood under the name. -/
def create (dir : Directory) (name : Str) : Directory := Function.update dir name (some [])

/-- `fs::remove_file`, on a file that exists. -/
def remove (dir : Directory) (name : Str) : Directory := Function.update dir name none

/-- A file with these contents, replacing whatever stood under the name. -/
def place (dir : Directory) (name : Str) (bytes : List UInt8) : Directory :=
  Function.update dir name (some bytes)

/-- `fs::rename`, on a file that exists; whatever stood under the new name is
replaced. -/
def rename (dir : Directory) (name name' : Str) : Directory :=
  match dir name with
  | none => dir
  | some bytes => (dir.remove name).place name' bytes

/-- What `fs::read_dir` may report: every name once, in any order. -/
def Lists (dir : Directory) (listing : List Str) : Prop :=
  listing.Nodup ∧ ∀ name, name ∈ listing ↔ dir name ≠ none

@[simp] theorem create_self (dir : Directory) (name : Str) : dir.create name name = some [] :=
  Function.update_self ..

theorem create_of_ne (dir : Directory) {name name' : Str} (h : name' ≠ name) :
    dir.create name name' = dir name' :=
  Function.update_of_ne h ..

@[simp] theorem remove_self (dir : Directory) (name : Str) : dir.remove name name = none :=
  Function.update_self ..

theorem remove_of_ne (dir : Directory) {name name' : Str} (h : name' ≠ name) :
    dir.remove name name' = dir name' :=
  Function.update_of_ne h ..

@[simp] theorem place_self (dir : Directory) (name : Str) (bytes : List UInt8) :
    dir.place name bytes name = some bytes :=
  Function.update_self ..

theorem place_of_ne (dir : Directory) {name name' : Str} (bytes : List UInt8)
    (h : name' ≠ name) : dir.place name bytes name' = dir name' :=
  Function.update_of_ne h ..

theorem rename_apply {dir : Directory} {name name' : Str} {bytes : List UInt8}
    (h : dir name = some bytes) (k : Str) :
    dir.rename name name' k
      = if k = name' then some bytes else if k = name then none else dir k := by
  rw [rename, h]
  show Function.update (Function.update dir name none) name' (some bytes) k = _
  rw [Function.update_apply, Function.update_apply]

end Directory

namespace Spool

/-- The key segments are sorted by: their number, or the largest one there is. -/
def segmentKey (name : Str) : ℕ := (parseSegmentSequence name).getD (2 ^ 64 - 1)

/-- Lists the sealed segments in a directory, in crawl order. -/
def sealedSegments (listing : List Str) : List Str :=
  (listing.filter isSealed).insertionSort fun a b => segmentKey a ≤ segmentKey b

/-- The number after every one in use.  `none` is the overflow of the `u64`, on
which the process stops. -/
def nextSpoolSequence (listing : List Str) : Option ℕ :=
  let highest := (listing.filterMap parseSegmentSequence).foldl max 0
  if highest + 1 < 2 ^ 64 then some (highest + 1) else none

/-- Streams a segment's documents, and how the read ended.  Every frame takes at
least its header, so the bound is never what stops the read. -/
def forEachDocument (codec : Codec Document) (bytes : List UInt8) :
    List Document × ReadEnd :=
  readFrames codec (bytes.length + 1) (ofBytes bytes)

/-- The documents of a file, when it is there. -/
def fileDocuments (codec : Codec Document) (dir : Directory) (name : Str) : List Document :=
  match dir name with
  | none => []
  | some bytes => (forEachDocument codec bytes).1

/-- The documents of the sealed segments, in the order they are listed. -/
def spoolDocuments (codec : Codec Document) (dir : Directory) (listing : List Str) :
    List Document :=
  (sealedSegments listing).flatMap (fileDocuments codec dir)

/-- The fold takes the largest. -/
theorem le_foldl_max (l : List ℕ) (m : ℕ) : m ≤ l.foldl max m ∧ ∀ x ∈ l, x ≤ l.foldl max m := by
  induction l generalizing m with
  | nil => simp
  | cons a l ih =>
    obtain ⟨h₁, h₂⟩ := ih (max m a)
    refine ⟨le_trans (le_max_left m a) h₁, fun x hx => ?_⟩
    rcases List.mem_cons.mp hx with rfl | hx
    · exact le_trans (le_max_right m x) h₁
    · exact h₂ x hx

theorem nextSpoolSequence_gt {listing : List Str} {n k : ℕ} {name : Str}
    (h : nextSpoolSequence listing = some n) (hname : name ∈ listing)
    (hk : parseSegmentSequence name = some k) : k < n := by
  simp only [nextSpoolSequence] at h
  split at h
  · have hmem : k ∈ listing.filterMap parseSegmentSequence :=
      List.mem_filterMap.mpr ⟨name, hname, hk⟩
    have := (le_foldl_max _ 0).2 k hmem
    cases h
    omega
  · cases h

theorem nextSpoolSequence_lt {listing : List Str} {n : ℕ}
    (h : nextSpoolSequence listing = some n) : n < 2 ^ 64 := by
  simp only [nextSpoolSequence] at h
  split at h
  · cases h
    assumption
  · cases h

/-! ### A directory of numbered segments -/

/-- The readable files of `dir` are exactly `segs`: number and documents, by
increasing number. -/
structure Segments (codec : Codec Document) (dir : Directory)
    (segs : List (ℕ × List Document)) : Prop where
  sorted : segs.Pairwise fun p q => p.1 < q.1
  bounded : ∀ p ∈ segs, p.1 < 2 ^ 64
  present : ∀ p ∈ segs, ∃ bytes, dir (sealedSegmentName p.1) = some bytes ∧
    (forEachDocument codec bytes).1 = p.2
  complete : ∀ name, isSealed name = true → dir name ≠ none →
    ∃ p ∈ segs, name = sealedSegmentName p.1

variable {codec : Codec Document} {dir : Directory} {segs : List (ℕ × List Document)}

theorem segmentKey_sealed {n : ℕ} (h : n < 2 ^ 64) : segmentKey (sealedSegmentName n) = n := by
  rw [segmentKey, parseSegmentSequence_sealedSegmentName h]
  rfl

/-- The names of the segments, in order. -/
def segmentNames (segs : List (ℕ × List Document)) : List Str :=
  segs.map fun p => sealedSegmentName p.1

theorem segmentNames_pairwise (h : Segments codec dir segs) :
    (segmentNames segs).Pairwise fun a b => segmentKey a < segmentKey b := by
  rw [segmentNames, List.pairwise_map]
  refine List.Pairwise.imp_of_mem ?_ h.sorted
  intro p q hp hq hpq
  rw [segmentKey_sealed (h.bounded p hp), segmentKey_sealed (h.bounded q hq)]
  exact hpq

theorem segmentNames_nodup (h : Segments codec dir segs) : (segmentNames segs).Nodup :=
  (segmentNames_pairwise h).imp fun hlt heq => absurd hlt (by rw [heq]; exact lt_irrefl _)

theorem segmentNames_perm (h : Segments codec dir segs) {listing : List Str}
    (hl : dir.Lists listing) : (listing.filter isSealed).Perm (segmentNames segs) := by
  rw [List.perm_ext_iff_of_nodup (hl.1.filter _) (segmentNames_nodup h)]
  intro name
  rw [List.mem_filter, hl.2, segmentNames, List.mem_map]
  constructor
  · rintro ⟨hname, hsealed⟩
    obtain ⟨p, hp, rfl⟩ := h.complete name hsealed hname
    exact ⟨p, hp, rfl⟩
  · rintro ⟨p, hp, rfl⟩
    obtain ⟨bytes, hbytes, _⟩ := h.present p hp
    exact ⟨by rw [hbytes]; simp, isSealed_sealedSegmentName p.1⟩

/-- The names of the segments in the order of their keys, in whichever way they were sorted. -/
theorem eq_segmentNames (h : Segments codec dir segs) {names : List Str}
    (hperm : names.Perm (segmentNames segs))
    (hsorted : names.Pairwise fun a b => segmentKey a ≤ segmentKey b) :
    names = segmentNames segs := by
  refine hperm.eq_of_pairwise ?_ hsorted ((segmentNames_pairwise h).imp le_of_lt)
  -- two names of segments with one key are one name
  intro a b ha hb hab hba
  have ha' : a ∈ segmentNames segs := hperm.mem_iff.mp ha
  obtain ⟨p, hp, rfl⟩ := List.mem_map.mp ha'
  obtain ⟨q, hq, rfl⟩ := List.mem_map.mp hb
  have hkey := le_antisymm hab hba
  rw [segmentKey_sealed (h.bounded p hp), segmentKey_sealed (h.bounded q hq)] at hkey
  rw [hkey]

theorem sealedSegments_pairwise (listing : List Str) :
    (sealedSegments listing).Pairwise fun a b => segmentKey a ≤ segmentKey b := by
  have : Std.Total fun a b : Str => segmentKey a ≤ segmentKey b :=
    ⟨fun a b => le_total (segmentKey a) (segmentKey b)⟩
  have : IsTrans Str fun a b => segmentKey a ≤ segmentKey b := ⟨fun _ _ _ => le_trans⟩
  exact List.pairwise_insertionSort _ _

/-- **Every listing is sorted into the segments' order.** -/
theorem sealedSegments_eq (h : Segments codec dir segs) {listing : List Str}
    (hl : dir.Lists listing) : sealedSegments listing = segmentNames segs :=
  eq_segmentNames h ((List.perm_insertionSort _ _).trans (segmentNames_perm h hl))
    (sealedSegments_pairwise listing)

/-- Only the names a reader looks at matter. -/
theorem Segments.of_agree {dir' : Directory} (h : Segments codec dir segs)
    (hagree : ∀ name, isSealed name = true → dir' name = dir name) :
    Segments codec dir' segs where
  sorted := h.sorted
  bounded := h.bounded
  present p hp := by
    rw [hagree _ (isSealed_sealedSegmentName p.1)]
    exact h.present p hp
  complete name hname hdir := by
    rw [hagree _ hname] at hdir
    exact h.complete name hname hdir

/-- A new segment with the largest number so far. -/
theorem Segments.snoc {dir' : Directory} {n : ℕ} {documents : List Document}
    {bytes : List UInt8} (h : Segments codec dir segs) (hn : n < 2 ^ 64)
    (hbelow : ∀ p ∈ segs, p.1 < n) (hdocs : (forEachDocument codec bytes).1 = documents)
    (hnew : dir' (sealedSegmentName n) = some bytes)
    (hagree : ∀ name, isSealed name = true → name ≠ sealedSegmentName n →
      dir' name = dir name) :
    Segments codec dir' (segs ++ [(n, documents)]) where
  sorted := by
    rw [List.pairwise_append]
    refine ⟨h.sorted, List.pairwise_singleton _ _, fun p hp q hq => ?_⟩
    rw [List.mem_singleton] at hq
    rw [hq]
    exact hbelow p hp
  bounded p hp := by
    rcases List.mem_append.mp hp with hp | hp
    · exact h.bounded p hp
    · rw [List.mem_singleton.mp hp]
      exact hn
  present p hp := by
    rcases List.mem_append.mp hp with hp | hp
    · have hne : sealedSegmentName p.1 ≠ sealedSegmentName n := by
        intro heq
        have := sealedSegmentName_injective (h.bounded p hp) hn heq
        exact absurd (hbelow p hp) (by omega)
      rw [hagree _ (isSealed_sealedSegmentName p.1) hne]
      exact h.present p hp
    · rw [List.mem_singleton.mp hp]
      exact ⟨bytes, hnew, hdocs⟩
  complete name hname hdir := by
    by_cases hn : name = sealedSegmentName n
    · exact ⟨(n, documents), by simp, hn⟩
    · rw [hagree _ hname hn] at hdir
      obtain ⟨p, hp, heq⟩ := h.complete name hname hdir
      exact ⟨p, List.mem_append_left _ hp, heq⟩

/-- The first segment is removed. -/
theorem Segments.tail {seg : ℕ × List Document} (h : Segments codec dir (seg :: segs)) :
    Segments codec (dir.remove (sealedSegmentName seg.1)) segs where
  sorted := (List.pairwise_cons.mp h.sorted).2
  bounded p hp := h.bounded p (List.mem_cons_of_mem _ hp)
  present p hp := by
    have hlt : seg.1 < p.1 := (List.pairwise_cons.mp h.sorted).1 p hp
    have hne : sealedSegmentName p.1 ≠ sealedSegmentName seg.1 := by
      intro heq
      have := sealedSegmentName_injective (h.bounded p (List.mem_cons_of_mem _ hp))
        (h.bounded seg List.mem_cons_self) heq
      omega
    rw [Directory.remove_of_ne dir hne]
    exact h.present p (List.mem_cons_of_mem _ hp)
  complete name hname hdir := by
    have hne : name ≠ sealedSegmentName seg.1 := by
      rintro rfl
      exact hdir (Directory.remove_self dir _)
    rw [Directory.remove_of_ne dir hne] at hdir
    obtain ⟨p, hp, heq⟩ := h.complete name hname hdir
    rcases List.mem_cons.mp hp with rfl | hp
    · exact absurd heq hne
    · exact ⟨p, hp, heq⟩

theorem fileDocuments_segment (h : Segments codec dir segs) {p : ℕ × List Document}
    (hp : p ∈ segs) : fileDocuments codec dir (sealedSegmentName p.1) = p.2 := by
  obtain ⟨bytes, hbytes, hdocs⟩ := h.present p hp
  rw [fileDocuments, hbytes]
  exact hdocs

/-- The documents of the spool are the segments' documents, in order. -/
theorem spoolDocuments_eq (h : Segments codec dir segs) {listing : List Str}
    (hl : dir.Lists listing) :
    spoolDocuments codec dir listing = segs.flatMap Prod.snd := by
  rw [spoolDocuments, sealedSegments_eq h hl, segmentNames, List.flatMap_map]
  exact List.flatMap_congr fun p hp => fileDocuments_segment h hp

end Spool
