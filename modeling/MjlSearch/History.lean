/-
The growth timeline (`indexer::history`): how much was indexed, and when.

The file is JSON, which enters as a codec; a file that is missing or does not decode is an
empty timeline.

* `add_spec` — what an addition does to the sum of the buckets and to their number;
* `load_record` — what is recorded is what is loaded;
* `Within` — the buckets sum to no more than the total, and the total to no more than a
  count; `Within.add`, `within_default`.
-/
import Mathlib.Algebra.BigOperators.Group.List.Basic
import MjlSearch.Machine
import MjlSearch.Spool

open Text Machine

/-- Documents that became searchable during one minute. -/
structure Bucket where
  at_ : ℤ
  documents : ℕ
  deriving DecidableEq, Repr

/-- The index's growth timeline, its buckets oldest first. -/
structure IndexHistory where
  updatedAt : ℤ
  totalDocuments : ℕ
  buckets : List Bucket
  deriving DecidableEq, Repr

instance : Inhabited IndexHistory := ⟨{ updatedAt := 0, totalDocuments := 0, buckets := [] }⟩

namespace IndexHistory

/-- Buckets kept. -/
def retention : ℕ := 180

/-- Seconds in the bucket width. -/
def bucketSeconds : ℤ := 60

/-- Puts documents into the bucket of a minute, which is the last one or a new one. -/
def merge (minute : ℤ) (documents : ℕ) (buckets : List Bucket) : List Bucket :=
  match buckets.getLast? with
  | some last =>
    if last.at_ = minute then
      buckets.dropLast ++ [{ last with documents := last.documents + documents }]
    else buckets ++ [{ at_ := minute, documents }]
  | none => [{ at_ := minute, documents }]

/-- Keeps the newest buckets. -/
def trim (buckets : List Bucket) : List Bucket := buckets.drop (buckets.length - retention)

/-- Adds net `documents` to the bucket containing `now`. -/
def add (history : IndexHistory) (now : ℤ) (documents totalDocuments : ℕ) : IndexHistory :=
  { updatedAt := now
    totalDocuments
    buckets := trim (merge (now - now % bucketSeconds) documents history.buckets) }

/-- The documents in all buckets. -/
def counted (history : IndexHistory) : ℕ := (history.buckets.map Bucket.documents).sum

/-! ### The file -/

/-- A file's content, when it is there. -/
abbrev File := Option (List UInt8)

/-- Reads the timeline. -/
def load (json : Codec IndexHistory) (file : File) : IndexHistory :=
  (file.bind json.decode).getD default

/-- Records a commit: the file as it is left when every call succeeds. -/
def record (json : Codec IndexHistory) (file : File) (now : ℤ) (documents totalDocuments : ℕ) :
    File :=
  let history := (load json file).add now documents totalDocuments
  some ((json.encode history).getD (utf8 "\x7b\x7d".toList))

/-- The numbers are those of the source's types. -/
structure Fits (history : IndexHistory) : Prop where
  updatedAt : IsI64 history.updatedAt
  total : history.totalDocuments < 2 ^ 64
  minutes : ∀ bucket ∈ history.buckets, IsI64 bucket.at_
  documents : ∀ bucket ∈ history.buckets, bucket.documents < 2 ^ 64

theorem fits_default : Fits default where
  updatedAt := by decide
  total := Nat.two_pow_pos 64
  minutes bucket hbucket := absurd hbucket List.not_mem_nil
  documents bucket hbucket := absurd hbucket List.not_mem_nil

/-- **What is recorded is what is loaded**, if it can be written. -/
theorem load_record {json : Codec IndexHistory} {file : File} {now : ℤ}
    {documents totalDocuments : ℕ}
    (h : json.encode ((load json file).add now documents totalDocuments) ≠ none) :
    load json (record json file now documents totalDocuments)
      = (load json file).add now documents totalDocuments := by
  obtain ⟨bytes, hbytes⟩ := Option.ne_none_iff_exists'.mp h
  rw [record, hbytes, Option.getD_some, load, Option.bind_some, json.decode_encode hbytes,
    Option.getD_some]

/-! ### What an addition does -/

theorem merge_sum (minute : ℤ) (documents : ℕ) (buckets : List Bucket) :
    ((merge minute documents buckets).map Bucket.documents).sum
      = (buckets.map Bucket.documents).sum + documents := by
  rw [merge]
  rcases List.eq_nil_or_concat buckets with rfl | ⟨front, last, rfl⟩
  · simp
  · rw [List.concat_eq_append, List.getLast?_concat]
    dsimp only
    split
    · simp [Nat.add_assoc]
    · simp [Nat.add_assoc]

theorem trim_length (buckets : List Bucket) : (trim buckets).length ≤ retention := by
  rw [trim, List.length_drop]
  omega

theorem trim_sum (buckets : List Bucket) :
    ((trim buckets).map Bucket.documents).sum ≤ (buckets.map Bucket.documents).sum := by
  rw [trim, List.map_drop]
  have hsplit := List.sum_take_add_sum_drop (buckets.map Bucket.documents)
    (buckets.length - retention)
  omega

/-- **What an addition does**: the buckets gain at most the documents, the total is the one
given, and there are no more buckets than are kept. -/
theorem add_spec (history : IndexHistory) (now : ℤ) (documents totalDocuments : ℕ) :
    (history.add now documents totalDocuments).counted ≤ history.counted + documents ∧
      (history.add now documents totalDocuments).totalDocuments = totalDocuments ∧
      (history.add now documents totalDocuments).buckets.length ≤ retention := by
  simp only [add, counted]
  refine ⟨?_, trivial, trim_length _⟩
  calc ((trim (merge (now - now % bucketSeconds) documents history.buckets)).map
        Bucket.documents).sum
      ≤ ((merge (now - now % bucketSeconds) documents history.buckets).map
          Bucket.documents).sum := trim_sum _
    _ = (history.buckets.map Bucket.documents).sum + documents := merge_sum _ _ _

/-- A timeline claims no more than `count` documents. -/
structure Within (count : ℕ) (history : IndexHistory) : Prop where
  counted : history.counted ≤ history.totalDocuments
  total : history.totalDocuments ≤ count
  length : history.buckets.length ≤ retention

theorem within_default (count : ℕ) : Within count default :=
  ⟨Nat.le_refl _, Nat.zero_le _, Nat.zero_le _⟩

theorem Within.mono {count count' : ℕ} {history : IndexHistory} (h : Within count history)
    (hle : count ≤ count') : Within count' history :=
  ⟨h.counted, h.total.trans hle, h.length⟩

/-- **An addition stays within the count** that it is told, if the gain is no more than what
the timeline leaves of it. -/
theorem Within.add {count gained : ℕ} {history : IndexHistory} (now : ℤ)
    (h : history.counted + gained ≤ count) : Within count (history.add now gained count) := by
  obtain ⟨hcounted, htotal, hlength⟩ := add_spec history now gained count
  refine ⟨?_, ?_, hlength⟩
  · rw [htotal]
    omega
  · rw [htotal]

end IndexHistory
