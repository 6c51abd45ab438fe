/-
The timeline's file in JSON.

`serde_json` is no part of the source.  What the reader of the file relies on is the text that
it writes, `WritesCompact`; a codec that does so is `historyJson`.

* `readTimeline_timelineValue` — the fields are read back;
* `historyJson_writesCompact` — the codec writes the text that is relied on.
-/
import MjlSearch.History
import MjlSearch.JsonText

open Text Machine

namespace IndexHistory

def bucketValue (bucket : Bucket) : JsonText.Value :=
  .dict [("at".toList, .int bucket.at_), ("documents".toList, .int bucket.documents)]

/-- What `serde` makes of a timeline: its fields in their order. -/
def timelineValue (history : IndexHistory) : JsonText.Value :=
  .dict [("updated_at".toList, .int history.updatedAt),
    ("total_documents".toList, .int history.totalDocuments),
    ("buckets".toList, .list (history.buckets.map bucketValue))]

theorem isWhole_timelineValue (history : IndexHistory) : (timelineValue history).IsWhole := by
  have hbuckets : ∀ buckets : List Bucket, JsonText.AllWhole (buckets.map bucketValue) := by
    intro buckets
    induction buckets with
    | nil => trivial
    | cons bucket buckets ih => exact ⟨⟨trivial, trivial, trivial⟩, ih⟩
  exact ⟨trivial, trivial, hbuckets _, trivial⟩

/-- `serde_json::to_string`, of the timelines of the source's types: no spaces are written. -/
def WritesCompact (json : Codec IndexHistory) : Prop :=
  ∀ history : IndexHistory, history.Fits →
    json.encode history = some (utf8 (JsonText.write (timelineValue history)))

/-! ### A codec -/

/-- A field of an object, which may not stand there twice. -/
def readField {α : Type} (items : List (Str × JsonText.Value)) (name : Str) (missing : Option α)
    (read : JsonText.Value → Option α) : Option α :=
  match items.filter fun item => item.1 = name with
  | [] => missing
  | [item] => read item.2
  -- serde takes the second one for an error
  | _ => none

def readI64 : JsonText.Value → Option ℤ
  | .int z => if IsI64 z then some z else none
  | _ => none

def readU64 : JsonText.Value → Option ℕ
  | .int z => if 0 ≤ z ∧ z < 2 ^ 64 then some z.toNat else none
  | _ => none

def readBucket : JsonText.Value → Option Bucket
  | .dict items => do
    let at_ ← readField items "at".toList none readI64
    let documents ← readField items "documents".toList none readU64
    pure { at_, documents }
  | _ => none

def readBuckets : JsonText.Value → Option (List Bucket)
  | .list values => values.mapM readBucket
  | _ => none

/-- Reads an object, whose fields may all be missing. -/
def readTimeline : JsonText.Value → Option IndexHistory
  | .dict items => do
    let updatedAt ← readField items "updated_at".toList (some 0) readI64
    let totalDocuments ← readField items "total_documents".toList (some 0) readU64
    let buckets ← readField items "buckets".toList (some []) readBuckets
    pure { updatedAt, totalDocuments, buckets }
  | _ => none

theorem readI64_int {z : ℤ} (h : IsI64 z) : readI64 (.int z) = some z := if_pos h

theorem readU64_int {n : ℕ} (h : n < 2 ^ 64) : readU64 (.int n) = some n := by
  rw [readU64, if_pos ⟨Int.natCast_nonneg n, by omega⟩, Int.toNat_natCast]

theorem readBuckets_map {buckets : List Bucket} (hminutes : ∀ bucket ∈ buckets, IsI64 bucket.at_)
    (hdocuments : ∀ bucket ∈ buckets, bucket.documents < 2 ^ 64) :
    readBuckets (.list (buckets.map bucketValue)) = some buckets := by
  rw [readBuckets]
  induction buckets with
  | nil => rfl
  | cons bucket buckets ih =>
    have hbucket : readBucket (bucketValue bucket) = some bucket := by
      show ((readI64 (.int bucket.at_)).bind fun at_ =>
        (readU64 (.int bucket.documents)).bind fun documents => some (Bucket.mk at_ documents)) = _
      rw [readI64_int (hminutes bucket List.mem_cons_self),
        readU64_int (hdocuments bucket List.mem_cons_self)]
      rfl
    rw [List.map_cons, List.mapM_cons, hbucket,
      ih (fun b hb => hminutes b (List.mem_cons_of_mem _ hb))
        fun b hb => hdocuments b (List.mem_cons_of_mem _ hb)]
    rfl

/-- **The fields are read back.** -/
theorem readTimeline_timelineValue {history : IndexHistory} (h : history.Fits) :
    readTimeline (timelineValue history) = some history := by
  show ((readI64 (.int history.updatedAt)).bind fun updatedAt =>
    (readU64 (.int history.totalDocuments)).bind fun totalDocuments =>
      (readBuckets (.list (history.buckets.map bucketValue))).bind fun buckets =>
        some (IndexHistory.mk updatedAt totalDocuments buckets)) = _
  rw [readI64_int h.updatedAt, readU64_int h.total, readBuckets_map h.minutes h.documents]
  rfl

theorem fits_iff (history : IndexHistory) : history.Fits ↔
    IsI64 history.updatedAt ∧ history.totalDocuments < 2 ^ 64 ∧
      ∀ bucket ∈ history.buckets, IsI64 bucket.at_ ∧ bucket.documents < 2 ^ 64 :=
  ⟨fun h => ⟨h.updatedAt, h.total, fun b hb => ⟨h.minutes b hb, h.documents b hb⟩⟩,
    fun h => ⟨h.1, h.2.1, fun b hb => (h.2.2 b hb).1, fun b hb => (h.2.2 b hb).2⟩⟩

instance : DecidablePred Fits := fun history => decidable_of_iff _ (fits_iff history).symm

/-- Timelines as compact JSON; spaces and fields of other names are read over. -/
def historyJson : Codec IndexHistory where
  encode history :=
    if history.Fits then some (utf8 (JsonText.write (timelineValue history))) else none
  decode bs := (fromUtf8 bs).bind fun text => (JsonText.loads [] text).bind readTimeline
  decode_encode {history bs} h := by
    obtain ⟨hfits, hbs⟩ := Option.ite_none_right_eq_some.mp h
    obtain rfl := Option.some.inj hbs
    rw [fromUtf8_utf8, Option.bind_some, JsonText.loads_write _ _ (isWhole_timelineValue history),
      Option.bind_some, readTimeline_timelineValue hfits]

theorem historyJson_writesCompact : WritesCompact historyJson := fun _ hfits => if_pos hfits

/-- An empty object is an empty timeline. -/
theorem historyJson_empty : historyJson.decode (utf8 "\x7b\x7d".toList) = some default := by
  show ((fromUtf8 (utf8 "\x7b\x7d".toList)).bind fun text =>
    (JsonText.loads [] text).bind readTimeline) = _
  rw [fromUtf8_utf8]
  rfl

end IndexHistory
