/-
Index writes (`search_core::index_writer`).

The committed index is a list of rows, and a writer queues operations that the
next commit applies in order.  Re-adding a URL deletes its row first, so a commit
is a table upsert (`table_commit`) and no URL ever has two rows
(`keys_nodup_commit`).
-/
import Mathlib.Data.Rat.Init
import MjlSearch.LastWriter
import MjlSearch.Spool

open Text LastWriter

namespace IndexWriter

/-- The two link-graph scores a document carries into the index. -/
structure DocScores where
  authority : ℚ
  hostAuthority : ℚ
  deriving DecidableEq

instance : Inhabited DocScores := ⟨{ authority := 0, hostAuthority := 0 }⟩

/-- One row of the index. -/
structure Row where
  url : Str
  title : Str
  body : Str
  fetchedAt : ℤ
  authority : ℚ
  hostAuthority : ℚ
  deriving DecidableEq

/-- What waits for the next commit. -/
inductive Operation
  | deleteTerm (url : Str)
  | addDocument (row : Row)
  deriving DecidableEq

/-- The indexer's handle on the index: the queued operations, and how many
documents they add. -/
structure DocWriter where
  queue : List Operation
  pending : ℕ

/-- `DocWriter::open`: nothing is queued yet. -/
def DocWriter.open : DocWriter := { queue := [], pending := 0 }

/-- The row a document is stored as. -/
def rowOf (document : Document) (scores : DocScores) : Row :=
  { url := document.url, title := document.title, body := document.body,
    fetchedAt := document.fetchedAt, authority := scores.authority,
    hostAuthority := scores.hostAuthority }

/-- Adds a document, replacing any existing document with the same URL. -/
def DocWriter.addOrUpdate (writer : DocWriter) (document : Document) (scores : DocScores) :
    DocWriter :=
  { queue := writer.queue ++ [.deleteTerm document.url, .addDocument (rowOf document scores)]
    pending := writer.pending + 1 }

/-- Applies one queued operation. -/
def apply (rows : List Row) : Operation → List Row
  | .deleteTerm url => rows.filter fun row => !decide (row.url = url)
  | .addDocument row => rows ++ [row]

/-- Flushes everything added so far: the writer after it, and the rows. -/
def DocWriter.commit (writer : DocWriter) (rows : List Row) : DocWriter × List Row :=
  ({ queue := [], pending := 0 }, writer.queue.foldl apply rows)

/-- Documents visible to a fresh reader. -/
def docCount (rows : List Row) : ℕ := rows.length

/-! ### The index as a table -/

/-- What the index keeps of a page, scores apart. -/
structure Page where
  title : Str
  body : Str
  fetchedAt : ℤ
  deriving DecidableEq, Repr

def Row.entry (row : Row) : Str × Page :=
  (row.url, { title := row.title, body := row.body, fetchedAt := row.fetchedAt })

/-- A document as a table entry. -/
def entry (document : Document) : Str × Page :=
  (document.url,
    { title := document.title, body := document.body, fetchedAt := document.fetchedAt })

/-- Documents as a log of table entries. -/
def entries (documents : List Document) : List (Str × Page) := documents.map entry

/-- The pages of the index by URL. -/
def table (rows : List Row) : Table Str Page := view (rows.map Row.entry)

/-- No page at all. -/
def noPages : Table Str Page := fun _ => none

@[simp] theorem entries_nil : entries [] = [] := rfl

theorem entries_append (l l' : List Document) : entries (l ++ l') = entries l ++ entries l' :=
  List.map_append

theorem map_fst_entries (l : List Document) : (entries l).map Prod.fst = l.map Document.url := by
  rw [entries, List.map_map]
  rfl

@[simp] theorem table_nil : table [] = noPages := rfl

theorem map_fst_entry (rows : List Row) :
    (rows.map Row.entry).map Prod.fst = rows.map Row.url := by
  rw [List.map_map]
  rfl

/-- The two operations of one document replace its row. -/
theorem entry_replace (rows : List Row) (document : Document) (scores : DocScores) :
    (apply (apply rows (.deleteTerm document.url)) (.addDocument (rowOf document scores))).map
      Row.entry = replaceRow (rows.map Row.entry) (entry document) := by
  rw [apply, apply, List.map_append, replaceRow, deleteRows, List.filter_map]
  rfl

/-- The queue holds the operations of these documents, in order. -/
def Queued (writer : DocWriter) (documents : List Document) : Prop :=
  ∃ scored : List (Document × DocScores), scored.map Prod.fst = documents ∧
    writer.queue = scored.flatMap fun p => [.deleteTerm p.1.url, .addDocument (rowOf p.1 p.2)]

theorem queued_open : Queued DocWriter.open [] := ⟨[], rfl, rfl⟩

theorem queued_commit (writer : DocWriter) (rows : List Row) :
    Queued (writer.commit rows).1 [] :=
  ⟨[], rfl, rfl⟩

theorem Queued.addOrUpdate {writer : DocWriter} {documents : List Document}
    (h : Queued writer documents) (document : Document) (scores : DocScores) :
    Queued (writer.addOrUpdate document scores) (documents ++ [document]) := by
  obtain ⟨scored, rfl, hqueue⟩ := h
  refine ⟨scored ++ [(document, scores)], ?_, ?_⟩
  · rw [List.map_append]
    rfl
  · rw [List.flatMap_append, ← hqueue]
    rfl

/-- Applying the operations of some documents replaces their rows one by one. -/
theorem entry_foldl (rows : List Row) (scored : List (Document × DocScores)) :
    ((scored.flatMap fun p => [Operation.deleteTerm p.1.url, .addDocument (rowOf p.1 p.2)]).foldl
      apply rows).map Row.entry
      = (entries (scored.map Prod.fst)).foldl replaceRow (rows.map Row.entry) := by
  induction scored generalizing rows with
  | nil => rfl
  | cons p scored ih =>
    rw [List.flatMap_cons, List.foldl_append, ih]
    show _ = (entries (scored.map Prod.fst)).foldl replaceRow
      (replaceRow (rows.map Row.entry) (entry p.1))
    rw [← entry_replace rows p.1 p.2]
    rfl

/-- **A commit upserts the queued documents.** -/
theorem table_commit {writer : DocWriter} {documents : List Document}
    (h : Queued writer documents) (rows : List Row) :
    table (writer.commit rows).2 = upsertAll (table rows) (entries documents) := by
  obtain ⟨scored, rfl, hqueue⟩ := h
  have hview : ∀ (l : List (Str × Page)) (m : List (Str × Page)),
      view (l.foldl replaceRow m) = upsertAll (view m) l := by
    intro l
    induction l with
    | nil => exact fun _ => rfl
    | cons e l ih =>
      intro m
      rw [List.foldl_cons, ih, view_replaceRow]
      rfl
  rw [DocWriter.commit, hqueue, table, entry_foldl, hview]
  rfl

/-- **No URL has two rows**, whatever is committed. -/
theorem keys_nodup_commit {writer : DocWriter} {documents : List Document}
    (h : Queued writer documents) {rows : List Row} (hrows : (rows.map Row.url).Nodup) :
    ((writer.commit rows).2.map Row.url).Nodup := by
  obtain ⟨scored, rfl, hqueue⟩ := h
  have hfold : ∀ (l m : List (Str × Page)), (m.map Prod.fst).Nodup →
      ((l.foldl replaceRow m).map Prod.fst).Nodup := by
    intro l
    induction l with
    | nil => exact fun _ hm => hm
    | cons e l ih =>
      intro m hm
      exact ih _ (keys_nodup_replaceRow hm e)
  rw [DocWriter.commit, hqueue, ← map_fst_entry, entry_foldl]
  exact hfold _ _ (by rwa [map_fst_entry])

/-- **No commit leaves fewer documents**: they are only added or replaced. -/
theorem docCount_le_commit {writer : DocWriter} {documents : List Document}
    (h : Queued writer documents) {rows : List Row} (hrows : (rows.map Row.url).Nodup) :
    docCount rows ≤ docCount (writer.commit rows).2 := by
  obtain ⟨scored, rfl, hqueue⟩ := h
  have hfold : ∀ (l m : List (Str × Page)), (m.map Prod.fst).Nodup →
      m.length ≤ (l.foldl replaceRow m).length := by
    intro l
    induction l with
    | nil => exact fun _ _ => Nat.le_refl _
    | cons e l ih =>
      intro m hm
      exact (length_le_replaceRow hm e).trans (ih _ (keys_nodup_replaceRow hm e))
  have hlength : ∀ rows : List Row, docCount rows = (rows.map Row.entry).length :=
    fun rows => (List.length_map Row.entry).symm
  rw [hlength, hlength, DocWriter.commit, hqueue, entry_foldl]
  exact hfold _ _ (by rwa [map_fst_entry])

end IndexWriter
