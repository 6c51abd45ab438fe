/-
The crawler's database (`crawler::db`) and its errors.

A column family is an ordered map from byte strings to byte strings, and a batch
of writes is applied as a whole.  Every call of the database can fail; which
calls do is given by a `Faults`, so that a theorem about every `Faults` is a
theorem about every place a failure can strike.
-/
import MjlSearch.Bytes
import MjlSearch.OrderedStore
import MjlSearch.Spool

open Text Bytes

/-- Column families of the database. -/
inductive ColumnFamily
  | frontierPending
  | frontierHosts
  | robots
  | metadata
  deriving DecidableEq, Repr

/-- Errors raised by the crawler. -/
inductive CrawlError
  | http (message : Str)
  | backend
  | io
  | spool (e : Spool.SpoolError)
  | invalidUrl (url reason : Str)
  | unsupportedContent (contentType : Str)
  /-- A host's robots.txt says this URL may not be fetched. -/
  | disallowedByRobots
  | parse (message : Str)
  | bodyTooLarge (limit : ℕ)
  /-- The server answered, but not with success. -/
  | httpStatus (status : ℕ)
  | missingColumnFamily (name : ColumnFamily)
  | cacheDecode
  | cacheEncode
  | notImplemented (what : Str)
  /-- No error of the source: arithmetic overflow, on which the process stops. -/
  | overflow
  deriving DecidableEq, Repr

/-- A URL waiting to be fetched, as stored in the frontier. -/
structure CrawlJob where
  url : Str
  depth : ℕ
  deriving DecidableEq, Repr

abbrev Key := List UInt8

abbrev Value := List UInt8

/-- The crawler's database, one map for each column family. -/
structure CrawlDb where
  pending : Store Key Value
  hosts : Store Key Value
  robots : Store Key Value
  counters : Store Key Value

/-- Which calls of the database fail.  Calls in a loop are told apart by the
turn of the loop they are made in. -/
structure Faults where
  missing : ColumnFamily → Bool
  iterate : ℕ → Bool
  read : ℕ → Bool
  write : ℕ → Bool

namespace CrawlDb

/-- A database in which nothing was ever written. -/
def empty : CrawlDb :=
  { pending := Store.empty, hosts := Store.empty, robots := Store.empty,
    counters := Store.empty }

/-- No call fails. -/
def noFaults : Faults :=
  { missing := fun _ => false, iterate := fun _ => false, read := fun _ => false,
    write := fun _ => false }

/-- Key of the frontier sequence counter. -/
def metaFrontierSeq : Key := utf8 "frontier_seq".toList

/-- Key of the exact count of queued URLs. -/
def metaPendingCount : Key := utf8 "pending_count".toList

/-- Key of the exact count of known hosts. -/
def metaHostCount : Key := utf8 "host_count".toList

/-- Reads a big-endian `u64` counter, defaulting to zero. -/
def readCounter (db : CrawlDb) (key : Key) : ℕ :=
  match db.counters.get key with
  | none => 0
  | some bytes => if bytes.length = 8 then fromBeBytes bytes else 0

/-- Persists a counter. -/
def writeCounter (db : CrawlDb) (key : Key) (value : ℕ) : CrawlDb :=
  { db with counters := db.counters.put key (toBeBytes 8 value) }

/-- A counter is read back as it was written. -/
theorem readCounter_writeCounter (db : CrawlDb) (key : Key) {value : ℕ}
    (h : value < 2 ^ 64) : (db.writeCounter key value).readCounter key = value := by
  rw [readCounter, writeCounter, Store.get_put_self]
  simp only [toBeBytes_length, if_true]
  exact fromBeBytes_toBeBytes (by omega)

/-- Writing one counter leaves the others alone. -/
theorem readCounter_writeCounter_of_ne (db : CrawlDb) {key key' : Key} (value : ℕ)
    (h : key' ≠ key) : (db.writeCounter key value).readCounter key' = db.readCounter key' := by
  rw [readCounter, readCounter, writeCounter, Store.get_put_of_ne _ _ h]

theorem metaFrontierSeq_ne_pending : metaFrontierSeq ≠ metaPendingCount := by decide

theorem metaFrontierSeq_ne_host : metaFrontierSeq ≠ metaHostCount := by decide

end CrawlDb
