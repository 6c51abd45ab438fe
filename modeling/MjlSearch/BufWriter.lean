/-
A buffered writer over a file whose writes can fail (`std::io::BufWriter`).

A write that fails has taken a part of what it was given; how much is decided outside, by
a `Fault`.  `contents` is what the writer was handed so far, in the file or in the buffer.

* `writeAll_ok` — a write that succeeds adds all it is given;
* `writeAll_failed` — one that fails adds nothing, unless it went past the buffer;
* `flushBuf_contents` — flushing moves contents to the file, also when it fails.
-/
import Mathlib.Data.List.Basic

/-- A fault of a file: none, or the next write fails after it has taken this many items. -/
abbrev Fault := Option ℕ

/-- A writer with a buffer in front of its file. -/
structure BufWriter (β : Type) where
  file : List β
  buffer : List β

namespace BufWriter

variable {β : Type}

/-- How many of the items a file takes; all of them, unless there is a fault before. -/
def taken (fault : Fault) (items : List β) : ℕ := min (fault.getD items.length) items.length

/-- `File::write_all`: whether it took all, and the file. -/
def writeFile (fault : Fault) (file items : List β) : Bool × List β :=
  (taken fault items = items.length, file ++ items.take (taken fault items))

/-- A writer on an empty file. -/
def new : BufWriter β := { file := [], buffer := [] }

/-- `flush_buf`: what the file has taken leaves the buffer. -/
def flushBuf (fault : Fault) (w : BufWriter β) : Bool × BufWriter β :=
  (taken fault w.buffer = w.buffer.length,
    { file := w.file ++ w.buffer.take (taken fault w.buffer)
      buffer := w.buffer.drop (taken fault w.buffer) })

/-- The faults that a write can meet: in making room, and in going past the buffer. -/
structure Faults where
  flush : Fault
  direct : Fault

/-- `write_all`: into the buffer if it fits, else past it if it would not fit into any. -/
def writeAll (capacity : ℕ) (faults : Faults) (w : BufWriter β) (items : List β) :
    Bool × BufWriter β :=
  if items.length < capacity - w.buffer.length then
    (true, { w with buffer := w.buffer ++ items })
  else
    let (room, w) :=
      if capacity - w.buffer.length < items.length then w.flushBuf faults.flush else (true, w)
    if room = false then (false, w)
    else if capacity ≤ items.length then
      let (ok, file) := writeFile faults.direct w.file items
      (ok, { w with file })
    else (true, { w with buffer := w.buffer ++ items })

/-- All that was handed to the writer and taken. -/
def contents (w : BufWriter β) : List β := w.file ++ w.buffer

@[simp] theorem new_contents : (new : BufWriter β).contents = [] := rfl

variable {capacity : ℕ} {faults : Faults} {w : BufWriter β} {items : List β}

theorem taken_le (fault : Fault) (items : List β) : taken fault items ≤ items.length :=
  Nat.min_le_right _ _

/-- Without a fault all is taken. -/
@[simp] theorem taken_none (items : List β) : taken none items = items.length := Nat.min_self _

/-- Flushing loses nothing and adds nothing. -/
theorem flushBuf_contents (fault : Fault) (w : BufWriter β) :
    (w.flushBuf fault).2.contents = w.contents := by
  rw [contents, flushBuf, List.append_assoc, List.take_append_drop]
  rfl

/-- A flush that succeeds leaves the buffer empty. -/
theorem flushBuf_ok {fault : Fault} (h : (w.flushBuf fault).1 = true) :
    (w.flushBuf fault).2 = { file := w.contents, buffer := [] } := by
  have hall : taken fault w.buffer = w.buffer.length := of_decide_eq_true h
  rw [flushBuf, hall, List.take_length, List.drop_length]
  rfl

/-- The writer once there is room: nothing is lost, and what goes past the buffer finds it
empty. -/
theorem room_spec (hfull : ¬ items.length < capacity - w.buffer.length) {room : Bool}
    {w' : BufWriter β}
    (h : (if capacity - w.buffer.length < items.length then w.flushBuf faults.flush
      else (true, w)) = (room, w')) :
    w'.contents = w.contents ∧
      (room = true → capacity ≤ items.length → w'.buffer = [] ∨ items = []) := by
  split at h
  · have hflush : w.flushBuf faults.flush = (room, w') := h
    have hcontents := flushBuf_contents faults.flush w
    rw [hflush] at hcontents
    refine ⟨hcontents, fun hroom _ => .inl ?_⟩
    have hok := @flushBuf_ok _ w faults.flush (by rw [hflush]; exact hroom)
    rw [hflush] at hok
    exact congrArg BufWriter.buffer hok
  · rename_i hexact
    cases h
    refine ⟨rfl, fun _ hlarge => ?_⟩
    -- the items take exactly the space there is, and that is all of the buffer
    by_cases hnil : items = []
    · exact .inr hnil
    · have hpos : 0 < items.length := List.length_pos_of_ne_nil hnil
      have hempty : w.buffer.length = 0 := by omega
      exact .inl (List.eq_nil_of_length_eq_zero hempty)

/-- **A write adds all it is given, or it fails**: then it adds nothing, unless the items
went past the buffer, of which it has taken a part. -/
theorem writeAll_spec (capacity : ℕ) (faults : Faults) (w : BufWriter β) (items : List β) :
    ((writeAll capacity faults w items).1 = true ∧
        (writeAll capacity faults w items).2.contents = w.contents ++ items) ∨
      ((writeAll capacity faults w items).1 = false ∧
        ((writeAll capacity faults w items).2.contents = w.contents ∨
          capacity ≤ items.length ∧ ∃ n < items.length,
            (writeAll capacity faults w items).2.contents = w.contents ++ items.take n)) := by
  by_cases hfits : items.length < capacity - w.buffer.length
  · refine .inl ?_
    rw [writeAll, if_pos hfits]
    exact ⟨rfl, (List.append_assoc _ _ _).symm⟩
  · obtain ⟨room, w', hroom⟩ : ∃ room w', (if capacity - w.buffer.length < items.length
        then w.flushBuf faults.flush else (true, w)) = (room, w') := ⟨_, _, rfl⟩
    obtain ⟨hcontents, hbuffer⟩ := room_spec hfits hroom
    rw [writeAll, if_neg hfits, hroom]
    dsimp only
    cases room with
    | false =>
      rw [if_pos rfl]
      exact .inr ⟨rfl, .inl hcontents⟩
    | true =>
      rw [if_neg (by decide)]
      split
      · rename_i hlarge
        have hdirect : ∀ n, (w'.file ++ items.take n) ++ w'.buffer = w.contents ++ items.take n := by
          intro n
          rw [← hcontents, contents]
          rcases hbuffer rfl hlarge with hnil | hnil
          · rw [hnil, List.append_nil, List.append_nil]
          · rw [hnil, List.take_nil, List.append_nil, List.append_nil]
        by_cases hall : taken faults.direct items = items.length
        · refine .inl ⟨decide_eq_true hall, ?_⟩
          have hwhole := hdirect (taken faults.direct items)
          rw [hall, List.take_length] at hwhole
          show (w'.file ++ items.take (taken faults.direct items)) ++ w'.buffer = _
          rw [hall, List.take_length]
          exact hwhole
        · refine .inr ⟨decide_eq_false hall, .inr ⟨hlarge, taken faults.direct items, ?_, hdirect _⟩⟩
          exact Nat.lt_of_le_of_ne (taken_le _ _) hall
      · refine .inl ⟨rfl, ?_⟩
        show w'.file ++ (w'.buffer ++ items) = _
        rw [← List.append_assoc, ← hcontents]
        rfl

theorem writeAll_ok (h : (writeAll capacity faults w items).1 = true) :
    (writeAll capacity faults w items).2.contents = w.contents ++ items := by
  rcases writeAll_spec capacity faults w items with ⟨_, hok⟩ | ⟨hfailed, _⟩
  · exact hok
  · rw [h] at hfailed
    cases hfailed

/-- A failed write of less than a buffer adds nothing. -/
theorem writeAll_failed (h : (writeAll capacity faults w items).1 = false)
    (hsmall : items.length < capacity) :
    (writeAll capacity faults w items).2.contents = w.contents := by
  rcases writeAll_spec capacity faults w items with ⟨hok, _⟩ | ⟨_, hsame | ⟨hlarge, _⟩⟩
  · rw [h] at hok
    cases hok
  · exact hsame
  · omega

/-- Without faults every write succeeds. -/
theorem writeAll_faultless (w : BufWriter β) (items : List β) :
    (writeAll capacity { flush := none, direct := none } w items).1 = true := by
  rw [writeAll]
  split
  · rfl
  · have hroom : (if capacity - w.buffer.length < items.length then w.flushBuf none
        else (true, w)).1 = true := by
      split
      · exact decide_eq_true (taken_none _)
      · rfl
    dsimp only
    rw [hroom, if_neg (by decide)]
    split
    · exact decide_eq_true (taken_none _)
    · rfl

end BufWriter
