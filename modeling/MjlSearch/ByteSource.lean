/-
Readers: what a sequence of `read` calls can hand over.

A call asks for at most `n` bytes.  A source answers each call and moves on, in
a way that may depend on `n` and on everything asked before; it is a well-founded
tree, so it is interrupted only finitely often before its end.

`Delivers src bs` says that the source hands over exactly `bs` and then the end
of input, in pieces of any non-zero size and with any interruptions between.
`Delivers.cases_call` is what one call on such a source can answer, and
`ofBytes_delivers` is the simplest such source.
-/
import Mathlib.Data.List.Basic

/-- What one call of `Read::read` answers. -/
inductive Reply
  /-- `Ok(k)`: these bytes were put into the buffer. -/
  | bytes (bs : List UInt8)
  /-- `Err` of kind `Interrupted`: try again. -/
  | interrupted
  /-- Any other error. -/
  | failed
  deriving DecidableEq, Repr

/-- A reader: `call` answers a read of at most `n` bytes and says how it goes on. -/
inductive ByteSource
  | eof
  | call (reply : ℕ → Reply) (next : ℕ → ByteSource)

namespace ByteSource

/-- A call for `n` bytes answered on the way through `bs`, with `rest` still to come. -/
def Hands (n : ℕ) (bs rest : List UInt8) : Reply → Prop
  | .bytes p => p ≠ [] ∧ p.length ≤ n ∧ p ++ rest = bs
  | .interrupted => rest = bs
  | .failed => False

/-- The source hands over exactly `bs`, in non-empty pieces, and then ends. -/
inductive Delivers : ByteSource → List UInt8 → Prop
  | eof : Delivers .eof []
  | call {reply : ℕ → Reply} {next : ℕ → ByteSource} {bs : List UInt8}
      (rest : ℕ → List UInt8)
      (hands : ∀ n, 0 < n → Hands n bs (rest n) (reply n))
      (tail : ∀ n, 0 < n → Delivers (next n) (rest n)) : Delivers (.call reply next) bs

/-- One byte at a time, without interruptions. -/
def ofBytes : List UInt8 → ByteSource
  | [] => .eof
  | b :: bs => .call (fun _ => .bytes [b]) (fun _ => ofBytes bs)

theorem ofBytes_delivers (bs : List UInt8) : Delivers (ofBytes bs) bs := by
  induction bs with
  | nil => exact Delivers.eof
  | cons b bs ih =>
    exact Delivers.call (fun _ => bs) (fun n hn => ⟨List.cons_ne_nil b [], hn, rfl⟩)
      fun _ _ => ih

/-- What a call for `n` bytes can answer. -/
theorem Delivers.cases_call {reply : ℕ → Reply} {next : ℕ → ByteSource} {bs : List UInt8}
    (h : Delivers (.call reply next) bs) {n : ℕ} (hn : 0 < n) :
    (reply n = .interrupted ∧ Delivers (next n) bs) ∨
      ∃ p rest, reply n = .bytes p ∧ p ≠ [] ∧ p.length ≤ n ∧ bs = p ++ rest ∧
        Delivers (next n) rest := by
  cases h with
  | call rest hands tail =>
    have hh := hands n hn
    have ht := tail n hn
    cases hr : reply n with
    | bytes p =>
      rw [hr] at hh
      exact Or.inr ⟨p, rest n, rfl, hh.1, hh.2.1, hh.2.2.symm, ht⟩
    | interrupted =>
      rw [hr] at hh
      have hrest : rest n = bs := hh
      rw [hrest] at ht
      exact Or.inl ⟨rfl, ht⟩
    | failed =>
      rw [hr] at hh
      exact hh.elim

theorem Delivers.eq_nil_of_eof {bs : List UInt8} (h : Delivers .eof bs) : bs = [] := by
  cases h
  rfl

end ByteSource
