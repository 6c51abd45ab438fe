/-
Postcard: the byte format of everything the crawler stores.

A `Format` writes a value and reads it back off the front of a byte string, and
carries the law that it does.  The formats of compound values are built from the
formats of their parts.

* numbers are little-endian base 128, signed ones after zig-zag (`varint`,
  `signed`); one that does not fit its type is refused;
* strings and lists stand after their length (`str`, `list`), options after a
  flag (`option`);
* `toCodec` — reading undoes writing, whatever follows.
-/
import MjlSearch.Spool

open Text

namespace Postcard

/-- A way to write values of a type, and to read one off the front. -/
structure Format (α : Type) where
  fits : α → Bool
  put : α → List UInt8
  take : List UInt8 → Option (α × List UInt8)
  take_put : ∀ {a : α} (rest : List UInt8), fits a = true → take (put a ++ rest) = some (a, rest)

/-! ### Numbers -/

/-- Base 128, the lowest digit first; every byte but the last has its high bit
set.  At most `k` bytes stand before the last. -/
def putVarint : ℕ → ℕ → List UInt8
  | 0, n => [UInt8.ofNat n]
  | k + 1, n =>
    if n < 128 then [UInt8.ofNat n]
    else UInt8.ofNat (n % 128 + 128) :: putVarint k (n / 128)

/-- Reads it back: a number is refused that goes on behind `k` bytes. -/
def takeVarint : ℕ → List UInt8 → Option (ℕ × List UInt8)
  | _, [] => none
  -- the last byte there is room for cannot announce another
  | 0, b :: bs => if b.toNat < 128 then some (b.toNat, bs) else none
  | k + 1, b :: bs =>
    if b.toNat < 128 then some (b.toNat, bs)
    else do
      let (n, rest) ← takeVarint k bs
      some (b.toNat - 128 + 128 * n, rest)

theorem takeVarint_last {n : ℕ} (k : ℕ) (h : n < 128) (rest : List UInt8) :
    takeVarint k ([UInt8.ofNat n] ++ rest) = some (n, rest) := by
  have hb : (UInt8.ofNat n).toNat = n := by
    rw [UInt8.toNat_ofNat']
    omega
  cases k with
  | zero => rw [List.singleton_append, takeVarint, hb, if_pos h]
  | succ k => rw [List.singleton_append, takeVarint, hb, if_pos h]

theorem takeVarint_putVarint {k n : ℕ} (h : n < 128 ^ (k + 1)) (rest : List UInt8) :
    takeVarint k (putVarint k n ++ rest) = some (n, rest) := by
  induction k generalizing n with
  | zero => exact takeVarint_last 0 h rest
  | succ k ih =>
    rw [putVarint]
    by_cases hn : n < 128
    · rw [if_pos hn]
      exact takeVarint_last (k + 1) hn rest
    · have hb : (UInt8.ofNat (n % 128 + 128)).toNat = n % 128 + 128 := by
        rw [UInt8.toNat_ofNat']
        omega
      have hdiv : n / 128 < 128 ^ (k + 1) := by
        rw [Nat.pow_succ, Nat.mul_comm] at h
        exact Nat.div_lt_of_lt_mul h
      rw [if_neg hn, List.cons_append, takeVarint, hb, if_neg (by omega), ih hdiv]
      simp only [Option.bind_eq_bind, Option.bind_some, Option.some.injEq, Prod.mk.injEq, and_true]
      omega

/-- A number below `bound`, which `k + 1` bytes have room for.  A larger one is refused. -/
def varint (k bound : ℕ) (hroom : bound ≤ 128 ^ (k + 1)) : Format ℕ where
  fits n := n < bound
  put n := putVarint k n
  take bs := (takeVarint k bs).filter fun p => p.1 < bound
  take_put {n} rest h := by
    have hn : n < bound := of_decide_eq_true h
    rw [takeVarint_putVarint (lt_of_lt_of_le hn hroom)]
    exact Option.filter_some_pos h

def u32 : Format ℕ := varint 4 (2 ^ 32) (by decide)

/-- Lengths are of this format, too. -/
def u64 : Format ℕ := varint 9 (2 ^ 64) (by decide)

/-- Zig-zag: the sign goes into the lowest bit. -/
def zigzag (z : ℤ) : ℕ := if 0 ≤ z then 2 * z.toNat else 2 * (-z).toNat - 1

def unzigzag (n : ℕ) : ℤ := if n % 2 = 0 then (n / 2 : ℕ) else -((n + 1) / 2 : ℕ)

theorem unzigzag_zigzag (z : ℤ) : unzigzag (zigzag z) = z := by
  rw [zigzag]
  by_cases hz : 0 ≤ z
  · rw [if_pos hz, unzigzag, if_pos (by omega)]
    omega
  · rw [if_neg hz, unzigzag, if_neg (by omega)]
    omega

/-! ### Formats from formats -/

variable {α β : Type}

/-- Values of another type, written as values of this one. -/
def Format.via (f : Format α) (into : β → α) (back : α → β) (h : ∀ b, back (into b) = b) :
    Format β where
  fits b := f.fits (into b)
  put b := f.put (into b)
  take bs := (f.take bs).map fun p => (back p.1, p.2)
  take_put {b} rest hb := by
    rw [f.take_put rest hb, Option.map_some, h]

/-- One value after the other. -/
def Format.pair (f : Format α) (g : Format β) : Format (α × β) where
  fits p := f.fits p.1 && g.fits p.2
  put p := f.put p.1 ++ g.put p.2
  take bs := do
    let (a, rest) ← f.take bs
    let (b, rest) ← g.take rest
    some ((a, b), rest)
  take_put {p} rest h := by
    rw [Bool.and_eq_true] at h
    rw [List.append_assoc, f.take_put _ h.1]
    simp only [Option.bind_eq_bind, Option.bind_some, g.take_put _ h.2]

/-- A signed number of 64 bits. -/
def signed : Format ℤ := u64.via zigzag unzigzag unzigzag_zigzag

/-- A string: its length in bytes, and the bytes. -/
def str : Format Str where
  fits s := byteLen s < 2 ^ 64
  put s := u64.put (byteLen s) ++ utf8 s
  take bs := do
    let (n, rest) ← u64.take bs
    if n ≤ rest.length then (fromUtf8 (rest.take n)).map fun s => (s, rest.drop n) else none
  take_put {s} rest h := by
    rw [List.append_assoc, u64.take_put _ h]
    simp only [Option.bind_eq_bind, Option.bind_some]
    have hlen : byteLen s ≤ (utf8 s ++ rest).length := by
      rw [List.length_append]
      exact Nat.le_add_right _ _
    rw [if_pos hlen, byteLen, List.take_left, List.drop_left, fromUtf8_utf8, Option.map_some]

/-- A value that may be absent: a flag, and the value. -/
def option (f : Format α) : Format (Option α) where
  fits o := o.all f.fits
  put
    | none => [0]
    | some a => 1 :: f.put a
  take
    | [] => none
    | b :: bs =>
      if b = 0 then some (none, bs)
      else if b = 1 then (f.take bs).map fun p => (some p.1, p.2)
      else none
  take_put {o} rest h := by
    cases o with
    | none => rfl
    | some a =>
      show (if (1 : UInt8) = 0 then _ else if (1 : UInt8) = 1 then
        (f.take (f.put a ++ rest)).map fun p => (some p.1, p.2) else none) = _
      rw [if_neg (by decide), if_pos rfl, f.take_put rest h, Option.map_some]

/-- Reads `n` values. -/
def takeMany (f : Format α) : ℕ → List UInt8 → Option (List α × List UInt8)
  | 0, bs => some ([], bs)
  | n + 1, bs => do
    let (a, rest) ← f.take bs
    let (as, rest) ← takeMany f n rest
    some (a :: as, rest)

theorem takeMany_put (f : Format α) (l : List α) (rest : List UInt8)
    (h : ∀ a ∈ l, f.fits a = true) :
    takeMany f l.length (l.flatMap f.put ++ rest) = some (l, rest) := by
  induction l with
  | nil => rfl
  | cons a l ih =>
    rw [List.length_cons, takeMany, List.flatMap_cons, List.append_assoc,
      f.take_put _ (h a List.mem_cons_self)]
    simp only [Option.bind_eq_bind, Option.bind_some,
      ih fun b hb => h b (List.mem_cons_of_mem _ hb)]

/-- A list: its length, and its elements. -/
def list (f : Format α) : Format (List α) where
  fits l := l.length < 2 ^ 64 && l.all f.fits
  put l := u64.put l.length ++ l.flatMap f.put
  take bs := do
    let (n, rest) ← u64.take bs
    takeMany f n rest
  take_put {l} rest h := by
    rw [Bool.and_eq_true] at h
    rw [List.append_assoc, u64.take_put _ h.1]
    exact takeMany_put f l rest fun a ha => List.all_eq_true.mp h.2 a ha

/-! ### Codecs -/

/-- The whole of a byte string is one value; what follows it is not looked at. -/
def Format.toCodec (f : Format α) : Codec α where
  encode a := if f.fits a then some (f.put a) else none
  decode bs := (f.take bs).map Prod.fst
  decode_encode {a bs} h := by
    split at h
    · rename_i hfits
      cases h
      have hread := f.take_put [] hfits
      rw [List.append_nil] at hread
      rw [hread]
      rfl
    · cases h

/-- Documents, field by field. -/
def documentFormat : Format Document :=
  (str.pair (str.pair (str.pair (signed.pair (u64.pair (list str)))))).via
    (fun d => (d.url, d.title, d.body, d.fetchedAt, d.contentHash, d.outlinks))
    (fun p => ⟨p.1, p.2.1, p.2.2.1, p.2.2.2.1, p.2.2.2.2.1, p.2.2.2.2.2⟩) fun _ => rfl

end Postcard
