import Mathlib

namespace Lib

/-!
# Byte streams

A reader is the bytes still to come and what follows them: the end of the stream, or an error.
A writer is the bytes written so far and, where it breaks, after how many more.

* `Source`, `Source.readExact` — fill a buffer of a given length, or fail on what follows;
* `Sink`, `Sink.writeAll` — write a whole buffer, or the part before the break;
* `be32`, `ofBe32` — four bytes, most significant first.
-/

/-- Why a stream operation fails: the stream ended inside a buffer, or anything else. -/
inductive IoError where
  | unexpectedEof
  | other (message : String)
deriving DecidableEq, Repr

/-! ### Reading -/

/-- The bytes still to come, and the error that follows them; `none` is the end of the stream. -/
structure Source where
  bytes : List UInt8
  broken : Option String
deriving DecidableEq

namespace Source

/-- A stream that ends after some bytes. -/
def ended (bytes : List UInt8) : Source := ⟨bytes, none⟩

/-- What a read that asks for more than there is fails with. -/
def failure (src : Source) : IoError :=
  match src.broken with
  | some message => .other message
  | none => .unexpectedEof

/-- Read `n` bytes.  A read that fails has taken what there was. -/
def readExact (src : Source) (n : ℕ) : Except IoError (List UInt8) × Source :=
  if n ≤ src.bytes.length then (.ok (src.bytes.take n), { src with bytes := src.bytes.drop n })
  else (.error src.failure, { src with bytes := [] })

variable {src : Source} {n : ℕ}

/-- Bytes that are there are read, and no more. -/
theorem readExact_append (l rest : List UInt8) (broken : Option String) :
    readExact ⟨l ++ rest, broken⟩ l.length = (.ok l, ⟨rest, broken⟩) := by
  have hle : l.length ≤ (l ++ rest).length := by
    rw [List.length_append]
    omega
  rw [readExact, if_pos hle, List.take_left, List.drop_left]

theorem readExact_of_lt (h : src.bytes.length < n) :
    src.readExact n = (.error src.failure, { src with bytes := [] }) := by
  rw [readExact, if_neg (by omega)]

end Source

/-! ### Writing -/

/-- The bytes written so far.  With `some (k, e)` the stream takes `k` more and then fails. -/
structure Sink where
  written : List UInt8
  breaks : Option (ℕ × String)
deriving DecidableEq

namespace Sink

/-- A stream that takes everything. -/
def opened : Sink := ⟨[], none⟩

/-- Write a buffer.  A write that fails has written what the stream took. -/
def writeAll (sink : Sink) (l : List UInt8) : Except IoError Unit × Sink :=
  match sink.breaks with
  | none => (.ok (), { sink with written := sink.written ++ l })
  | some (k, e) =>
    if l.length ≤ k then (.ok (), ⟨sink.written ++ l, some (k - l.length, e)⟩)
    else (.error (.other e), ⟨sink.written ++ l.take k, some (0, e)⟩)

theorem writeAll_of_none {sink : Sink} (h : sink.breaks = none) (l : List UInt8) :
    sink.writeAll l = (.ok (), ⟨sink.written ++ l, none⟩) := by
  obtain ⟨written, breaks⟩ := sink
  obtain rfl : breaks = none := h
  rfl

end Sink

/-! ### Big-endian words -/

/-- The low 32 bits of a number, most significant byte first. -/
def be32 (n : ℕ) : List UInt8 :=
  [UInt8.ofNat (n / 2 ^ 24), UInt8.ofNat (n / 2 ^ 16), UInt8.ofNat (n / 2 ^ 8), UInt8.ofNat n]

/-- The number some bytes stand for, most significant first. -/
def ofBe32 (l : List UInt8) : ℕ := l.foldl (fun n b => n * 2 ^ 8 + b.toNat) 0

@[simp] theorem length_be32 (n : ℕ) : (be32 n).length = 4 := rfl

/-- A number below `2 ^ 32` is read back. -/
theorem ofBe32_be32 {n : ℕ} (h : n < 2 ^ 32) : ofBe32 (be32 n) = n := by
  simp only [ofBe32, be32, List.foldl_cons, List.foldl_nil, UInt8.toNat_ofNat']
  omega

end Lib
