import Assembler.Word

/-!
# Sinks

Where the bytes of an assembly go. A `Writer` takes runs of bytes, each in one write, and says
whether it took the whole run. `Sink` is the writer of the command line: one with a limit keeps what
fits of the run that exceeds it, and refuses that run; a run without bytes always fits.

Runs are counted in natural numbers, and every run can be written. A machine that holds a run in
memory before it writes it has to give up on one of 2^63 bytes or more, and counts written bytes in
64 bits; there the two differ.
-/

namespace Assembler

/-- Bytes that are written at once. -/
inductive Run
  | literal (bytes : List UInt8)
  /-- One byte, a number of times. -/
  | fill (count : Nat) (byte : UInt8)
deriving DecidableEq, Repr

namespace Run

/-- The bytes of the run. -/
def toList : Run → List UInt8
  | .literal bytes => bytes
  | .fill count byte => List.replicate count byte

/-- Number of bytes of the run. -/
def length : Run → Nat
  | .literal bytes => bytes.length
  | .fill count _ => count

/-- The first `n` bytes of the run. -/
def take (n : Nat) : Run → Run
  | .literal bytes => .literal (bytes.take n)
  | .fill count byte => .fill (min n count) byte

/-- Whether every byte of the run is zero. -/
def isZero : Run → Bool
  | .literal bytes => bytes.all (· = 0)
  | .fill count byte => count = 0 || byte = 0

@[simp]
theorem length_toList (run : Run) : run.toList.length = run.length := by
  cases run <;> simp [toList, length]

@[simp]
theorem toList_take (n : Nat) (run : Run) : (run.take n).toList = run.toList.take n := by
  cases run <;> simp [toList, take, List.take_replicate]

end Run

/-- Receivers of bytes: what one becomes by a write, and whether it took the whole run. -/
class Writer (W : Type) where
  write : W → Run → W × Bool

/-- A receiver of bytes that keeps them in memory, or nowhere. -/
inductive Sink
  /-- Takes everything and keeps nothing. -/
  | discard
  /-- Keeps the bytes, no more than `limit` if there is one. -/
  | buffer (limit : Option Nat) (kept : Array UInt8)
deriving DecidableEq, Repr

namespace Sink

/-- An empty buffer. -/
def new (limit : Option Nat) : Sink := .buffer limit #[]

/-- The bytes that were kept. -/
def kept : Sink → Array UInt8
  | .discard => #[]
  | .buffer _ kept => kept

/-- The sink after a write, and whether it took the whole run. -/
def write : Sink → Run → Sink × Bool
  | .discard, _ => (.discard, true)
  | .buffer none kept, run => (.buffer none (kept ++ run.toList), true)
  | .buffer (some limit) kept, run =>
    let room := limit - kept.size
    if run.length ≤ room then (.buffer (some limit) (kept ++ run.toList), true)
    else (.buffer (some limit) (kept ++ (run.take room).toList), false)

instance : Writer Sink := ⟨write⟩

end Sink

end Assembler
