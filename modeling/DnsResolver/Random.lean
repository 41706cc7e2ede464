namespace DnsResolver

/-!
# A small random generator

A generator with 64 bits of state. Each draw adds a constant to the state and mixes it by
one wide multiplication. An index below a bound is the high half of a draw times the
bound; draws that would make some indices more likely than others are repeated.
-/

/-- A generator. -/
structure Random where
  state : UInt64

namespace Random

/-- What each draw adds to the state. -/
def increment : UInt64 := 0x2d358dccaa6c78a5

/-- What the state is mixed with. -/
def mixer : UInt64 := 0x8bb84b93962eacc9

/-- The generator that starts from a seed. -/
def ofSeed (seed : UInt64) : Random := ⟨seed⟩

/-- The high and the low half of the product of two numbers. -/
def wideProduct (a b : UInt64) : UInt64 × UInt64 :=
  let product := a.toNat * b.toNat
  (UInt64.ofNat (product / 18446744073709551616), UInt64.ofNat product)

/-- Draws 64 bits. -/
def next (random : Random) : UInt64 × Random :=
  let state := random.state + increment
  let (high, low) := wideProduct state (state ^^^ mixer)
  (low ^^^ high, ⟨state⟩)

/-- Draws a message identifier. -/
def nextId (random : Random) : UInt16 × Random :=
  let (bits, random) := random.next
  (UInt16.ofNat bits.toNat, random)

/-- Draws until the low half of the product with `bound` reaches `threshold`, at most
    `retries` times more. -/
def drawBelow (bound threshold : UInt64) : Nat → Random → UInt64 × Random
  | 0, random =>
    let (bits, random) := random.next
    ((wideProduct bits bound).1, random)
  | retries + 1, random =>
    let (bits, random) := random.next
    let (high, low) := wideProduct bits bound
    if low < threshold then drawBelow bound threshold retries random else (high, random)

/-- How often a draw is repeated at most. A repetition has a chance of less than one half. -/
def maxRetries : Nat := 4096

/-- What the low half of the product with `bound` has to reach. -/
def threshold (bound : UInt64) : UInt64 := (0 - bound) % bound

/-- Draws an index below a bound with at most `retries` repetitions; no bound counts as one. -/
def nextIndexWithin (retries bound : Nat) (random : Random) : Nat × Random :=
  let bound := UInt64.ofNat (max bound 1)
  let drawn := drawBelow bound (threshold bound) retries random
  (drawn.1.toNat, drawn.2)

/-- Draws an index below a bound. -/
def nextIndex : Nat → Random → Nat × Random := nextIndexWithin maxRetries

end Random

end DnsResolver
