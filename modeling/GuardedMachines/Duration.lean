/-!
Lengths of time in nanoseconds, written in the largest unit that is not zero.
-/

namespace GuardedMachines

structure Duration where
  nanoseconds : Nat
deriving DecidableEq

namespace Duration

def zero : Duration := ⟨0⟩

def ofSeconds (seconds : Nat) : Duration := ⟨seconds * 1000000000⟩

/-- A fraction of so many digits, without its trailing zeros; nothing if it is zero. -/
def fractionText (digits fraction : Nat) : List Char :=
  let written := (toString fraction).toList
  let padded := List.replicate (digits - written.length) '0' ++ written
  let kept := (padded.reverse.dropWhile (· == '0')).reverse
  if kept.isEmpty then [] else '.' :: kept

/-- The time in units of `10 ^ digits` nanoseconds. -/
def inUnit (time : Duration) (digits : Nat) (unit : String) : String :=
  let size := Nat.pow 10 digits
  toString (time.nanoseconds / size) ++
    String.ofList (fractionText digits (time.nanoseconds % size)) ++ unit

def text (time : Duration) : String :=
  if 1000000000 ≤ time.nanoseconds then time.inUnit 9 "s"
  else if 1000000 ≤ time.nanoseconds then time.inUnit 6 "ms"
  else if 1000 ≤ time.nanoseconds then time.inUnit 3 "µs"
  else time.inUnit 0 "ns"

end Duration

end GuardedMachines
