/-!
# Durations

A duration is a whole number of nanoseconds.  Its text uses the largest of the units s, ms, µs and ns in which the
value is at least one, and as many digits behind the point as the value needs.
-/

namespace Conduit

/-- A length of time. -/
structure Duration where
  nanos : Nat
deriving DecidableEq, Repr

namespace Duration

/-- The nanoseconds in a second. -/
def nanosPerSecond : Nat := 1000000000

def zero : Duration := ⟨0⟩

/-- A duration of so many seconds and nanoseconds; a billion nanoseconds or more count as further seconds. -/
def of (seconds nanos : Nat) : Duration := ⟨seconds * nanosPerSecond + nanos⟩

def ofMillis (n : Nat) : Duration := ⟨n * 1000000⟩

/-- The whole seconds of a duration. -/
def seconds (d : Duration) : Nat := d.nanos / nanosPerSecond

/-- The nanoseconds beyond the whole seconds. -/
def subsecond (d : Duration) : Nat := d.nanos % nanosPerSecond

/-- The digits of `r / 10 ^ places` behind the point, for `r < 10 ^ places`, without trailing zeros. -/
def fraction : (places r : Nat) → List Char
  | 0, _ => []
  | places + 1, r =>
    if r = 0 then [] else Nat.digitChar (r / Nat.pow 10 places) :: fraction places (r % Nat.pow 10 places)

/-- `n / 10 ^ places` in decimal notation, with a point only before a fraction. -/
def decimal (places n : Nat) : String :=
  match fraction places (n % Nat.pow 10 places) with
  | [] => toString (n / Nat.pow 10 places)
  | digits => toString (n / Nat.pow 10 places) ++ "." ++ String.ofList digits

/-- The duration in its largest fitting unit. -/
def text (d : Duration) : String :=
  if nanosPerSecond ≤ d.nanos then decimal 9 d.nanos ++ "s"
  else if 1000000 ≤ d.nanos then decimal 6 d.nanos ++ "ms"
  else if 1000 ≤ d.nanos then decimal 3 d.nanos ++ "µs"
  else toString d.nanos ++ "ns"

example : [zero, ⟨1500⟩, ofMillis 100, of 1 500000000, of 61 10].map text =
    ["0ns", "1.5µs", "100ms", "1.5s", "61.00000001s"] := by decide +kernel

end Duration

end Conduit
