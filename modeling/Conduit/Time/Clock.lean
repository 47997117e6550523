import Conduit.Time.Duration

/-!
# Clocks

A clock never goes back.  It tells the time as an instant, the number of nanoseconds since its own start, and a script
says by how much it has moved on at each of its next readings; behind the end of the script it moves only when
somebody sleeps.  Any finite course of readings is that of such a clock (`readings_ofInstants`).
-/

namespace Conduit

/-- A clock that shows `now` and has moved on by the next of `delays` whenever it is read. -/
structure Clock where
  now : Nat
  delays : List Nat
deriving DecidableEq, Repr

namespace Clock

/-- A clock that has just been started and moves only when somebody sleeps. -/
def start : Clock := ⟨0, []⟩

/-- The clock as it is found at its next reading. -/
def read (c : Clock) : Clock :=
  match c.delays with
  | [] => c
  | d :: delays => ⟨c.now + d, delays⟩

/-- The clock after a sleep. -/
def sleep (c : Clock) (d : Duration) : Clock := { c with now := c.now + d.nanos }

/-- The first instant that the clock cannot represent: it counts seconds in 63 bits. -/
def horizon : Nat := UInt64.size / 2 * Duration.nanosPerSecond

theorem now_le_read (c : Clock) : c.now ≤ c.read.now := by
  unfold read; split <;> simp

theorem now_le_sleep (c : Clock) (d : Duration) : c.now ≤ (c.sleep d).now := Nat.le_add_right ..

/-- The instants that the next `n` readings show. -/
def readings (c : Clock) : Nat → List Nat
  | 0 => []
  | n + 1 => c.read.now :: c.read.readings n

/-- The clock that shows the given instants, one after the other, and starts at `now`. -/
def ofInstants (now : Nat) (instants : List Nat) : Clock :=
  ⟨now, (instants.zip (now :: instants)).map fun p => p.1 - p.2⟩

theorem readings_ofInstants {now : Nat} {instants : List Nat} (h : (now :: instants).Pairwise (· ≤ ·)) :
    (ofInstants now instants).readings instants.length = instants := by
  induction instants generalizing now with
  | nil => rfl
  | cons t instants ih =>
    have ht : now + (t - now) = t := Nat.add_sub_cancel' ((List.pairwise_cons.1 h).1 t List.mem_cons_self)
    have hr : (ofInstants now (t :: instants)).read = ofInstants t instants := by
      simp [ofInstants, read, ht]
    rw [List.length_cons, readings, hr, ih (List.Pairwise.of_cons h)]
    rfl

end Clock

end Conduit
