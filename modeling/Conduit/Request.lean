import Conduit.Error.Basic

/-!
# Requests

A read or write names the number of bytes it is about.  Layers scale these numbers, so they are bounded well below what
a machine can count to; a write moreover cannot ask for more than its buffer holds.
-/

namespace Conduit

/-- Checks the number of bytes of a read. -/
def checkRead (n : Nat) : Except Error Unit :=
  if maxRequestLength < n then .error (.invalidArgument (.requestTooLong n)) else .ok ()

/-- Checks the number of bytes of a write against the number of bytes there are. -/
def checkWrite (available n : Nat) : Except Error Unit :=
  if maxRequestLength < n then .error (.invalidArgument (.requestTooLong n))
  else if available < n then .error (.invalidArgument (.notAvailable n available))
  else .ok ()

@[simp] theorem checkRead_eq_ok_iff {n : Nat} : checkRead n = .ok () ↔ n ≤ maxRequestLength := by
  unfold checkRead; split <;> simp <;> omega

@[simp] theorem checkWrite_eq_ok_iff {available n : Nat} :
    checkWrite available n = .ok () ↔ n ≤ maxRequestLength ∧ n ≤ available := by
  unfold checkWrite; split
  · simp; omega
  · split <;> simp <;> omega

end Conduit
