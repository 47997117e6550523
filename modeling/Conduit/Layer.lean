import Conduit.Error.Basic

/-!
# Closing a layer

A sink that wraps another one closes in two steps: it delivers what it holds, then it closes what it wraps.  A step that
may succeed later leaves the layer open, but only if no step before it has failed for good.
-/

namespace Conduit

/-- Whether a call has failed and may succeed later. -/
def retryable (r : Except Error Unit) : Bool :=
  match r with
  | .error e => e.retryable
  | .ok () => false

/-- What comes of closing a layer whose last delivery and whose inner close have ended like this: the result, and
whether the layer is closed now.  If both have failed, the first error is reported. -/
def settle (delivery inner : Except Error Unit) : Except Error Unit × Bool :=
  match delivery with
  | .error e => (.error e, true)
  | .ok () => (inner, !retryable inner)

@[simp] theorem retryable_ok : retryable (.ok ()) = false := rfl

@[simp] theorem retryable_error (e : Error) : retryable (.error e) = e.retryable := rfl

/-- When closing a layer succeeds or may be repeated, its last delivery has not failed for good. -/
theorem settle_cases {delivery inner : Except Error Unit} (hd : ¬ retryable delivery)
    (h : (settle delivery inner).1 = .ok () ∨ retryable (settle delivery inner).1) :
    delivery = .ok () ∧ settle delivery inner = (inner, !retryable inner) := by
  cases delivery with
  | ok => exact ⟨rfl, rfl⟩
  | error e => simp [settle, hd] at h

end Conduit
