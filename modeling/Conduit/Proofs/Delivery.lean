import Conduit.Layer
import Conduit.Proofs.Receiving

/-!
# What will have been delivered

A sink that keeps something back leaves open what its innermost sink will have received in the end: that depends on
the bytes that are still to be written.  `MayDeliver s y t` says that it may be `t` if the bytes to come are `y` and the
sink is closed then.  A write that leaves some bytes in its buffer, however it ends, and a close that may be repeated
add nothing to what is possible; so it does not matter when a layer takes its bytes, or how often it was asked to.
-/

namespace Conduit

/-- A sink of which it can be told what will have been delivered when it is closed. -/
class DeliveringSink (σ : Type) [ByteSink σ] extends ExactSink σ where
  /-- What the innermost sink has received. -/
  delivered : σ → Bytes
  /-- The sink has not been closed, nor has any sink below it. -/
  IsOpen : σ → Prop
  /-- If the bytes to come are `y`, it may be that in the end `t` has been delivered. -/
  MayDeliver : σ → Bytes → Bytes → Prop
  isOpen_write {s : σ} (n : Nat) (b : Buffer) (host : Host) : IsOpen s → IsOpen (ByteSink.write s n b host).sink
  mayDeliver_write {s : σ} (n : Nat) (b : Buffer) (host : Host) {y t : Bytes} : IsOpen s →
    MayDeliver (ByteSink.write s n b host).sink ((ByteSink.write s n b host).buffer.toList ++ y) t →
      MayDeliver s (b.toList ++ y) t
  isOpen_close {s : σ} (host : Host) : IsOpen s → retryable (ByteSink.close s host).result →
    IsOpen (ByteSink.close s host).endpoint
  mayDeliver_close {s : σ} (host : Host) {t : Bytes} : IsOpen s →
    (ByteSink.close s host).result = .ok () ∨ retryable (ByteSink.close s host).result →
      MayDeliver (ByteSink.close s host).endpoint [] t → MayDeliver s [] t
  mayDeliver_delivered {s : σ} (host : Host) : IsOpen s → (ByteSink.close s host).result = .ok () →
    MayDeliver (ByteSink.close s host).endpoint [] (delivered (ByteSink.close s host).endpoint)

namespace DeliveringSink

variable {σ : Type} [ByteSink σ] [DeliveringSink σ] {s : σ}

theorem isOpen_drain (b : Buffer) (host : Host) (h : IsOpen s) : IsOpen (drain s b host).sink := by
  unfold drain
  split
  · exact h
  · exact isOpen_write _ _ _ h

theorem mayDeliver_drain (b : Buffer) (host : Host) {y t : Bytes} (ho : IsOpen s)
    (h : MayDeliver (drain s b host).sink ((drain s b host).buffer.toList ++ y) t) :
    MayDeliver s (b.toList ++ y) t := by
  unfold drain at h
  split at h
  · exact h
  · exact mayDeliver_write _ _ _ ho h

end DeliveringSink

/-! ### Innermost sinks -/

/-- A receiving sink may be an innermost one, which delivers what it receives. -/
instance (priority := low) {σ : Type} [ByteSink σ] [ReceivingSink σ] : DeliveringSink σ where
  delivered := ReceivingSink.received
  IsOpen _ := True
  MayDeliver s y t := t = ReceivingSink.received s ++ y
  isOpen_write _ _ _ _ := trivial
  mayDeliver_write := by
    intro s n b host y t _ h
    rw [h, ← List.append_assoc, ReceivingSink.received_append_buffer, List.append_assoc]
  isOpen_close _ _ _ := trivial
  mayDeliver_close := by
    intro s host t _ _ h
    rw [h, ReceivingSink.received_close]
  mayDeliver_delivered _ _ _ := (List.append_nil _).symm

end Conduit
