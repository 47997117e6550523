import Conduit.Buffer.Basic
import Conduit.Host.Timeout
import Conduit.Request

/-!
# Sources and sinks

A source is read into a buffer, a sink is written from one; both are closed, and both work on a host.  Every call gives
back the new state of all it has touched beside its result, also when it fails.

A source that reports `some k` has appended `k` bytes.  It may report `some 0` for a positive request, but `patience`
bounds how often, so that a loop that reads until it has enough bytes ends.
-/

namespace Conduit

/-- What a read leaves behind: `some k` if `k` bytes were appended, `none` at the end of the stream. -/
structure ReadOutcome (σ : Type) where
  result : Except Error (Option Nat)
  source : σ
  buffer : Buffer
  host : Host

/-- What a write leaves behind; the buffer has lost the bytes that were accepted. -/
structure WriteOutcome (σ : Type) where
  result : Except Error Unit
  sink : σ
  buffer : Buffer
  host : Host

/-- What a call without a buffer leaves behind. -/
structure CallOutcome (σ : Type) where
  result : Except Error Unit
  endpoint : σ
  host : Host

/-- The same outcome for a source that is part of another one. -/
def ReadOutcome.lift {σ τ : Type} (f : σ → τ) (o : ReadOutcome σ) : ReadOutcome τ :=
  ⟨o.result, f o.source, o.buffer, o.host⟩

@[inherit_doc ReadOutcome.lift]
def WriteOutcome.lift {σ τ : Type} (f : σ → τ) (o : WriteOutcome σ) : WriteOutcome τ :=
  ⟨o.result, f o.sink, o.buffer, o.host⟩

@[inherit_doc ReadOutcome.lift]
def CallOutcome.lift {σ τ : Type} (f : σ → τ) (o : CallOutcome σ) : CallOutcome τ :=
  ⟨o.result, f o.endpoint, o.host⟩

/-- Where bytes come from. -/
class ByteSource (σ : Type) where
  /-- Appends at least one byte and at most so many to the buffer, or reports the end of the stream. -/
  read : σ → Nat → Buffer → Host → ReadOutcome σ
  close : σ → Host → CallOutcome σ
  timeout : σ → Timeout
  /-- How many of the reads to come may report `some 0`. -/
  patience : σ → Nat
  length_read : ∀ {s n b host k}, (read s n b host).result = .ok (some k) →
    (read s n b host).buffer.length = b.length + k
  patience_read : ∀ {s n b host r}, 0 < n → (read s n b host).result = .ok r →
    patience (read s n b host).source + (if r = some 0 then 1 else 0) ≤ patience s

/-- Where bytes go. -/
class ByteSink (σ : Type) where
  /-- Takes so many bytes from the front of the buffer; when that fails, it may have taken some of them. -/
  write : σ → Nat → Buffer → Host → WriteOutcome σ
  /-- Passes on everything that was taken. -/
  flush : σ → Host → CallOutcome σ
  close : σ → Host → CallOutcome σ
  timeout : σ → Timeout
  /-- What the host learns when the sink is given up. -/
  discard : σ → Host → Host

end Conduit
