import Conduit.Proofs.Base64.Perishing
import Conduit.Proofs.Cipher.Perishing
import Conduit.Proofs.Closing

/-!
# Inert endpoints

An inert endpoint refuses every read, write, flush and end of a segment, and closes again without doing anything; none
of that changes the endpoint, what it wraps, the buffer or the host.  A layer over whatever source is inert after its
first close, however that ended (`SourceOver.inert_close`), a layer over whatever sink after a close that is not to be
repeated (`SinkOver.inert_close`).
-/

namespace Conduit

/-- All calls on the source are refused or do nothing; requests of at most `bound` bytes are valid. -/
structure InertSource {σ : Type} [ByteSource σ] (bound : Nat) (s : σ) : Prop where
  read (n : Nat) (b : Buffer) (host : Host) : ∃ e, ByteSource.read s n b host = ⟨.error e, s, b, host⟩ ∧
    (n ≤ bound → e = .closed)
  close (host : Host) : ByteSource.close s host = ⟨.ok (), s, host⟩

/-- All calls on the sink are refused or do nothing. -/
structure InertSink {τ : Type} [ByteSink τ] (s : τ) : Prop where
  write (n : Nat) (b : Buffer) (host : Host) : ∃ e, ByteSink.write s n b host = ⟨.error e, s, b, host⟩ ∧
    (checkWrite b.length n = .ok () → e = .closed)
  flush (host : Host) : ByteSink.flush s host = ⟨.error .closed, s, host⟩
  close (host : Host) : ByteSink.close s host = ⟨.ok (), s, host⟩

namespace Base64Source

variable {σ : Type} [ByteSource σ] {s : Base64Source σ}

theorem inert_of_closed (h : s.closed = true) : InertSource (maxRequestLength - 1) s where
  read n b host := by
    by_cases hl : n < maxRequestLength
    · exact ⟨.closed, read_of_closed h hl b host, fun _ => rfl⟩
    · refine ⟨_, if_pos (Nat.le_of_not_lt hl), ?_⟩
      intro hle
      have hpos : 0 < maxRequestLength := by decide
      omega
  close _ := if_pos h

end Base64Source

namespace CipherSource

variable {κ σ : Type} [ByteCipher κ] [ByteSource σ] {s : CipherSource κ σ}

theorem inert_of_closed (h : s.closed = true) : InertSource maxRequestLength s where
  read n b host := by
    by_cases hl : n ≤ maxRequestLength
    · exact ⟨.closed, read_of_closed h hl b host, fun _ => rfl⟩
    · refine ⟨.invalidArgument (.requestTooLong n), ?_, fun hle => absurd hle hl⟩
      show s.read n b host = _
      rw [CipherSource.read, checkRead, if_pos (Nat.lt_of_not_le hl)]
  close _ := if_pos h

end CipherSource

namespace Base64Sink

variable {σ : Type} [ByteSink σ] {s : Base64Sink σ}

theorem inert_of_closed (h : s.closed = true) : InertSink s where
  write n b host := by
    show ∃ e, s.write n b host = _ ∧ _
    unfold Base64Sink.write
    rcases checkWrite b.length n with e | _
    · exact ⟨e, rfl, fun hok => by cases hok⟩
    · exact ⟨.closed, if_pos h, fun _ => rfl⟩
  flush _ := if_pos h
  close := close_of_closed h

end Base64Sink

namespace CipherSink

variable {κ σ : Type} [ByteCipher κ] [ByteSink σ] {s : CipherSink κ σ}

theorem inert_of_closed (h : s.closed = true) : InertSink s where
  write n b host := by
    show ∃ e, s.write n b host = _ ∧ _
    unfold CipherSink.write
    rcases checkWrite b.length n with e | _
    · exact ⟨e, rfl, fun hok => by cases hok⟩
    · exact ⟨.closed, if_pos h, fun _ => rfl⟩
  flush _ := if_pos h
  close := close_of_closed h

end CipherSink

namespace SourceOver

variable {κ ℓ : Type} [ByteCipher κ] [ByteSource ℓ]

/-- A layer over anything is inert after its close, however that ended. -/
theorem inert_close {layers : List Layer} (hne : layers ≠ []) (s : SourceOver κ ℓ layers) (host : Host) :
    InertSource (longest layers) (ByteSource.close s host).endpoint := by
  cases layers with
  | nil => exact absurd rfl hne
  | cons layer layers =>
    cases layer with
    | base64 => exact Base64Source.inert_of_closed (Base64Source.closed_close (σ := SourceOver κ ℓ layers) s host)
    | cipher => exact CipherSource.inert_of_closed (CipherSource.closed_close (σ := SourceOver κ ℓ layers) s host)

end SourceOver

namespace SinkOver

variable {κ ℓ : Type} [ByteCipher κ] [ByteSink ℓ]

private theorem isClosed_of_close {layer : Layer} {layers : List Layer} {s : SinkOver κ ℓ (layer :: layers)} {host : Host}
    (hr : ¬ retryable (ByteSink.close s host).result) : isClosed layer (ByteSink.close s host).endpoint = true := by
  by_cases ho : isClosed layer s = false
  · rw [isClosed_close ho]
    simpa using hr
  · have hc : isClosed layer s = true := by simpa using ho
    rw [close_of_closed hc]
    exact hc

/-- All calls on the stack itself are refused or do nothing; one that ends a segment is a call on an encoder of text. -/
structure Inert (layers : List Layer) (s : SinkOver κ ℓ layers) : Prop extends InertSink s where
  finish (h : layers.head? = some .base64) (host : Host) : finish? layers s host = some ⟨.error .closed, s, host⟩

/-- A layer over anything is inert after a close that is not to be repeated. -/
theorem inert_close {layers : List Layer} (hne : layers ≠ []) {s : SinkOver κ ℓ layers} {host : Host}
    (hr : ¬ retryable (ByteSink.close s host).result) : Inert layers (ByteSink.close s host).endpoint := by
  cases layers with
  | nil => exact absurd rfl hne
  | cons layer layers =>
    have hc := isClosed_of_close hr
    cases layer with
    | base64 => exact ⟨Base64Sink.inert_of_closed hc, fun _ host' => congrArg some (if_pos hc)⟩
    | cipher => exact ⟨CipherSink.inert_of_closed hc, fun hl => by cases hl⟩

end SinkOver

end Conduit
