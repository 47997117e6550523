import Conduit.Proofs.Base64.Perishing
import Conduit.Proofs.Cipher.Perishing
import Conduit.Proofs.Closing

/-!
# What the calls of a stack keep

A layer works on the host in two ways: through the calls it makes on what it wraps, and by a few steps of its own, in
which it looks at the clock or reports what has become of its stream (`LayerStep`).  So what is known of an innermost
endpoint and the host, and is kept by the calls of that endpoint and by those steps, is kept by the calls of every stack
over it: by reads and closes of sources (`SourceOver.kept`, `SourceOver.kept_close`), by writes, flushes and closes of
sinks and by the ends of segments (`SinkOver.kept`, `SinkOver.kept_finish`, `SinkOver.kept_close`).
-/

namespace Conduit

/-- What a layer does to the host by itself. -/
inductive LayerStep : Host → Host → Prop where
  | readClock (host : Host) : LayerStep host host.readClock
  | withinDeadline (host : Host) : LayerStep host (host.note .withinDeadline)
  | deadlineReached (host : Host) (elapsed : Duration) : LayerStep host (host.report (.deadlineReached elapsed))
  | base64Tail (host : Host) (count : Nat) : LayerStep host (host.report (.base64Tail count))
  | malformedBase64 (host : Host) (fault : StreamFault) : LayerStep host (host.report (.malformedBase64 fault))
  | cipherFinalized (host : Host) (count : Nat) : LayerStep host (host.report (.cipherFinalized count))

section

variable {σ : Type} {P : σ → Host → Prop}

/-- What is known of an endpoint and the host is kept by all that a layer over it does by itself. -/
def KeptBySteps (P : σ → Host → Prop) : Prop := ∀ s host host', LayerStep host host' → P s host → P s host'

theorem KeptBySteps.check (h : KeptBySteps P) {s : σ} {policy : Timeout} {host host' : Host} {r : Except Error Unit}
    (hs : P s host) (hc : policy.check host = (r, host')) : P s host' := by
  have hstart : P s host.readClock := h _ _ _ (.readClock host) hs
  unfold Timeout.check Deadline.check at hc
  split at hc
  · cases hc
    exact h _ _ _ (.withinDeadline _) hstart
  · have hread : P s host.readClock.readClock := h _ _ _ (.readClock _) hstart
    split at hc
    · cases hc
      exact h _ _ _ (.withinDeadline _) hread
    · cases hc
      exact h _ _ _ (.deadlineReached _ _) hread

/-- What is known of a source and the host is kept by reads of the source, and by what a layer does by itself. -/
structure KeptByReads [ByteSource σ] (P : σ → Host → Prop) : Prop where
  steps : KeptBySteps P
  read (s : σ) (n : Nat) (b : Buffer) (host : Host) (hs : P s host) :
    P (ByteSource.read s n b host).source (ByteSource.read s n b host).host

theorem KeptByReads.of_read [ByteSource σ] (h : KeptByReads P) {s s' : σ} {n : Nat} {b b' : Buffer} {host host' : Host}
    {r : Except Error (Option Nat)} (hs : P s host) (hr : ByteSource.read s n b host = ⟨r, s', b', host'⟩) :
    P s' host' := by
  have hread := h.read s n b host hs
  rw [hr] at hread
  exact hread

/-- What is known of a sink and the host is kept by writes and flushes of the sink, and by what a layer does by
itself. -/
structure KeptByWrites [ByteSink σ] (P : σ → Host → Prop) : Prop where
  steps : KeptBySteps P
  write (s : σ) (n : Nat) (b : Buffer) (host : Host) (hs : P s host) :
    P (ByteSink.write s n b host).sink (ByteSink.write s n b host).host
  flush (s : σ) (host : Host) (hs : P s host) : P (ByteSink.flush s host).endpoint (ByteSink.flush s host).host

theorem KeptByWrites.drain [ByteSink σ] (h : KeptByWrites P) (s : σ) (b : Buffer) (host : Host) (hs : P s host) :
    P (drain s b host).sink (drain s b host).host := by
  unfold Conduit.drain
  split
  · exact hs
  · exact h.write _ _ _ _ hs

end

/-! ### Sources -/

namespace Base64Source

variable {σ : Type} [ByteSource σ] {P : σ → Host → Prop}

theorem kept_fill (h : KeptByReads P) {s : Base64Source σ} (n : Nat) {host : Host} (hs : P s.inner host) :
    P (s.fill n host).endpoint.inner (s.fill n host).host := by
  fun_induction Base64Source.fill s n host with
  | case1 s host hlt e inner encoded host' hr => exact h.of_read hs hr
  | case2 s host hlt inner encoded host' hr s' he => exact h.of_read hs hr
  | case3 s host hlt inner encoded host' hr s' he =>
    have hread := h.of_read hs hr
    exact h.steps _ _ _ (.malformedBase64 ..) hread
  | case4 s host hlt k inner encoded host' hr e rest hd =>
    have hread := h.of_read hs hr
    exact h.steps _ _ _ (.malformedBase64 ..) hread
  | case5 s host hlt k inner encoded host' hr bytes rest hd ih =>
    have hread := h.of_read hs hr
    exact ih hread
  | case6 => exact hs

theorem kept (h : KeptByReads P) : KeptByReads fun (s : Base64Source σ) host => P s.inner host where
  steps s := h.steps s.inner
  read s n b host hs := by
    show P (s.read n b host).source.inner (s.read n b host).host
    rcases s.read_or_fill n b host with ⟨r, hr⟩ | ⟨decoded, hr, hhost⟩
    · rw [hr]
      exact hs
    · rw [hr, hhost]
      exact kept_fill h n hs

theorem kept_close (h : ∀ s host, P s host → P (ByteSource.close s host).endpoint (ByteSource.close s host).host)
    (s : Base64Source σ) (host : Host) (hs : P s.inner host) :
    P (s.close host).endpoint.inner (s.close host).host := by
  unfold Base64Source.close
  split
  · exact hs
  · exact h _ _ hs

end Base64Source

namespace CipherSource

variable {κ σ : Type} [ByteCipher κ] [ByteSource σ] {P : σ → Host → Prop}

theorem kept_finalize (h : KeptBySteps P) {s : CipherSource κ σ} {host : Host} (hs : P s.inner host) :
    P (s.finalize host).endpoint.inner (s.finalize host).host := by
  unfold finalize fail
  split
  · rename_i hc
    exact h.check hs hc
  · rename_i hc
    have hchecked := h.check hs hc
    split
    · exact hchecked
    · exact h _ _ _ (.cipherFinalized ..) hchecked

theorem kept_fill (h : KeptByReads P) {s : CipherSource κ σ} (n : Nat) {host : Host} (hs : P s.inner host) :
    P (s.fill n host).endpoint.inner (s.fill n host).host := by
  fun_induction CipherSource.fill s n host with
  | case1 s host hlt e inner input host' hr => exact h.of_read hs hr
  | case2 s host hlt inner input host' hr =>
    have hread := h.of_read hs hr
    exact kept_finalize h.steps (s := { s with inner }) hread
  | case3 s host hlt k inner input host' hr e cipher hu => exact h.of_read hs hr
  | case4 s host hlt k inner input host' hr out cipher hu ih =>
    have hread := h.of_read hs hr
    exact ih hread
  | case5 => exact hs

theorem kept (h : KeptByReads P) : KeptByReads fun (s : CipherSource κ σ) host => P s.inner host where
  steps s := h.steps s.inner
  read s n b host hs := by
    show P (s.read n b host).source.inner (s.read n b host).host
    rcases s.read_or_fill n b host with ⟨r, hr⟩ | ⟨output, hr, hhost⟩
    · rw [hr]
      exact hs
    · rw [hr, hhost]
      exact kept_fill h n hs

omit [ByteCipher κ] in
theorem kept_close (h : ∀ s host, P s host → P (ByteSource.close s host).endpoint (ByteSource.close s host).host)
    (s : CipherSource κ σ) (host : Host) (hs : P s.inner host) :
    P (s.close host).endpoint.inner (s.close host).host := by
  unfold CipherSource.close
  split
  · exact hs
  · exact h _ _ hs

end CipherSource

namespace SourceOver

variable {κ ℓ : Type} [ByteCipher κ] [ByteSource ℓ] {P : ℓ → Host → Prop}

/-- What reads of the innermost source keep, reads of the stack keep. -/
theorem kept (h : KeptByReads P) (layers : List Layer) :
    KeptByReads fun (s : SourceOver κ ℓ layers) host => P (leaf layers s) host := by
  induction layers with
  | nil => exact h
  | cons layer layers ih =>
    cases layer with
    | base64 => exact Base64Source.kept ih
    | cipher => exact CipherSource.kept ih

theorem kept_close (h : ∀ s host, P s host → P (ByteSource.close s host).endpoint (ByteSource.close s host).host)
    (layers : List Layer) (s : SourceOver κ ℓ layers) (host : Host) (hs : P (leaf layers s) host) :
    P (leaf layers (ByteSource.close s host).endpoint) (ByteSource.close s host).host := by
  induction layers generalizing host with
  | nil => exact h _ _ hs
  | cons layer layers ih =>
    cases layer with
    | base64 => exact Base64Source.kept_close (P := fun s host => P (leaf layers s) host) ih s host hs
    | cipher => exact CipherSource.kept_close (P := fun s host => P (leaf layers s) host) ih s host hs

end SourceOver

/-! ### Sinks -/

namespace Base64Sink

variable {σ : Type} [ByteSink σ] {P : σ → Host → Prop}

theorem kept_forward (h : KeptByWrites P) (s : Base64Sink σ) (host : Host) (hs : P s.inner host) :
    P (s.forward host).endpoint.inner (s.forward host).host := by
  rw [forward_eq]
  exact h.drain _ _ _ hs

theorem kept_emitTail (h : KeptByWrites P) (s : Base64Sink σ) (host : Host) (hs : P s.inner host) :
    P (s.emitTail host).endpoint.inner (s.emitTail host).host := by
  have hforward := kept_forward h s host hs
  unfold emitTail
  split
  · rename_i hf
    rw [hf] at hforward
    exact hforward
  · rename_i s' host' hf
    rw [hf] at hforward
    split
    · exact hforward
    · have htail := h.steps _ _ _ (.base64Tail host' s'.pending.length) hforward
      obtain ⟨unsent, he, -⟩ := encode_eq { s' with pending := [] } s'.pending
      simp only [he]
      exact kept_forward h { s' with pending := [], unsent } _ htail

theorem kept_write (h : KeptByWrites P) (s : Base64Sink σ) (n : Nat) (b : Buffer) (host : Host) (hs : P s.inner host) :
    P (s.write n b host).sink.inner (s.write n b host).host := by
  have hforward := kept_forward h s host hs
  unfold Base64Sink.write
  split
  · exact hs
  · split
    · exact hs
    · split
      · rename_i hf
        rw [hf] at hforward
        exact hforward
      · rename_i s' host' hf
        rw [hf] at hforward
        obtain ⟨unsent, ha, -⟩ := accept_eq s' (b.take n)
        simp only [ha]
        exact kept_forward h { s' with
          pending := if s'.segmented then [] else afterGroups (s'.pending ++ b.take n), unsent } host' hforward

theorem kept (h : KeptByWrites P) : KeptByWrites fun (s : Base64Sink σ) host => P s.inner host where
  steps s := h.steps s.inner
  write := kept_write h
  flush s host hs := by
    have hforward := kept_forward h s host hs
    show P (s.flush host).endpoint.inner (s.flush host).host
    unfold Base64Sink.flush
    split
    · exact hs
    · split
      · rename_i hf
        rw [hf] at hforward
        exact hforward
      · rename_i s' host' hf
        rw [hf] at hforward
        exact h.flush _ _ hforward

theorem kept_finish (h : KeptByWrites P) (s : Base64Sink σ) (host : Host) (hs : P s.inner host) :
    P (s.finish host).endpoint.inner (s.finish host).host := by
  unfold finish
  split
  · exact hs
  · exact kept_emitTail h s host hs

theorem kept_close (h : KeptByWrites P)
    (hclose : ∀ s host, P s host → P (ByteSink.close s host).endpoint (ByteSink.close s host).host)
    (s : Base64Sink σ) (host : Host) (hs : P s.inner host) :
    P (s.close host).endpoint.inner (s.close host).host := by
  have htail := kept_emitTail h s host hs
  by_cases hc : s.closed
  · rw [close_of_closed hc]
    exact hs
  · rw [close_of_open (by simpa using hc)]
    split
    · exact htail
    · exact hclose _ _ htail

end Base64Sink

namespace CipherSink

variable {κ σ : Type} [ByteCipher κ] [ByteSink σ] {P : σ → Host → Prop}

omit [ByteCipher κ] in
theorem kept_forward (h : KeptByWrites P) (s : CipherSink κ σ) (host : Host) (hs : P s.inner host) :
    P (s.forward host).endpoint.inner (s.forward host).host := by
  rw [forward_eq]
  exact h.drain _ _ _ hs

theorem kept_finalize (h : KeptByWrites P) (s : CipherSink κ σ) (host : Host) (hs : P s.inner host) :
    P (s.finalize host).endpoint.inner (s.finalize host).host := by
  have hforward := kept_forward h s host hs
  unfold finalize
  split
  · rename_i hf
    rw [hf] at hforward
    exact hforward
  · rename_i s' host' hf
    rw [hf] at hforward
    split
    · exact hforward
    · split
      · rename_i hc
        exact h.steps.check hforward hc
      · rename_i hc
        have hchecked := h.steps.check hforward hc
        split
        · exact hchecked
        · rename_i out cipher hu
          exact kept_forward h { s' with cipher, unsent := s'.unsent.append out } _
            (h.steps _ _ _ (.cipherFinalized ..) hchecked)

theorem kept_write (h : KeptByWrites P) (s : CipherSink κ σ) (n : Nat) (b : Buffer) (host : Host) (hs : P s.inner host) :
    P (s.write n b host).sink.inner (s.write n b host).host := by
  have hforward := kept_forward h s host hs
  unfold CipherSink.write
  split
  · exact hs
  · split
    · exact hs
    · split
      · exact hs
      · split
        · rename_i hf
          rw [hf] at hforward
          exact hforward
        · rename_i s' host' hf
          rw [hf] at hforward
          split
          · exact hforward
          · rename_i out cipher hu
            exact kept_forward h { s' with cipher, unsent := s'.unsent.append out } host' hforward

theorem kept (h : KeptByWrites P) : KeptByWrites fun (s : CipherSink κ σ) host => P s.inner host where
  steps s := h.steps s.inner
  write := kept_write h
  flush s host hs := by
    have hfinalize := kept_finalize h s host hs
    show P (s.flush host).endpoint.inner (s.flush host).host
    by_cases hr : s.closed = false ∧ s.flushed = false
    · rw [flush_of_unflushed hr.1 hr.2]
      split
      · exact h.flush _ _ hfinalize
      · exact hfinalize
    · rcases hc : s.closed with _ | _
      · have hf : s.flushed = true := by simpa [hc] using hr
        simpa [CipherSink.flush, hc, hf] using hs
      · simpa [CipherSink.flush, hc] using hs

theorem kept_close (h : KeptByWrites P)
    (hclose : ∀ s host, P s host → P (ByteSink.close s host).endpoint (ByteSink.close s host).host)
    (s : CipherSink κ σ) (host : Host) (hs : P s.inner host) :
    P (s.close host).endpoint.inner (s.close host).host := by
  have hfinalize := kept_finalize h s host hs
  by_cases hc : s.closed
  · rw [close_of_closed hc]
    exact hs
  · rw [close_of_open (by simpa using hc)]
    split
    · exact hfinalize
    · exact hclose _ _ hfinalize

end CipherSink

namespace SinkOver

variable {κ ℓ : Type} [ByteCipher κ] [ByteSink ℓ] {P : ℓ → Host → Prop}

/-- What writes and flushes of the innermost sink keep, those of the stack keep. -/
theorem kept (h : KeptByWrites P) (layers : List Layer) :
    KeptByWrites fun (s : SinkOver κ ℓ layers) host => P (leaf layers s) host := by
  induction layers with
  | nil => exact h
  | cons layer layers ih =>
    cases layer with
    | base64 => exact Base64Sink.kept ih
    | cipher => exact CipherSink.kept ih

theorem kept_finish (h : KeptByWrites P) {layers : List Layer} {s : SinkOver κ ℓ layers} {host : Host}
    {o : CallOutcome (SinkOver κ ℓ layers)} (ho : finish? layers s host = some o) (hs : P (leaf layers s) host) :
    P (leaf layers o.endpoint) o.host := by
  induction layers with
  | nil => cases ho
  | cons layer layers ih =>
    cases layer with
    | base64 =>
      obtain rfl := Option.some.inj ho
      exact Base64Sink.kept_finish (kept h layers) s host hs
    | cipher =>
      obtain ⟨o', ho', rfl⟩ := Option.map_eq_some_iff.1 ho
      exact ih ho' hs

theorem kept_close (h : KeptByWrites P)
    (hclose : ∀ s host, P s host → P (ByteSink.close s host).endpoint (ByteSink.close s host).host)
    (layers : List Layer) (s : SinkOver κ ℓ layers) (host : Host) (hs : P (leaf layers s) host) :
    P (leaf layers (ByteSink.close s host).endpoint) (ByteSink.close s host).host := by
  induction layers generalizing host with
  | nil => exact hclose _ _ hs
  | cons layer layers ih =>
    cases layer with
    | base64 => exact Base64Sink.kept_close (kept h layers) ih s host hs
    | cipher => exact CipherSink.kept_close (kept h layers) ih s host hs

end SinkOver

end Conduit
