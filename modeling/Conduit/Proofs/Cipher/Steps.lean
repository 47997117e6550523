import Conduit.Cipher.Sink
import Conduit.Proofs.Receiving

/-!
# The steps of a cipher sink

Every call first offers what is unsent.  A write that is `Granted` then passes its bytes through the cipher
(`write_of_granted`, `write_of_not_granted`); `flush` and `close` call `finalize`, which reaches the cipher if the sink
`Ends` its stream (`finalize_of_ends`) and else does no more than that offer (`finalize_of_not_ends`).
-/

namespace Conduit

namespace CipherSink

variable {κ σ : Type} [ByteSink σ]

/-! ### Forwarding -/

theorem forward_eq (s : CipherSink κ σ) (host : Host) :
    s.forward host =
      let o := drain s.inner s.unsent host
      ⟨o.result, { s with inner := o.sink, unsent := o.buffer }, o.host⟩ := by
  unfold forward drain
  split <;> rfl

theorem unsent_of_forward_ok [ExactSink σ] {s : CipherSink κ σ} {host : Host} (h : (s.forward host).result = .ok ()) :
    (s.forward host).endpoint.unsent.toList = [] := by
  rw [forward_eq] at h ⊢
  exact buffer_of_drain_ok h

@[simp] theorem cipher_forward (s : CipherSink κ σ) (host : Host) : (s.forward host).endpoint.cipher = s.cipher := by
  rw [forward_eq]

/-! ### Writing -/

variable [ByteCipher κ]

/-- The write is granted: its bytes go through the cipher. -/
def Granted (s : CipherSink κ σ) (n : Nat) (b : Buffer) (host : Host) : Prop :=
  checkWrite b.length n = .ok () ∧ s.closed = false ∧ ByteCipher.isFinalized s.cipher = false ∧
    (s.forward host).result = .ok ()

instance (s : CipherSink κ σ) (n : Nat) (b : Buffer) (host : Host) : Decidable (s.Granted n b host) :=
  inferInstanceAs (Decidable (_ ∧ _))

/-- A granted write offers the output of the cipher; the bytes are taken, whatever becomes of it. -/
theorem write_of_granted {s : CipherSink κ σ} {n : Nat} {b : Buffer} {host : Host} (h : s.Granted n b host) :
    s.write n b host =
      match ByteCipher.update s.cipher (b.take n) with
      | (.error e, cipher) => ⟨.error e, { (s.forward host).endpoint with cipher }, b.drop n, (s.forward host).host⟩
      | (.ok out, cipher) =>
        let sent := (s.forward host).endpoint
        let o := { sent with cipher, unsent := sent.unsent.append out }.forward (s.forward host).host
        ⟨o.result, o.endpoint, b.drop n, o.host⟩ := by
  obtain ⟨hn, hc, hf, hr⟩ := h
  have hs := cipher_forward s host
  rcases ho : s.forward host with ⟨r, s₁, host₁⟩
  obtain rfl : r = .ok () := by simpa [ho] using hr
  have hs : s₁.cipher = s.cipher := by simpa [ho] using hs
  rcases hu : ByteCipher.update s.cipher (b.take n) with ⟨_ | out, cipher⟩
  · simp only [write, hn, hc, hf, ho, hs, hu, Bool.false_eq_true, if_false]
  · simp only [write, hn, hc, hf, ho, hs, hu, Bool.false_eq_true, if_false]

/-- Any other write fails and leaves the buffer alone; at most it has forwarded what was owed. -/
theorem write_of_not_granted {s : CipherSink κ σ} {n : Nat} {b : Buffer} {host : Host} (h : ¬ s.Granted n b host) :
    (s.write n b host).result ≠ .ok () ∧ (s.write n b host).buffer = b ∧
      ((s.write n b host).sink = s ∨ (s.write n b host).sink = (s.forward host).endpoint) := by
  unfold write
  split
  · simp
  · rename_i hn
    split
    · simp
    · rename_i hc
      split
      · simp
      · rename_i hf
        split
        · rename_i ho
          simp [ho]
        · -- none of the reasons to refuse has held
          rename_i ho
          have hg : s.Granted n b host := ⟨hn, by simpa using hc, by simpa using hf, by rw [ho]⟩
          exact absurd hg h

/-- A write takes all bytes of the request, if there are so many, or none of them. -/
theorem buffer_write (s : CipherSink κ σ) (n : Nat) (b : Buffer) (host : Host) :
    (s.write n b host).buffer = if s.Granted n b host then b.drop n else b := by
  split
  · rename_i hg
    rw [write_of_granted hg]
    split <;> rfl
  · rename_i hg
    exact (write_of_not_granted hg).2.1

instance : ExactSink (CipherSink κ σ) where
  buffer_of_write_ok {s n b host} h := by
    replace h : (s.write n b host).result = .ok () := h
    have hg : s.Granted n b host := Decidable.byContradiction fun hg => (write_of_not_granted hg).1 h
    show (s.write n b host).buffer.toList = b.toList.drop n
    rw [buffer_write, if_pos hg]
    exact Buffer.toList_drop ..

/-! ### Ending the stream -/

/-- The cipher is about to end its stream: it has not done so, nothing is owed any more and there is time left. -/
def Ends (s : CipherSink κ σ) (host : Host) : Prop :=
  (s.forward host).result = .ok () ∧ ByteCipher.isFinalized s.cipher = false ∧
    ((ByteSink.timeout (s.forward host).endpoint.inner).check (s.forward host).host).1 = .ok ()

instance (s : CipherSink κ σ) (host : Host) : Decidable (s.Ends host) := inferInstanceAs (Decidable (_ ∧ _))

/-- The host when the cipher ends its stream. -/
def endingHost (s : CipherSink κ σ) (host : Host) : Host :=
  ((ByteSink.timeout (s.forward host).endpoint.inner).check (s.forward host).host).2

theorem finalize_of_ends {s : CipherSink κ σ} {host : Host} (h : s.Ends host) :
    s.finalize host =
      match ByteCipher.finalize s.cipher with
      | (.error e, cipher) => ⟨.error e, { (s.forward host).endpoint with cipher }, s.endingHost host⟩
      | (.ok out, cipher) =>
        let sent := (s.forward host).endpoint
        { sent with cipher, unsent := sent.unsent.append out }.forward
          ((s.endingHost host).report (.cipherFinalized out.length)) := by
  obtain ⟨hr, hf, ht⟩ := h
  have hs := cipher_forward s host
  unfold endingHost
  rcases ho : s.forward host with ⟨r, s₁, host₁⟩
  obtain rfl : r = .ok () := by simpa [ho] using hr
  rw [ho] at ht
  have hs : s₁.cipher = s.cipher := by simpa [ho] using hs
  rcases hd : (ByteSink.timeout s₁.inner).check host₁ with ⟨r, host₂⟩
  obtain rfl : r = .ok () := by simpa [hd] using ht
  rcases hu : ByteCipher.finalize s.cipher with ⟨_ | out, cipher⟩
  · simp only [finalize, ho, hs, hf, hd, hu, Bool.false_eq_true, if_false]
  · simp only [finalize, ho, hs, hf, hd, hu, Bool.false_eq_true, if_false]

/-- Else the sink stays as it is but for what it forwards, and that is a success only if the stream had ended. -/
theorem finalize_of_not_ends {s : CipherSink κ σ} {host : Host} (h : ¬ s.Ends host) :
    (s.finalize host).endpoint = (s.forward host).endpoint ∧
      ((s.finalize host).result = .ok () ↔
        (s.forward host).result = .ok () ∧ ByteCipher.isFinalized s.cipher = true) := by
  have hs := cipher_forward s host
  unfold finalize
  split
  · rename_i ho
    simp [ho]
  · rename_i s₁ host₁ ho
    have hs : s₁.cipher = s.cipher := by simpa [ho] using hs
    rw [hs]
    split
    · rename_i hf
      simp [ho, hf]
    · rename_i hf
      split
      · simp [ho, hf]
      · rename_i hd
        have he : s.Ends host := ⟨by rw [ho], by simpa using hf, by simp [ho, hd]⟩
        exact absurd he h

theorem finalize_of_finalized {s : CipherSink κ σ} (h : ByteCipher.isFinalized s.cipher = true) (host : Host) :
    s.finalize host = s.forward host := by
  have hs := cipher_forward s host
  unfold finalize
  split
  · rename_i ho
    rw [ho]
  · rename_i s₁ host₁ ho
    have hs : s₁.cipher = s.cipher := by simpa [ho] using hs
    rw [hs, if_pos h, ho]

/-- When the stream of the cipher has ended and nothing is unsent, ending it does nothing. -/
theorem finalize_of_settled {s : CipherSink κ σ} (hf : ByteCipher.isFinalized s.cipher = true)
    (hu : s.unsent.toList = []) (host : Host) : s.finalize host = ⟨.ok (), s, host⟩ := by
  rw [finalize_of_finalized hf, forward_eq, drain_of_nil hu]

/-! ### Flushing and closing -/

theorem flush_of_unflushed {s : CipherSink κ σ} (hc : s.closed = false) (hf : s.flushed = false) (host : Host) :
    s.flush host =
      if (s.finalize host).result = .ok () then
        let o := ByteSink.flush (s.finalize host).endpoint.inner (s.finalize host).host
        ⟨o.result, { (s.finalize host).endpoint with
          inner := o.endpoint, flushed := (s.finalize host).endpoint.flushed || o.result = .ok () }, o.host⟩
      else s.finalize host := by
  unfold flush
  simp only [hc, hf, Bool.false_eq_true, if_false]
  rcases s.finalize host with ⟨_ | _, s₁, host₁⟩
  · simp
  · rcases hi : ByteSink.flush s₁.inner host₁ with ⟨_ | _, inner, host₂⟩ <;> simp [hi]

/-- Closing an open sink ends its stream, then closes the inner sink unless that may be repeated. -/
theorem close_of_open {s : CipherSink κ σ} (h : s.closed = false) (host : Host) :
    s.close host =
      if retryable (s.finalize host).result then s.finalize host
      else
        let tail := s.finalize host
        let o := ByteSink.close tail.endpoint.inner tail.host
        ⟨(settle tail.result o.result).1,
          { tail.endpoint with inner := o.endpoint, closed := (settle tail.result o.result).2 }, o.host⟩ := by
  unfold close
  rw [if_neg (by simp [h])]

/-- A second flush changes nothing, nor does one of a closed sink. -/
theorem flush_of_flushed {s : CipherSink κ σ} (h : ¬ (s.closed = false ∧ s.flushed = false)) (host : Host) :
    (s.flush host).result ≠ .ok () ∧ (s.flush host).endpoint = s := by
  unfold flush
  by_cases hc : s.closed
  · simp [hc]
  · have hf : s.flushed = true := by simpa [hc] using h
    simp [hc, hf]

theorem close_of_closed {s : CipherSink κ σ} (h : s.closed = true) (host : Host) :
    s.close host = ⟨.ok (), s, host⟩ := by
  unfold close
  rw [if_pos h]

/-- When ending the stream succeeds, all output has been accepted. -/
theorem unsent_of_finalize_ok [ExactSink σ] {s : CipherSink κ σ} {host : Host}
    (h : (s.finalize host).result = .ok ()) : (s.finalize host).endpoint.unsent.toList = [] := by
  by_cases he : s.Ends host
  · rw [finalize_of_ends he] at h ⊢
    rcases hc : ByteCipher.finalize s.cipher with ⟨_ | out, cipher⟩
    · simp [hc] at h
    · simp only [hc] at h ⊢
      exact unsent_of_forward_ok h
  · obtain ⟨hs, hiff⟩ := finalize_of_not_ends he
    rw [hs]
    exact unsent_of_forward_ok (hiff.1 h).1

theorem isFinalized_of_finalize_ok {s : CipherSink κ σ} {host : Host} (h : (s.finalize host).result = .ok ()) :
    ByteCipher.isFinalized (s.finalize host).endpoint.cipher = true := by
  by_cases he : s.Ends host
  · rw [finalize_of_ends he] at h ⊢
    rcases hc : ByteCipher.finalize s.cipher with ⟨_ | out, cipher⟩
    · simp [hc] at h
    · simp only [cipher_forward]
      exact ByteCipher.isFinalized_finalize hc
  · obtain ⟨hs, hiff⟩ := finalize_of_not_ends he
    rw [hs, cipher_forward]
    exact (hiff.1 h).2

theorem close_cases {s : CipherSink κ σ} {host : Host} (ho : s.closed = false)
    (hr : (s.close host).result = .ok () ∨ retryable (s.close host).result) :
    (retryable (s.finalize host).result ∧ s.close host = s.finalize host) ∨
      ∃ o, o = ByteSink.close (s.finalize host).endpoint.inner (s.finalize host).host ∧
        (s.finalize host).result = .ok () ∧ s.close host = ⟨o.result,
          { (s.finalize host).endpoint with inner := o.endpoint, closed := !retryable o.result }, o.host⟩ := by
  rw [close_of_open ho] at hr ⊢
  by_cases ht : retryable (s.finalize host).result
  · left
    exact ⟨ht, if_pos ht⟩
  · right
    rw [if_neg ht] at hr ⊢
    obtain ⟨hok, hs⟩ := settle_cases ht hr
    refine ⟨_, rfl, hok, ?_⟩
    simp only [hs]

end CipherSink

end Conduit
