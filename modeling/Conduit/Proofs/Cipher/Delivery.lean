import Conduit.Proofs.Cipher.Chaining
import Conduit.Proofs.Cipher.Steps
import Conduit.Proofs.Delivery

/-!
# What an encrypting sink will have delivered

The bytes to come are encrypted behind those that the cipher keeps back, until its stream has ended.  The close ends it,
and where that may be repeated, repeating it gives nothing more.
-/

namespace Conduit

namespace CipherSink

open DeliveringSink

variable {σ : Type} [ByteSink σ] [DeliveringSink σ]

/-- What is unsent is followed by what the encryptor has still to give, unless its stream has ended. -/
def Outlook (s : CipherSink CbcEncryptor σ) (y t : Bytes) : Prop :=
  if s.cipher.finalized then y = [] ∧ MayDeliver s.inner s.unsent.toList t
  else MayDeliver s.inner (s.unsent.toList ++ s.cipher.remaining y) t

/-- Nothing in the way of writing, and no whole block is kept back. -/
def Usable (s : CipherSink CbcEncryptor σ) : Prop :=
  s.closed = false ∧ s.cipher.pending.length < s.cipher.cipher.blockSize ∧ IsOpen s.inner

variable {s : CipherSink CbcEncryptor σ} {host : Host} {y t : Bytes}

theorem usable_forward (h : s.Usable) (host : Host) : (s.forward host).endpoint.Usable := by
  rw [forward_eq]
  exact ⟨h.1, h.2.1, isOpen_drain _ _ h.2.2⟩

theorem outlook_forward (ho : s.Usable) (host : Host) (h : (s.forward host).endpoint.Outlook y t) :
    s.Outlook y t := by
  rw [forward_eq] at h
  unfold Outlook at h ⊢
  cases hf : s.cipher.finalized with
  | true =>
    -- nothing is to come any more
    simp only [hf, if_true] at h ⊢
    obtain ⟨hy, hd⟩ := h
    refine ⟨hy, ?_⟩
    rw [← List.append_nil s.unsent.toList]
    apply mayDeliver_drain _ _ ho.2.2
    rwa [List.append_nil]
  | false =>
    simp only [hf, Bool.false_eq_true, if_false] at h ⊢
    exact mayDeliver_drain _ _ ho.2.2 h

/-- A granted write passes its bytes through the cipher, from those to come to what is unsent, and forwards. -/
private theorem write_cases {n : Nat} {b : Buffer} (ho : s.Usable) (hg : s.Granted n b host) :
    ∃ s' : CipherSink CbcEncryptor σ, s'.Usable ∧ (∀ {y t}, s'.Outlook y t → s.Outlook (b.take n ++ y) t) ∧
      (s.write n b host).sink = (s'.forward (s.forward host).host).endpoint ∧
        (s.write n b host).buffer = b.drop n := by
  have hf := usable_forward ho host
  have hfin : (s.forward host).endpoint.cipher.finalized = false := by
    rw [cipher_forward]
    exact hg.2.2.1
  obtain ⟨out, cipher, hu, hfin', hp, hy⟩ := CbcEncryptor.update_eq hfin (b.take n)
  have hu : ByteCipher.update s.cipher (b.take n) = (.ok out, cipher) := by rwa [cipher_forward] at hu
  rw [write_of_granted hg, hu]
  refine ⟨{ (s.forward host).endpoint with cipher, unsent := (s.forward host).endpoint.unsent.append out },
    ⟨hf.1, hp, hf.2.2⟩, ?_, rfl, rfl⟩
  intro y t h
  apply outlook_forward ho host
  unfold Outlook at h ⊢
  simp only [hfin, hfin', Bool.false_eq_true, if_false, Buffer.toList_append] at h ⊢
  rwa [← hy, ← List.append_assoc]

private theorem usable_write (h : s.Usable) (n : Nat) (b : Buffer) (host : Host) : (s.write n b host).sink.Usable := by
  by_cases hg : s.Granted n b host
  · obtain ⟨s', hs', -, hw, -⟩ := write_cases h hg
    rw [hw]
    exact usable_forward hs' _
  · obtain ⟨-, -, hs | hs⟩ := write_of_not_granted hg
    · rwa [hs]
    · rw [hs]
      exact usable_forward h host

private theorem outlook_write {n : Nat} {b : Buffer} (ho : s.Usable)
    (h : (s.write n b host).sink.Outlook ((s.write n b host).buffer.toList ++ y) t) : s.Outlook (b.toList ++ y) t := by
  by_cases hg : s.Granted n b host
  · obtain ⟨s', hs', hout, hw, hb⟩ := write_cases ho hg
    have hcut : b.toList ++ y = b.take n ++ (b.toList.drop n ++ y) := by
      rw [← List.append_assoc, Buffer.take, List.take_append_drop]
    rw [hw, hb, Buffer.toList_drop] at h
    rw [hcut]
    exact hout (outlook_forward hs' _ h)
  · obtain ⟨-, hb, hs | hs⟩ := write_of_not_granted hg
    · rwa [hb, hs] at h
    · rw [hb, hs] at h
      exact outlook_forward ho _ h

/-- Ending the stream adds all that the cipher has still to give to what is unsent, and forwards. -/
private theorem finalize_cases (ho : s.Usable) (host : Host) :
    ∃ s' : CipherSink CbcEncryptor σ, s'.Usable ∧ (∀ {t}, s'.Outlook [] t → s.Outlook [] t) ∧
      ∃ host', (s.finalize host).endpoint = (s'.forward host').endpoint ∧
        ((s.finalize host).result = .ok () → s'.cipher.finalized = true ∧ (s'.forward host').result = .ok ()) := by
  have hf := usable_forward ho host
  by_cases he : s.Ends host
  · have hfin : (s.forward host).endpoint.cipher.finalized = false := by
      rw [cipher_forward]
      exact he.2.1
    obtain ⟨cipher, hc, hfin', hp⟩ := CbcEncryptor.finalize_eq hfin hf.2.1
    have hc : ByteCipher.finalize s.cipher = (.ok ((s.forward host).endpoint.cipher.remaining []), cipher) := by
      rwa [cipher_forward] at hc ⊢
    rw [finalize_of_ends he, hc]
    refine ⟨{ (s.forward host).endpoint with
      cipher, unsent := (s.forward host).endpoint.unsent.append ((s.forward host).endpoint.cipher.remaining []) },
      ⟨hf.1, hp, hf.2.2⟩, ?_, _, rfl, fun h => ⟨hfin', h⟩⟩
    intro t h
    apply outlook_forward ho host
    unfold Outlook at h ⊢
    simp only [hfin, hfin', Bool.false_eq_true, if_false, if_true, Buffer.toList_append] at h ⊢
    exact h.2
  · -- nothing but forwarding is done
    obtain ⟨hs, hr⟩ := finalize_of_not_ends he
    refine ⟨s, ho, id, host, hs, ?_⟩
    intro h
    obtain ⟨hok, hfin⟩ := hr.1 h
    exact ⟨hfin, hok⟩

private theorem usable_finalize (h : s.Usable) (host : Host) : (s.finalize host).endpoint.Usable := by
  obtain ⟨s', hs', -, host', he, -⟩ := finalize_cases h host
  rw [he]
  exact usable_forward hs' _

private theorem outlook_finalize (ho : s.Usable) (host : Host) (h : (s.finalize host).endpoint.Outlook [] t) :
    s.Outlook [] t := by
  obtain ⟨s', hs', hout, host', he, -⟩ := finalize_cases ho host
  rw [he] at h
  exact hout (outlook_forward hs' _ h)

private theorem outlook_of_finalize_ok (ho : s.Usable) (hr : (s.finalize host).result = .ok ()) (inner : σ)
    (closed : Bool) : { (s.finalize host).endpoint with inner, closed }.Outlook [] t ↔ MayDeliver inner [] t := by
  obtain ⟨s', hs', -, host', he, hok⟩ := finalize_cases ho host
  obtain ⟨hfin, hr'⟩ := hok hr
  have hu := unsent_of_forward_ok hr'
  unfold Outlook
  rw [he]
  simp [cipher_forward, hfin, hu]

private theorem usable_close (h : s.Usable) (hr : retryable (s.close host).result) :
    (s.close host).endpoint.Usable := by
  have hf := usable_finalize h host
  rcases close_cases h.1 (.inr hr) with ⟨-, hc⟩ | ⟨o, rfl, -, hc⟩
  · rw [hc]
    exact hf
  · rw [hc] at hr ⊢
    exact ⟨by simpa using hr, hf.2.1, isOpen_close _ hf.2.2 hr⟩

private theorem outlook_close (ho : s.Usable) (hr : (s.close host).result = .ok () ∨ retryable (s.close host).result)
    (h : (s.close host).endpoint.Outlook [] t) : s.Outlook [] t := by
  refine outlook_finalize ho host ?_
  rcases close_cases ho.1 hr with ⟨-, hc⟩ | ⟨o, rfl, hfin, hc⟩
  · rwa [hc] at h
  · rw [hc] at h hr
    have hd := (outlook_of_finalize_ok ho hfin _ _).1 h
    exact (outlook_of_finalize_ok ho hfin _ _).2 (mayDeliver_close _ (usable_finalize ho host).2.2 hr hd)

private theorem outlook_delivered (ho : s.Usable) (h : (s.close host).result = .ok ()) :
    (s.close host).endpoint.Outlook [] (delivered (s.close host).endpoint.inner) := by
  rcases close_cases ho.1 (.inl h) with ⟨hr, hc⟩ | ⟨o, rfl, hfin, hc⟩
  · rw [← hc, h] at hr
    cases hr
  · rw [hc] at h ⊢
    exact (outlook_of_finalize_ok ho hfin _ _).2 (mayDeliver_delivered _ (usable_finalize ho host).2.2 h)

instance : DeliveringSink (CipherSink CbcEncryptor σ) where
  delivered s := delivered s.inner
  IsOpen := Usable
  MayDeliver := Outlook
  isOpen_write n b host h := usable_write h n b host
  mayDeliver_write _ _ _ := outlook_write
  isOpen_close _ := usable_close
  mayDeliver_close _ := outlook_close
  mayDeliver_delivered _ := outlook_delivered

end CipherSink

end Conduit
