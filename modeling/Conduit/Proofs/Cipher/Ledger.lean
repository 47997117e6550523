import Conduit.Memory.Sink
import Conduit.Proofs.Cipher.Chaining
import Conduit.Proofs.Cipher.Steps
import Conduit.Proofs.Receiving

/-!
# What a cipher has given and whether a success tells so

A ledger keeps the output of the cipher of a sink and how the stream of the cipher has ended.  Whatever calls are made,
the inner sink has received, and the sink holds as unsent, what the cipher has given (`Accounts`).

A call that ends the stream and succeeds has delivered all output.  That the stream has ended well it tells only if no
call before has seen the stream end with an error: the cipher counts as finalized then too, and all later calls pass the
failure over and do what the inner sink does (`finalized_of_success`).
-/

namespace Conduit

/-- The output of a cipher, and the result of ending its stream if that has been done. -/
structure CipherLedger where
  output : Bytes
  ending : Option (Except Error Bytes)
deriving DecidableEq, Repr

namespace CipherLedger

def empty : CipherLedger := ⟨[], none⟩

/-- The ledger when the cipher was called: output is added if there is some. -/
def give (l : CipherLedger) : Except Error Bytes → CipherLedger
  | .ok out => { l with output := l.output ++ out }
  | .error _ => l

/-- The ledger when the cipher has ended its stream with this result. -/
def finish (l : CipherLedger) (r : Except Error Bytes) : CipherLedger := { l.give r with ending := some r }

/-- The stream has ended with an error. -/
def Failed (l : CipherLedger) : Prop := ∃ e, l.ending = some (.error e)

/-- The stream has ended, and without an error. -/
def Succeeded (l : CipherLedger) : Prop := ∃ out, l.ending = some (.ok out)

end CipherLedger

namespace CipherSink

/-- A call on a cipher sink. -/
inductive Call where
  | write (n : Nat) (b : Buffer)
  | flush
  | close

variable {κ σ : Type} [ByteCipher κ] [ByteSink σ]

/-- Makes a call; what it leaves in the buffer of a write is that of `write`. -/
def perform (s : CipherSink κ σ) (call : Call) (host : Host) : CallOutcome (CipherSink κ σ) :=
  match call with
  | .write n b => ⟨(s.write n b host).result, (s.write n b host).sink, (s.write n b host).host⟩
  | .flush => s.flush host
  | .close => s.close host

/-- The call gets as far as to the end of the stream, unless that has been reached before. -/
def Reaches (s : CipherSink κ σ) (call : Call) : Prop :=
  match call with
  | .write _ _ => False
  | .flush => s.closed = false ∧ s.flushed = false
  | .close => s.closed = false

instance (s : CipherSink κ σ) (call : Call) : Decidable (s.Reaches call) :=
  match call with
  | .write _ _ => inferInstanceAs (Decidable False)
  | .flush => inferInstanceAs (Decidable (_ ∧ _))
  | .close => inferInstanceAs (Decidable (_ = _))

/-- What a call puts down in the ledger: the output for the bytes of a write, or how the stream has ended. -/
def record (s : CipherSink κ σ) (call : Call) (host : Host) (l : CipherLedger) : CipherLedger :=
  match call with
  | .write n b => if s.Granted n b host then l.give (ByteCipher.update s.cipher (b.take n)).1 else l
  | call => if s.Reaches call ∧ s.Ends host then l.finish (ByteCipher.finalize s.cipher).1 else l

/-- A run of calls; each finds the host in a state of its own. -/
def runCalls (calls : List (Call × Host)) (s : CipherSink κ σ) (l : CipherLedger) : CipherSink κ σ × CipherLedger :=
  match calls with
  | [] => (s, l)
  | (call, host) :: calls => runCalls calls (s.perform call host).endpoint (s.record call host l)

variable [ReceivingSink σ]

open ReceivingSink

/-- Output is that of the ledger, `base` had been received before; when the stream ends with an error, all output has
been delivered. -/
structure Accounts (base : Bytes) (s : CipherSink κ σ) (l : CipherLedger) : Prop where
  output : received s.inner ++ s.unsent.toList = base ++ l.output
  ending : ByteCipher.isFinalized s.cipher = l.ending.isSome
  unsent_of_failed : l.Failed → s.unsent.toList = []

variable {base : Bytes} {s : CipherSink κ σ} {l : CipherLedger}

/-! ### Moves -/

theorem Accounts.forward (h : Accounts base s l) (host : Host) : Accounts base (s.forward host).endpoint l := by
  rw [forward_eq]
  refine ⟨?_, h.ending, ?_⟩
  · rw [← h.output]
    exact received_append_drain ..
  · intro hf
    have hu := h.unsent_of_failed hf
    rw [drain_of_nil hu]
    exact hu

private theorem Accounts.give (h : Accounts base s l) {cipher : κ} {out : Bytes}
    (hc : ByteCipher.isFinalized cipher = ByteCipher.isFinalized s.cipher)
    (hs : ByteCipher.isFinalized s.cipher = false) :
    Accounts base { s with cipher, unsent := s.unsent.append out } (l.give (.ok out)) := by
  have hn : l.ending = none := by
    have hending := h.ending
    rw [hs] at hending
    simpa using hending.symm
  refine ⟨?_, ?_, ?_⟩
  · rw [CipherLedger.give, ← List.append_assoc, ← h.output, Buffer.toList_append, List.append_assoc]
  · rw [hc, h.ending]
    rfl
  · rintro ⟨e, he⟩
    rw [CipherLedger.give] at he
    rw [hn] at he
    cases he

private theorem Accounts.with_inner (h : Accounts base s l) {inner : σ} (hi : received inner = received s.inner)
    (flushed closed : Bool) : Accounts base { s with inner, flushed, closed } l :=
  ⟨by rw [← h.output, hi], h.ending, h.unsent_of_failed⟩

/-- When the cipher counts as finalized its stream has ended, one way or the other. -/
private theorem Accounts.ended (h : Accounts base s l) (hc : ByteCipher.isFinalized s.cipher = true) :
    l.Failed ∨ l.Succeeded := by
  obtain ⟨r, hl⟩ := Option.isSome_iff_exists.1 (h.ending.symm.trans hc)
  cases r with
  | error e =>
    left
    exact ⟨e, hl⟩
  | ok out =>
    right
    exact ⟨out, hl⟩

private theorem Accounts.isFinalized_of_failed (h : Accounts base s l) (hf : l.Failed) :
    ByteCipher.isFinalized s.cipher = true := by
  obtain ⟨e, he⟩ := hf
  rw [h.ending, he, Option.isSome_some]

/-- When the end of the stream is reached without an error, all output has been received; the stream has ended well
unless it had failed before. -/
theorem Accounts.of_finalize_ok (h : Accounts base s l) {host : Host} (hr : (s.finalize host).result = .ok ()) :
    (s.finalize host).endpoint.unsent.toList = [] ∧
      (l.Failed ∨ (if s.Ends host then l.finish (ByteCipher.finalize s.cipher).1 else l).Succeeded) := by
  refine ⟨unsent_of_finalize_ok hr, ?_⟩
  by_cases he : s.Ends host
  · rw [finalize_of_ends he] at hr
    rw [if_pos he]
    rcases hc : ByteCipher.finalize s.cipher with ⟨_ | out, cipher⟩
    · simp [hc] at hr
    · right
      exact ⟨out, rfl⟩
  · -- a call before has ended the stream, and it is not known how
    rw [if_neg he]
    exact h.ended ((finalize_of_not_ends he).2.1 hr).2

variable [OneShotCipher κ]

theorem Accounts.finalize (h : Accounts base s l) (host : Host) :
    Accounts base (s.finalize host).endpoint
      (if s.Ends host then l.finish (ByteCipher.finalize s.cipher).1 else l) := by
  by_cases he : s.Ends host
  · have hf := h.forward host
    have hu := unsent_of_forward_ok he.1
    have hfin := OneShotCipher.isFinalized_finalize s.cipher
    rw [if_pos he, finalize_of_ends he]
    rcases hc : ByteCipher.finalize s.cipher with ⟨_ | out, cipher⟩
    · -- the failure comes after all output was forwarded
      rw [hc] at hfin
      exact ⟨hf.output, hfin, fun _ => hu⟩
    · rw [hc] at hfin
      apply Accounts.forward
      refine ⟨?_, hfin, ?_⟩
      · rw [CipherLedger.finish, CipherLedger.give, ← List.append_assoc, ← hf.output, Buffer.toList_append,
          List.append_assoc]
      · rintro ⟨e, he⟩
        cases he
  · rw [if_neg he, (finalize_of_not_ends he).1]
    exact h.forward host

/-! ### Calls -/

private theorem Accounts.write (h : Accounts base s l) (n : Nat) (b : Buffer) (host : Host) :
    Accounts base (s.write n b host).sink (s.record (.write n b) host l) := by
  unfold record
  by_cases hg : s.Granted n b host
  · have hf := h.forward host
    have hfin : ByteCipher.isFinalized s.cipher = false := hg.2.2.1
    have hcipher := OneShotCipher.isFinalized_update s.cipher (b.take n)
    simp only [hg, if_true, write_of_granted hg]
    rcases hc : ByteCipher.update s.cipher (b.take n) with ⟨_ | out, cipher⟩
    · rw [hc] at hcipher
      exact ⟨hf.output, hcipher.trans h.ending, hf.unsent_of_failed⟩
    · rw [hc] at hcipher
      rw [← cipher_forward s host] at hcipher hfin
      exact (hf.give hcipher hfin).forward _
  · obtain ⟨-, -, hs | hs⟩ := write_of_not_granted hg
    · simp only [hg, if_false, hs]
      exact h
    · simp only [hg, if_false, hs]
      exact h.forward host

private theorem Accounts.flush (h : Accounts base s l) (host : Host) :
    Accounts base (s.flush host).endpoint (s.record .flush host l) := by
  have hfin := h.finalize host
  by_cases hr : s.closed = false ∧ s.flushed = false
  · simp only [record, Reaches, hr, and_self, true_and, flush_of_unflushed hr.1 hr.2]
    split
    · exact hfin.with_inner (received_flush ..) _ _
    · exact hfin
  · simp only [record, Reaches, hr, false_and, if_false, (flush_of_flushed hr host).2]
    exact h

private theorem Accounts.close (h : Accounts base s l) (host : Host) :
    Accounts base (s.close host).endpoint (s.record .close host l) := by
  have hfin := h.finalize host
  by_cases hc : s.closed = false
  · simp only [record, Reaches, hc, true_and, close_of_open hc]
    split
    · exact hfin
    · exact hfin.with_inner (received_close ..) _ _
  · have hclosed : s.closed = true := by simpa using hc
    simp only [record, Reaches, hc, close_of_closed hclosed]
    exact h

/-- No call breaks the account, whatever it results in. -/
theorem Accounts.perform (h : Accounts base s l) (call : Call) (host : Host) :
    Accounts base (s.perform call host).endpoint (s.record call host l) := by
  cases call with
  | write n b => exact h.write n b host
  | flush => exact h.flush host
  | close => exact h.close host

theorem Accounts.run (h : Accounts base s l) (calls : List (Call × Host)) :
    Accounts base (runCalls calls s l).1 (runCalls calls s l).2 := by
  induction calls generalizing s l with
  | nil => exact h
  | cons c calls ih =>
    have hc := h.perform c.1 c.2
    exact ih hc

omit [OneShotCipher κ] in
theorem Accounts.new (inner : σ) {cipher : κ} (h : ByteCipher.isFinalized cipher = false) :
    Accounts (received inner) (CipherSink.new inner cipher) .empty :=
  ⟨by simp [CipherSink.new, CipherLedger.empty], h, fun ⟨_, he⟩ => by cases he⟩

/-! ### Success -/

omit [ReceivingSink σ] [OneShotCipher κ] in
/-- A second flush of a sink, and that of a closed one, is refused. -/
theorem reaches_of_flush_ok {host : Host} (h : (s.perform .flush host).result = .ok ()) : s.Reaches .flush :=
  Decidable.byContradiction fun hr => (flush_of_flushed hr host).1 h

omit [ReceivingSink σ] [OneShotCipher κ] in
/-- A success that reaches the end of the stream is one of ending it, and leaves unsent what that leaves. -/
theorem finalize_of_perform_ok {call : Call} {host : Host} (hc : s.Reaches call)
    (h : (s.perform call host).result = .ok ()) :
    (s.finalize host).result = .ok () ∧ (s.perform call host).endpoint.unsent = (s.finalize host).endpoint.unsent := by
  cases call with
  | write n b => exact hc.elim
  | flush =>
    simp only [perform, flush_of_unflushed hc.1 hc.2] at h ⊢
    by_cases hr : (s.finalize host).result = .ok ()
    · simp [hr]
    · simp [hr] at h
  | close =>
    simp only [perform, close_of_open hc] at h ⊢
    cases hr : (s.finalize host).result with
    | ok => simp [retryable]
    | error e => cases he : e.retryable <;> simp [hr, he, settle] at h

omit [ReceivingSink σ] [OneShotCipher κ] in
private theorem record_of_reaches {call : Call} (hc : s.Reaches call) (host : Host) (l : CipherLedger) :
    s.record call host l = if s.Ends host then l.finish (ByteCipher.finalize s.cipher).1 else l := by
  cases call with
  | write n b => exact hc.elim
  | flush => simp [record, hc]
  | close => simp [record, hc]

omit [OneShotCipher κ] in
/-- After a failure nothing is left to deliver and ending the stream does nothing, successfully. -/
private theorem Accounts.finalize_of_failed (h : Accounts base s l) (hf : l.Failed) (host : Host) :
    s.finalize host = ⟨.ok (), s, host⟩ :=
  finalize_of_settled (h.isFinalized_of_failed hf) (h.unsent_of_failed hf) host

omit [OneShotCipher κ] in
private theorem Accounts.release_eq_ok (h : Accounts base s l) {host : Host} {inner : σ}
    (hr : (s.release host).1 = .ok inner) : received inner = base ++ l.output ∧ (l.Failed ∨ l.Succeeded) := by
  unfold release at hr
  split at hr
  · cases hr
  · rename_i hc
    split at hr
    · cases hr
    · rename_i hu
      have hu : s.unsent.toList = [] := Buffer.isEmpty_iff.1 (by simpa using hu)
      cases hr
      refine ⟨by rw [← h.output, hu, List.append_nil], ?_⟩
      exact h.ended (by simpa using hc)

/-- After any run, when a flush, the close of an open sink or `release` succeeds, the inner sink has received all output
of the cipher, and the stream has ended without an error unless a call before has ended it with one.  After such a
failure `release` succeeds, and flushing and closing succeed whenever the inner sink does. -/
theorem finalized_of_success (inner : σ) {cipher : κ} (hc : ByteCipher.isFinalized cipher = false)
    (calls : List (Call × Host)) :
    let s := (runCalls calls (.new inner cipher) .empty).1
    let l := (runCalls calls (.new inner cipher) .empty).2
    (∀ call host, call = .flush ∨ (call = .close ∧ s.closed = false) → (s.perform call host).result = .ok () →
      received (s.perform call host).endpoint.inner = received inner ++ (s.record call host l).output ∧
        (l.Failed ∨ (s.record call host l).Succeeded)) ∧
    (∀ host sink, (s.release host).1 = .ok sink →
      received sink = received inner ++ l.output ∧ (l.Failed ∨ l.Succeeded)) ∧
    (l.Failed → ∀ host, (s.release host).1 = .ok s.inner ∧
      (s.closed = false → (s.close host).result = (ByteSink.close s.inner host).result) ∧
      (s.closed = false → s.flushed = false → (s.flush host).result = (ByteSink.flush s.inner host).result)) := by
  intro s l
  have h : Accounts (received inner) s l := (Accounts.new inner hc).run calls
  refine ⟨?_, ?_, ?_⟩
  · intro call host hcall hr
    have hreach : s.Reaches call := by
      rcases hcall with rfl | ⟨rfl, ho⟩
      · exact reaches_of_flush_ok hr
      · exact ho
    obtain ⟨hfin, hunsent⟩ := finalize_of_perform_ok hreach hr
    obtain ⟨hu, hend⟩ := h.of_finalize_ok hfin
    have hout := (h.perform call host).output
    rw [hunsent, hu, List.append_nil] at hout
    refine ⟨hout, ?_⟩
    rw [record_of_reaches hreach]
    exact hend
  · intro host sink hr
    exact h.release_eq_ok hr
  · intro hf host
    refine ⟨?_, ?_, ?_⟩
    · simp [release, h.isFinalized_of_failed hf, Buffer.isEmpty_iff.2 (h.unsent_of_failed hf)]
    · intro ho
      rw [close_of_open ho, h.finalize_of_failed hf]
      rfl
    · intro ho hu
      rw [flush_of_unflushed ho hu, h.finalize_of_failed hf]
      rfl

/-- A sink that decrypts, to memory, a stream in which the last block is missing. -/
def sampleTruncated : CipherSink CbcDecryptor MemorySink :=
  .new (.empty .none) (.new (.masking [1, 2] (by decide)) [3, 4])

theorem release_after_failed_flush :
    let s := (sampleTruncated.perform .flush .start).endpoint
    ByteCipher.isFinalized sampleTruncated.cipher = false ∧
      (sampleTruncated.perform .flush .start).result = .error (.malformedStream (.partialBlock 0 2)) ∧
      (s.release .start).1 = .ok s.inner := by
  refine ⟨rfl, by decide +kernel, ?_⟩
  have hfresh : ByteCipher.isFinalized sampleTruncated.cipher = false := rfl
  have h := finalized_of_success (MemorySink.empty .none) hfresh [(.flush, .start)]
  exact (h.2.2 ⟨.malformedStream (.partialBlock 0 2), by decide +kernel⟩ .start).1

/-- After the failed flush a second one succeeds, and so does the close of the sink, which is still open. -/
theorem success_after_failed_flush :
    let s := (sampleTruncated.perform .flush .start).endpoint
    (sampleTruncated.perform .flush .start).result = .error (.malformedStream (.partialBlock 0 2)) ∧
      s.closed = false ∧ (s.perform .flush .start).result = .ok () ∧ (s.perform .close .start).result = .ok () := by
  decide +kernel

omit [ReceivingSink σ] in
private theorem not_failed_record {s : CipherSink CbcEncryptor σ} {l : CipherLedger} (h : ¬ l.Failed) (call : Call)
    (host : Host) : ¬ (s.record call host l).Failed := by
  have hfinish (hc : s.Ends host) : ¬ (l.finish s.cipher.finalize.1).Failed := by
    rintro ⟨e, he⟩
    have hfin : s.cipher.finalized = false := hc.2.1
    simp [CipherLedger.finish, CbcEncryptor.finalize, hfin] at he
  have hgive (r : Except Error Bytes) : ¬ (l.give r).Failed := by cases r <;> exact h
  unfold record
  split
  · split
    · exact hgive _
    · exact h
  · split
    · rename_i hc
      exact hfinish hc.2
    · exact h

omit [ReceivingSink σ] in
/-- The stream of an encryptor never ends with an error, so every success of its sink tells that it has ended well. -/
theorem not_failed_of_encryptor (inner : σ) (cipher : CbcEncryptor) (calls : List (Call × Host)) :
    ¬ (runCalls calls (.new inner cipher) .empty).2.Failed := by
  have hrun (s : CipherSink CbcEncryptor σ) (l : CipherLedger) (h : ¬ l.Failed) : ¬ (runCalls calls s l).2.Failed := by
    induction calls generalizing s l with
    | nil => exact h
    | cons c calls ih =>
      have hc := not_failed_record (s := s) h c.1 c.2
      exact ih _ _ hc
  apply hrun
  rintro ⟨_, he⟩
  cases he

end CipherSink

end Conduit
