import Conduit.Proofs.Base64.Ledger
import Conduit.Proofs.Cipher.Recording
import Conduit.Stack.Sink

/-!
# Metered sinks

A write takes bytes off the front of its buffer, and all it was asked to take if it succeeds.  All sinks keep to that,
a channel, a file, memory and every layer over whatever sink (`TakingSink`).  A metered sink remembers, in order, the
bytes it has taken, and is else the sink that is metered; so it is a receiving sink, and a layer over it does what it
does without the meter (`Base64Sink.runCalls_mapInner`, `CipherSink.runTaken_mapInner`).
-/

namespace Conduit

/-- A sink that takes bytes off the front of the buffer, by a write that succeeds all those it was asked to take. -/
class TakingSink (σ : Type) [ByteSink σ] : Prop where
  write_takes (s : σ) (n : Nat) (b : Buffer) (host : Host) : ∃ k ≤ n,
    (ByteSink.write s n b host).buffer.toList = b.toList.drop k ∧
      ((ByteSink.write s n b host).result = .ok () → k = n)

/-- A map that takes every sink to one that does the same. -/
structure SinkHom {σ τ : Type} [ByteSink σ] [ByteSink τ] (f : σ → τ) : Prop where
  write (s : σ) (n : Nat) (b : Buffer) (host : Host) :
    ByteSink.write (f s) n b host = (ByteSink.write s n b host).lift f
  flush (s : σ) (host : Host) : ByteSink.flush (f s) host = (ByteSink.flush s host).lift f
  close (s : σ) (host : Host) : ByteSink.close (f s) host = (ByteSink.close s host).lift f
  timeout (s : σ) : ByteSink.timeout (f s) = ByteSink.timeout s
  discard (s : σ) (host : Host) : ByteSink.discard (f s) host = ByteSink.discard s host

/-! ### Meters -/

/-- A sink with the bytes that it has taken so far, in order. -/
structure Metered (σ : Type) where
  sink : σ
  taken : Bytes

namespace Metered

variable {σ : Type}

/-- A sink that is metered from now on. -/
def start (sink : σ) : Metered σ := ⟨sink, []⟩

variable [ByteSink σ]

def write (s : Metered σ) (n : Nat) (b : Buffer) (host : Host) : WriteOutcome (Metered σ) :=
  let o := ByteSink.write s.sink n b host
  ⟨o.result, ⟨o.sink, s.taken ++ b.take (b.length - o.buffer.length)⟩, o.buffer, o.host⟩

instance : ByteSink (Metered σ) where
  write := write
  flush s host := (ByteSink.flush s.sink host).lift fun sink => { s with sink }
  close s host := (ByteSink.close s.sink host).lift fun sink => { s with sink }
  timeout s := ByteSink.timeout s.sink
  discard s host := ByteSink.discard s.sink host

/-- Without its meter a metered sink is the one that is metered. -/
theorem hom_sink : SinkHom (sink : Metered σ → σ) :=
  ⟨fun _ _ _ _ => rfl, fun _ _ => rfl, fun _ _ => rfl, fun _ => rfl, fun _ _ => rfl⟩

instance [TakingSink σ] : ReceivingSink (Metered σ) where
  received := taken
  write_takes s n b host := by
    obtain ⟨k, hk, hb, hok⟩ := TakingSink.write_takes s.sink n b host
    refine ⟨k, hk, ?_, hb, hok⟩
    show s.taken ++ b.toList.take (b.length - (ByteSink.write s.sink n b host).buffer.length) = _
    -- a buffer that holds less than `k` bytes has lost them all
    have hlost : (ByteSink.write s.sink n b host).buffer.length = b.length - k := by
      rw [← Buffer.length_toList, hb, List.length_drop, Buffer.length_toList]
    have hmin : b.length - (b.length - k) = min k b.toList.length := by
      rw [Buffer.length_toList]
      omega
    rw [hlost, hmin, ← List.take_eq_take_min]
  received_flush _ _ := rfl
  received_close _ _ := rfl

end Metered

/-! ### Sinks that take -/

instance (priority := low) {σ : Type} [ByteSink σ] [ReceivingSink σ] : TakingSink σ where
  write_takes s n b host := by
    obtain ⟨k, hk, -, hb, hok⟩ := ReceivingSink.write_takes s n b host
    exact ⟨k, hk, hb, hok⟩

namespace FileSink

private theorem count_le_of_writeAt {disk disk' : Disk} {file : Location} {position count : Nat} {data : Bytes}
    (h : disk.writeAt file position data = (.ok count, disk')) : count ≤ data.length := by
  unfold Disk.writeAt at h
  split at h
  · cases h
  · split at h
    · cases h
      exact Nat.le_refl _
    · cases h
      exact List.length_take_le' ..
    · cases h

private theorem file_deliver_takes (s : FileSink) (deadline : Deadline) (n : Nat) (b : Buffer) (host : Host) :
    ∃ k ≤ n, (s.deliver deadline n b host).buffer.toList = b.toList.drop k ∧
      ((s.deliver deadline n b host).result = .ok () → k = n) := by
  fun_induction deliver s deadline n b host with
  | case1 s b host => exact ⟨0, Nat.le_refl _, by simp⟩
  | case2 => exact ⟨0, Nat.zero_le _, by simp⟩
  | case3 => exact ⟨0, Nat.zero_le _, by simp⟩
  | case4 s n b host hn checked hd count disk h host' hc ih =>
    obtain ⟨k, hk, hb, hok⟩ := ih
    have hcount : count ≤ n ∧ count ≤ b.head.length := by
      have hle := count_le_of_writeAt h
      rw [List.length_take] at hle
      omega
    refine ⟨count + k, by omega, ?_, ?_⟩
    · rw [hb, Buffer.toList_dropHead, Nat.min_eq_left hcount.2, List.drop_drop]
    · intro hr
      have hlast := hok hr
      omega
  | case5 s n b host hn checked hd e disk h host' hi ih => exact ih
  | case6 => exact ⟨0, Nat.zero_le _, by simp⟩

instance : TakingSink FileSink where
  write_takes s n b host := by
    show ∃ k ≤ n, (s.write n b host).buffer.toList = _ ∧ ((s.write n b host).result = _ → _)
    unfold write
    split
    · exact ⟨0, Nat.zero_le _, by simp⟩
    · split
      · exact ⟨0, Nat.zero_le _, by simp⟩
      · exact file_deliver_takes ..

end FileSink

/-- A layer takes all it was asked to take or nothing, whatever it wraps. -/
private theorem takes_of_all_or_nothing {r : Except Error Unit} {n : Nat} {b b' : Buffer}
    (h : b' = b.drop n ∨ r ≠ .ok () ∧ b' = b) :
    ∃ k ≤ n, b'.toList = b.toList.drop k ∧ (r = .ok () → k = n) := by
  rcases h with rfl | ⟨hr, rfl⟩
  · exact ⟨n, Nat.le_refl _, Buffer.toList_drop .., fun _ => rfl⟩
  · exact ⟨0, Nat.zero_le _, rfl, fun hok => absurd hok hr⟩

instance {σ : Type} [ByteSink σ] : TakingSink (Base64Sink σ) where
  write_takes s n b host := by
    apply takes_of_all_or_nothing
    by_cases hr : checkWrite b.length n = .ok () ∧ s.Ready host
    · left
      show (s.write n b host).buffer = _
      rw [Base64Sink.write_of_ready hr.1 hr.2]
    · right
      have hw := Base64Sink.write_of_not_ready hr
      exact ⟨hw.1, hw.2.1⟩

instance {κ σ : Type} [ByteCipher κ] [ByteSink σ] : TakingSink (CipherSink κ σ) where
  write_takes s n b host := by
    apply takes_of_all_or_nothing
    by_cases hg : s.Granted n b host
    · left
      show (s.write n b host).buffer = _
      rw [CipherSink.buffer_write, if_pos hg]
    · right
      have hw := CipherSink.write_of_not_granted hg
      exact ⟨hw.1, hw.2.1⟩

instance {κ ℓ : Type} [ByteCipher κ] [ByteSink ℓ] [TakingSink ℓ] (layers : List Layer) :
    TakingSink (SinkOver κ ℓ layers) :=
  match layers with
  | [] => inferInstanceAs (TakingSink ℓ)
  | .base64 :: layers => inferInstanceAs (TakingSink (Base64Sink (SinkOver κ ℓ layers)))
  | .cipher :: layers => inferInstanceAs (TakingSink (CipherSink κ (SinkOver κ ℓ layers)))

/-! ### Layers over sinks that do the same -/

namespace Base64Sink

variable {σ τ : Type}

/-- The sink over another one. -/
def mapInner (f : σ → τ) (s : Base64Sink σ) : Base64Sink τ :=
  ⟨f s.inner, s.engine, s.pending, s.unsent, s.segmented, s.closed⟩

theorem encode_mapInner (f : σ → τ) (s : Base64Sink σ) (data : Bytes) :
    (s.mapInner f).encode data = ((s.encode data).1, (s.encode data).2.mapInner f) := rfl

theorem accept_mapInner (f : σ → τ) (s : Base64Sink σ) (data : Bytes) :
    (s.mapInner f).accept data = ((s.accept data).1, (s.accept data).2.mapInner f) := rfl

variable [ByteSink σ] [ByteSink τ] {f : σ → τ}

theorem forward_mapInner (hf : SinkHom f) (s : Base64Sink σ) (host : Host) :
    (s.mapInner f).forward host = (s.forward host).lift (mapInner f) := by
  have hunsent : (s.mapInner f).unsent = s.unsent := rfl
  have hinner : (s.mapInner f).inner = f s.inner := rfl
  unfold forward
  rw [hunsent, hinner, hf.write]
  split
  · rfl
  · rfl

theorem emitTail_mapInner (hf : SinkHom f) (s : Base64Sink σ) (host : Host) :
    (s.mapInner f).emitTail host = (s.emitTail host).lift (mapInner f) := by
  unfold emitTail
  rw [forward_mapInner hf]
  rcases s.forward host with ⟨_ | _, s', host'⟩
  · rfl
  · have hpending : (s'.mapInner f).pending = s'.pending := rfl
    have hencode := encode_mapInner f { s' with pending := [] } s'.pending
    simp only [mapInner] at hencode
    simp only [CallOutcome.lift, hpending]
    split
    · rfl
    · simp only [mapInner, hencode]
      rcases encode { s' with pending := [] } s'.pending with ⟨_ | _, s''⟩
      · rfl
      · exact forward_mapInner hf s'' _

theorem write_mapInner (hf : SinkHom f) (s : Base64Sink σ) (n : Nat) (b : Buffer) (host : Host) :
    (s.mapInner f).write n b host = (s.write n b host).lift (mapInner f) := by
  have hclosed : (s.mapInner f).closed = s.closed := rfl
  unfold write
  rw [forward_mapInner hf, hclosed]
  rcases checkWrite b.length n with _ | _
  · rfl
  · by_cases hc : s.closed
    · simp [WriteOutcome.lift, hc]
    · rcases s.forward host with ⟨_ | _, s', host'⟩
      · simp [WriteOutcome.lift, CallOutcome.lift, hc]
      · simp only [CallOutcome.lift, accept_mapInner, hc, if_false, Bool.false_eq_true]
        rcases s'.accept (b.take n) with ⟨_ | _, s''⟩
        · rfl
        · simp only [forward_mapInner hf]
          rfl

theorem flush_mapInner (hf : SinkHom f) (s : Base64Sink σ) (host : Host) :
    (s.mapInner f).flush host = (s.flush host).lift (mapInner f) := by
  have hclosed : (s.mapInner f).closed = s.closed := rfl
  unfold flush
  rw [forward_mapInner hf, hclosed]
  split
  · rfl
  · rcases s.forward host with ⟨_ | _, s', host'⟩
    · rfl
    · have hinner : (s'.mapInner f).inner = f s'.inner := rfl
      simp only [CallOutcome.lift, hinner, hf.flush]
      rfl

theorem finish_mapInner (hf : SinkHom f) (s : Base64Sink σ) (host : Host) :
    (s.mapInner f).finish host = (s.finish host).lift (mapInner f) := by
  have hclosed : (s.mapInner f).closed = s.closed := rfl
  unfold finish
  rw [emitTail_mapInner hf, hclosed]
  split
  · rfl
  · rfl

theorem close_mapInner (hf : SinkHom f) (s : Base64Sink σ) (host : Host) :
    (s.mapInner f).close host = (s.close host).lift (mapInner f) := by
  have hclosed : (s.mapInner f).closed = s.closed := rfl
  unfold close
  rw [emitTail_mapInner hf, hclosed]
  split
  · rfl
  · rcases s.emitTail host with ⟨tail, s', host'⟩
    have hinner : (s'.mapInner f).inner = f s'.inner := rfl
    simp only [CallOutcome.lift, hinner, hf.close]
    split
    · rfl
    · rfl

theorem perform_mapInner (hf : SinkHom f) (s : Base64Sink σ) (call : Call) (host : Host) :
    (s.mapInner f).perform call host = (s.perform call host).lift (mapInner f) := by
  cases call with
  | write n b =>
    simp only [perform, write_mapInner hf]
    rfl
  | flush => exact flush_mapInner hf s host
  | finish => exact finish_mapInner hf s host
  | close => exact close_mapInner hf s host

/-- Whether the inner sink is metered makes no difference to a Base64 sink and its ledger. -/
theorem runCalls_mapInner (hf : SinkHom f) (calls : List (Call × Host)) (s : Base64Sink σ) (l : TextLedger) :
    runCalls calls (s.mapInner f) l = ((runCalls calls s l).1.mapInner f, (runCalls calls s l).2) := by
  induction calls generalizing s l with
  | nil => rfl
  | cons c calls ih =>
    obtain ⟨call, host⟩ := c
    have hready : (s.mapInner f).Ready host ↔ s.Ready host := by
      unfold Ready
      rw [forward_mapInner hf]
      exact Iff.rfl
    have hrecord : (s.mapInner f).record call host l = s.record call host l := by
      cases call with
      | write n b =>
        simp only [record, hready]
        rfl
      | flush => rfl
      | finish => simp only [record, hready]
      | close => simp only [record, hready]
    rw [runCalls, runCalls, perform_mapInner hf, hrecord]
    exact ih ..

end Base64Sink

namespace CipherSink

variable {κ σ τ : Type}

/-- The sink over another one. -/
def mapInner (f : σ → τ) (s : CipherSink κ σ) : CipherSink κ τ := ⟨f s.inner, s.cipher, s.unsent, s.flushed, s.closed⟩

variable [ByteSink σ] [ByteSink τ] {f : σ → τ}

theorem forward_mapInner (hf : SinkHom f) (s : CipherSink κ σ) (host : Host) :
    (s.mapInner f).forward host = (s.forward host).lift (mapInner f) := by
  have hunsent : (s.mapInner f).unsent = s.unsent := rfl
  have hinner : (s.mapInner f).inner = f s.inner := rfl
  unfold forward
  rw [hunsent, hinner, hf.write]
  split
  · rfl
  · rfl

variable [ByteCipher κ]

theorem finalize_mapInner (hf : SinkHom f) (s : CipherSink κ σ) (host : Host) :
    (s.mapInner f).finalize host = (s.finalize host).lift (mapInner f) := by
  unfold finalize
  rw [forward_mapInner hf]
  rcases s.forward host with ⟨_ | _, s', host'⟩
  · rfl
  · have hcipher : (s'.mapInner f).cipher = s'.cipher := rfl
    have hinner : (s'.mapInner f).inner = f s'.inner := rfl
    simp only [CallOutcome.lift, hcipher, hinner, hf.timeout]
    split
    · rfl
    · rcases (ByteSink.timeout s'.inner).check host' with ⟨_ | _, checked⟩
      · rfl
      · rcases ByteCipher.finalize s'.cipher with ⟨_ | out, cipher⟩
        · rfl
        · exact forward_mapInner hf { s' with cipher, unsent := s'.unsent.append out } _

theorem write_mapInner (hf : SinkHom f) (s : CipherSink κ σ) (n : Nat) (b : Buffer) (host : Host) :
    (s.mapInner f).write n b host = (s.write n b host).lift (mapInner f) := by
  have hclosed : (s.mapInner f).closed = s.closed := rfl
  have hcipher : (s.mapInner f).cipher = s.cipher := rfl
  unfold write
  rw [forward_mapInner hf, hclosed, hcipher]
  rcases checkWrite b.length n with _ | _
  · rfl
  · by_cases hc : s.closed
    · simp [WriteOutcome.lift, hc]
    · by_cases hi : ByteCipher.isFinalized s.cipher
      · simp [WriteOutcome.lift, hc, hi]
      · rcases s.forward host with ⟨_ | _, s', host'⟩
        · simp [WriteOutcome.lift, CallOutcome.lift, hc, hi]
        · have hcipher' : (s'.mapInner f).cipher = s'.cipher := rfl
          simp only [CallOutcome.lift, hc, hi, hcipher', if_false, Bool.false_eq_true]
          rcases ByteCipher.update s'.cipher (b.take n) with ⟨_ | out, cipher⟩
          · rfl
          · have hsent := forward_mapInner hf { s' with cipher, unsent := s'.unsent.append out } host'
            simp only [mapInner] at hsent
            simp only [mapInner, hsent]
            rfl

theorem flush_mapInner (hf : SinkHom f) (s : CipherSink κ σ) (host : Host) :
    (s.mapInner f).flush host = (s.flush host).lift (mapInner f) := by
  have hclosed : (s.mapInner f).closed = s.closed := rfl
  have hflushed : (s.mapInner f).flushed = s.flushed := rfl
  unfold flush
  rw [finalize_mapInner hf, hclosed, hflushed]
  split
  · rfl
  · split
    · rfl
    · rcases s.finalize host with ⟨_ | _, s', host'⟩
      · rfl
      · have hinner : (s'.mapInner f).inner = f s'.inner := rfl
        simp only [CallOutcome.lift, hinner, hf.flush]
        rcases ByteSink.flush s'.inner host' with ⟨_ | _, inner, host''⟩
        · rfl
        · rfl

theorem close_mapInner (hf : SinkHom f) (s : CipherSink κ σ) (host : Host) :
    (s.mapInner f).close host = (s.close host).lift (mapInner f) := by
  have hclosed : (s.mapInner f).closed = s.closed := rfl
  unfold close
  rw [finalize_mapInner hf, hclosed]
  split
  · rfl
  · rcases s.finalize host with ⟨tail, s', host'⟩
    have hinner : (s'.mapInner f).inner = f s'.inner := rfl
    simp only [CallOutcome.lift, hinner, hf.close]
    split
    · rfl
    · rfl

theorem perform_mapInner (hf : SinkHom f) (s : CipherSink κ σ) (call : Call) (host : Host) :
    (s.mapInner f).perform call host = (s.perform call host).lift (mapInner f) := by
  cases call with
  | write n b =>
    simp only [perform, write_mapInner hf]
    rfl
  | flush => exact flush_mapInner hf s host
  | close => exact close_mapInner hf s host

/-- Whether the inner sink is metered makes no difference to a cipher sink and what it removes from buffers. -/
theorem runTaken_mapInner (hf : SinkHom f) (calls : List (Call × Host)) (s : CipherSink κ σ) :
    runTaken calls (s.mapInner f) = ((runTaken calls s).1.mapInner f, (runTaken calls s).2) := by
  induction calls generalizing s with
  | nil => rfl
  | cons c calls ih =>
    obtain ⟨call, host⟩ := c
    have htaken : (s.mapInner f).taken call host = s.taken call host := by
      cases call with
      | write n b =>
        simp only [taken, write_mapInner hf]
        rfl
      | flush => rfl
      | close => rfl
    have hrest := ih (s.perform call host).endpoint
    rw [runTaken, runTaken, perform_mapInner hf, htaken]
    simp only [CallOutcome.lift, hrest]

end CipherSink

end Conduit
