import Conduit.Proofs.Cipher.Ledger
import Conduit.Proofs.Cipher.Turning

/-!
# What a cipher is fed and what becomes of its output

A recorded cipher keeps a record of all calls that are made on it, and is else the cipher that it records; so a sink
over it shows what its cipher is fed and gives back (`runTaken_mapCipher`).  Whatever calls are made on the sink and
however the inner sink fails, the cipher is fed what the writes have taken from the buffers of their callers, and what
it gives back is what the inner sink has received and, behind that, what is unsent (`conserves`).
-/

namespace Conduit

/-! ### Recorded ciphers -/

/-- A call of a cipher and what it gave back. -/
inductive CipherCall where
  | update (x : Bytes) (result : Except Error Bytes)
  | finalize (result : Except Error Bytes)
deriving DecidableEq

namespace CipherCall

/-- The bytes that the cipher was fed. -/
def fed : CipherCall → Bytes
  | update x _ => x
  | finalize _ => []

/-- The output of the cipher. -/
def given : CipherCall → Bytes
  | update _ (.ok out) => out
  | finalize (.ok out) => out
  | _ => []

end CipherCall

/-- A cipher with the calls that were made on it, in order. -/
structure Recorded (κ : Type) where
  cipher : κ
  calls : List CipherCall

namespace Recorded

variable {κ : Type}

/-- A cipher that is recorded from now on. -/
def start (cipher : κ) : Recorded κ := ⟨cipher, []⟩

/-- All bytes that the cipher was fed, in order. -/
def fed (c : Recorded κ) : Bytes := c.calls.flatMap CipherCall.fed

/-- All output of the cipher, in order. -/
def given (c : Recorded κ) : Bytes := c.calls.flatMap CipherCall.given

variable [ByteCipher κ]

def update (c : Recorded κ) (x : Bytes) : Except Error Bytes × Recorded κ :=
  let (result, cipher) := ByteCipher.update c.cipher x
  (result, ⟨cipher, c.calls ++ [.update x result]⟩)

def finalize (c : Recorded κ) : Except Error Bytes × Recorded κ :=
  let (result, cipher) := ByteCipher.finalize c.cipher
  (result, ⟨cipher, c.calls ++ [.finalize result]⟩)

instance : ByteCipher (Recorded κ) where
  blockSize c := ByteCipher.blockSize c.cipher
  update := update
  finalize := finalize
  isFinalized c := ByteCipher.isFinalized c.cipher
  slack c := ByteCipher.slack c.cipher
  isFinalized_finalize {c c' out} h := by
    obtain ⟨hr, rfl⟩ := Prod.mk.inj h
    exact ByteCipher.isFinalized_finalize (Prod.ext hr rfl)
  slack_update {c c' x out} h := by
    obtain ⟨hr, rfl⟩ := Prod.mk.inj h
    exact ByteCipher.slack_update (Prod.ext hr rfl)

/-- Without its record a recorded cipher is the one it records. -/
theorem hom_cipher : CipherHom (cipher : Recorded κ → κ) :=
  ⟨fun _ => rfl, fun _ => rfl, fun _ _ => rfl, fun _ => rfl⟩

theorem update_eq {c c' : Recorded κ} {x : Bytes} {r : Except Error Bytes} (h : ByteCipher.update c x = (r, c')) :
    c'.fed = c.fed ++ x ∧ c'.given = c.given ++ (CipherCall.update x r).given := by
  obtain ⟨rfl, rfl⟩ := Prod.mk.inj h
  simp [fed, given, CipherCall.fed]

theorem finalize_eq {c c' : Recorded κ} {r : Except Error Bytes} (h : ByteCipher.finalize c = (r, c')) :
    c'.fed = c.fed ∧ c'.given = c.given ++ (CipherCall.finalize r).given := by
  obtain ⟨rfl, rfl⟩ := Prod.mk.inj h
  simp [fed, given, CipherCall.fed]

end Recorded

namespace CipherSink

/-! ### Sinks over ciphers that do the same -/

section

variable {κ κ' σ : Type}

/-- The sink with another cipher. -/
def mapCipher (f : κ → κ') (s : CipherSink κ σ) : CipherSink κ' σ :=
  ⟨s.inner, f s.cipher, s.unsent, s.flushed, s.closed⟩

variable [ByteSink σ]

theorem forward_mapCipher (f : κ → κ') (s : CipherSink κ σ) (host : Host) :
    (s.mapCipher f).forward host = (s.forward host).lift (mapCipher f) := by
  rw [forward_eq, forward_eq]
  rfl

variable [ByteCipher κ] [ByteCipher κ'] {f : κ → κ'}

theorem finalize_mapCipher (hf : CipherHom f) (s : CipherSink κ σ) (host : Host) :
    (s.mapCipher f).finalize host = (s.finalize host).lift (mapCipher f) := by
  unfold finalize
  rw [forward_mapCipher]
  rcases s.forward host with ⟨_ | _, s, host⟩
  · rfl
  · by_cases hc : ByteCipher.isFinalized s.cipher
    · simp [CallOutcome.lift, mapCipher, hf.isFinalized, hc]
    · rcases ht : (ByteSink.timeout s.inner).check host with ⟨_ | _, host'⟩
      · simp [CallOutcome.lift, mapCipher, hf.isFinalized, hc, ht]
      · rcases hfin : ByteCipher.finalize s.cipher with ⟨_ | out, cipher⟩
        · simp [CallOutcome.lift, mapCipher, hf.isFinalized, hf.finalize, hc, ht, hfin]
        · simp only [CallOutcome.lift, mapCipher, hf.isFinalized, hf.finalize, hc, ht, hfin, Prod.map, id]
          exact forward_mapCipher f { s with cipher, unsent := s.unsent.append out } _

theorem write_mapCipher (hf : CipherHom f) (s : CipherSink κ σ) (n : Nat) (b : Buffer) (host : Host) :
    (s.mapCipher f).write n b host = (s.write n b host).lift (mapCipher f) := by
  have hfin : ByteCipher.isFinalized (s.mapCipher f).cipher = ByteCipher.isFinalized s.cipher := hf.isFinalized _
  have hclosed : (s.mapCipher f).closed = s.closed := rfl
  unfold write
  rw [forward_mapCipher, hfin, hclosed]
  rcases checkWrite b.length n with _ | _
  · rfl
  · by_cases hc : s.closed
    · simp [WriteOutcome.lift, hc]
    · by_cases hi : ByteCipher.isFinalized s.cipher
      · simp [WriteOutcome.lift, hc, hi]
      · rcases s.forward host with ⟨_ | _, s, host⟩
        · simp [WriteOutcome.lift, CallOutcome.lift, hc, hi]
        · rcases hu : ByteCipher.update s.cipher (b.take n) with ⟨_ | out, cipher⟩
          · simp [WriteOutcome.lift, CallOutcome.lift, mapCipher, hf.update, hc, hi, hu]
          · have hsent := forward_mapCipher f { s with cipher, unsent := s.unsent.append out } host
            simp only [mapCipher] at hsent
            simp [WriteOutcome.lift, CallOutcome.lift, mapCipher, hf.update, hc, hi, hu, hsent]

theorem flush_mapCipher (hf : CipherHom f) (s : CipherSink κ σ) (host : Host) :
    (s.mapCipher f).flush host = (s.flush host).lift (mapCipher f) := by
  unfold flush
  rw [finalize_mapCipher hf]
  by_cases hc : s.closed
  · simp [CallOutcome.lift, mapCipher, hc]
  · by_cases hd : s.flushed
    · simp [CallOutcome.lift, mapCipher, hc, hd]
    · rcases s.finalize host with ⟨_ | _, s', host'⟩
      · simp [CallOutcome.lift, mapCipher, hc, hd]
      · rcases hi : ByteSink.flush s'.inner host' with ⟨_ | _, inner, host''⟩
        · simp [CallOutcome.lift, mapCipher, hc, hd, hi]
        · simp [CallOutcome.lift, mapCipher, hc, hd, hi]

theorem close_mapCipher (hf : CipherHom f) (s : CipherSink κ σ) (host : Host) :
    (s.mapCipher f).close host = (s.close host).lift (mapCipher f) := by
  unfold close
  rw [finalize_mapCipher hf]
  by_cases hc : s.closed
  · simp [CallOutcome.lift, mapCipher, hc]
  · rcases s.finalize host with ⟨tail, s', host'⟩
    by_cases ht : retryable tail
    · simp [CallOutcome.lift, mapCipher, hc, ht]
    · simp [CallOutcome.lift, mapCipher, hc, ht]

theorem perform_mapCipher (hf : CipherHom f) (s : CipherSink κ σ) (call : Call) (host : Host) :
    (s.mapCipher f).perform call host = (s.perform call host).lift (mapCipher f) := by
  cases call with
  | write n b =>
    simp only [perform, write_mapCipher hf]
    rfl
  | flush => exact flush_mapCipher hf s host
  | close => exact close_mapCipher hf s host

end

/-! ### Runs of calls -/

section

variable {κ σ : Type} [ByteCipher κ] [ByteSink σ]

/-- The bytes that a call removes from the buffer of its caller. -/
def taken (s : CipherSink κ σ) (call : Call) (host : Host) : Bytes :=
  match call with
  | .write n b => b.take (b.length - (s.write n b host).buffer.length)
  | .flush => []
  | .close => []

/-- A run of calls, and the bytes that they remove from the buffers of their callers, in order; each call finds the host
in a state of its own. -/
def runTaken : (calls : List (Call × Host)) → CipherSink κ σ → CipherSink κ σ × Bytes
  | [], s => (s, [])
  | (call, host) :: calls, s =>
    let rest := runTaken calls (s.perform call host).endpoint
    (rest.1, s.taken call host ++ rest.2)

/-- Whether the cipher is recorded makes no difference to the sink. -/
theorem runTaken_mapCipher {κ' : Type} [ByteCipher κ'] {f : κ → κ'} (hf : CipherHom f) (calls : List (Call × Host))
    (s : CipherSink κ σ) :
    runTaken calls (s.mapCipher f) = ((runTaken calls s).1.mapCipher f, (runTaken calls s).2) := by
  induction calls generalizing s with
  | nil => rfl
  | cons c calls ih =>
    obtain ⟨call, host⟩ := c
    have htaken : (s.mapCipher f).taken call host = s.taken call host := by
      cases call with
      | write n b =>
        simp only [taken, write_mapCipher hf]
        rfl
      | flush => rfl
      | close => rfl
    have hrest := ih (s.perform call host).endpoint
    rw [runTaken, runTaken, perform_mapCipher hf, htaken]
    simp only [CallOutcome.lift, hrest]

theorem taken_write (s : CipherSink κ σ) (n : Nat) (b : Buffer) (host : Host) :
    s.taken (.write n b) host = if s.Granted n b host then b.take n else [] := by
  simp only [taken, buffer_write]
  split
  · rename_i hg
    have hn := (checkWrite_eq_ok_iff.1 hg.1).2
    rw [Buffer.length_drop, Nat.sub_sub_self hn]
  · simp [Buffer.take]

/-- A call that succeeds leaves nothing unsent, unless it is the close of a sink that is closed. -/
theorem unsent_of_perform_ok [ExactSink σ] {s : CipherSink κ σ} {call : Call} {host : Host}
    (hc : call = .close → s.closed = false) (h : (s.perform call host).result = .ok ()) :
    (s.perform call host).endpoint.unsent.toList = [] := by
  cases call with
  | write n b =>
    simp only [perform] at h ⊢
    by_cases hg : s.Granted n b host
    · rw [write_of_granted hg] at h ⊢
      rcases hu : ByteCipher.update s.cipher (b.take n) with ⟨_ | out, cipher⟩
      · simp [hu] at h
      · simp only [hu] at h ⊢
        exact unsent_of_forward_ok h
    · exact absurd h (write_of_not_granted hg).1
  | flush =>
    have hr : s.Reaches .flush := reaches_of_flush_ok h
    obtain ⟨hfin, hunsent⟩ := finalize_of_perform_ok hr h
    rw [hunsent]
    exact unsent_of_finalize_ok hfin
  | close =>
    have hr : s.Reaches .close := hc rfl
    obtain ⟨hfin, hunsent⟩ := finalize_of_perform_ok hr h
    rw [hunsent]
    exact unsent_of_finalize_ok hfin

end

/-! ### The account -/

section

variable {κ σ : Type} [ByteSink σ] [ReceivingSink σ]

open ReceivingSink

/-- The cipher was fed `fed`; of its output, what is not unsent was received behind `base`. -/
structure Conserves (base fed : Bytes) (s : CipherSink (Recorded κ) σ) : Prop where
  input : s.cipher.fed = fed
  output : received s.inner ++ s.unsent.toList = base ++ s.cipher.given

variable {base fed : Bytes} {s : CipherSink (Recorded κ) σ}

theorem Conserves.forward (h : Conserves base fed s) (host : Host) : Conserves base fed (s.forward host).endpoint := by
  rw [forward_eq]
  refine ⟨h.input, ?_⟩
  rw [← h.output]
  exact received_append_drain ..

/-- The cipher was called: its output is unsent now. -/
private theorem Conserves.give (h : Conserves base fed s) {x out : Bytes} {cipher : Recorded κ}
    (hfed : cipher.fed = s.cipher.fed ++ x) (hgiven : cipher.given = s.cipher.given ++ out) :
    Conserves base (fed ++ x) { s with cipher, unsent := s.unsent.append out } := by
  refine ⟨by rw [hfed, h.input], ?_⟩
  rw [Buffer.toList_append, ← List.append_assoc, h.output, hgiven, List.append_assoc]

/-- The cipher was called and gave nothing. -/
private theorem Conserves.giveNothing (h : Conserves base fed s) {x : Bytes} {cipher : Recorded κ}
    (hfed : cipher.fed = s.cipher.fed ++ x) (hgiven : cipher.given = s.cipher.given) :
    Conserves base (fed ++ x) { s with cipher } :=
  ⟨by rw [hfed, h.input], by rw [hgiven]; exact h.output⟩

private theorem Conserves.with_inner (h : Conserves base fed s) {inner : σ} (hi : received inner = received s.inner)
    (flushed closed : Bool) : Conserves base fed { s with inner, flushed, closed } :=
  ⟨h.input, by rw [← h.output, hi]⟩

theorem Conserves.new (inner : σ) (cipher : κ) :
    Conserves (received inner) [] (CipherSink.new inner (Recorded.start cipher)) :=
  ⟨rfl, rfl⟩

variable [ByteCipher κ]

theorem Conserves.finalize (h : Conserves base fed s) (host : Host) :
    Conserves base fed (s.finalize host).endpoint := by
  have hf := h.forward host
  by_cases he : s.Ends host
  · rw [finalize_of_ends he]
    rcases hc : ByteCipher.finalize s.cipher with ⟨e | out, cipher⟩
    · have hcipher := Recorded.finalize_eq hc
      rw [← cipher_forward s host, ← List.append_nil (s.forward host).endpoint.cipher.fed] at hcipher
      have := hf.giveNothing hcipher.1 (hcipher.2.trans (List.append_nil _))
      rwa [List.append_nil] at this
    · have hcipher := Recorded.finalize_eq hc
      rw [← cipher_forward s host, ← List.append_nil (s.forward host).endpoint.cipher.fed] at hcipher
      have := hf.give hcipher.1 hcipher.2
      rw [List.append_nil] at this
      exact this.forward _
  · rw [(finalize_of_not_ends he).1]
    exact hf

private theorem Conserves.write (h : Conserves base fed s) (n : Nat) (b : Buffer) (host : Host) :
    Conserves base (fed ++ s.taken (.write n b) host) (s.write n b host).sink := by
  rw [taken_write]
  by_cases hg : s.Granted n b host
  · have hf := h.forward host
    rw [if_pos hg, write_of_granted hg]
    rcases hc : ByteCipher.update s.cipher (b.take n) with ⟨e | out, cipher⟩
    · have hcipher := Recorded.update_eq hc
      rw [← cipher_forward s host] at hcipher
      exact hf.giveNothing hcipher.1 (hcipher.2.trans (List.append_nil _))
    · have hcipher := Recorded.update_eq hc
      rw [← cipher_forward s host] at hcipher
      exact (hf.give hcipher.1 hcipher.2).forward _
  · rw [if_neg hg, List.append_nil]
    obtain ⟨-, -, hs | hs⟩ := write_of_not_granted hg
    · rw [hs]
      exact h
    · rw [hs]
      exact h.forward host

private theorem Conserves.flush (h : Conserves base fed s) (host : Host) :
    Conserves base fed (s.flush host).endpoint := by
  have hfin := h.finalize host
  by_cases hr : s.closed = false ∧ s.flushed = false
  · rw [flush_of_unflushed hr.1 hr.2]
    split
    · exact hfin.with_inner (received_flush ..) _ _
    · exact hfin
  · rw [(flush_of_flushed hr host).2]
    exact h

private theorem Conserves.close (h : Conserves base fed s) (host : Host) :
    Conserves base fed (s.close host).endpoint := by
  have hfin := h.finalize host
  by_cases hc : s.closed = false
  · rw [close_of_open hc]
    split
    · exact hfin
    · exact hfin.with_inner (received_close ..) _ _
  · rw [close_of_closed (by simpa using hc)]
    exact h

theorem Conserves.perform (h : Conserves base fed s) (call : Call) (host : Host) :
    Conserves base (fed ++ s.taken call host) (s.perform call host).endpoint := by
  cases call with
  | write n b => exact h.write n b host
  | flush =>
    rw [taken, List.append_nil]
    exact h.flush host
  | close =>
    rw [taken, List.append_nil]
    exact h.close host

theorem Conserves.run (h : Conserves base fed s) (calls : List (Call × Host)) :
    Conserves base (fed ++ (runTaken calls s).2) (runTaken calls s).1 := by
  induction calls generalizing s fed with
  | nil =>
    rw [runTaken, List.append_nil]
    exact h
  | cons c calls ih =>
    have hrest := ih (h.perform c.1 c.2)
    rw [List.append_assoc] at hrest
    exact hrest

/-- After any run the cipher was fed what the writes have removed from the buffers of their callers, and of what it gave
back all that the inner sink has not received is unsent.  Whatever comes next, a write removes all of its bytes or none,
and only if it is granted: no earlier output is held up, the request is valid, the sink is open and the stream of the
cipher has not ended.  A call that succeeds leaves nothing unsent, unless it is the close of a sink that is closed. -/
theorem conserves (inner : σ) (cipher : κ) (calls : List (Call × Host)) :
    let s := (runTaken calls (.new inner (Recorded.start cipher))).1
    let removed := (runTaken calls (.new inner (Recorded.start cipher))).2
    runTaken calls (.new inner cipher) = (s.mapCipher Recorded.cipher, removed) ∧
      s.cipher.fed = removed ∧
      received s.inner ++ s.unsent.toList = received inner ++ s.cipher.given ∧
      (∀ n b host, (s.write n b host).buffer = if s.Granted n b host then b.drop n else b) ∧
      ∀ call host, (call = .close → s.closed = false) → (s.perform call host).result = .ok () →
        (s.perform call host).endpoint.unsent.toList = [] := by
  intro s removed
  have h : Conserves (received inner) ([] ++ removed) s := (Conserves.new inner cipher).run calls
  have hplain := runTaken_mapCipher Recorded.hom_cipher calls (CipherSink.new inner (Recorded.start cipher))
  refine ⟨hplain, h.input, h.output, ?_, ?_⟩
  · intro n b host
    exact buffer_write ..
  · intro call host hc hr
    exact unsent_of_perform_ok hc hr

/-- An encrypting sink over a channel that breaks at its first write. -/
def sampleBroken : CipherSink CbcEncryptor ChannelSink :=
  .new (.ofChannel (.ofScript [] [⟨⟨0⟩, .error (.ofDisk .brokenPipe)⟩] []) .none)
    (.new (.masking [1, 5] (by decide)) [3, 4])

/-- The first close fails for good and the second one is the first to succeed, with output that is still unsent. -/
theorem unsent_after_close :
    let s := (sampleBroken.perform .close .start).endpoint
    (sampleBroken.perform .close .start).result = .error (.io (.ofDisk .brokenPipe)) ∧
      (s.perform .close .start).result = .ok () ∧ (s.perform .close .start).endpoint.unsent.toList ≠ [] := by
  decide +kernel

end

end CipherSink

end Conduit
