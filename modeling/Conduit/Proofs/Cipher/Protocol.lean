import Conduit.Proofs.Cipher.Recording
import Conduit.Proofs.Farewell

/-!
# What calls a cipher gets

A cipher may be given any updates and then be asked for its end, once, and no call after that.  Whatever calls are made
on a sink or a source over it, and however what they wrap fails, its cipher gets updates and an end only as long as its
stream has not ended (`cipher_kept_perform`), so all calls that it gets are of that form, continued from the state in
which it came.  So a strict cipher, one that complains of an ended stream only when its stream has ended, never does
so.

A sink ends the stream exactly if nothing is owed any more and there is time left (`Ends`), a source exactly if the
inner source has come to its end in the same read and there is time left (`Drains`).  The chained ciphers are strict,
so all this holds of them (`ends_once`).
-/

namespace Conduit

/-- A one-shot cipher that tells that its stream has ended only when it has. -/
class StrictCipher (κ : Type) [ByteCipher κ] : Prop extends OneShotCipher κ where
  update_accepted {c : κ} (h : ByteCipher.isFinalized c = false) (x : Bytes) :
    (ByteCipher.update c x).1 ≠ .error (.malformedStream .alreadyFinalized)
  finalize_accepted {c : κ} (h : ByteCipher.isFinalized c = false) :
    (ByteCipher.finalize c).1 ≠ .error (.malformedStream .alreadyFinalized)

instance : StrictCipher CbcEncryptor where
  update_accepted {c} h x := by
    obtain ⟨out, c', hu, -⟩ := CbcEncryptor.update_eq h x
    show (c.update x).1 ≠ _
    rw [hu]
    simp
  finalize_accepted {c} h := by
    have hc : c.finalized = false := h
    show c.finalize.1 ≠ _
    rw [CbcEncryptor.finalize, if_neg (by simp [hc])]
    simp

instance : StrictCipher CbcDecryptor where
  update_accepted {c} h x := by
    obtain ⟨out, c', hu, -⟩ := CbcDecryptor.update_eq h x
    show (c.update x).1 ≠ _
    rw [hu]
    simp
  finalize_accepted {c} h := by
    have hc : c.finalized = false := h
    show c.finalize.1 ≠ _
    rw [CbcDecryptor.finalize, if_neg (by simp [hc])]
    split
    · simp
    · simp only
      split
      · simp
      · simp

/-- What is known of a cipher is kept by the calls that it may get before the end of its stream. -/
structure KeptByCalls {κ : Type} [ByteCipher κ] (P : κ → Prop) : Prop where
  update {c : κ} (ho : ByteCipher.isFinalized c = false) (x : Bytes) (h : P c) : P (ByteCipher.update c x).2
  finalize {c : κ} (ho : ByteCipher.isFinalized c = false) (h : P c) : P (ByteCipher.finalize c).2

/-! ### The protocol -/

/-- What the cipher gave back. -/
def CipherCall.result : CipherCall → Except Error Bytes
  | update _ r => r
  | finalize r => r

namespace Recorded

variable {κ : Type}

/-- The cipher was asked for the end of its stream. -/
def Ended (c : Recorded κ) : Prop := ∃ r, .finalize r ∈ c.calls

variable [ByteCipher κ]

/-- The calls on the cipher that came as `first` are updates and, behind them, at most one for the end of the stream;
there are none if the stream had ended.  None of them was told that it had, and it has now if that is what was asked. -/
structure Obeys (first : κ) (c : Recorded κ) : Prop where
  word : ∃ updates ending, c.calls = updates ++ ending ∧ (∀ call ∈ updates, ∃ x r, call = .update x r) ∧
    (ending = [] ∨ ∃ r, ending = [.finalize r])
  idle : ByteCipher.isFinalized first = true → c.calls = []
  accepted : ∀ call ∈ c.calls, call.result ≠ .error (.malformedStream .alreadyFinalized)
  ended : ByteCipher.isFinalized c.cipher = true ↔ ByteCipher.isFinalized first = true ∨ c.Ended

variable {first : κ} {c : Recorded κ}

theorem ended_update (c : Recorded κ) (x : Bytes) : (ByteCipher.update c x).2.Ended ↔ c.Ended := by
  show (∃ r, CipherCall.finalize r ∈ c.calls ++ [.update x (ByteCipher.update c.cipher x).1]) ↔ _
  simp [Ended]

theorem ended_finalize (c : Recorded κ) : (ByteCipher.finalize c).2.Ended := by
  refine ⟨(ByteCipher.finalize c.cipher).1, ?_⟩
  show _ ∈ c.calls ++ [.finalize _]
  exact List.mem_append_right _ (List.mem_singleton.2 rfl)

theorem Obeys.start (cipher : κ) : Obeys cipher (start cipher) where
  word := ⟨[], [], rfl, fun _ h => absurd h List.not_mem_nil, .inl rfl⟩
  idle _ := rfl
  accepted _ h := absurd h List.not_mem_nil
  ended := by simp [Recorded.start, Ended]

/-- As long as the stream has not ended, there were only updates. -/
private theorem Obeys.updates (h : Obeys first c) (ho : ByteCipher.isFinalized c.cipher = false) :
    ByteCipher.isFinalized first = false ∧ ∀ call ∈ c.calls, ∃ x r, call = .update x r := by
  have hnot : ¬ (ByteCipher.isFinalized first = true ∨ c.Ended) := by
    rw [← h.ended]
    simp [ho]
  obtain ⟨hfirst, hended⟩ := not_or.1 hnot
  refine ⟨by simpa using hfirst, ?_⟩
  obtain ⟨updates, ending, hcalls, hupdates, hending⟩ := h.word
  rcases hending with rfl | ⟨r, rfl⟩
  · rw [hcalls, List.append_nil]
    exact hupdates
  · refine absurd ⟨r, ?_⟩ hended
    rw [hcalls]
    exact List.mem_append_right _ (List.mem_singleton.2 rfl)

variable [StrictCipher κ]

/-- An update before the end of the stream obeys the protocol. -/
theorem Obeys.update (h : Obeys first c) (ho : ByteCipher.isFinalized c = false) (x : Bytes) :
    Obeys first (ByteCipher.update c x).2 := by
  obtain ⟨hfirst, hupdates⟩ := h.updates ho
  have hcalls : (ByteCipher.update c x).2.calls = c.calls ++ [.update x (ByteCipher.update c.cipher x).1] := rfl
  have hresult := StrictCipher.update_accepted (c := c.cipher) ho x
  constructor
  · refine ⟨_, [], (List.append_nil _).symm, ?_, .inl rfl⟩
    rw [hcalls]
    exact List.forall_mem_append.2 ⟨hupdates, List.forall_mem_singleton.2 ⟨x, _, rfl⟩⟩
  · intro hf
    rw [hfirst] at hf
    cases hf
  · rw [hcalls]
    exact List.forall_mem_append.2 ⟨h.accepted, List.forall_mem_singleton.2 hresult⟩
  · rw [ended_update, ← h.ended]
    exact Bool.eq_iff_iff.1 (OneShotCipher.isFinalized_update c.cipher x)

/-- So does the end of the stream. -/
theorem Obeys.finalize (h : Obeys first c) (ho : ByteCipher.isFinalized c = false) :
    Obeys first (ByteCipher.finalize c).2 := by
  obtain ⟨hfirst, hupdates⟩ := h.updates ho
  have hcalls : (ByteCipher.finalize c).2.calls = c.calls ++ [.finalize (ByteCipher.finalize c.cipher).1] := rfl
  have hresult := StrictCipher.finalize_accepted (c := c.cipher) ho
  constructor
  · exact ⟨c.calls, _, hcalls, hupdates, .inr ⟨_, rfl⟩⟩
  · intro hf
    rw [hfirst] at hf
    cases hf
  · rw [hcalls]
    exact List.forall_mem_append.2 ⟨h.accepted, List.forall_mem_singleton.2 hresult⟩
  · have hfin : ByteCipher.isFinalized (ByteCipher.finalize c).2.cipher = true :=
      OneShotCipher.isFinalized_finalize c.cipher
    simp only [hfin, ended_finalize, or_true]

theorem Obeys.kept (first : κ) : KeptByCalls fun c : Recorded κ => c.Obeys first where
  update ho x h := h.update ho x
  finalize ho h := h.finalize ho

end Recorded

/-! ### Sinks -/

namespace CipherSink

variable {κ σ : Type} [ByteCipher κ] [ByteSink σ]

theorem cipher_after_finalize (s : CipherSink κ σ) (host : Host) :
    (s.finalize host).endpoint.cipher = if s.Ends host then (ByteCipher.finalize s.cipher).2 else s.cipher := by
  split
  · rename_i he
    rw [finalize_of_ends he]
    split
    · rename_i hc
      rw [hc]
    · rename_i hc
      rw [cipher_forward, hc]
  · rename_i he
    rw [(finalize_of_not_ends he).1, cipher_forward]

private theorem cipher_write (s : CipherSink κ σ) (n : Nat) (b : Buffer) (host : Host) :
    (s.write n b host).sink.cipher =
      if s.Granted n b host then (ByteCipher.update s.cipher (b.take n)).2 else s.cipher := by
  split
  · rename_i hg
    rw [write_of_granted hg]
    split
    · rename_i hc
      rw [hc]
    · rename_i hc
      rw [hc]
      exact cipher_forward ..
  · rename_i hg
    obtain ⟨-, -, hs | hs⟩ := write_of_not_granted hg
    · rw [hs]
    · rw [hs, cipher_forward]

/-- A call that gets to the end of the stream makes of the cipher what ending the stream makes of it. -/
private theorem cipher_of_reaches {s : CipherSink κ σ} {call : Call} (hr : s.Reaches call) (host : Host) :
    (s.perform call host).endpoint.cipher = (s.finalize host).endpoint.cipher := by
  cases call with
  | write n b => exact hr.elim
  | flush =>
    rw [perform, flush_of_unflushed hr.1 hr.2]
    split <;> rfl
  | close =>
    rw [perform, close_of_open hr]
    split <;> rfl

/-- What a call makes of the cipher. -/
theorem cipher_perform (s : CipherSink κ σ) (call : Call) (host : Host) :
    (s.perform call host).endpoint.cipher =
      match call with
      | .write n b => if s.Granted n b host then (ByteCipher.update s.cipher (b.take n)).2 else s.cipher
      | call => if s.Reaches call ∧ s.Ends host then (ByteCipher.finalize s.cipher).2 else s.cipher := by
  cases call with
  | write n b => exact cipher_write ..
  | flush =>
    by_cases hr : s.Reaches .flush
    · simp only [cipher_of_reaches hr, cipher_after_finalize, hr, true_and]
    · simp only [hr, false_and, if_false, perform, (flush_of_flushed hr host).2]
  | close =>
    by_cases hr : s.Reaches .close
    · simp only [cipher_of_reaches hr, cipher_after_finalize, hr, true_and]
    · have hc : s.closed = true := by simpa [Reaches] using hr
      simp only [hr, false_and, if_false, perform, close_of_closed hc]

/-- What the cipher's calls keep before the end of its stream, the calls on the sink keep. -/
theorem cipher_kept_perform {P : κ → Prop} (hP : KeptByCalls P) {s : CipherSink κ σ} (h : P s.cipher) (call : Call)
    (host : Host) : P (s.perform call host).endpoint.cipher := by
  have hends : P (if s.Reaches call ∧ s.Ends host then (ByteCipher.finalize s.cipher).2 else s.cipher) := by
    split
    · rename_i hr
      exact hP.finalize hr.2.2.1 h
    · exact h
  rw [cipher_perform]
  cases call with
  | write n b =>
    simp only
    split
    · rename_i hg
      exact hP.update hg.2.2.1 _ h
    · exact h
  | flush => exact hends
  | close => exact hends

theorem cipher_kept_run {P : κ → Prop} (hP : KeptByCalls P) {s : CipherSink κ σ} (h : P s.cipher)
    (calls : List (Call × Host)) : P (runTaken calls s).1.cipher := by
  induction calls generalizing s with
  | nil => exact h
  | cons c calls ih =>
    have hc := cipher_kept_perform hP h c.1 c.2
    exact ih hc

/-- A call asks for the end of the stream exactly if it gets there and nothing is in its way. -/
theorem ended_perform (s : CipherSink (Recorded κ) σ) (call : Call) (host : Host) :
    (s.perform call host).endpoint.cipher.Ended ↔ s.cipher.Ended ∨ s.Reaches call ∧ s.Ends host := by
  have hends : (if s.Reaches call ∧ s.Ends host then (ByteCipher.finalize s.cipher).2 else s.cipher).Ended ↔
      s.cipher.Ended ∨ s.Reaches call ∧ s.Ends host := by
    split
    · rename_i hr
      simp [Recorded.ended_finalize, hr]
    · rename_i hr
      simp [hr]
  rw [cipher_perform]
  cases call with
  | write n b =>
    simp only [Reaches, false_and, or_false]
    split
    · exact Recorded.ended_update ..
    · exact Iff.rfl
  | flush => exact hends
  | close => exact hends

/-- The sink after a run in which its cipher is recorded. -/
def recorded (s : CipherSink κ σ) (calls : List (Call × Host)) : CipherSink (Recorded κ) σ :=
  (runTaken calls (s.mapCipher Recorded.start)).1

/-- After a run, recorded or not, the calls on the cipher obey the protocol.  The next call asks for the end of the
stream exactly if it gets there, all that is owed is accepted, the stream has not ended, and there is time left. -/
structure EndsOnce (s : CipherSink κ σ) (calls : List (Call × Host)) : Prop where
  same : (runTaken calls s).1 = (s.recorded calls).mapCipher Recorded.cipher
  obeys : (s.recorded calls).cipher.Obeys s.cipher
  ends (call : Call) (host : Host) : ((s.recorded calls).perform call host).endpoint.cipher.Ended ↔
    (s.recorded calls).cipher.Ended ∨ (s.recorded calls).Reaches call ∧ (s.recorded calls).Ends host
  delivered [ExactSink σ] (host : Host) (h : (s.recorded calls).Ends host) :
    ((s.recorded calls).forward host).endpoint.unsent.toList = []

theorem endsOnce [StrictCipher κ] (s : CipherSink κ σ) (calls : List (Call × Host)) : s.EndsOnce calls where
  same := by
    have hsame := runTaken_mapCipher Recorded.hom_cipher calls (s.mapCipher Recorded.start)
    exact congrArg Prod.fst hsame
  obeys := by
    have hstart : (s.mapCipher Recorded.start).cipher.Obeys s.cipher := Recorded.Obeys.start s.cipher
    exact cipher_kept_run (Recorded.Obeys.kept s.cipher) hstart calls
  ends call host := ended_perform _ call host
  delivered _ h := unsent_of_forward_ok h.1

/-- The end of a stream that lacks its last block has failed, and is not asked for again. -/
example :
    let s := CipherSink.new (MemorySink.empty .none) (CbcDecryptor.new (.masking [2, 8] (by decide)) [3, 4])
    (s.recorded [(.flush, .start), (.flush, .start), (.close, .start)]).cipher.calls =
      [.finalize (.error (.malformedStream (.partialBlock 0 2)))] := by
  decide +kernel

end CipherSink

/-! ### Sources -/

/-- What a run of calls makes of a source; each finds the host in a state of its own. -/
def SourceCall.run {σ : Type} [ByteSource σ] (calls : List (SourceCall × Host)) (s : σ) : σ :=
  match calls with
  | [] => s
  | (call, host) :: calls => run calls (call.perform s host).1

namespace CipherSource

section

variable {κ κ' σ : Type}

/-- The source with another cipher. -/
def mapCipher (f : κ → κ') (s : CipherSource κ σ) : CipherSource κ' σ :=
  ⟨s.inner, f s.cipher, s.output, s.poisoned, s.closed⟩

variable [ByteSource σ]

theorem close_mapCipher (f : κ → κ') (s : CipherSource κ σ) (host : Host) :
    (s.mapCipher f).close host = (s.close host).lift (mapCipher f) := by
  have hclosed : (s.mapCipher f).closed = s.closed := rfl
  unfold close
  rw [hclosed]
  split <;> rfl

variable [ByteCipher κ] [ByteCipher κ'] {f : κ → κ'}

theorem finalize_mapCipher (hf : CipherHom f) (s : CipherSource κ σ) (host : Host) :
    (s.mapCipher f).finalize host = (s.finalize host).lift (mapCipher f) := by
  have hfin : ByteCipher.finalize (s.mapCipher f).cipher = _ := hf.finalize s.cipher
  have hinner : (s.mapCipher f).inner = s.inner := rfl
  unfold finalize
  rw [hinner, hfin]
  rcases (ByteSource.timeout s.inner).check host with ⟨_ | _, host'⟩
  · rfl
  · rcases ByteCipher.finalize s.cipher with ⟨_ | out, cipher⟩
    · rfl
    · rfl

omit [ByteCipher κ'] in
theorem fill_of_missing {s : CipherSource κ σ} {n : Nat}
    (h : s.output.length < n ∧ ByteCipher.isFinalized s.cipher = false) (host : Host) : s.fill n host =
      match ByteSource.read s.inner (s.request (n - s.output.length)) .empty host with
      | ⟨.error e, inner, _, host⟩ => ⟨.error e, { s with inner }, host⟩
      | ⟨.ok none, inner, _, host⟩ => { s with inner }.finalize host
      | ⟨.ok (some _), inner, input, host⟩ =>
        match ByteCipher.update s.cipher input.toList with
        | (.error e, cipher) => { s with inner, cipher }.fail e host
        | (.ok out, cipher) => fill { s with inner, cipher, output := s.output.append out } n host := by
  rw [fill, dif_pos h]
  split
  · rename_i hr
    rw [hr]
  · rename_i hr
    rw [hr]
  · rename_i hr
    rw [hr]
    simp only
    split
    · rename_i hu
      rw [hu]
    · rename_i hu
      rw [hu]

theorem fill_mapCipher (hf : CipherHom f) (s : CipherSource κ σ) (n : Nat) (host : Host) :
    (s.mapCipher f).fill n host = (s.fill n host).lift (mapCipher f) := by
  have hmissing (s : CipherSource κ σ) (h : s.output.length < n ∧ ByteCipher.isFinalized s.cipher = false) :
      (s.mapCipher f).output.length < n ∧ ByteCipher.isFinalized (s.mapCipher f).cipher = false :=
    ⟨h.1, (hf.isFinalized s.cipher).trans h.2⟩
  have hrequest (s : CipherSource κ σ) (n : Nat) : (s.mapCipher f).request n = s.request n :=
    congrArg (max n) (hf.blockSize s.cipher)
  have hinner (s : CipherSource κ σ) : (s.mapCipher f).inner = s.inner := rfl
  have houtput (s : CipherSource κ σ) : (s.mapCipher f).output = s.output := rfl
  have hcipher (s : CipherSource κ σ) : (s.mapCipher f).cipher = f s.cipher := rfl
  fun_induction CipherSource.fill s n host with
  | case1 s host hlt e inner b host' hr =>
    rw [fill_of_missing (hmissing s hlt), hrequest, hinner, houtput, hr]
    rfl
  | case2 s host hlt inner b host' hr =>
    rw [fill_of_missing (hmissing s hlt), hrequest, hinner, houtput, hr]
    exact finalize_mapCipher hf { s with inner } host'
  | case3 s host hlt k inner input host' hr e cipher hu =>
    rw [fill_of_missing (hmissing s hlt), hrequest, hinner, houtput, hr]
    simp only [hcipher, hf.update, hu]
    rfl
  | case4 s host hlt k inner input host' hr out cipher hu ih =>
    rw [fill_of_missing (hmissing s hlt), hrequest, hinner, houtput, hr]
    simp only [hcipher, hf.update, hu]
    exact ih
  | case5 s host hge =>
    have hge' : ¬ ((s.mapCipher f).output.length < n ∧ ByteCipher.isFinalized (s.mapCipher f).cipher = false) := by
      rw [houtput, hcipher, hf.isFinalized]
      exact hge
    rw [fill, dif_neg hge']
    rfl

theorem read_mapCipher (hf : CipherHom f) (s : CipherSource κ σ) (n : Nat) (b : Buffer) (host : Host) :
    (s.mapCipher f).read n b host = (s.read n b host).lift (mapCipher f) := by
  have hclosed : (s.mapCipher f).closed = s.closed := rfl
  have hpoisoned : (s.mapCipher f).poisoned = s.poisoned := rfl
  unfold read
  rw [hclosed, hpoisoned, fill_mapCipher hf]
  rcases checkRead n with _ | _
  · rfl
  · by_cases hc : s.closed
    · simp [ReadOutcome.lift, hc]
    · by_cases hp : s.poisoned
      · simp [ReadOutcome.lift, hc, hp]
      · by_cases hn : n = 0
        · simp [ReadOutcome.lift, hc, hp, hn]
        · rcases s.fill n host with ⟨_ | _, s', host'⟩
          · simp [ReadOutcome.lift, CallOutcome.lift, hc, hp, hn]
          · have houtput : (s'.mapCipher f).output = s'.output := rfl
            simp only [ReadOutcome.lift, CallOutcome.lift, hc, hp, hn, if_false, houtput, Bool.false_eq_true]
            split <;> rfl

theorem run_mapCipher (hf : CipherHom f) (s : CipherSource κ σ) (calls : List (SourceCall × Host)) :
    SourceCall.run calls (s.mapCipher f) = (SourceCall.run calls s).mapCipher f := by
  induction calls generalizing s with
  | nil => rfl
  | cons c calls ih =>
    obtain ⟨call, host⟩ := c
    have hcall : (call.perform (s.mapCipher f) host).1 = (call.perform s host).1.mapCipher f := by
      cases call with
      | read n b =>
        show ((s.mapCipher f).read n b host).source = _
        rw [read_mapCipher hf]
        rfl
      | close =>
        show ((s.mapCipher f).close host).endpoint = _
        rw [close_mapCipher]
        rfl
    rw [SourceCall.run, SourceCall.run, hcall]
    exact ih _

end

section

variable {κ σ : Type} [ByteCipher κ] [ByteSource σ]

/-- In filling up to `n` bytes the source comes to the end of the inner source, and there is time left then.  Every read
of the inner source before that one has given bytes, and the cipher has taken them and not given enough for them. -/
inductive Drains (n : Nat) : CipherSource κ σ → Host → Prop where
  | ended {s : CipherSource κ σ} {inner : σ} {b : Buffer} {host host' : Host}
      (hmissing : s.output.length < n ∧ ByteCipher.isFinalized s.cipher = false)
      (hread : ByteSource.read s.inner (s.request (n - s.output.length)) .empty host = ⟨.ok none, inner, b, host'⟩)
      (htime : ((ByteSource.timeout inner).check host').1 = .ok ()) : Drains n s host
  | pulled {s : CipherSource κ σ} {inner : σ} {cipher : κ} {input : Buffer} {k : Nat} {out : Bytes} {host host' : Host}
      (hmissing : s.output.length < n ∧ ByteCipher.isFinalized s.cipher = false)
      (hread : ByteSource.read s.inner (s.request (n - s.output.length)) .empty host =
        ⟨.ok (some k), inner, input, host'⟩)
      (hupdate : ByteCipher.update s.cipher input.toList = (.ok out, cipher))
      (hrest : Drains n { s with inner, cipher, output := s.output.append out } host') : Drains n s host

/-- The call comes to the end of the inner source, in a read that is not refused, and there is time left. -/
def Ends (s : CipherSource κ σ) (call : SourceCall) (host : Host) : Prop :=
  match call with
  | .read n _ => (s.closed = false ∧ s.poisoned = false ∧ 0 < n ∧ n ≤ maxRequestLength) ∧ s.Drains n host
  | .close => False

theorem cipher_after_finalize (s : CipherSource κ σ) (host : Host) : (s.finalize host).endpoint.cipher =
    match ((ByteSource.timeout s.inner).check host).1 with
    | .error _ => s.cipher
    | .ok () => (ByteCipher.finalize s.cipher).2 := by
  unfold finalize fail
  rcases (ByteSource.timeout s.inner).check host with ⟨_ | _, host'⟩
  · rfl
  · rcases ByteCipher.finalize s.cipher with ⟨_ | out, cipher⟩
    · rfl
    · rfl

theorem cipher_read (s : CipherSource κ σ) (n : Nat) (b : Buffer) (host : Host) : (s.read n b host).source.cipher =
    if s.closed = false ∧ s.poisoned = false ∧ 0 < n ∧ n ≤ maxRequestLength then (s.fill n host).endpoint.cipher
    else s.cipher := by
  split
  · rename_i hready
    obtain ⟨ho, hp, hn, hl⟩ := hready
    rw [read_of_ready ho hp hn hl]
    rcases s.fill n host with ⟨_ | _, s', host'⟩
    · rfl
    · simp only
      split <;> rfl
  · rename_i hready
    obtain ⟨r, hr, -⟩ := read_unready hready b host
    rw [hr]

private theorem cipher_kept_fill {P : κ → Prop} (hP : KeptByCalls P) {s : CipherSource κ σ} (h : P s.cipher) (n : Nat)
    (host : Host) : P (s.fill n host).endpoint.cipher := by
  fun_induction CipherSource.fill s n host with
  | case1 => exact h
  | case2 s host hlt inner b host' hr =>
    rw [cipher_after_finalize]
    split
    · exact h
    · exact hP.finalize hlt.2 h
  | case3 s host hlt k inner input host' hr e cipher hu =>
    have hcipher := hP.update hlt.2 input.toList h
    rw [hu] at hcipher
    exact hcipher
  | case4 s host hlt k inner input host' hr out cipher hu ih =>
    have hcipher := hP.update hlt.2 input.toList h
    rw [hu] at hcipher
    exact ih hcipher
  | case5 => exact h

/-- What the cipher's calls keep before the end of its stream, the calls on the source keep. -/
theorem cipher_kept_perform {P : κ → Prop} (hP : KeptByCalls P) {s : CipherSource κ σ} (h : P s.cipher)
    (call : SourceCall) (host : Host) : P (call.perform s host).1.cipher := by
  cases call with
  | read n b =>
    show P (s.read n b host).source.cipher
    rw [cipher_read]
    split
    · exact cipher_kept_fill hP h n host
    · exact h
  | close =>
    show P (s.close host).endpoint.cipher
    unfold close
    split
    · exact h
    · exact h

theorem cipher_kept_run {P : κ → Prop} (hP : KeptByCalls P) {s : CipherSource κ σ} (h : P s.cipher)
    (calls : List (SourceCall × Host)) : P (SourceCall.run calls s).cipher := by
  induction calls generalizing s with
  | nil => exact h
  | cons c calls ih =>
    have hc := cipher_kept_perform hP h c.1 c.2
    exact ih hc

theorem drains_iff (s : CipherSource κ σ) (n : Nat) (host : Host) : s.Drains n host ↔
    (s.output.length < n ∧ ByteCipher.isFinalized s.cipher = false) ∧
      match ByteSource.read s.inner (s.request (n - s.output.length)) .empty host with
      | ⟨.error _, _, _, _⟩ => False
      | ⟨.ok none, inner, _, host⟩ => ((ByteSource.timeout inner).check host).1 = .ok ()
      | ⟨.ok (some _), inner, input, host⟩ =>
        match ByteCipher.update s.cipher input.toList with
        | (.error _, _) => False
        | (.ok out, cipher) => Drains n { s with inner, cipher, output := s.output.append out } host := by
  constructor
  · intro hd
    cases hd with
    | ended hmissing hread htime =>
      refine ⟨hmissing, ?_⟩
      rw [hread]
      exact htime
    | pulled hmissing hread hupdate hrest =>
      refine ⟨hmissing, ?_⟩
      rw [hread]
      simp only [hupdate]
      exact hrest
  · rintro ⟨hmissing, h⟩
    split at h
    · exact h.elim
    · rename_i hread
      exact .ended hmissing hread h
    · rename_i hread
      split at h
      · exact h.elim
      · rename_i hupdate
        exact .pulled hmissing hread hupdate h

/-- Filling asks for the end of the stream exactly if the source comes to the end of the inner source in time. -/
theorem ended_fill (s : CipherSource (Recorded κ) σ) (n : Nat) (host : Host) :
    (s.fill n host).endpoint.cipher.Ended ↔ s.cipher.Ended ∨ s.Drains n host := by
  fun_induction CipherSource.fill s n host with
  | case1 s host hlt e inner b host' hr =>
    rw [drains_iff]
    simp only [hr, and_false, or_false]
  | case2 s host hlt inner b host' hr =>
    rw [drains_iff]
    simp only [hr, hlt, and_self, true_and, cipher_after_finalize]
    split
    · rename_i ht
      simp [ht]
    · rename_i ht
      simp only [Recorded.ended_finalize, ht, or_true]
  | case3 s host hlt k inner input host' hr e cipher hu =>
    rw [drains_iff]
    simp only [hr, hu, and_false, or_false]
    show cipher.Ended ↔ _
    rw [← Recorded.ended_update s.cipher input.toList, hu]
  | case4 s host hlt k inner input host' hr out cipher hu ih =>
    rw [ih, drains_iff s]
    simp only [hr, hu, hlt, and_self, true_and]
    apply or_congr_left
    rw [← Recorded.ended_update s.cipher input.toList, hu]
  | case5 s host hge =>
    rw [drains_iff]
    simp only [hge, false_and, or_false]

/-- A call asks for the end of the stream exactly if it comes to the end of the inner source in time. -/
theorem ended_perform (s : CipherSource (Recorded κ) σ) (call : SourceCall) (host : Host) :
    (call.perform s host).1.cipher.Ended ↔ s.cipher.Ended ∨ s.Ends call host := by
  cases call with
  | read n b =>
    show (s.read n b host).source.cipher.Ended ↔ _
    rw [cipher_read]
    split
    · rename_i hready
      simp only [ended_fill, Ends, hready, true_and, and_self]
    · rename_i hready
      simp only [Ends, hready, false_and, or_false]
  | close =>
    show (s.close host).endpoint.cipher.Ended ↔ _
    unfold close
    simp only [Ends, or_false]
    split <;> exact Iff.rfl

/-- The source after a run in which its cipher is recorded. -/
def recorded (s : CipherSource κ σ) (calls : List (SourceCall × Host)) : CipherSource (Recorded κ) σ :=
  SourceCall.run calls (s.mapCipher Recorded.start)

/-- After a run, recorded or not, the calls on the cipher obey the protocol.  The next call asks for the end of the
stream exactly if it comes to the end of the inner source, the stream has not ended, and there is time left. -/
structure EndsOnce (s : CipherSource κ σ) (calls : List (SourceCall × Host)) : Prop where
  same : SourceCall.run calls s = (s.recorded calls).mapCipher Recorded.cipher
  obeys : (s.recorded calls).cipher.Obeys s.cipher
  ends (call : SourceCall) (host : Host) : (call.perform (s.recorded calls) host).1.cipher.Ended ↔
    (s.recorded calls).cipher.Ended ∨ (s.recorded calls).Ends call host

theorem endsOnce [StrictCipher κ] (s : CipherSource κ σ) (calls : List (SourceCall × Host)) : s.EndsOnce calls where
  same := run_mapCipher Recorded.hom_cipher (s.mapCipher Recorded.start) calls
  obeys := by
    have hstart : (s.mapCipher Recorded.start).cipher.Obeys s.cipher := Recorded.Obeys.start s.cipher
    exact cipher_kept_run (Recorded.Obeys.kept s.cipher) hstart calls
  ends call host := ended_perform _ call host

end

end CipherSource

/-- The chained ciphers are used but once.  Whatever state a sink or a source over one of them is in, whatever calls
are made on it and whatever it wraps, the cipher gets updates and then at most once the call for its end, and none
after it or if it had ended before; it never has to tell that it has ended.  A sink asks for the end when all that is
owed has been accepted and there is time left, a source when the inner source has come to its end and there is time
left. -/
theorem ends_once {σ τ : Type} [ByteSink σ] [ByteSource τ] :
    ((∀ (s : CipherSink CbcEncryptor σ) calls, s.EndsOnce calls) ∧
      ∀ (s : CipherSink CbcDecryptor σ) calls, s.EndsOnce calls) ∧
    ((∀ (s : CipherSource CbcEncryptor τ) calls, s.EndsOnce calls) ∧
      ∀ (s : CipherSource CbcDecryptor τ) calls, s.EndsOnce calls) := by
  refine ⟨⟨?_, ?_⟩, ?_, ?_⟩
  · exact CipherSink.endsOnce
  · exact CipherSink.endsOnce
  · exact CipherSource.endsOnce
  · exact CipherSource.endsOnce

end Conduit
