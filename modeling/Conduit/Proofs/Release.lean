import Conduit.Proofs.Cipher.Protocol
import Conduit.Proofs.Metering

/-!
# Giving sinks up

When a Base64 sink or an encrypting one is given up, by `release` or by `discard`, it reports what it still keeps back,
by one warning, and `release` fails (`GivesUp`).  What it keeps back, behind what the inner sink has taken off it,
makes up the whole encoding or encryption of all bytes that were removed from the buffers of its callers
(`Accountable`).  So it is given up without a word exactly if the inner sink has taken the whole, whatever calls were
made and however they failed: nothing is lost without a warning (`nothing_lost`).
-/

namespace Conduit

/-- What becomes of a sink over `inner` that is given up.  If it is `complete`, `release` gives the inner sink back and
nothing is reported, unless by the inner sink if that is given up as well.  Else `release` fails with `fault`, and
`event`, a warning, is reported behind what the inner sink reports. -/
structure GivesUp {σ τ : Type} [ByteSink σ] [ByteSink τ] (s : τ) (inner : σ)
    (release : Host → Except Error σ × Host) (complete : Prop) (fault : StreamFault) (event : Event) : Prop where
  released (h : complete) (host : Host) : release host = (.ok inner, host)
  discarded (h : complete) (host : Host) : ByteSink.discard s host = ByteSink.discard inner host
  withheld (h : ¬ complete) (host : Host) :
    release host = (.error (.malformedStream fault), (ByteSink.discard inner host).report event)
  reported (h : ¬ complete) (host : Host) : ByteSink.discard s host = (ByteSink.discard inner host).report event
  warning : event.level = .warn

theorem GivesUp.congr {σ τ : Type} [ByteSink σ] [ByteSink τ] {s : τ} {inner : σ} {complete complete' : Prop}
    {release : Host → Except Error σ × Host} {fault : StreamFault} {event : Event}
    (h : GivesUp s inner release complete fault event) (hc : complete ↔ complete') :
    GivesUp s inner release complete' fault event := by
  rw [← propext hc]
  exact h

/-! ### Base64 sinks -/

namespace TextLedger

/-- The segments, the current one included. -/
def segments (l : TextLedger) : List Bytes := l.completed ++ [l.current]

theorem flatMap_segments (l : TextLedger) (e : Base64.Engine) :
    l.segments.flatMap e.encode = l.text e ++ e.encode (afterGroups l.current) := by
  rw [← text_complete, text, complete, wholeGroups_nil, Base64.Engine.encode, List.append_nil]
  rfl

end TextLedger

namespace Base64Sink

variable {σ : Type} [ByteSink σ]

/-- The bytes that a call removes from the buffer of its caller. -/
def taken (s : Base64Sink σ) (call : Call) (host : Host) : Bytes :=
  match call with
  | .write n b => b.take (b.length - (s.write n b host).buffer.length)
  | .flush | .finish | .close => []

/-- The bytes that a run of calls removes from the buffers of their callers, in order. -/
def removed (calls : List (Call × Host)) (s : Base64Sink σ) : Bytes :=
  match calls with
  | [] => []
  | (call, host) :: calls => s.taken call host ++ removed calls (s.perform call host).endpoint

/-- A write removes all bytes of the request from its buffer, or none. -/
private theorem taken_of_ready {s : Base64Sink σ} {n : Nat} {b : Buffer} {host : Host}
    (h : checkWrite b.length n = .ok () ∧ s.Ready host) : s.taken (.write n b) host = b.take n := by
  have hn := (checkWrite_eq_ok_iff.1 h.1).2
  rw [taken, write_of_ready h.1 h.2, Buffer.length_drop, Nat.sub_sub_self hn]

private theorem taken_of_not_ready {s : Base64Sink σ} {n : Nat} {b : Buffer} {host : Host}
    (h : ¬ (checkWrite b.length n = .ok () ∧ s.Ready host)) : s.taken (.write n b) host = [] := by
  rw [taken, (write_of_not_ready h).2.1, Nat.sub_self]
  rfl

/-- The sink keeps back what `received` lacks of `whole`; if that is something it says so when it is given up, else
not. -/
structure Accountable (s : Base64Sink σ) (whole received : Bytes) : Prop where
  text : received ++ s.unsent.toList ++ s.engine.encode s.pending = whole
  givesUp : GivesUp s s.inner s.release (received = whole) (.undeliveredText s.pending.length s.unsent.length)
    (.base64Dropped s.pending.length s.unsent.length)

omit [ByteSink σ] in
theorem isSettled_iff (s : Base64Sink σ) : s.isSettled = true ↔ s.unsent.toList = [] ∧ s.pending = [] := by
  simp [isSettled, Buffer.isEmpty_iff, and_comm]

theorem givesUp_of_settled (s : Base64Sink σ) :
    GivesUp s s.inner s.release (s.isSettled = true) (.undeliveredText s.pending.length s.unsent.length)
      (.base64Dropped s.pending.length s.unsent.length) where
  released h _ := if_pos h
  discarded h _ := if_pos h
  withheld h host := by
    rw [release, if_neg h, discard, if_neg h]
  reported h _ := if_neg h
  warning := rfl

private theorem encode_eq_nil_iff (e : Base64.Engine) (x : Bytes) : e.encode x = [] ↔ x = [] := by
  have hg : Base64.groupSize = 3 := rfl
  have hq : Base64.quantumSize = 4 := rfl
  rw [← List.length_eq_zero_iff, ← List.length_eq_zero_iff, e.length_encode, Base64.Engine.encodedLength, hg, hq]
  split
  · omega
  · split <;> omega

theorem accountable_of_text {s : Base64Sink σ} {whole received : Bytes}
    (h : received ++ s.unsent.toList ++ s.engine.encode s.pending = whole) : s.Accountable whole received where
  text := h
  givesUp := by
    apply s.givesUp_of_settled.congr
    rw [isSettled_iff, ← h, List.append_assoc, List.self_eq_append_right, List.append_eq_nil_iff, encode_eq_nil_iff]

section

variable [ReceivingSink σ] {base : Bytes} {e : Base64.Engine} {segmented : Bool}

/-- The bytes that a call removes from a buffer are those that it adds to the segments of the ledger. -/
private theorem flatten_segments_record {s : Base64Sink σ} {l : TextLedger} (h : Accounts base e segmented s l)
    (call : Call) (host : Host) :
    (s.record call host l).segments.flatten = l.segments.flatten ++ s.taken call host := by
  have hcomplete : l.complete.segments.flatten = l.segments.flatten := by
    simp [TextLedger.segments, TextLedger.complete]
  cases call with
  | write n b =>
    by_cases hr : checkWrite b.length n = .ok () ∧ s.Ready host
    · rw [taken_of_ready hr, record, if_pos hr, h.mode]
      cases hm : segmented with
      | true =>
        have hc : l.current = [] := h.current hm
        simp [TextLedger.take, TextLedger.segments, hc]
      | false => simp [TextLedger.take, TextLedger.segments]
    · rw [taken_of_not_ready hr, record, if_neg hr, List.append_nil]
  | flush => exact (List.append_nil _).symm
  | finish =>
    rw [taken, List.append_nil, record]
    split
    · exact hcomplete
    · rfl
  | close =>
    rw [taken, List.append_nil, record]
    split
    · exact hcomplete
    · rfl

theorem flatten_segments_run {s : Base64Sink σ} {l : TextLedger} (h : Accounts base e segmented s l)
    (calls : List (Call × Host)) :
    (runCalls calls s l).2.segments.flatten = l.segments.flatten ++ removed calls s := by
  induction calls generalizing s l with
  | nil => exact (List.append_nil _).symm
  | cons c calls ih =>
    obtain ⟨call, host⟩ := c
    have hrest := ih (h.perform call host)
    rw [flatten_segments_record h, List.append_assoc] at hrest
    exact hrest

end

theorem removed_mapInner {τ : Type} [ByteSink τ] {f : σ → τ} (hf : SinkHom f) (calls : List (Call × Host))
    (s : Base64Sink σ) : removed calls (s.mapInner f) = removed calls s := by
  induction calls generalizing s with
  | nil => rfl
  | cons c calls ih =>
    obtain ⟨call, host⟩ := c
    have htaken : (s.mapInner f).taken call host = s.taken call host := by
      cases call with
      | write n b =>
        simp only [taken, write_mapInner hf]
        rfl
      | flush => rfl
      | finish => rfl
      | close => rfl
    rw [removed, removed, htaken, perform_mapInner hf]
    exact congrArg _ (ih _)

/-- What the inner sink has taken in a run, and what is kept back behind it, are the segments of the ledger, and those
are all that was removed from buffers. -/
theorem accountable_run [TakingSink σ] (inner : σ) (e : Base64.Engine) (segmented : Bool)
    (calls : List (Call × Host)) :
    let run := runCalls calls (.new inner e segmented) .empty
    let metered := runCalls calls (.new (Metered.start inner) e segmented) .empty
    run = (metered.1.mapInner Metered.sink, metered.2) ∧
      run.2.segments.flatten = removed calls (.new inner e segmented) ∧
      run.1.Accountable (run.2.segments.flatMap e.encode) metered.1.inner.taken := by
  intro run metered
  have hnew := Accounts.new (Metered.start inner) e segmented
  have h := hnew.run calls
  have hsame : run = (metered.1.mapInner Metered.sink, metered.2) :=
    runCalls_mapInner Metered.hom_sink calls (.new (Metered.start inner) e segmented) .empty
  have hremoved : removed calls (.new inner e segmented) = removed calls (.new (Metered.start inner) e segmented) :=
    removed_mapInner Metered.hom_sink calls (.new (Metered.start inner) e segmented)
  refine ⟨hsame, ?_, ?_⟩
  · rw [hsame, hremoved]
    exact flatten_segments_run hnew calls
  · rw [hsame]
    apply accountable_of_text
    show metered.1.inner.taken ++ metered.1.unsent.toList ++ metered.1.engine.encode metered.1.pending = _
    rw [h.engine, h.pending, TextLedger.flatMap_segments]
    exact congrArg (· ++ e.encode (afterGroups metered.2.current)) h.text

end Base64Sink

/-! ### Encrypting sinks -/

/-- What the encryptor has given and what remains of it are the encryption of what it was fed. -/
structure Recorded.Encrypts (c : BlockCipher) (iv : Bytes) (r : Recorded CbcEncryptor) : Prop where
  pending : r.cipher.pending.length < r.cipher.cipher.blockSize
  unended (h : r.cipher.finalized = false) (y : Bytes) :
    r.given ++ r.cipher.remaining y = c.encryptPadded iv (r.fed ++ y)
  ended (h : r.cipher.finalized = true) : r.given = c.encryptPadded iv r.fed

namespace Recorded

variable {c : BlockCipher} {iv : Bytes}

theorem Encrypts.start (c : BlockCipher) (iv : Bytes) : Encrypts c iv (start (.new c iv)) where
  pending := c.blockSize_pos
  unended _ _ := rfl
  ended h := by cases h

private theorem update_of_update {κ : Type} [ByteCipher κ] {c : Recorded κ} {x : Bytes} {r : Except Error Bytes}
    {cipher : κ} (h : ByteCipher.update c.cipher x = (r, cipher)) :
    ByteCipher.update c x = (r, ⟨cipher, c.calls ++ [.update x r]⟩) := by
  obtain ⟨rfl, rfl⟩ := Prod.mk.inj h
  rfl

private theorem finalize_of_finalize {κ : Type} [ByteCipher κ] {c : Recorded κ} {r : Except Error Bytes} {cipher : κ}
    (h : ByteCipher.finalize c.cipher = (r, cipher)) :
    ByteCipher.finalize c = (r, ⟨cipher, c.calls ++ [.finalize r]⟩) := by
  obtain ⟨rfl, rfl⟩ := Prod.mk.inj h
  rfl

theorem Encrypts.kept (c : BlockCipher) (iv : Bytes) : KeptByCalls (Encrypts c iv) where
  update {r} ho x h := by
    obtain ⟨out, cipher, hu, hopen, hpending, hrest⟩ := CbcEncryptor.update_eq (c := r.cipher) ho x
    have hcall := update_of_update (c := r) hu
    obtain ⟨hfed, hgiven⟩ := Recorded.update_eq hcall
    rw [hcall]
    refine ⟨hpending, ?_, ?_⟩
    · intro _ y
      rw [hgiven, hfed, CipherCall.given, List.append_assoc, hrest, List.append_assoc]
      exact h.unended ho (x ++ y)
    · intro hended
      rw [hopen] at hended
      cases hended
  finalize {r} ho h := by
    obtain ⟨cipher, hf, hended, hpending⟩ := CbcEncryptor.finalize_eq (c := r.cipher) ho h.pending
    have hcall := finalize_of_finalize (c := r) hf
    obtain ⟨hfed, hgiven⟩ := Recorded.finalize_eq hcall
    rw [hcall]
    refine ⟨hpending, ?_, ?_⟩
    · intro hopen
      rw [hended] at hopen
      cases hopen
    · intro _
      have hall := h.unended ho []
      rw [List.append_nil] at hall
      rw [hgiven, hfed]
      exact hall

end Recorded

namespace CipherSink

variable {σ : Type} [ByteSink σ]

/-- What the cipher of the sink is still to give if its stream ends now. -/
def outstanding (s : CipherSink CbcEncryptor σ) : Bytes :=
  if s.cipher.finalized then [] else s.cipher.remaining []

/-- The sink keeps back what `received` lacks of `whole`; if that is something it says so when it is given up, else
not. -/
structure Accountable (s : CipherSink CbcEncryptor σ) (whole received : Bytes) : Prop where
  output : received ++ s.unsent.toList ++ s.outstanding = whole
  givesUp : GivesUp s s.inner s.release (received = whole)
    (if s.cipher.finalized then .undeliveredOutput s.unsent.length else .notFinalized)
    (.cipherDropped s.cipher.finalized s.unsent.length)

theorem givesUp_of_settled (s : CipherSink CbcEncryptor σ) :
    GivesUp s s.inner s.release (s.isSettled = true)
      (if s.cipher.finalized then .undeliveredOutput s.unsent.length else .notFinalized)
      (.cipherDropped s.cipher.finalized s.unsent.length) where
  released h host := by
    obtain ⟨hfin, hunsent⟩ := Bool.and_eq_true_iff.1 h
    simp [release, hfin, hunsent]
  discarded h _ := if_pos h
  withheld h host := by
    have hdiscard : s.discard host = _ := if_neg h
    rw [← show s.discard host = (ByteSink.discard s.inner host).report
      (.cipherDropped s.cipher.finalized s.unsent.length) from hdiscard]
    have hfinalized : ByteCipher.isFinalized s.cipher = s.cipher.finalized := rfl
    unfold release
    rw [hfinalized]
    cases hfin : s.cipher.finalized with
    | false => rfl
    | true =>
      have hunsent : s.unsent.isEmpty = false := by simpa [isSettled, hfinalized, hfin] using h
      simp [hunsent]
  reported h _ := if_neg h
  warning := rfl

omit [ByteSink σ] in
theorem outstanding_eq_nil_iff (s : CipherSink CbcEncryptor σ) : s.outstanding = [] ↔ s.cipher.finalized = true := by
  unfold outstanding
  split
  · rename_i h
    simp [h]
  · rename_i h
    have hpos : 0 < (s.cipher.remaining []).length := by
      rw [CbcEncryptor.remaining, BlockCipher.length_encryptPadded]
      exact Nat.mul_pos (Nat.succ_pos _) s.cipher.cipher.blockSize_pos
    have hne : s.cipher.remaining [] ≠ [] := List.length_pos_iff.1 hpos
    simp [h, hne]

theorem accountable_of_output {s : CipherSink CbcEncryptor σ} {whole received : Bytes}
    (h : received ++ s.unsent.toList ++ s.outstanding = whole) : s.Accountable whole received where
  output := h
  givesUp := by
    apply s.givesUp_of_settled.congr
    rw [← h, List.append_assoc, List.self_eq_append_right, List.append_eq_nil_iff, outstanding_eq_nil_iff, isSettled,
      Bool.and_eq_true_iff, Buffer.isEmpty_iff, and_comm]
    exact Iff.rfl

/-- What the inner sink has taken in a run, what is unsent behind it and what the cipher is still to give are the
encryption of all that was removed from buffers. -/
theorem accountable_run [TakingSink σ] (inner : σ) (c : BlockCipher) (iv : Bytes) (calls : List (Call × Host)) :
    let run := runTaken calls (.new inner (CbcEncryptor.new c iv))
    let metered := runTaken calls (.new (Metered.start inner) (CbcEncryptor.new c iv))
    run = (metered.1.mapInner Metered.sink, metered.2) ∧
      run.1.Accountable (c.encryptPadded iv run.2) metered.1.inner.taken := by
  intro run metered
  have hsame : run = (metered.1.mapInner Metered.sink, metered.2) :=
    runTaken_mapInner Metered.hom_sink calls (.new (Metered.start inner) (CbcEncryptor.new c iv))
  refine ⟨hsame, ?_⟩
  -- the cipher is recorded beside the meter
  have hkept := cipher_kept_run (s := .new (Metered.start inner) (Recorded.start (CbcEncryptor.new c iv)))
    (Recorded.Encrypts.kept c iv) (Recorded.Encrypts.start c iv) calls
  obtain ⟨hplain, hfed, houtput, -⟩ := conserves (Metered.start inner) (CbcEncryptor.new c iv) calls
  rw [← hfed] at hplain
  obtain ⟨s, hs⟩ : ∃ s, (runTaken calls (.new (Metered.start inner) (Recorded.start (CbcEncryptor.new c iv)))).1 = s :=
    ⟨_, rfl⟩
  rw [hs] at hkept hplain houtput
  have hmetered : metered = (s.mapCipher Recorded.cipher, s.cipher.fed) := hplain
  rw [hsame, hmetered]
  apply accountable_of_output
  have hgiven : s.inner.taken ++ s.unsent.toList = s.cipher.given := houtput
  show s.inner.taken ++ s.unsent.toList ++ (if s.cipher.cipher.finalized then [] else s.cipher.cipher.remaining []) = _
  rw [hgiven]
  split
  · rename_i hended
    rw [List.append_nil]
    exact hkept.ended hended
  · rename_i hopen
    have hall := hkept.unended (by simpa using hopen) []
    rw [List.append_nil] at hall
    exact hall

end CipherSink

/-- Nothing is lost without a warning.  After any run of calls over any sink, a Base64 sink that is given up is silent,
and `release` gives the inner sink back, exactly if that has taken the encoding of all bytes that were removed from the
buffers of the callers, and an encrypting sink exactly if it has taken their encryption, padding included.  Else
`release` fails and there is one warning of what is kept back. -/
theorem nothing_lost {σ : Type} [ByteSink σ] [TakingSink σ] (inner : σ) :
    (∀ (e : Base64.Engine) (segmented : Bool) (calls : List (Base64Sink.Call × Host)),
      let run := Base64Sink.runCalls calls (.new inner e segmented) .empty
      let metered := Base64Sink.runCalls calls (.new (Metered.start inner) e segmented) .empty
      run = (metered.1.mapInner Metered.sink, metered.2) ∧
        run.2.segments.flatten = Base64Sink.removed calls (.new inner e segmented) ∧
        run.1.Accountable (run.2.segments.flatMap e.encode) metered.1.inner.taken) ∧
    (∀ (c : BlockCipher) (iv : Bytes) (calls : List (CipherSink.Call × Host)),
      let run := CipherSink.runTaken calls (.new inner (CbcEncryptor.new c iv))
      let metered := CipherSink.runTaken calls (.new (Metered.start inner) (CbcEncryptor.new c iv))
      run = (metered.1.mapInner Metered.sink, metered.2) ∧
        run.1.Accountable (c.encryptPadded iv run.2) metered.1.inner.taken) := by
  constructor
  · intro e segmented calls
    exact Base64Sink.accountable_run inner e segmented calls
  · intro c iv calls
    exact CipherSink.accountable_run inner c iv calls

/-- A channel that accepts two bytes and is broken then. -/
def sampleBreaking : ChannelSink :=
  .ofChannel (.ofScript []
    [⟨⟨0⟩, .ok (some 2)⟩, ⟨⟨0⟩, .error (.ofDisk .brokenPipe)⟩, ⟨⟨0⟩, .error (.ofDisk .brokenPipe)⟩] []) .none

/-- The close has failed for good.  Of the text two symbols are unsent and one byte is not encoded yet; of the blocks
one is unsent and the padding was never asked for. -/
theorem release_after_failed_close :
    let text := (Base64Sink.runCalls [(.write 4 (.ofList [77, 97, 110, 33]), .start), (.close, .start)]
      (.new sampleBreaking .standard false) .empty).1
    let blocks := (CipherSink.runTaken [(.write 4 (.ofList [77, 97, 110, 33]), .start), (.close, .start)]
      (.new sampleBreaking (CbcEncryptor.new (.masking [4, 6] (by decide)) [3, 4]))).1
    text.release .start = (.error (.malformedStream (.undeliveredText 1 2)), Host.start.report (.base64Dropped 1 2)) ∧
      blocks.release .start = (.error (.malformedStream .notFinalized), Host.start.report (.cipherDropped false 2)) := by
  intro text blocks
  obtain ⟨htext, hblocks⟩ := nothing_lost sampleBreaking
  have ht := (htext .standard false [(.write 4 (.ofList [77, 97, 110, 33]), .start), (.close, .start)]).2.2
  have hb := (hblocks (.masking [4, 6] (by decide)) [3, 4]
    [(.write 4 (.ofList [77, 97, 110, 33]), .start), (.close, .start)]).2
  have hkept : text.pending.length = 1 ∧ text.unsent.length = 2 := by decide +kernel
  have hopen : blocks.cipher.finalized = false ∧ blocks.unsent.length = 2 := by decide +kernel
  constructor
  · have hr : text.release .start =
        (.error (.malformedStream (.undeliveredText text.pending.length text.unsent.length)),
          Host.start.report (.base64Dropped text.pending.length text.unsent.length)) :=
      ht.givesUp.withheld (by decide +kernel) .start
    rw [hkept.1, hkept.2] at hr
    exact hr
  · have hr : blocks.release .start =
        (.error (.malformedStream
          (if blocks.cipher.finalized then .undeliveredOutput blocks.unsent.length else .notFinalized)),
          Host.start.report (.cipherDropped blocks.cipher.finalized blocks.unsent.length)) :=
      hb.givesUp.withheld (by decide +kernel) .start
    rw [hopen.1, hopen.2] at hr
    exact hr

end Conduit
