import Conduit.Proofs.Base64.Steps
import Conduit.Proofs.Cipher.Chaining
import Conduit.Proofs.Cipher.Steps
import Conduit.Stack.Sink

/-!
# Closing a stack of sinks

Only a close closes a layer, and a layer that has not delivered its tail, or the inner sink of which may be closed
later, stays open to be closed again.  There is one exception: if the tail cannot be delivered for good, the layer is
closed whatever becomes of the inner sink, which is then not closed again (`Spoils`).  So when a close has closed the
outermost layer of a stack, all layers are closed unless that has happened in one of them (`closed_of_close`).
-/

namespace Conduit

/-! ### What other calls leave alone -/

section

variable {σ : Type} [ByteSink σ]

/-- What is observed of a sink is not changed by writes. -/
def Unwritten {α : Type} (φ : σ → α) : Prop := ∀ s n b host, φ (ByteSink.write s n b host).sink = φ s

/-- What is observed of a sink is not changed by flushes. -/
def Unflushed {α : Type} (φ : σ → α) : Prop := ∀ s host, φ (ByteSink.flush s host).endpoint = φ s

theorem Unwritten.drain {α : Type} {φ : σ → α} (h : Unwritten φ) (s : σ) (b : Buffer) (host : Host) :
    φ (drain s b host).sink = φ s := by
  unfold Conduit.drain
  split
  · rfl
  · exact h ..

end

namespace Base64Sink

variable {σ : Type} [ByteSink σ] {φ : σ → List Bool}

/-- Whether the sink is closed, in front of what is observed of its inner sink. -/
def flags (φ : σ → List Bool) (s : Base64Sink σ) : List Bool := s.closed :: φ s.inner

theorem flags_forward (h : Unwritten φ) (s : Base64Sink σ) (host : Host) :
    flags φ (s.forward host).endpoint = flags φ s := by
  rw [forward_eq, flags, h.drain]
  rfl

theorem flags_emitTail (h : Unwritten φ) (s : Base64Sink σ) (host : Host) :
    flags φ (s.emitTail host).endpoint = flags φ s := by
  rcases emitTail_cases s host with ⟨he, -⟩ | ⟨-, unsent, -, he⟩
  · rw [he, flags_forward h]
  · rw [he, flags_forward h]
    exact flags_forward h s host

theorem flags_write (h : Unwritten φ) : Unwritten (flags φ) := by
  intro s n b host
  show flags φ (s.write n b host).sink = flags φ s
  by_cases hr : checkWrite b.length n = .ok () ∧ s.Ready host
  · obtain ⟨unsent, ha, -⟩ := accept_eq (s.forward host).endpoint (b.take n)
    rw [write_of_ready hr.1 hr.2, ha]
    simp only
    rw [flags_forward h]
    exact flags_forward h s host
  · obtain ⟨-, -, hs | hs⟩ := write_of_not_ready hr
    · rw [hs]
    · rw [hs, flags_forward h]

theorem flags_flush (h : Unwritten φ) (hf : Unflushed φ) : Unflushed (flags φ) := by
  intro s host
  have hforward := flags_forward h s host
  show flags φ (s.flush host).endpoint = flags φ s
  unfold flush
  split
  · rfl
  · split
    · rename_i ho
      rw [ho] at hforward
      exact hforward
    · rename_i s' host' ho
      rw [ho] at hforward
      show s'.closed :: φ (ByteSink.flush s'.inner host').endpoint = flags φ s
      rw [hf]
      exact hforward

theorem flags_finish (h : Unwritten φ) (s : Base64Sink σ) (host : Host) :
    flags φ (s.finish host).endpoint = flags φ s := by
  unfold finish
  split
  · rfl
  · exact flags_emitTail h s host

end Base64Sink

namespace CipherSink

variable {κ σ : Type} [ByteSink σ] {φ : σ → List Bool}

@[inherit_doc Base64Sink.flags]
def flags (φ : σ → List Bool) (s : CipherSink κ σ) : List Bool := s.closed :: φ s.inner

theorem flags_forward (h : Unwritten φ) (s : CipherSink κ σ) (host : Host) :
    flags φ (s.forward host).endpoint = flags φ s := by
  rw [forward_eq, flags, h.drain]
  rfl

variable [ByteCipher κ]

theorem flags_finalize (h : Unwritten φ) (s : CipherSink κ σ) (host : Host) :
    flags φ (s.finalize host).endpoint = flags φ s := by
  by_cases he : s.Ends host
  · rw [finalize_of_ends he]
    split
    · exact flags_forward h s host
    · rw [flags_forward h]
      exact flags_forward h s host
  · rw [(finalize_of_not_ends he).1, flags_forward h]

theorem flags_write (h : Unwritten φ) : Unwritten (flags φ : CipherSink κ σ → List Bool) := by
  intro s n b host
  show flags φ (s.write n b host).sink = flags φ s
  by_cases hg : s.Granted n b host
  · rw [write_of_granted hg]
    split
    · exact flags_forward h s host
    · simp only
      rw [flags_forward h]
      exact flags_forward h s host
  · obtain ⟨-, -, hs | hs⟩ := write_of_not_granted hg
    · rw [hs]
    · rw [hs, flags_forward h]

theorem flags_flush (h : Unwritten φ) (hf : Unflushed φ) : Unflushed (flags φ : CipherSink κ σ → List Bool) := by
  intro s host
  show flags φ (s.flush host).endpoint = flags φ s
  by_cases hr : s.closed = false ∧ s.flushed = false
  · rw [flush_of_unflushed hr.1 hr.2]
    split
    · show (s.finalize host).endpoint.closed :: φ (ByteSink.flush (s.finalize host).endpoint.inner _).endpoint = _
      rw [hf]
      exact flags_finalize h s host
    · exact flags_finalize h s host
  · rw [(flush_of_flushed hr host).2]

end CipherSink

/-! ### The outermost layer of a stack -/

namespace SinkOver

variable {κ ℓ : Type}

/-- The outermost layer is closed. -/
def isClosed : (layer : Layer) → {layers : List Layer} → SinkOver κ ℓ (layer :: layers) → Bool
  | .base64, _, s => Base64Sink.closed s
  | .cipher, _, s => CipherSink.closed s

/-- The stack below the outermost layer. -/
def inner : (layer : Layer) → {layers : List Layer} → SinkOver κ ℓ (layer :: layers) → SinkOver κ ℓ layers
  | .base64, _, s => Base64Sink.inner s
  | .cipher, _, s => CipherSink.inner s

/-- Which layers are closed, from the outermost one on. -/
def closedFlags : (layers : List Layer) → SinkOver κ ℓ layers → List Bool
  | [], _ => []
  | layer :: layers, s => isClosed layer s :: closedFlags layers (inner layer s)

/-- What a closed layer wraps is closed. -/
def Sealed (layers : List Layer) (s : SinkOver κ ℓ layers) : Prop := (closedFlags layers s).Pairwise (· ≤ ·)

/-- An open layer, such as a new one, may be put on top of anything that is sealed. -/
theorem Sealed.cons {layer : Layer} {layers : List Layer} {s : SinkOver κ ℓ (layer :: layers)}
    (ho : isClosed layer s = false) (h : Sealed layers (inner layer s)) : Sealed (layer :: layers) s := by
  refine List.pairwise_cons.2 ⟨fun f _ hf => ?_, h⟩
  rw [ho] at hf
  cases hf

/-- Every layer is closed. -/
def AllClosed (layers : List Layer) (s : SinkOver κ ℓ layers) : Prop := ∀ f ∈ closedFlags layers s, f = true

variable [ByteCipher κ] [ByteSink ℓ]

/-- The first step of closing the outermost layer: it delivers what it keeps back. -/
def tail : (layer : Layer) → {layers : List Layer} → SinkOver κ ℓ (layer :: layers) → Host →
    CallOutcome (SinkOver κ ℓ (layer :: layers))
  | .base64, layers, s, host => Base64Sink.emitTail (σ := SinkOver κ ℓ layers) s host
  | .cipher, layers, s, host => CipherSink.finalize (κ := κ) (σ := SinkOver κ ℓ layers) s host

instance [ExactSink ℓ] (layers : List Layer) : ExactSink (SinkOver κ ℓ layers) :=
  match layers with
  | [] => inferInstanceAs (ExactSink ℓ)
  | .base64 :: layers => inferInstanceAs (ExactSink (Base64Sink (SinkOver κ ℓ layers)))
  | .cipher :: layers => inferInstanceAs (ExactSink (CipherSink κ (SinkOver κ ℓ layers)))

theorem unwritten_closedFlags (layers : List Layer) :
    Unwritten (closedFlags layers : SinkOver κ ℓ layers → List Bool) := by
  induction layers with
  | nil => exact fun _ _ _ _ => rfl
  | cons layer layers ih =>
    cases layer with
    | base64 => exact Base64Sink.flags_write ih
    | cipher => exact CipherSink.flags_write ih

theorem unflushed_closedFlags (layers : List Layer) :
    Unflushed (closedFlags layers : SinkOver κ ℓ layers → List Bool) := by
  induction layers with
  | nil => exact fun _ _ => rfl
  | cons layer layers ih =>
    cases layer with
    | base64 => exact Base64Sink.flags_flush (unwritten_closedFlags layers) ih
    | cipher => exact CipherSink.flags_flush (unwritten_closedFlags layers) ih

theorem closedFlags_finish {layers : List Layer} {s : SinkOver κ ℓ layers} {host : Host}
    {o : CallOutcome (SinkOver κ ℓ layers)} (h : finish? layers s host = some o) :
    closedFlags layers o.endpoint = closedFlags layers s := by
  induction layers with
  | nil => cases h
  | cons layer layers ih =>
    cases layer with
    | base64 =>
      obtain rfl := Option.some.inj h
      exact Base64Sink.flags_finish (unwritten_closedFlags layers) s host
    | cipher =>
      obtain ⟨o', ho', rfl⟩ := Option.map_eq_some_iff.1 h
      exact congrArg (CipherSink.closed s :: ·) (ih ho')

variable {layer : Layer} {layers : List Layer} {s : SinkOver κ ℓ (layer :: layers)} {host : Host}

theorem closedFlags_tail (s : SinkOver κ ℓ (layer :: layers)) (host : Host) :
    closedFlags (layer :: layers) (tail layer s host).endpoint = closedFlags (layer :: layers) s := by
  cases layer with
  | base64 => exact Base64Sink.flags_emitTail (unwritten_closedFlags layers) s host
  | cipher => exact CipherSink.flags_finalize (unwritten_closedFlags layers) s host

theorem close_of_closed (h : isClosed layer s = true) (host : Host) : ByteSink.close s host = ⟨.ok (), s, host⟩ := by
  cases layer with
  | base64 => exact Base64Sink.close_of_closed h host
  | cipher => exact CipherSink.close_of_closed h host

/-- As long as the tail may be delivered later, closing an open layer does no more than that. -/
theorem close_of_retryable (ho : isClosed layer s = false) (ht : retryable (tail layer s host).result) :
    ByteSink.close s host = tail layer s host := by
  cases layer with
  | base64 => exact (Base64Sink.close_of_open ho host).trans (if_pos ht)
  | cipher => exact (CipherSink.close_of_open ho host).trans (if_pos ht)

/-- Else the inner sink is closed, and both steps decide on what comes of it. -/
theorem close_of_not_retryable (ho : isClosed layer s = false) (ht : ¬ retryable (tail layer s host).result) :
    let t := tail layer s host
    let i := ByteSink.close (inner layer t.endpoint) t.host
    let o := ByteSink.close s host
    o.result = (settle t.result i.result).1 ∧ isClosed layer o.endpoint = (settle t.result i.result).2 ∧
      inner layer o.endpoint = i.endpoint := by
  cases layer with
  | base64 =>
    have hc := (Base64Sink.close_of_open ho host).trans (if_neg ht)
    exact ⟨congrArg CallOutcome.result hc, congrArg (fun o => o.endpoint.closed) hc,
      congrArg (fun o => o.endpoint.inner) hc⟩
  | cipher =>
    have hc := (CipherSink.close_of_open ho host).trans (if_neg ht)
    exact ⟨congrArg CallOutcome.result hc, congrArg (fun o => o.endpoint.closed) hc,
      congrArg (fun o => o.endpoint.inner) hc⟩

/-- After a close that has delivered the tail nothing is kept back, and the next one comes to the inner sink at once. -/
theorem tail_of_close [ExactSink ℓ] (ho : isClosed layer s = false) (ht : (tail layer s host).result = .ok ())
    (host' : Host) :
    tail layer (ByteSink.close s host).endpoint host' = ⟨.ok (), (ByteSink.close s host).endpoint, host'⟩ := by
  have hr : ¬ retryable (tail layer s host).result := by simp [ht]
  cases layer with
  | base64 =>
    have hc := (Base64Sink.close_of_open ho host).trans (if_neg hr)
    obtain ⟨hu, hp⟩ := Base64Sink.settled_of_emitTail_ok ht
    apply Base64Sink.emitTail_of_settled
    · exact (congrArg (fun o => o.endpoint.unsent.toList) hc).trans hu
    · exact (congrArg (fun o => o.endpoint.pending) hc).trans hp
  | cipher =>
    have hc := (CipherSink.close_of_open ho host).trans (if_neg hr)
    apply CipherSink.finalize_of_settled
    · exact (congrArg (fun o => ByteCipher.isFinalized o.endpoint.cipher) hc).trans
        (CipherSink.isFinalized_of_finalize_ok ht)
    · exact (congrArg (fun o => o.endpoint.unsent.toList) hc).trans (CipherSink.unsent_of_finalize_ok ht)

/-! ### Closing -/

/-- A layer is open after its close exactly if the close has failed and may be repeated. -/
theorem isClosed_close (ho : isClosed layer s = false) (host : Host) :
    isClosed layer (ByteSink.close s host).endpoint = !retryable (ByteSink.close s host).result := by
  by_cases ht : retryable (tail layer s host).result
  · have hflags := closedFlags_tail s host
    rw [close_of_retryable ho ht, ht, (List.cons.inj hflags).1, ho]
    rfl
  · obtain ⟨hresult, hclosed, -⟩ := close_of_not_retryable ho ht
    rw [hresult, hclosed]
    rcases hr : (tail layer s host).result with e | _
    · have he : e.retryable = false := by simpa [hr] using ht
      simp [settle, he]
    · rfl

/-- If the close of an open layer may be repeated although the tail is not to be delivered again, then the tail is
delivered and it is the close of the inner sink that may be repeated. -/
theorem tail_ok_of_retryable_close (ho : isClosed layer s = false) (ht : ¬ retryable (tail layer s host).result)
    (hr : retryable (ByteSink.close s host).result) :
    (tail layer s host).result = .ok () ∧
      retryable (ByteSink.close (inner layer (tail layer s host).endpoint) (tail layer s host).host).result := by
  obtain ⟨hresult, -, -⟩ := close_of_not_retryable ho ht
  rw [hresult] at hr
  obtain ⟨hok, hsettle⟩ := settle_cases ht (.inr hr)
  rw [hsettle] at hr
  exact ⟨hok, hr⟩

/-- A close that may be repeated has closed no layer. -/
theorem closedFlags_close {layers : List Layer} {s : SinkOver κ ℓ layers} {host : Host}
    (hr : retryable (ByteSink.close s host).result) :
    closedFlags layers (ByteSink.close s host).endpoint = closedFlags layers s := by
  induction layers generalizing host with
  | nil => rfl
  | cons layer layers ih =>
    by_cases ho : isClosed layer s = false
    · by_cases ht : retryable (tail layer s host).result
      · rw [close_of_retryable ho ht, closedFlags_tail]
      · have hopen := isClosed_close ho host
        obtain ⟨-, -, hi⟩ := close_of_not_retryable ho ht
        obtain ⟨-, hir⟩ := tail_ok_of_retryable_close ho ht hr
        obtain ⟨-, htail⟩ := List.cons.inj (closedFlags_tail s host)
        rw [hr] at hopen
        show isClosed layer _ :: closedFlags layers (inner layer _) =
          isClosed layer s :: closedFlags layers (inner layer s)
        rw [hopen, ho, hi, ih hir, htail]
        rfl
    · rw [close_of_closed (by simpa using ho)]

/-- During the close of a stack an open layer fails for good to deliver its tail, and the close of what it wraps fails
but may be repeated. -/
def Spoils : (layers : List Layer) → SinkOver κ ℓ layers → Host → Prop
  | [], _, _ => False
  | layer :: layers, s, host =>
    let t := tail layer s host
    isClosed layer s = false ∧ ¬ retryable t.result ∧
      ((t.result ≠ .ok () ∧ retryable (ByteSink.close (inner layer t.endpoint) t.host).result) ∨
        Spoils layers (inner layer t.endpoint) t.host)

/-- A close that is not to be repeated leaves all layers closed, unless one of them spoils it. -/
theorem allClosed_close {layers : List Layer} {s : SinkOver κ ℓ layers} {host : Host} (h : Sealed layers s)
    (hr : ¬ retryable (ByteSink.close s host).result) :
    AllClosed layers (ByteSink.close s host).endpoint ∨ Spoils layers s host := by
  induction layers generalizing host with
  | nil => exact .inl fun f hf => absurd hf List.not_mem_nil
  | cons layer layers ih =>
    by_cases ho : isClosed layer s = false
    · have ht : ¬ retryable (tail layer s host).result := by
        intro ht
        rw [close_of_retryable ho ht] at hr
        exact hr ht
      have hclosed := isClosed_close ho host
      obtain ⟨hresult, -, hi⟩ := close_of_not_retryable ho ht
      by_cases hir : retryable
          (ByteSink.close (inner layer (tail layer s host).endpoint) (tail layer s host).host).result
      · -- the inner close may be repeated and this one may not: the tail has failed
        have hfailed : (tail layer s host).result ≠ .ok () := by
          intro hok
          rw [hresult, hok] at hr
          exact hr hir
        exact .inr ⟨ho, ht, .inl ⟨hfailed, hir⟩⟩
      · have hsealed : Sealed layers (inner layer (tail layer s host).endpoint) := by
          have hflags := closedFlags_tail s host
          unfold Sealed at h ⊢
          rw [← hflags] at h
          exact (List.pairwise_cons.1 h).2
        rcases ih hsealed hir with hall | hspoils
        · left
          rw [(by simpa using hr : retryable (ByteSink.close s host).result = false)] at hclosed
          rw [← hi] at hall
          exact List.forall_mem_cons.2 ⟨hclosed, hall⟩
        · exact .inr ⟨ho, ht, .inr hspoils⟩
    · have hs : isClosed layer s = true := by simpa using ho
      rw [close_of_closed hs]
      exact .inl (List.forall_mem_cons.2 ⟨hs, fun f hf => (List.pairwise_cons.1 h).1 f hf hs⟩)

/-! ### Runs -/

/-- A call on a stack of sinks. -/
inductive Call where
  | write (n : Nat) (b : Buffer)
  | flush
  | finish
  | close

/-- Makes a call; to finish is to end the segment of the outermost encoder of text, if there is one. -/
def perform (layers : List Layer) (s : SinkOver κ ℓ layers) (call : Call) (host : Host) : SinkOver κ ℓ layers :=
  match call with
  | .write n b => (ByteSink.write s n b host).sink
  | .flush => (ByteSink.flush s host).endpoint
  | .finish => ((finish? layers s host).map CallOutcome.endpoint).getD s
  | .close => (ByteSink.close s host).endpoint

/-- A run of calls; each finds the host in a state of its own. -/
def run (layers : List Layer) (s : SinkOver κ ℓ layers) (calls : List (Call × Host)) : SinkOver κ ℓ layers :=
  calls.foldl (fun s c => perform layers s c.1 c.2) s

/-- Only a close changes which layers are closed. -/
theorem closedFlags_perform {layers : List Layer} {s : SinkOver κ ℓ layers} {call : Call} (hc : call ≠ .close)
    (host : Host) : closedFlags layers (perform layers s call host) = closedFlags layers s := by
  cases call with
  | write n b => exact unwritten_closedFlags layers ..
  | flush => exact unflushed_closedFlags layers ..
  | finish =>
    rcases ho : finish? layers s host with _ | o
    · simp [perform, ho]
    · simp only [perform, ho, Option.map_some, Option.getD_some]
      exact closedFlags_finish ho
  | close => exact absurd rfl hc

/-- A call that leaves the outermost layer open has closed no layer. -/
theorem closedFlags_perform_of_open {call : Call} (ho : isClosed layer (perform _ s call host) = false) :
    closedFlags _ (perform _ s call host) = closedFlags _ s := by
  by_cases hc : call = .close
  · subst hc
    by_cases hs : isClosed layer s = false
    · have hr : retryable (ByteSink.close s host).result := by
        have hclosed := (isClosed_close hs host).symm.trans ho
        simpa using hclosed
      exact closedFlags_close hr
    · have hsame := close_of_closed (by simpa using hs : isClosed layer s = true) host
      exact congrArg (fun o => closedFlags _ o.endpoint) hsame
  · exact closedFlags_perform hc host

theorem closedFlags_run {calls : List (Call × Host)} (ho : isClosed layer (run _ s calls) = false) :
    closedFlags _ (run _ s calls) = closedFlags _ s := by
  induction calls generalizing s with
  | nil => rfl
  | cons c calls ih =>
    have hrun : closedFlags _ (run _ s (c :: calls)) = closedFlags _ (perform _ s c.1 c.2) := ih ho
    -- the last state is open, and so is the one before it
    have hstep : isClosed layer (perform _ s c.1 c.2) = false := (List.cons.inj hrun).1.symm.trans ho
    exact hrun.trans (closedFlags_perform_of_open hstep)

/-- The close of an open layer.

The layer is closed by it exactly if its tail was delivered and the close of the inner sink is not to be repeated, or
the tail cannot be delivered for good.  If the tail was delivered and the close of the inner sink may be repeated, the
layer is open, and its next close is that of the inner sink.  If the layer is the outermost one of a stack that has made
any calls, a close that closes it closes all layers unless one of them spoils it. -/
theorem closed_of_close [ExactSink ℓ] (ho : isClosed layer s = false) (host : Host) :
    let t := tail layer s host
    let i := ByteSink.close (inner layer t.endpoint) t.host
    let o := ByteSink.close s host
    (isClosed layer o.endpoint = true ↔ ¬ retryable t.result ∧ (t.result = .ok () → ¬ retryable i.result)) ∧
      (t.result = .ok () → retryable i.result →
        isClosed layer o.endpoint = false ∧ o.result = i.result ∧ inner layer o.endpoint = i.endpoint ∧
          ∀ host', (ByteSink.close o.endpoint host').result = (ByteSink.close i.endpoint host').result ∧
            inner layer (ByteSink.close o.endpoint host').endpoint = (ByteSink.close i.endpoint host').endpoint) ∧
      ∀ s₀ calls, Sealed _ s₀ → s = run _ s₀ calls → isClosed layer o.endpoint = true →
        AllClosed _ o.endpoint ∨ Spoils _ s host := by
  intro t i o
  have hclosed : isClosed layer o.endpoint = !retryable o.result := isClosed_close ho host
  refine ⟨?_, ?_, ?_⟩
  · by_cases ht : retryable t.result
    · have hopen : o.result = t.result := congrArg CallOutcome.result (close_of_retryable ho ht)
      simp [hclosed, hopen, ht]
    · have hflag : isClosed layer o.endpoint = (settle t.result i.result).2 := (close_of_not_retryable ho ht).2.1
      rw [hflag, and_iff_right ht]
      cases t.result <;> simp [settle]
  · intro ht hi
    have hr : ¬ retryable t.result := by simp [ht]
    obtain ⟨hsettle, -, hinner⟩ := close_of_not_retryable ho hr
    have hresult : o.result = i.result := hsettle.trans (congrArg (fun r => (settle r i.result).1) ht)
    have hopen : isClosed layer o.endpoint = false := by rw [hclosed, hresult, hi]; rfl
    replace hinner : inner layer o.endpoint = i.endpoint := hinner
    refine ⟨hopen, hresult, hinner, fun host' => ?_⟩
    have htail : tail layer o.endpoint host' = ⟨.ok (), o.endpoint, host'⟩ := tail_of_close ho ht host'
    have hr' : ¬ retryable (tail layer o.endpoint host').result := by simp [htail]
    obtain ⟨hsettle', -, hinner'⟩ := close_of_not_retryable hopen hr'
    simp only [htail] at hsettle' hinner'
    rw [← hinner]
    exact ⟨hsettle', hinner'⟩
  · rintro s₀ calls hs₀ rfl hc
    have hsealed : Sealed _ (run _ s₀ calls) := by
      unfold Sealed
      rw [closedFlags_run ho]
      exact hs₀
    refine allClosed_close hsealed ?_
    simpa [hc] using hclosed

/-- Text that is encrypted and written to a channel with a deadline. -/
def samplePipeline : SinkOver CbcEncryptor ChannelSink [.base64, .cipher] :=
  Base64Sink.new (CipherSink.new (.ofChannel (.ofScript [] [] []) (.after ⟨10⟩))
    (.new (.masking [1, 6] (by decide)) [3, 4])) .standard false

/-- A host the clock of which jumps over the deadline at its fourth reading. -/
def slowHost : Host := { Host.start with clock := ⟨0, [0, 0, 0, 10]⟩ }

/-- The cipher misses its deadline in the first close, after the text is complete, and all is closed by the second
one. -/
theorem closed_of_close_samplePipeline :
    let s := run _ samplePipeline [(.write 1 (.ofList [7]), .start)]
    let late := ByteSink.close s slowHost
    isClosed .base64 s = false ∧ (tail .base64 s slowHost).result = .ok () ∧
      isClosed .base64 late.endpoint = false ∧ retryable late.result ∧
      Sealed _ samplePipeline ∧ isClosed .base64 (ByteSink.close late.endpoint .start).endpoint = true ∧
      (AllClosed _ (ByteSink.close late.endpoint .start).endpoint ∨ Spoils _ late.endpoint .start) := by
  intro s late
  have hs : isClosed .base64 s = false := by decide +kernel
  have ht : (tail .base64 s slowHost).result = .ok () := by decide +kernel
  have hi : retryable (ByteSink.close (inner .base64 (tail .base64 s slowHost).endpoint)
      (tail .base64 s slowHost).host).result := by decide +kernel
  have hsealed : Sealed _ samplePipeline := .cons rfl (.cons rfl .nil)
  have hclosed : isClosed .base64 (ByteSink.close late.endpoint .start).endpoint = true := by decide +kernel
  obtain ⟨-, hretry, -⟩ := closed_of_close hs slowHost
  obtain ⟨hopen, hresult, -, -⟩ := hretry ht hi
  obtain ⟨-, -, hall⟩ := closed_of_close hopen .start
  exact ⟨hs, ht, hopen, hresult ▸ hi, hsealed, hclosed,
    hall samplePipeline [(.write 1 (.ofList [7]), .start), (.close, slowHost)] hsealed rfl hclosed⟩

/-- A cipher that cannot decrypt an empty text, over an encoder of text the inner sink of which is slow to close. -/
def sampleSpoiled : SinkOver CbcDecryptor ScriptedSink [.cipher, .base64] :=
  CipherSink.new (Base64Sink.new (.ofScript [] [] [some (.timedOut ⟨1⟩)] .none) .standard false)
    (.new (.masking [1, 7] (by decide)) [3, 4])

/-- The close of the encoder may be repeated, but the cipher is closed and does not repeat it. -/
theorem left_open_after_close :
    let t := tail .cipher sampleSpoiled .start
    let i := ByteSink.close (inner .cipher t.endpoint) t.host
    let o := ByteSink.close sampleSpoiled .start
    isClosed .cipher sampleSpoiled = false ∧ i.result = .error (.timedOut ⟨1⟩) ∧ isClosed .cipher o.endpoint = true ∧
      isClosed .base64 (inner .cipher o.endpoint) = false ∧
      (ByteSink.close o.endpoint .start).result = .ok () ∧
      (leaf _ (ByteSink.close o.endpoint .start).endpoint).calls = (leaf _ o.endpoint).calls := by
  decide +kernel

end SinkOver

end Conduit
