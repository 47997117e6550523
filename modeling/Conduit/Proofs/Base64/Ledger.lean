import Conduit.Proofs.Base64.Steps
import Conduit.Proofs.Receiving

/-!
# What a Base64 sink was given and what became of it

A ledger keeps the bytes that a Base64 sink has taken, segment by segment.  Whatever calls are made and however they
end, the inner sink has received, and the sink holds as unsent, the encodings of the completed segments and that of the
whole groups of the current one, in this order; the bytes behind the last whole group are pending
(`received_append_unsent`).
-/

namespace Conduit

open Base64

/-- The bytes a Base64 sink was given: the segments that have ended and the one that has not. -/
structure TextLedger where
  completed : List Bytes
  current : Bytes
deriving DecidableEq, Repr

namespace TextLedger

def empty : TextLedger := ⟨[], []⟩

/-- The text for all that can be encoded yet. -/
def text (l : TextLedger) (e : Engine) : Bytes := l.completed.flatMap e.encode ++ e.encode (wholeGroups l.current)

/-- The ledger when more bytes were taken: a segment of their own, or more of the current one. -/
def take (l : TextLedger) (segmented : Bool) (data : Bytes) : TextLedger :=
  if segmented then { l with completed := l.completed ++ [data] } else { l with current := l.current ++ data }

/-- The ledger when the current segment has ended. -/
def complete (l : TextLedger) : TextLedger := ⟨l.completed ++ [l.current], []⟩

theorem text_complete (l : TextLedger) (e : Engine) :
    l.complete.text e = l.text e ++ e.encode (afterGroups l.current) := by
  have h := e.encode_wholeGroups l.current []
  simp only [List.append_nil] at h
  simp only [complete, text, List.flatMap_append, List.flatMap_singleton, wholeGroups_nil, Engine.encode,
    List.append_nil, List.append_assoc, h]

end TextLedger

namespace Base64Sink

/-- A call on a Base64 sink. -/
inductive Call where
  | write (n : Nat) (b : Buffer)
  | flush
  | finish
  | close

variable {σ : Type} [ByteSink σ]

/-- Makes a call; what it leaves in the buffer of a write is that of `write`. -/
def perform (s : Base64Sink σ) (call : Call) (host : Host) : CallOutcome (Base64Sink σ) :=
  match call with
  | .write n b => ⟨(s.write n b host).result, (s.write n b host).sink, (s.write n b host).host⟩
  | .flush => s.flush host
  | .finish => s.finish host
  | .close => s.close host

/-- What a call puts down in the ledger: bytes if a write takes them, the end of the segment if its tail is reached. -/
def record (s : Base64Sink σ) (call : Call) (host : Host) (l : TextLedger) : TextLedger :=
  match call with
  | .write n b => if checkWrite b.length n = .ok () ∧ s.Ready host then l.take s.segmented (b.take n) else l
  | .flush => l
  | .finish | .close => if s.Ready host then l.complete else l

/-- A run of calls; each finds the host in a state of its own. -/
def runCalls (calls : List (Call × Host)) (s : Base64Sink σ) (l : TextLedger) : Base64Sink σ × TextLedger :=
  match calls with
  | [] => (s, l)
  | (call, host) :: calls => runCalls calls (s.perform call host).endpoint (s.record call host l)

variable [ReceivingSink σ]

open ReceivingSink

/-- Text and pending bytes are those of the ledger; `base` had been received before. -/
structure Accounts (base : Bytes) (e : Engine) (segmented : Bool) (s : Base64Sink σ) (l : TextLedger) : Prop where
  engine : s.engine = e
  mode : s.segmented = segmented
  text : received s.inner ++ s.unsent.toList = base ++ l.text e
  pending : s.pending = afterGroups l.current
  current : segmented = true → l.current = []

variable {base : Bytes} {e : Engine} {segmented : Bool} {s : Base64Sink σ} {l : TextLedger}

/-! ### Moves -/

theorem Accounts.forward (h : Accounts base e segmented s l) (host : Host) :
    Accounts base e segmented (s.forward host).endpoint l := by
  rw [forward_eq]
  refine ⟨h.engine, h.mode, ?_, h.pending, h.current⟩
  rw [← h.text]
  exact received_append_drain ..

theorem Accounts.accept (h : Accounts base e segmented s l) (data : Bytes) :
    Accounts base e segmented (s.accept data).2 (l.take segmented data) := by
  obtain ⟨unsent, ha, hu⟩ := accept_eq s data
  rw [ha]
  cases segmented with
  | true =>
    -- nothing was pending, so the write is a segment by itself
    have hc := h.current rfl
    have hp : s.pending = [] := by rw [h.pending, hc, afterGroups_nil]
    simp only [h.mode, h.engine, hp, if_true, List.nil_append] at hu ⊢
    refine ⟨rfl, rfl, ?_, by simp [TextLedger.take, hc], fun _ => hc⟩
    have ht : (l.take true data).text e = l.text e ++ e.encode data := by
      simp [TextLedger.take, TextLedger.text, hc, Engine.encode]
    rw [ht, ← List.append_assoc, ← h.text, hu, List.append_assoc]
  | false =>
    -- whole groups of the current segment are text already, and the pending bytes come before the new ones
    have hm := length_wholeGroups_mod l.current
    have hcut : l.current ++ data = wholeGroups l.current ++ (s.pending ++ data) := by
      rw [h.pending, ← List.append_assoc, wholeGroups_append_afterGroups]
    simp only [h.mode, h.engine, if_false, Bool.false_eq_true] at hu ⊢
    refine ⟨rfl, rfl, ?_, ?_, fun hm => by cases hm⟩
    · have ht : (l.take false data).text e = l.text e ++ e.encode (wholeGroups (s.pending ++ data)) := by
        simp only [TextLedger.take, TextLedger.text, if_false, Bool.false_eq_true, hcut, wholeGroups_append hm,
          e.encode_append _ _ hm, List.append_assoc]
      rw [ht, ← List.append_assoc, ← h.text, hu, List.append_assoc]
    · simp only [TextLedger.take, if_false, Bool.false_eq_true, hcut, afterGroups_append hm]

theorem Accounts.emitTail (h : Accounts base e segmented s l) (host : Host) :
    Accounts base e segmented (s.emitTail host).endpoint
      (if (s.forward host).result = .ok () then l.complete else l) := by
  have hf := h.forward host
  rcases emitTail_cases s host with ⟨he, hr⟩ | ⟨hr, unsent, hu, he⟩
  · rw [he]
    split
    · -- the current segment ends with a whole group, or is empty
      rename_i hok
      have hp : s.pending = [] := by simpa [hok] using hr
      have ha : afterGroups l.current = [] := by rw [← h.pending, hp]
      refine ⟨hf.engine, hf.mode, ?_, by rw [pending_forward, hp, TextLedger.complete, afterGroups_nil], fun _ => rfl⟩
      rw [hf.text, TextLedger.text_complete, ha, Engine.encode, List.append_nil]
    · exact hf
  · rw [if_pos hr, he]
    apply Accounts.forward
    refine ⟨?_, ?_, ?_, afterGroups_nil.symm, fun _ => rfl⟩
    · rw [engine_forward, h.engine]
    · rw [segmented_forward, h.mode]
    · rw [TextLedger.text_complete, ← List.append_assoc, ← hf.text, hu, h.engine, h.pending, List.append_assoc]

private theorem Accounts.with_inner (h : Accounts base e segmented s l) {inner : σ}
    (hi : received inner = received s.inner) (closed : Bool) : Accounts base e segmented { s with inner, closed } l :=
  ⟨h.engine, h.mode, by rw [← h.text, hi], h.pending, h.current⟩

/-! ### Calls -/

private theorem Accounts.write (h : Accounts base e segmented s l) (n : Nat) (b : Buffer) (host : Host) :
    Accounts base e segmented (s.write n b host).sink (s.record (.write n b) host l) := by
  unfold record
  by_cases hr : checkWrite b.length n = .ok () ∧ s.Ready host
  · rw [write_of_ready hr.1 hr.2]
    simp only [hr, and_self, if_true, h.mode]
    exact ((h.forward host).accept (b.take n)).forward _
  · obtain ⟨-, -, hs | hs⟩ := write_of_not_ready hr
    · simp only [hr, if_false, hs]
      exact h
    · simp only [hr, if_false, hs]
      exact h.forward host

private theorem Accounts.flush (h : Accounts base e segmented s l) (host : Host) :
    Accounts base e segmented (s.flush host).endpoint l := by
  have hf := h.forward host
  unfold Base64Sink.flush
  split
  · exact h
  · rcases hr : s.forward host with ⟨_ | _, s₁, host₁⟩
    · simpa [hr] using hf
    · rw [hr] at hf
      exact hf.with_inner (received_flush s₁.inner host₁) s₁.closed

private theorem Accounts.finish (h : Accounts base e segmented s l) (host : Host) :
    Accounts base e segmented (s.finish host).endpoint (s.record .finish host l) := by
  unfold record Ready Base64Sink.finish
  by_cases hc : s.closed
  · simpa [hc] using h
  · simpa [hc] using h.emitTail host

private theorem Accounts.close (h : Accounts base e segmented s l) (host : Host) :
    Accounts base e segmented (s.close host).endpoint (s.record .close host l) := by
  unfold record Ready
  by_cases hc : s.closed
  · simpa [hc, close_of_closed hc] using h
  · have ht := h.emitTail host
    have hc : s.closed = false := by simpa using hc
    rw [close_of_open hc]
    simp only [hc, true_and]
    split
    · exact ht
    · exact ht.with_inner (received_close ..) _

/-- No call breaks the account, whatever it results in. -/
theorem Accounts.perform (h : Accounts base e segmented s l) (call : Call) (host : Host) :
    Accounts base e segmented (s.perform call host).endpoint (s.record call host l) := by
  cases call with
  | write n b => exact h.write n b host
  | flush => exact h.flush host
  | finish => exact h.finish host
  | close => exact h.close host

theorem Accounts.run (h : Accounts base e segmented s l) (calls : List (Call × Host)) :
    Accounts base e segmented (runCalls calls s l).1 (runCalls calls s l).2 := by
  induction calls generalizing s l with
  | nil => exact h
  | cons c calls ih =>
    have hc := h.perform c.1 c.2
    exact ih hc

theorem Accounts.new (inner : σ) (e : Engine) (segmented : Bool) :
    Accounts (received inner) e segmented (Base64Sink.new inner e segmented) .empty := by
  refine ⟨rfl, rfl, ?_, rfl, fun _ => rfl⟩
  simp [Base64Sink.new, TextLedger.text, TextLedger.empty, wholeGroups, Engine.encode]

/-! ### Main statement -/

/-- A call that succeeds has delivered all text, unless it is the repeated close of a sink that has failed. -/
theorem unsent_of_perform_ok {call : Call} {host : Host} (hc : call ≠ .close)
    (h : (s.perform call host).result = .ok ()) : (s.perform call host).endpoint.unsent.toList = [] := by
  cases call with
  | write n b =>
    by_cases hr : checkWrite b.length n = .ok () ∧ s.Ready host
    · simp only [Base64Sink.perform, write_of_ready hr.1 hr.2] at h ⊢
      exact unsent_of_forward_ok h
    · exact absurd h (write_of_not_ready hr).1
  | flush =>
    simp only [Base64Sink.perform, Base64Sink.flush] at h ⊢
    split
    · rename_i hc
      simp [hc] at h
    · rename_i hc
      rcases hr : s.forward host with ⟨_ | _, s₁, host₁⟩
      · simp [hc, hr] at h
      · have hu := unsent_of_forward_ok (congrArg CallOutcome.result hr)
        rw [hr] at hu
        exact hu
  | finish =>
    simp only [Base64Sink.perform, Base64Sink.finish] at h ⊢
    split
    · rename_i hc
      simp [hc] at h
    · rename_i hc
      simp only [hc, if_false, Bool.false_eq_true] at h
      exact (settled_of_emitTail_ok h).1
  | close => exact absurd rfl hc

/-- After any run the text received and the text unsent are that of the ledger, and pending are the last bytes of its
current segment, as many as do not fill a group.  Whatever comes next, a write takes all of its bytes or none, and only
of a ready sink, and a call that succeeds leaves nothing unsent. -/
theorem received_append_unsent (inner : σ) (e : Engine) (segmented : Bool) (calls : List (Call × Host)) :
    let s := (runCalls calls (.new inner e segmented) .empty).1
    let l := (runCalls calls (.new inner e segmented) .empty).2
    received s.inner ++ s.unsent.toList =
        received inner ++ (l.completed.flatMap e.encode ++ e.encode (wholeGroups l.current)) ∧
      s.pending <:+ l.current ∧ s.pending.length = l.current.length % groupSize ∧
      (segmented = true → s.pending = []) ∧
      (∀ n b host, (s.write n b host).buffer = if checkWrite b.length n = .ok () ∧ s.Ready host then b.drop n else b) ∧
      ∀ call host, call ≠ .close → (s.perform call host).result = .ok () →
        (s.perform call host).endpoint.unsent.toList = [] := by
  intro s l
  have h : Accounts (received inner) e segmented s l := (Accounts.new inner e segmented).run calls
  refine ⟨h.text, ?_, ?_, ?_, ?_, ?_⟩
  · rw [h.pending]
    exact List.drop_suffix ..
  · have hcut := Nat.div_add_mod' l.current.length groupSize
    rw [h.pending, afterGroups, List.length_drop]
    omega
  · intro hs
    rw [h.pending, h.current hs, afterGroups_nil]
  · intro n b host
    by_cases hr : checkWrite b.length n = .ok () ∧ s.Ready host
    · rw [if_pos hr, write_of_ready hr.1 hr.2]
    · rw [if_neg hr]
      exact (write_of_not_ready hr).2.1
  · intro call host
    exact unsent_of_perform_ok

end Base64Sink

end Conduit
