import Conduit.Base64.Sink
import Conduit.Proofs.Receiving

/-!
# The steps of a Base64 sink

Encoding does not fail and is that of the whole string at once, however many steps it takes (`encode_eq`), so every
call is made of a few moves.  A call is `Ready` if the sink is open and what is unsent can be forwarded; only then does
a write take its bytes (`write_of_ready`, `write_of_not_ready`) and only then is the tail encoded (`emitTail_cases`).
-/

namespace Conduit

open Base64

/-! ### Whole groups -/

/-- The whole groups in front of a byte string. -/
def wholeGroups (x : Bytes) : Bytes := x.take (x.length / groupSize * groupSize)

/-- The bytes behind the last whole group. -/
def afterGroups (x : Bytes) : Bytes := x.drop (x.length / groupSize * groupSize)

@[simp] theorem wholeGroups_nil : wholeGroups [] = [] := List.take_nil

@[simp] theorem afterGroups_nil : afterGroups [] = [] := List.drop_nil

theorem wholeGroups_append_afterGroups (x : Bytes) : wholeGroups x ++ afterGroups x = x := List.take_append_drop ..

theorem length_wholeGroups_mod (x : Bytes) : (wholeGroups x).length % groupSize = 0 := by
  have hle : x.length / groupSize * groupSize ≤ x.length := Nat.div_mul_le_self ..
  rw [wholeGroups, List.length_take, Nat.min_eq_left hle, Nat.mul_mod_left]

private theorem groups_cut {l : Bytes} (hl : l.length % groupSize = 0) (r : Bytes) :
    (l ++ r).length / groupSize * groupSize = l.length + r.length / groupSize * groupSize := by
  simp only [List.length_append, groupSize] at *
  omega

theorem wholeGroups_append {l : Bytes} (hl : l.length % groupSize = 0) (r : Bytes) :
    wholeGroups (l ++ r) = l ++ wholeGroups r := by
  rw [wholeGroups, groups_cut hl, List.take_length_add_append, wholeGroups]

theorem afterGroups_append {l : Bytes} (hl : l.length % groupSize = 0) (r : Bytes) :
    afterGroups (l ++ r) = afterGroups r := by
  rw [afterGroups, groups_cut hl, List.drop_length_add_append, afterGroups]

theorem Base64.Engine.encode_wholeGroups (e : Engine) (x y : Bytes) :
    e.encode (wholeGroups x) ++ e.encode (afterGroups x ++ y) = e.encode (x ++ y) := by
  rw [← e.encode_append _ _ (length_wholeGroups_mod x), ← List.append_assoc, wholeGroups_append_afterGroups]

namespace Base64Sink

variable {σ : Type}

/-! ### Encoding -/

private theorem encodeSteps_eq {e : Engine} {steps : List Bytes} (h : ∀ c ∈ steps, c.length ≤ stepSize)
    (text : Buffer) :
    ∃ text', encodeSteps e steps text = (.ok (), text') ∧ text'.toList = text.toList ++ steps.flatMap e.encode := by
  induction steps generalizing text with
  | nil => exact ⟨text, rfl, by simp⟩
  | cons c steps ih =>
    have hc : c.length ≤ stepSize := h c List.mem_cons_self
    have hsteps : ∀ c ∈ steps, c.length ≤ stepSize := by
      intro c hc
      exact h c (List.mem_cons_of_mem _ hc)
    obtain ⟨text₁, h₁, hl₁⟩ := encodeStep_eq_ok (e := e) hc text
    obtain ⟨text₂, h₂, hl₂⟩ := ih hsteps text₁
    refine ⟨text₂, ?_, ?_⟩
    · rw [encodeSteps, h₁]
      exact h₂
    · rw [hl₂, hl₁, List.flatMap_cons, List.append_assoc]

private theorem flatMap_encode_chunks (e : Engine) (data : Bytes) :
    (chunks stepSize data).flatMap e.encode = e.encode data := by
  have hgroups : stepSize % groupSize = 0 := by decide
  have hpos : 0 < stepSize := by decide
  generalize stepSize = n at *
  fun_induction chunks n data with
  | case1 => simp [Engine.encode]
  | case2 a l ih =>
    rw [List.flatMap_cons, ih]
    by_cases hle : l.length ≤ n - 1
    · rw [List.take_of_length_le hle, List.drop_eq_nil_of_le hle, Engine.encode, List.append_nil]
    · -- only the last step may end inside a group
      have hmod : (a :: l.take (n - 1)).length % groupSize = 0 := by
        rw [List.length_cons, List.length_take, Nat.min_eq_left (by omega), Nat.sub_add_cancel hpos, hgroups]
      rw [← e.encode_append _ _ hmod, List.cons_append, List.take_append_drop]

/-- Encoding succeeds and appends the text of the whole to what is unsent. -/
theorem encode_eq (s : Base64Sink σ) (data : Bytes) : ∃ unsent, s.encode data = (.ok (), { s with unsent }) ∧
    unsent.toList = s.unsent.toList ++ s.engine.encode data := by
  have hsteps : ∀ c ∈ chunks stepSize data, c.length ≤ stepSize := by
    intro c hc
    exact (length_of_mem_chunks (by decide) hc).2
  obtain ⟨unsent, h, hl⟩ := encodeSteps_eq (e := s.engine) hsteps s.unsent
  refine ⟨unsent, ?_, ?_⟩
  · rw [encode, h]
  · rw [hl, flatMap_encode_chunks]

theorem accept_eq (s : Base64Sink σ) (data : Bytes) :
    ∃ unsent, s.accept data =
        (.ok (), { s with pending := if s.segmented then [] else afterGroups (s.pending ++ data), unsent }) ∧
      unsent.toList = s.unsent.toList ++
        s.engine.encode (if s.segmented then s.pending ++ data else wholeGroups (s.pending ++ data)) := by
  unfold accept
  by_cases hs : s.segmented
  · simp only [hs, if_true, List.take_length, List.drop_length]
    exact encode_eq _ _
  · simp only [hs, if_false, Bool.false_eq_true]
    exact encode_eq { s with pending := afterGroups (s.pending ++ data), segmented := false } _

/-! ### Calls -/

variable [ByteSink σ]

/-- The sink is open and what it owes can be forwarded, so that the call goes on to its own work. -/
def Ready (s : Base64Sink σ) (host : Host) : Prop := s.closed = false ∧ (s.forward host).result = .ok ()

instance (s : Base64Sink σ) (host : Host) : Decidable (s.Ready host) := inferInstanceAs (Decidable (_ ∧ _))

theorem forward_eq (s : Base64Sink σ) (host : Host) :
    s.forward host =
      let o := drain s.inner s.unsent host
      ⟨o.result, { s with inner := o.sink, unsent := o.buffer }, o.host⟩ := by
  unfold forward drain
  split <;> rfl

theorem unsent_of_forward_ok [ExactSink σ] {s : Base64Sink σ} {host : Host} (h : (s.forward host).result = .ok ()) :
    (s.forward host).endpoint.unsent.toList = [] := by
  rw [forward_eq] at h ⊢
  exact buffer_of_drain_ok h

@[simp] theorem engine_forward (s : Base64Sink σ) (host : Host) : (s.forward host).endpoint.engine = s.engine := by
  rw [forward_eq]

@[simp] theorem pending_forward (s : Base64Sink σ) (host : Host) : (s.forward host).endpoint.pending = s.pending := by
  rw [forward_eq]

@[simp] theorem segmented_forward (s : Base64Sink σ) (host : Host) :
    (s.forward host).endpoint.segmented = s.segmented := by
  rw [forward_eq]

/-- A write that is granted to a ready sink takes its bytes, whatever becomes of their text. -/
theorem write_of_ready {s : Base64Sink σ} {n : Nat} {b : Buffer} {host : Host}
    (hn : checkWrite b.length n = .ok ()) (h : s.Ready host) :
    s.write n b host =
      let o := ((s.forward host).endpoint.accept (b.take n)).2.forward (s.forward host).host
      ⟨o.result, o.endpoint, b.drop n, o.host⟩ := by
  obtain ⟨hc, hr⟩ := h
  rcases hf : s.forward host with ⟨r, s₁, host₁⟩
  obtain rfl : r = .ok () := by simpa [hf] using hr
  obtain ⟨unsent, ha, -⟩ := accept_eq s₁ (b.take n)
  simp only [write, hn, hc, hf, ha, Bool.false_eq_true, if_false]

/-- Any other write fails and leaves the buffer alone; at most it has forwarded what was owed. -/
theorem write_of_not_ready {s : Base64Sink σ} {n : Nat} {b : Buffer} {host : Host}
    (h : ¬ (checkWrite b.length n = .ok () ∧ s.Ready host)) :
    (s.write n b host).result ≠ .ok () ∧ (s.write n b host).buffer = b ∧
      ((s.write n b host).sink = s ∨ (s.write n b host).sink = (s.forward host).endpoint) := by
  unfold write
  split
  · simp
  · rename_i hn
    split
    · simp
    · rename_i hc
      split
      · rename_i hf
        simp [hf]
      · -- neither of the reasons to refuse has held
        rename_i hf
        have hr : s.Ready host := ⟨by simpa using hc, by rw [hf]⟩
        exact absurd ⟨hn, hr⟩ h

instance : ExactSink (Base64Sink σ) where
  buffer_of_write_ok {s n b host} h := by
    replace h : (s.write n b host).result = .ok () := h
    show (s.write n b host).buffer.toList = b.toList.drop n
    by_cases hr : checkWrite b.length n = .ok () ∧ s.Ready host
    · rw [write_of_ready hr.1 hr.2]
      exact Buffer.toList_drop ..
    · exact absurd h (write_of_not_ready hr).1

/-- Ending the segment does no more than to forward, if that fails or there is no tail; else the text of the tail is
added to what is unsent, and forwarded. -/
theorem emitTail_cases (s : Base64Sink σ) (host : Host) :
    (s.emitTail host = s.forward host ∧ ((s.forward host).result ≠ .ok () ∨ s.pending = [])) ∨
      ((s.forward host).result = .ok () ∧ ∃ unsent,
        unsent.toList = (s.forward host).endpoint.unsent.toList ++ s.engine.encode s.pending ∧
          s.emitTail host = { (s.forward host).endpoint with pending := [], unsent }.forward
            ((s.forward host).host.report (.base64Tail s.pending.length))) := by
  have he := engine_forward s host
  have hp := pending_forward s host
  unfold emitTail
  rcases hf : s.forward host with ⟨_ | _, s₁, host₁⟩
  · simp
  · rw [hf] at he hp
    obtain ⟨unsent, hu, hl⟩ := encode_eq { s₁ with pending := [] } s.pending
    simp only at he hp ⊢
    by_cases hn : s.pending = []
    · simp [hp, hn]
    · right
      simp only [hp, hn, hu, if_false]
      refine ⟨trivial, unsent, ?_, rfl⟩
      rw [hl, ← he]

theorem settled_of_emitTail_ok [ExactSink σ] {s : Base64Sink σ} {host : Host} (h : (s.emitTail host).result = .ok ()) :
    (s.emitTail host).endpoint.unsent.toList = [] ∧ (s.emitTail host).endpoint.pending = [] := by
  rcases emitTail_cases s host with ⟨he, hr⟩ | ⟨-, unsent, -, he⟩
  · rw [he] at h ⊢
    exact ⟨unsent_of_forward_ok h, by simpa [h] using hr⟩
  · rw [he] at h ⊢
    exact ⟨unsent_of_forward_ok h, pending_forward ..⟩

/-- When nothing is kept back, ending the segment does nothing. -/
theorem emitTail_of_settled {s : Base64Sink σ} (hu : s.unsent.toList = []) (hp : s.pending = []) (host : Host) :
    s.emitTail host = ⟨.ok (), s, host⟩ := by
  have hf : s.forward host = ⟨.ok (), s, host⟩ := by rw [forward_eq, drain_of_nil hu]
  simp [emitTail, hf, hp]

/-- Closing an open sink ends the segment, then closes the inner sink unless that may be repeated. -/
theorem close_of_open {s : Base64Sink σ} (h : s.closed = false) (host : Host) :
    s.close host =
      if retryable (s.emitTail host).result then s.emitTail host
      else
        let tail := s.emitTail host
        let o := ByteSink.close tail.endpoint.inner tail.host
        ⟨(settle tail.result o.result).1,
          { tail.endpoint with inner := o.endpoint, closed := (settle tail.result o.result).2 }, o.host⟩ := by
  unfold close
  rw [if_neg (by simp [h])]

theorem close_of_closed {s : Base64Sink σ} (h : s.closed = true) (host : Host) : s.close host = ⟨.ok (), s, host⟩ := by
  unfold close
  rw [if_pos h]

theorem close_cases {s : Base64Sink σ} {host : Host} (ho : s.closed = false)
    (hr : (s.close host).result = .ok () ∨ retryable (s.close host).result) :
    (retryable (s.emitTail host).result ∧ s.close host = s.emitTail host) ∨
      ∃ o, o = ByteSink.close (s.emitTail host).endpoint.inner (s.emitTail host).host ∧
        (s.emitTail host).result = .ok () ∧ s.close host = ⟨o.result,
          { (s.emitTail host).endpoint with inner := o.endpoint, closed := !retryable o.result }, o.host⟩ := by
  rw [close_of_open ho] at hr ⊢
  by_cases ht : retryable (s.emitTail host).result
  · left
    exact ⟨ht, if_pos ht⟩
  · right
    rw [if_neg ht] at hr ⊢
    obtain ⟨hok, hs⟩ := settle_cases ht hr
    refine ⟨_, rfl, hok, ?_⟩
    simp only [hs]

end Base64Sink

end Conduit
