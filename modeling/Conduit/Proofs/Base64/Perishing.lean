import Conduit.Proofs.Base64.Decoding
import Conduit.Proofs.Contract
import Conduit.Proofs.Perishing
import Conduit.Proofs.Requests

/-!
# Decoding a stream that is malformed for good

A decoder that has found its text malformed refuses all reads.  If it was what it decodes that has found its stream
malformed, the decoder goes on: it gives the bytes it has decoded, and those of the text that is still to come, but asks
for more text whenever that is not enough, and then the stream is found malformed again (`Base64Source.honest`).
-/

namespace Conduit

namespace Base64Source

open Base64

variable {σ : Type} [ByteSource σ] {limit limit' : Nat}

/-- Decoding makes bytes fewer. -/
theorem length_decodeWhole_le {e : Engine} {text rest : Buffer} {out : Bytes}
    (h : decodeWhole e text = (.ok out, rest)) : out.length + rest.length ≤ text.length := by
  obtain ⟨h₁, rfl⟩ := Prod.mk.inj h
  have hlen := Engine.length_decode_le h₁
  rw [Quantum.length_ofBytes, Buffer.length_take] at hlen
  rw [Buffer.length_drop]
  simp only [quantumSize, groupSize] at *
  omega

/-- The stream of what is read from is malformed for good; `w` bounds all that may still come. -/
private def Starving (limit' w : Nat) (s : Base64Source σ) : Prop :=
  (s.closed = false ∧ s.malformed = false ∧ s.exhausted = false) ∧
    ∃ v, Perished limit' v s.inner ∧ s.decoded.length + s.encoded.length + v ≤ w

/-- The source has found its stream malformed itself, or what it reads from has. -/
private def Failing (limit' w : Nat) (s : Base64Source σ) : Prop :=
  (s.closed = false ∧ s.malformed = true) ∨ s.Starving limit' w

/-- Filling ends with enough, or finds the stream malformed. -/
private theorem Starving.fill {w : Nat} {s : Base64Source σ} (h : s.Starving limit' w) {n : Nat}
    (hr : request n ≤ limit') (host : Host) :
    ((∃ fault, (s.fill n host).result = .error (.malformedStream fault)) ∧ (s.fill n host).endpoint.Failing limit' w) ∨
      ((s.fill n host).result = .ok () ∧ n ≤ (s.fill n host).endpoint.decoded.length ∧
        (s.fill n host).endpoint.Starving limit' w) := by
  have hreq (s : Base64Source σ) : request (n - s.decoded.length) ≤ limit' :=
    Nat.le_trans (request_le_request (Nat.sub_le ..)) hr
  fun_induction Base64Source.fill s n host with
  | case1 s host hlt e inner encoded host' hread' =>
    obtain ⟨hflags, v, hv, hw⟩ := h
    have hp := perishing_perished limit' hv (request_pos (Nat.sub_pos_of_lt hlt.1)) (hreq s) s.encoded host
    simp only [hread'] at hp
    rcases hp with ⟨⟨⟨fault, he⟩, rfl⟩, hv⟩ | ⟨-, ⟨hok, -⟩, -⟩
    · exact .inl ⟨⟨fault, congrArg Except.error (Except.error.inj he)⟩, .inr ⟨hflags, v, hv, hw⟩⟩
    · cases hok
  | case2 s host hlt inner encoded host' hread' s' he =>
    obtain ⟨hflags, v, hv, hw⟩ := h
    have hends := hv.not_ended (request_pos (Nat.sub_pos_of_lt hlt.1)) (hreq s) s.encoded host
    exact absurd (congrArg ReadOutcome.result hread') hends
  | case3 s host hlt inner encoded host' hread' s' he =>
    obtain ⟨hflags, v, hv, hw⟩ := h
    have hends := hv.not_ended (request_pos (Nat.sub_pos_of_lt hlt.1)) (hreq s) s.encoded host
    exact absurd (congrArg ReadOutcome.result hread') hends
  | case4 s host hlt k inner encoded host' hread' e rest hd =>
    exact .inl ⟨⟨_, rfl⟩, .inl ⟨h.1.1, rfl⟩⟩
  | case5 s host hlt k inner encoded host' hread' bytes rest hd ih =>
    obtain ⟨hflags, v, hv, hw⟩ := h
    have hp := perishing_perished limit' hv (request_pos (Nat.sub_pos_of_lt hlt.1)) (hreq s) s.encoded host
    simp only [hread'] at hp
    rcases hp with ⟨⟨⟨fault, he⟩, -⟩, -⟩ | ⟨hle, ⟨-, piece, hlen, hpiece⟩, hv⟩
    · cases he
    · -- what comes from below moves to the text, and from there no more moves to the decoded bytes
      have hdec := length_decodeWhole_le hd
      have hcat : encoded.length = s.encoded.length + piece.length := by
        rw [← Buffer.length_toList, ← Buffer.length_toList, ← List.length_append]
        exact congrArg List.length hpiece
      refine ih ⟨hflags, _, hv, ?_⟩
      show (s.decoded.append bytes).length + rest.length + (v - request (n - s.decoded.length)) ≤ w
      rw [Buffer.length_append]
      omega
  | case6 s host hge =>
    have hn : n ≤ s.decoded.length := by
      by_cases hlt : s.decoded.length < n
      · exact absurd ⟨hlt, h.1.2.2⟩ hge
      · exact Nat.le_of_not_lt hlt
    exact .inr ⟨rfl, hn, h⟩

theorem read_of_malformed {s : Base64Source σ} (ho : s.closed = false) (hm : s.malformed = true) {n : Nat}
    (hl : n < maxRequestLength) (b : Buffer) (host : Host) :
    s.read n b host = ⟨.error (.malformedStream .alreadyMalformed), s, b, host⟩ := by
  have ho : ¬ s.closed = true := by simp [ho]
  exact (if_neg (Nat.not_le.2 hl)).trans ((if_neg ho).trans (if_pos hm))

/-- A read that has filled the source with enough gives all that was asked for. -/
private theorem read_of_enough {s s' : Base64Source σ} (ho : s.closed = false) (hm : s.malformed = false) {n : Nat}
    (hn : 0 < n) (hl : n < maxRequestLength) {host host' : Host} (hf : s.fill n host = ⟨.ok (), s', host'⟩)
    (henough : n ≤ s'.decoded.length) (b : Buffer) : s.read n b host =
      ⟨.ok (some n), { s' with decoded := (s'.decoded.moveTo n b).2 }, (s'.decoded.moveTo n b).1, host'⟩ := by
  have hne : ¬ s'.decoded.isEmpty := by
    rw [Buffer.isEmpty_iff, ← Buffer.length_eq_zero_iff]
    omega
  rw [read_of_ready ho hm hn hl, hf]
  simp only [if_neg hne, Nat.min_eq_left henough]

/-- What filling keeps and the decoded bytes do not matter for, a read keeps. -/
theorem read_keeps {Q : Base64Source σ → Prop} (hQ : ∀ s decoded, Q s → Q { s with decoded }) {s : Base64Source σ}
    {n : Nat} {host : Host} (hs : Q s) (hfill : Q (s.fill n host).endpoint) (b : Buffer) :
    Q (s.read n b host).source := by
  by_cases hready : s.closed = false ∧ s.malformed = false ∧ 0 < n ∧ n < maxRequestLength
  · obtain ⟨ho, hm, hn, hl⟩ := hready
    rw [read_of_ready ho hm hn hl]
    rcases hf : s.fill n host with ⟨e | _, s', host'⟩
    · rw [hf] at hfill
      exact hfill
    · rw [hf] at hfill
      simp only
      split
      · exact hfill
      · exact hQ _ _ hfill
  · obtain ⟨r, hr, -⟩ := read_unready hready b host
    rw [hr]
    exact hs

private theorem perishing_failing (hl : limit < maxRequestLength) (hr : request limit ≤ limit') :
    Perishing limit (Failing limit' : Nat → Base64Source σ → Prop) := by
  intro w s h n hn hle b host
  show (Rejected b (s.read n b host) ∧ (s.read n b host).source.Failing limit' w) ∨
    (n ≤ w ∧ Granted n b (s.read n b host) ∧ (s.read n b host).source.Failing limit' (w - n))
  rcases h with ⟨ho, hm⟩ | h
  · rw [read_of_malformed ho hm (by omega)]
    exact .inl ⟨⟨⟨_, rfl⟩, rfl⟩, .inl ⟨ho, hm⟩⟩
  · have hfill := h.fill (Nat.le_trans (request_le_request hle) hr) host
    rcases hf : s.fill n host with ⟨e | _, s', host'⟩
    · rw [hf] at hfill
      rw [read_of_ready h.1.1 h.1.2.1 hn (by omega), hf]
      rcases hfill with ⟨⟨fault, he⟩, hs⟩ | ⟨hok, -⟩
      · exact .inl ⟨⟨⟨fault, congrArg Except.error (Except.error.inj he)⟩, rfl⟩, hs⟩
      · cases hok
    · rw [hf] at hfill
      rcases hfill with ⟨⟨fault, he⟩, -⟩ | ⟨-, henough, hflags, v, hv, hw⟩
      · cases he
      · have henough : n ≤ s'.decoded.length := henough
        have hw : s'.decoded.length + s'.encoded.length + v ≤ w := hw
        rw [read_of_enough h.1.1 h.1.2.1 hn (by omega) hf henough]
        refine .inr ⟨by omega, granted_of_moveTo henough .., .inr ⟨hflags, v, hv, ?_⟩⟩
        show (s'.decoded.moveTo n b).2.length + s'.encoded.length + v ≤ w - n
        rw [Buffer.length_moveTo_snd]
        omega

theorem closed_fill (s : Base64Source σ) (n : Nat) (host : Host) : (s.fill n host).endpoint.closed = s.closed := by
  fun_induction Base64Source.fill s n host with
  | case1 => rfl
  | case2 => rfl
  | case3 => rfl
  | case4 => rfl
  | case5 s host hlt k inner encoded host' hr bytes rest hd ih => exact ih
  | case6 => rfl

theorem closed_read (s : Base64Source σ) (n : Nat) (b : Buffer) (host : Host) :
    (s.read n b host).source.closed = s.closed := by
  apply read_keeps (Q := fun t => t.closed = s.closed)
  · intro t decoded ht
    exact ht
  · rfl
  · exact s.closed_fill n host

/-- Only an open source can find its stream malformed. -/
theorem open_of_malformed {s : Base64Source σ} {n : Nat} {b : Buffer} {host : Host} {fault : StreamFault}
    (h : (s.read n b host).result = .error (.malformedStream fault)) : s.closed = false := by
  by_cases ho : s.closed
  · by_cases hl : maxRequestLength ≤ n
    · simp [Base64Source.read, hl] at h
    · simp [Base64Source.read, hl, ho] at h
  · simpa using ho

/-- What is there already is given without asking. -/
theorem granted_of_le {s : Base64Source σ} (ho : s.closed = false) (hm : s.malformed = false) {n : Nat} (hn : 0 < n)
    (hl : n < maxRequestLength) (hle : n ≤ s.decoded.length) (b : Buffer) (host : Host) :
    Granted n b (s.read n b host) := by
  have hfill : s.fill n host = ⟨.ok (), s, host⟩ := by
    rw [fill, dif_neg (by omega)]
  rw [read_of_enough ho hm hn hl hfill hle]
  exact granted_of_moveTo hle ..

theorem read_of_closed {s : Base64Source σ} (h : s.closed = true) {n : Nat} (hl : n < maxRequestLength) (b : Buffer)
    (host : Host) : s.read n b host = ⟨.error .closed, s, b, host⟩ :=
  (if_neg (Nat.not_le.2 hl)).trans (if_pos h)

theorem closed_close (s : Base64Source σ) (host : Host) : (s.close host).endpoint.closed = true := by
  unfold Base64Source.close
  split
  · assumption
  · rfl

/-- What the source and what it reads from hold, unless it has found its stream malformed itself. -/
def heldOver (held : σ → Nat) (s : Base64Source σ) : Nat :=
  if s.malformed then 0 else s.decoded.length + s.encoded.length + held s.inner

variable {held : σ → Nat} {T : σ → Prop}

/-- When filling finds the stream malformed, the source has found that itself, or what it reads from is malformed for
good. -/
private theorem fill_malformed (hT : Honest limit' held T) {s : Base64Source σ} (h : T s.inner) (n : Nat)
    (host : Host) : T (s.fill n host).endpoint.inner ∧
      (s.closed = false → s.malformed = false → request n ≤ limit' → ∀ fault,
        (s.fill n host).result = .error (.malformedStream fault) →
        (s.fill n host).endpoint.Failing limit' ((s.fill n host).endpoint.heldOver held)) := by
  have hkept (s : Base64Source σ) (host : Host) (h : T s.inner) :=
    hT.kept h (request (n - s.decoded.length)) s.encoded host
  fun_induction Base64Source.fill s n host with
  | case1 s host hlt e inner encoded host' hr =>
    have hk := hkept s host h
    rw [hr] at hk
    refine ⟨hk, ?_⟩
    -- only here the failure comes from below, and this source is not marked
    intro ho hm hreq fault he
    have hle := Nat.le_trans (request_le_request (Nat.sub_le n s.decoded.length)) hreq
    have hres : (ByteSource.read s.inner (request (n - s.decoded.length)) s.encoded host).result =
        .error (.malformedStream fault) := by
      rw [hr]
      exact congrArg Except.error (Except.error.inj he)
    obtain ⟨-, hv⟩ := hT.perished h (request_pos (Nat.sub_pos_of_lt hlt.1)) hle hres
    rw [hr] at hv
    refine .inr ⟨⟨ho, hm, hlt.2⟩, held inner, hv, ?_⟩
    simp [heldOver, hm]
  | case2 s host hlt inner encoded host' hr s' he =>
    have hk := hkept s host h
    rw [hr] at hk
    exact ⟨hk, fun _ _ _ fault hres => by cases hres⟩
  | case3 s host hlt inner encoded host' hr s' he =>
    have hk := hkept s host h
    rw [hr] at hk
    exact ⟨hk, fun ho _ _ fault _ => .inl ⟨ho, rfl⟩⟩
  | case4 s host hlt k inner encoded host' hr e rest hd =>
    have hk := hkept s host h
    rw [hr] at hk
    exact ⟨hk, fun ho _ _ fault _ => .inl ⟨ho, rfl⟩⟩
  | case5 s host hlt k inner encoded host' hr bytes rest hd ih =>
    have hk := hkept s host h
    rw [hr] at hk
    exact ih hk
  | case6 s host hge => exact ⟨h, fun _ _ _ fault hres => by cases hres⟩

/-- A decoder of an honest source is honest. -/
theorem honest (hT : Honest limit' held T) (hl : limit < maxRequestLength) (hr : request limit ≤ limit') :
    Honest limit (heldOver held) (fun s : Base64Source σ => T s.inner) where
  kept {s} h n b host := by
    show T (s.read n b host).source.inner
    apply read_keeps (Q := fun t => T t.inner)
    · intro t decoded ht
      exact ht
    · exact h
    · exact (fill_malformed hT h n host).1
  perished {s} h {n} hn hle {b host fault} hres := by
    have hres : (s.read n b host).result = .error (.malformedStream fault) := hres
    show (s.read n b host).buffer = b ∧
      Perished limit ((s.read n b host).source.heldOver held) (s.read n b host).source
    have hlt : n < maxRequestLength := by omega
    have hbuf := (s.obeys n b host).failed _ hres
    refine ⟨hbuf, Failing limit', perishing_failing hl hr, ?_⟩
    have ho := open_of_malformed hres
    by_cases hm : s.malformed
    · rw [read_of_malformed ho hm hlt]
      exact .inl ⟨ho, hm⟩
    · have hm : s.malformed = false := by simpa using hm
      obtain ⟨-, hfail⟩ := fill_malformed hT h n host
      rw [read_of_ready ho hm hn hlt] at hres ⊢
      rcases hf : s.fill n host with ⟨e | _, s', host'⟩
      · rw [hf] at hfail hres
        exact hfail ho hm (Nat.le_trans (request_le_request hle) hr) fault
          (congrArg Except.error (Except.error.inj hres))
      · rw [hf] at hres
        simp only at hres
        split at hres
        · cases hres
        · cases hres

end Base64Source

end Conduit
