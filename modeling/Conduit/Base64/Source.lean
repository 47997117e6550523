import Conduit.Base64.Engine
import Conduit.Endpoint

/-!
# Reading Base64 text

A Base64 source reads text from another source and serves the bytes in it.  It reads no more text than the bytes that
are asked for can need: `fill` asks for whole quanta, keeps up to three symbols that do not form a quantum yet, and
stops as soon as enough bytes are there.  A text that is malformed once stays malformed.
-/

namespace Conduit

open Base64

/-- A source that decodes the text of another one. -/
structure Base64Source (σ : Type) where
  inner : σ
  engine : Engine
  encoded : Buffer
  decoded : Buffer
  exhausted : Bool
  malformed : Bool
  closed : Bool

namespace Base64Source

variable {σ : Type}

def new (inner : σ) (engine : Engine) : Base64Source σ := ⟨inner, engine, .empty, .empty, false, false, false⟩

/-- The symbols to ask for when `missing` more bytes are needed: whole quanta. -/
def request (missing : Nat) : Nat :=
  min ((missing + groupSize - 1) / groupSize * quantumSize) maxRequestLength

/-- Marks the stream as malformed, for good. -/
def fail (s : Base64Source σ) (fault : StreamFault) (host : Host) : CallOutcome (Base64Source σ) :=
  ⟨.error (.malformedStream fault), { s with malformed := true }, host.report (.malformedBase64 fault)⟩

theorem request_pos {missing : Nat} (h : 0 < missing) : 0 < request missing := by
  have : 1 ≤ (missing + groupSize - 1) / groupSize := by
    rw [Nat.le_div_iff_mul_le (by decide)]; simp only [groupSize]; omega
  have : 0 < maxRequestLength := by decide
  simp only [request, quantumSize]
  omega

/-- Decodes the whole quanta of a text and leaves what is behind them. -/
def decodeWhole (e : Engine) (text : Buffer) : Except DecodeError Bytes × Buffer :=
  let aligned := text.length / quantumSize * quantumSize
  (e.decode (Quantum.ofBytes (text.take aligned)), text.drop aligned)

theorem length_decodeWhole {e : Engine} {text rest : Buffer} {out : Bytes}
    (h : decodeWhole e text = (.ok out, rest)) :
    text.length / quantumSize ≤ out.length ∧ rest.length = text.length % quantumSize := by
  obtain ⟨h₁, rfl⟩ := Prod.mk.inj h
  have := Engine.length_le_of_decode h₁
  rw [Quantum.length_ofBytes, Buffer.length_take] at this
  rw [Buffer.length_drop]
  simp only [quantumSize] at *
  omega

variable [ByteSource σ]

/-- Reads and decodes until `n` decoded bytes are there or the inner source has ended. -/
def fill (s : Base64Source σ) (n : Nat) (host : Host) : CallOutcome (Base64Source σ) :=
  if _h : s.decoded.length < n ∧ s.exhausted = false then
    match _hr : ByteSource.read s.inner (request (n - s.decoded.length)) s.encoded host with
    | ⟨.error e, inner, encoded, host⟩ => ⟨.error e, { s with inner, encoded }, host⟩
    | ⟨.ok none, inner, encoded, host⟩ =>
      let s := { s with inner, encoded, exhausted := true }
      if encoded.isEmpty then ⟨.ok (), s, host⟩ else s.fail (.trailingSymbols encoded.length) host
    | ⟨.ok (some _), inner, encoded, host⟩ =>
      match _hd : decodeWhole s.engine encoded with
      | (.error e, encoded) => { s with inner, encoded }.fail (.invalidBase64 e) host
      | (.ok bytes, encoded) => fill { s with inner, encoded, decoded := s.decoded.append bytes } n host
  else ⟨.ok (), s, host⟩
termination_by quantumSize * (n - s.decoded.length) + (3 - s.encoded.length) + ByteSource.patience s.inner
decreasing_by
  have h₁ := request_pos (Nat.sub_pos_of_lt _h.1)
  have h₂ := ByteSource.length_read (congrArg ReadOutcome.result _hr)
  have h₃ := ByteSource.patience_read h₁ (congrArg ReadOutcome.result _hr)
  rw [_hr] at h₂ h₃
  have h₄ := length_decodeWhole _hd
  simp only [Buffer.length_append, quantumSize, Option.some.injEq] at *
  split at h₃ <;> omega

/-- Filling a source that needs more, step by step. -/
theorem fill_of_lt {s : Base64Source σ} {n : Nat} (h : s.decoded.length < n ∧ s.exhausted = false)
    (host : Host) : s.fill n host =
      match ByteSource.read s.inner (request (n - s.decoded.length)) s.encoded host with
      | ⟨.error e, inner, encoded, host⟩ => ⟨.error e, { s with inner, encoded }, host⟩
      | ⟨.ok none, inner, encoded, host⟩ =>
        let s := { s with inner, encoded, exhausted := true }
        if encoded.isEmpty then ⟨.ok (), s, host⟩ else s.fail (.trailingSymbols encoded.length) host
      | ⟨.ok (some _), inner, encoded, host⟩ =>
        match decodeWhole s.engine encoded with
        | (.error e, encoded) => { s with inner, encoded }.fail (.invalidBase64 e) host
        | (.ok bytes, encoded) => { s with inner, encoded, decoded := s.decoded.append bytes }.fill n host := by
  rw [fill, dif_pos h]
  split
  · rename_i hr
    rw [hr]
  · rename_i hr
    rw [hr]
  · rename_i hr
    rw [hr]
    split
    · rename_i hd
      simp only [hd]
    · rename_i hd
      simp only [hd]

def read (s : Base64Source σ) (n : Nat) (b : Buffer) (host : Host) : ReadOutcome (Base64Source σ) :=
  if maxRequestLength ≤ n then ⟨.error (.invalidArgument (.notBelowLimit n)), s, b, host⟩
  else if s.closed then ⟨.error .closed, s, b, host⟩
  else if s.malformed then ⟨.error (.malformedStream .alreadyMalformed), s, b, host⟩
  else if n = 0 then ⟨.ok (some 0), s, b, host⟩
  else match s.fill n host with
    | ⟨.error e, s, host⟩ => ⟨.error e, s, b, host⟩
    | ⟨.ok (), s, host⟩ =>
      if s.decoded.isEmpty then ⟨.ok none, s, b, host⟩
      else
        let count := min n s.decoded.length
        let (b, decoded) := s.decoded.moveTo count b
        ⟨.ok (some count), { s with decoded }, b, host⟩

/-- Closes the source; decoded bytes that were not asked for are forgotten. -/
def close (s : Base64Source σ) (host : Host) : CallOutcome (Base64Source σ) :=
  if s.closed then ⟨.ok (), s, host⟩
  else match ByteSource.close s.inner host with
    | ⟨result, inner, host⟩ => ⟨result, { s with inner, closed := true, encoded := .empty, decoded := .empty }, host⟩

theorem patience_fill {s : Base64Source σ} {n : Nat} {host : Host} (h : (s.fill n host).result = .ok ()) :
    ByteSource.patience (s.fill n host).endpoint.inner ≤ ByteSource.patience s.inner := by
  fun_induction fill s n host with
  | case1 => cases h
  | case2 s host hlt inner encoded host' hr s' he =>
    have hp := ByteSource.patience_read (request_pos (Nat.sub_pos_of_lt hlt.1)) (congrArg ReadOutcome.result hr)
    rw [hr] at hp
    exact Nat.le_trans (Nat.le_add_right ..) hp
  | case3 => cases h
  | case4 => cases h
  | case5 s host hlt k inner encoded host' hr bytes rest hd ih =>
    have hp := ByteSource.patience_read (request_pos (Nat.sub_pos_of_lt hlt.1)) (congrArg ReadOutcome.result hr)
    rw [hr] at hp
    exact Nat.le_trans (ih h) (Nat.le_trans (Nat.le_add_right ..) hp)
  | case6 => exact Nat.le_refl _

theorem read_eq_ok {s : Base64Source σ} {n : Nat} {r : Option Nat} {b : Buffer} {host : Host}
    (h : (s.read n b host).result = .ok r) :
    (∀ k, r = some k → (s.read n b host).buffer.length = b.length + k) ∧
      (0 < n → r ≠ some 0 ∧
        ByteSource.patience (s.read n b host).source.inner ≤ ByteSource.patience s.inner) := by
  unfold read at h ⊢
  split
  · rename_i hm; simp [hm] at h
  · rename_i hm
    split
    · rename_i hc; simp [hm, hc] at h
    · rename_i hc
      split
      · rename_i hf; simp [hm, hc, hf] at h
      · rename_i hf
        split
        · rename_i hn
          subst hn
          simp only [hm, hc, hf, if_false, if_true, Bool.false_eq_true, Except.ok.injEq] at h
          subst h
          simp
        · rename_i hn
          simp only [hm, hc, hf, hn, if_false, Bool.false_eq_true] at h
          split
          · rename_i hr; simp [hr] at h
          · rename_i s' host' hr
            have hp := patience_fill (congrArg CallOutcome.result hr)
            rw [hr] at hp
            simp only [hr] at h
            split
            · rename_i he
              simp only [he, if_true, Except.ok.injEq] at h
              subst h
              simpa using fun _ => hp
            · rename_i he
              simp only [he, if_false, Except.ok.injEq, Bool.false_eq_true] at h
              subst h
              have hl : s'.decoded.length ≠ 0 := fun h0 => he (Buffer.isEmpty_iff.2 (Buffer.length_eq_zero_iff.1 h0))
              refine ⟨fun k hk => ?_, fun _ => ⟨?_, hp⟩⟩
              · rw [Buffer.length_moveTo_fst, ← Option.some.inj hk]
                omega
              · rw [ne_eq, Option.some.injEq]
                omega

instance : ByteSource (Base64Source σ) where
  read := read
  close := close
  timeout s := ByteSource.timeout s.inner
  patience s := ByteSource.patience s.inner
  length_read h := (read_eq_ok h).1 _ rfl
  patience_read hn h := by
    obtain ⟨h₁, h₂⟩ := (read_eq_ok h).2 hn
    rw [if_neg h₁]
    exact h₂

end Base64Source

end Conduit
