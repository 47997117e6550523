import Conduit.Cipher.Basic
import Conduit.Endpoint

/-!
# Reading through a cipher

A cipher source passes the bytes of another source through a cipher and serves the output.  It reads no more than what
is asked for, or one block, and ends the stream of the cipher when the inner source has ended.  Once the cipher has
failed, so does the source.
-/

namespace Conduit

/-- A source that serves the output of a cipher. -/
structure CipherSource (κ σ : Type) where
  inner : σ
  cipher : κ
  output : Buffer
  poisoned : Bool
  closed : Bool

namespace CipherSource

variable {κ σ : Type}

def new (inner : σ) (cipher : κ) : CipherSource κ σ := ⟨inner, cipher, .empty, false, false⟩

/-- Reports an error of the cipher and remembers it, unless the same call may succeed later. -/
def fail (s : CipherSource κ σ) (e : Error) (host : Host) : CallOutcome (CipherSource κ σ) :=
  ⟨.error e, { s with poisoned := !e.retryable }, host⟩

variable [ByteCipher κ]

/-- The bytes to ask for when `missing` more are needed: at least a block. -/
def request (s : CipherSource κ σ) (missing : Nat) : Nat := max missing (ByteCipher.blockSize s.cipher)

variable [ByteSource σ]

/-- Ends the stream of the cipher. -/
def finalize (s : CipherSource κ σ) (host : Host) : CallOutcome (CipherSource κ σ) :=
  match (ByteSource.timeout s.inner).check host with
  | (.error e, host) => s.fail e host
  | (.ok (), host) =>
    match ByteCipher.finalize s.cipher with
    | (.error e, cipher) => { s with cipher }.fail e host
    | (.ok out, cipher) =>
      ⟨.ok (), { s with cipher, output := s.output.append out }, host.report (.cipherFinalized out.length)⟩

/-- Reads and passes on until `n` bytes of output are there or the cipher has ended its stream. -/
def fill (s : CipherSource κ σ) (n : Nat) (host : Host) : CallOutcome (CipherSource κ σ) :=
  if _h : s.output.length < n ∧ ByteCipher.isFinalized s.cipher = false then
    match _hr : ByteSource.read s.inner (s.request (n - s.output.length)) .empty host with
    | ⟨.error e, inner, _, host⟩ => ⟨.error e, { s with inner }, host⟩
    | ⟨.ok none, inner, _, host⟩ => { s with inner }.finalize host
    | ⟨.ok (some _), inner, input, host⟩ =>
      match _hu : ByteCipher.update s.cipher input.toList with
      | (.error e, cipher) => { s with inner, cipher }.fail e host
      | (.ok out, cipher) => fill { s with inner, cipher, output := s.output.append out } n host
  else ⟨.ok (), s, host⟩
termination_by
  if s.output.length < n then
    n - s.output.length + ByteCipher.slack s.cipher + ByteSource.patience s.inner + 1
  else 0
decreasing_by
  have h₁ : 0 < s.request (n - s.output.length) := by simp only [request]; omega
  have h₂ := ByteSource.length_read (congrArg ReadOutcome.result _hr)
  have h₃ := ByteSource.patience_read h₁ (congrArg ReadOutcome.result _hr)
  have h₄ := ByteCipher.slack_update _hu
  rw [_hr] at h₂ h₃
  simp only [Buffer.length_empty, Buffer.length_toList, Option.some.injEq] at h₂ h₃ h₄
  have h₅ := Buffer.length_append s.output out
  rw [if_pos _h.1]
  split <;> split at h₃ <;> omega

def read (s : CipherSource κ σ) (n : Nat) (b : Buffer) (host : Host) : ReadOutcome (CipherSource κ σ) :=
  match checkRead n with
  | .error e => ⟨.error e, s, b, host⟩
  | .ok () =>
    if s.closed then ⟨.error .closed, s, b, host⟩
    else if s.poisoned then ⟨.error (.malformedStream .cipherFailed), s, b, host⟩
    else if n = 0 then ⟨.ok (some 0), s, b, host⟩
    else match s.fill n host with
      | ⟨.error e, s, host⟩ => ⟨.error e, s, b, host⟩
      | ⟨.ok (), s, host⟩ =>
        if s.output.isEmpty then ⟨.ok none, s, b, host⟩
        else
          let count := min n s.output.length
          let (b, output) := s.output.moveTo count b
          ⟨.ok (some count), { s with output }, b, host⟩

/-- Closes the source; output that was not asked for is forgotten. -/
def close (s : CipherSource κ σ) (host : Host) : CallOutcome (CipherSource κ σ) :=
  if s.closed then ⟨.ok (), s, host⟩
  else match ByteSource.close s.inner host with
    | ⟨result, inner, host⟩ => ⟨result, { s with inner, closed := true, output := .empty }, host⟩

theorem inner_finalize {s : CipherSource κ σ} {host : Host} :
    (s.finalize host).endpoint.inner = s.inner := by
  unfold finalize fail
  split
  · rfl
  · split <;> rfl

theorem patience_fill {s : CipherSource κ σ} {n : Nat} {host : Host} (h : (s.fill n host).result = .ok ()) :
    ByteSource.patience (s.fill n host).endpoint.inner ≤ ByteSource.patience s.inner := by
  have hq (s : CipherSource κ σ) (n : Nat) (hn : s.output.length < n) : 0 < s.request (n - s.output.length) := by
    simp only [request]; omega
  fun_induction fill s n host with
  | case1 => cases h
  | case2 s host hlt inner b host' hr =>
    have hp := ByteSource.patience_read (hq s _ hlt.1) (congrArg ReadOutcome.result hr)
    rw [hr] at hp
    rw [inner_finalize]
    exact Nat.le_trans (Nat.le_add_right ..) hp
  | case3 => cases h
  | case4 s host hlt k inner input host' hr out cipher hu ih =>
    have hp := ByteSource.patience_read (hq s _ hlt.1) (congrArg ReadOutcome.result hr)
    rw [hr] at hp
    exact Nat.le_trans (ih h) (Nat.le_trans (Nat.le_add_right ..) hp)
  | case5 => exact Nat.le_refl _

theorem read_eq_ok {s : CipherSource κ σ} {n : Nat} {r : Option Nat} {b : Buffer} {host : Host}
    (h : (s.read n b host).result = .ok r) :
    (∀ k, r = some k → (s.read n b host).buffer.length = b.length + k) ∧
      (0 < n → r ≠ some 0 ∧
        ByteSource.patience (s.read n b host).source.inner ≤ ByteSource.patience s.inner) := by
  unfold read at h ⊢
  split
  · rename_i hm; simp [hm] at h
  · rename_i hm
    rw [hm] at h
    split
    · rename_i hc; simp [hc] at h
    · rename_i hc
      split
      · rename_i hf; simp [hc, hf] at h
      · rename_i hf
        split
        · rename_i hn
          subst hn
          simp only [hc, hf, if_false, if_true, Bool.false_eq_true, Except.ok.injEq] at h
          subst h
          simp
        · rename_i hn
          simp only [hc, hf, hn, if_false, Bool.false_eq_true] at h
          split
          · rename_i hr; simp [hr] at h
          · rename_i s' host' hr
            have hp := patience_fill (congrArg CallOutcome.result hr)
            rw [hr] at hp
            simp only [hr] at h
            split
            · rename_i he
              simp only [he, if_true, Except.ok.injEq] at h
              subst h
              simpa using fun _ => hp
            · rename_i he
              simp only [he, if_false, Except.ok.injEq, Bool.false_eq_true] at h
              subst h
              have hl : s'.output.length ≠ 0 := fun h0 => he (Buffer.isEmpty_iff.2 (Buffer.length_eq_zero_iff.1 h0))
              refine ⟨fun k hk => ?_, fun _ => ⟨?_, hp⟩⟩
              · rw [Buffer.length_moveTo_fst, ← Option.some.inj hk]
                omega
              · rw [ne_eq, Option.some.injEq]
                omega

instance : ByteSource (CipherSource κ σ) where
  read := read
  close := close
  timeout s := ByteSource.timeout s.inner
  patience s := ByteSource.patience s.inner
  length_read h := (read_eq_ok h).1 _ rfl
  patience_read hn h := by
    obtain ⟨h₁, h₂⟩ := (read_eq_ok h).2 hn
    rw [if_neg h₁]
    exact h₂

end CipherSource

end Conduit
