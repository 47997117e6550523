import Conduit.Endpoint

/-!
# Whole-stream operations

What is done with a source as a whole: read exactly so many bytes, read all, or copy all to a sink.  The last two go on
as long as the source does, so they are told for how many reads to go on at most and answer `none` if that was not
enough; more reads never change an answer (`readToEnd_mono`, `copyTo_mono`).
-/

namespace Conduit

/-- What reading a stream leaves behind. -/
structure StreamOutcome (σ : Type) where
  result : Except Error Buffer
  source : σ
  host : Host

/-- What copying a stream leaves behind; the result is the number of bytes. -/
structure CopyOutcome (σ τ : Type) where
  result : Except Error Nat
  source : σ
  sink : τ
  host : Host

section Source

variable {σ : Type} [ByteSource σ]

/-- Reads into `b` until it holds `n` bytes. -/
def readUpTo (n : Nat) (s : σ) (b : Buffer) (host : Host) : StreamOutcome σ :=
  if _h : b.length < n then
    match _hr : ByteSource.read s (n - b.length) b host with
    | ⟨.error e, s, _, host⟩ => ⟨.error e, s, host⟩
    | ⟨.ok none, s, b, host⟩ => ⟨.error (.io (.endedEarly b.length n)), s, host⟩
    | ⟨.ok (some _), s, b, host⟩ => readUpTo n s b host
  else ⟨.ok b, s, host⟩
termination_by n - b.length + ByteSource.patience s
decreasing_by
  have h₁ := ByteSource.length_read (congrArg ReadOutcome.result _hr)
  have h₂ := ByteSource.patience_read (Nat.sub_pos_of_lt _h) (congrArg ReadOutcome.result _hr)
  rw [_hr] at h₁ h₂
  simp only [Option.some.injEq] at h₁ h₂
  split at h₂ <;> omega

/-- Reads exactly `n` bytes. -/
def readExactly (s : σ) (n : Nat) (host : Host) : StreamOutcome σ := readUpTo n s .empty host

/-- Reads into `b` to the end of the stream. -/
def readRest : (rounds : Nat) → σ → Buffer → Host → Option (StreamOutcome σ)
  | 0, _, _, _ => none
  | rounds + 1, s, b, host =>
    match ByteSource.read s segmentSize b host with
    | ⟨.error e, s, _, host⟩ => some ⟨.error e, s, host⟩
    | ⟨.ok none, s, b, host⟩ => some ⟨.ok b, s, host⟩
    | ⟨.ok (some _), s, b, host⟩ => readRest rounds s b host

/-- Reads everything. -/
def readToEnd (rounds : Nat) (s : σ) (host : Host) : Option (StreamOutcome σ) := readRest rounds s .empty host

theorem readRest_mono {rounds rounds' : Nat} (h : rounds ≤ rounds') {s : σ} {b : Buffer} {host : Host}
    {o : StreamOutcome σ} (ho : readRest rounds s b host = some o) : readRest rounds' s b host = some o := by
  induction rounds generalizing rounds' s b host with
  | zero => cases ho
  | succ rounds ih =>
    obtain ⟨m, rfl⟩ : ∃ m, rounds' = m + 1 := ⟨rounds' - 1, by omega⟩
    unfold readRest at ho ⊢
    split
    · rename_i hr; rw [hr] at ho; exact ho
    · rename_i hr; rw [hr] at ho; exact ho
    · rename_i hr; rw [hr] at ho; exact ih (by omega) ho

theorem readToEnd_mono {rounds rounds' : Nat} (h : rounds ≤ rounds') {s : σ} {host : Host} {o : StreamOutcome σ}
    (ho : readToEnd rounds s host = some o) : readToEnd rounds' s host = some o := readRest_mono h ho

variable {τ : Type} [ByteSink τ]

/-- Copies the rest of a stream through the buffer `b`; `total` bytes have been copied. -/
def copyRest : (rounds : Nat) → σ → τ → Buffer → (total : Nat) → Host → Option (CopyOutcome σ τ)
  | 0, _, _, _, _, _ => none
  | rounds + 1, s, t, b, total, host =>
    match ByteSource.read s segmentSize b host with
    | ⟨.error e, s, _, host⟩ => some ⟨.error e, s, t, host⟩
    | ⟨.ok none, s, _, host⟩ => some ⟨.ok total, s, t, host⟩
    | ⟨.ok (some count), s, b, host⟩ =>
      match ByteSink.write t count b host with
      | ⟨.error e, t, _, host⟩ => some ⟨.error e, s, t, host⟩
      | ⟨.ok (), t, b, host⟩ => copyRest rounds s t b (total + count) host

/-- Copies everything. -/
def copyTo (rounds : Nat) (s : σ) (t : τ) (host : Host) : Option (CopyOutcome σ τ) :=
  copyRest rounds s t .empty 0 host

theorem copyRest_mono {rounds rounds' : Nat} (h : rounds ≤ rounds') {s : σ} {t : τ} {b : Buffer} {total : Nat}
    {host : Host} {o : CopyOutcome σ τ} (ho : copyRest rounds s t b total host = some o) :
    copyRest rounds' s t b total host = some o := by
  induction rounds generalizing rounds' s t b total host with
  | zero => cases ho
  | succ rounds ih =>
    obtain ⟨m, rfl⟩ : ∃ m, rounds' = m + 1 := ⟨rounds' - 1, by omega⟩
    unfold copyRest at ho ⊢
    split
    · rename_i hr; rw [hr] at ho; exact ho
    · rename_i hr; rw [hr] at ho; exact ho
    · rename_i hr
      rw [hr] at ho
      simp only at ho ⊢
      split
      · rename_i hw; rw [hw] at ho; exact ho
      · rename_i hw; rw [hw] at ho; exact ih (by omega) ho

theorem copyTo_mono {rounds rounds' : Nat} (h : rounds ≤ rounds') {s : σ} {t : τ} {host : Host} {o : CopyOutcome σ τ}
    (ho : copyTo rounds s t host = some o) : copyTo rounds' s t host = some o := copyRest_mono h ho

end Source

section Sink

variable {τ : Type} [ByteSink τ]

/-- Writes all of a buffer. -/
def writeAllFrom (t : τ) (b : Buffer) (host : Host) : WriteOutcome τ := ByteSink.write t b.length b host

/-- Writes a byte string. -/
def writeBytes (t : τ) (data : Bytes) (host : Host) : CallOutcome τ :=
  match writeAllFrom t (.ofList data) host with
  | ⟨result, t, _, host⟩ => ⟨result, t, host⟩

end Sink

end Conduit
