import Conduit.Cipher.Basic
import Conduit.Cipher.Block
import Conduit.Cipher.Padding

/-!
# Chained block encryption

`BlockCipher.encryptPadded` encrypts a byte string at once: padded to whole blocks, which are chained.  A
`CbcEncryptor` does so bit by bit and keeps back what does not fill a block.  A `CbcDecryptor` goes the other way and
keeps back the last whole block too, because only at the end it shows whether that is padding.
-/

namespace Conduit

/-- The blocks of a byte string with its padding: the last one is filled up. -/
def paddedBlocks (size : Nat) (x : Bytes) : List Bytes :=
  chunks size (x.take (x.length / size * size)) ++ [padBlock size (x.drop (x.length / size * size))]

namespace BlockCipher

/-- The encryption of a whole byte string. -/
def encryptPadded (c : BlockCipher) (iv x : Bytes) : Bytes :=
  (c.encryptChain iv (paddedBlocks c.blockSize x)).flatten

/-- Checks the initial block that is to be used with a cipher. -/
def checkIv (c : BlockCipher) (iv : Bytes) : Except Error Unit :=
  if iv.length = c.blockSize then .ok () else .error (.invalidArgument .keyOrIvLength)

end BlockCipher

/-- Encryption bit by bit.  `chain` is the last ciphertext block, or the initial one. -/
structure CbcEncryptor where
  cipher : BlockCipher
  chain : Bytes
  pending : Bytes
  finalized : Bool

namespace CbcEncryptor

def new (cipher : BlockCipher) (iv : Bytes) : CbcEncryptor := ⟨cipher, iv, [], false⟩

/-- Encrypts whole blocks. -/
def advance (c : CbcEncryptor) (blocks : List Bytes) : Bytes × CbcEncryptor :=
  let out := c.cipher.encryptChain c.chain blocks
  (out.flatten, { c with chain := out.getLastD c.chain })

def update (c : CbcEncryptor) (x : Bytes) : Except Error Bytes × CbcEncryptor :=
  if c.finalized then (.error (.malformedStream .alreadyFinalized), c)
  else
    let data := c.pending ++ x
    let ready := data.length / c.cipher.blockSize * c.cipher.blockSize
    let (out, c) := { c with pending := data.drop ready }.advance (chunks c.cipher.blockSize (data.take ready))
    (.ok out, c)

def finalize (c : CbcEncryptor) : Except Error Bytes × CbcEncryptor :=
  if c.finalized then (.error (.malformedStream .alreadyFinalized), c)
  else
    let (out, c) := { c with pending := [], finalized := true }.advance [padBlock c.cipher.blockSize c.pending]
    (.ok out, c)

/-- A short description: what is kept back and whether the stream has ended. -/
def describe (c : CbcEncryptor) : String :=
  s!"CbcEncryptor \x7b block_size: {c.cipher.blockSize}, pending: {c.pending.length}, finalized: {c.finalized}, .. \x7d"

end CbcEncryptor

/-- Decryption bit by bit.  `chain` is the last ciphertext block that was decrypted, or the initial one. -/
structure CbcDecryptor where
  cipher : BlockCipher
  chain : Bytes
  pending : Bytes
  finalized : Bool

namespace CbcDecryptor

def new (cipher : BlockCipher) (iv : Bytes) : CbcDecryptor := ⟨cipher, iv, [], false⟩

/-- Decrypts whole blocks. -/
def advance (c : CbcDecryptor) (blocks : List Bytes) : Bytes × CbcDecryptor :=
  ((c.cipher.decryptChain c.chain blocks).flatten, { c with chain := blocks.getLastD c.chain })

/-- How many of `n` bytes are decrypted before the end is known: all whole blocks in front of the last byte. -/
def ready (c : CbcDecryptor) (n : Nat) : Nat := (n - 1) / c.cipher.blockSize * c.cipher.blockSize

def update (c : CbcDecryptor) (x : Bytes) : Except Error Bytes × CbcDecryptor :=
  if c.finalized then (.error (.malformedStream .alreadyFinalized), c)
  else
    let data := c.pending ++ x
    let ready := c.ready data.length
    let (out, c) := { c with pending := data.drop ready }.advance (chunks c.cipher.blockSize (data.take ready))
    (.ok out, c)

/-- Decrypts the last block and removes the padding.  The stream has ended even if that fails. -/
def finalize (c : CbcDecryptor) : Except Error Bytes × CbcDecryptor :=
  if c.finalized then (.error (.malformedStream .alreadyFinalized), c)
  else if c.pending.length ≠ c.cipher.blockSize then
    (.error (.malformedStream (.partialBlock c.pending.length c.cipher.blockSize)), { c with finalized := true })
  else
    let (block, c) := { c with pending := [], finalized := true }.advance [c.pending]
    match unpadBlock c.cipher.blockSize block with
    | none => (.error (.malformedStream .invalidPadding), c)
    | some out => (.ok out, c)

@[inherit_doc CbcEncryptor.describe] def describe (c : CbcDecryptor) : String :=
  s!"CbcDecryptor \x7b block_size: {c.cipher.blockSize}, pending: {c.pending.length}, finalized: {c.finalized}, .. \x7d"

end CbcDecryptor

/-! ### What is kept back -/

theorem length_flatten_of_forall {l : List Bytes} {n : Nat} (h : ∀ x ∈ l, x.length = n) :
    l.flatten.length = l.length * n := by
  induction l with
  | nil => simp
  | cons x l ih =>
    rw [List.flatten_cons, List.length_append, h x (by simp), ih fun y hy => h y (by simp [hy]), List.length_cons,
      Nat.succ_mul]
    omega

theorem length_chunks_of_dvd {n k : Nat} (hn : 0 < n) {x : Bytes} (hx : x.length = k * n) :
    (chunks n x).length = k ∧ ∀ c ∈ chunks n x, c.length = n := by
  induction k generalizing x with
  | zero =>
    obtain rfl := List.length_eq_zero_iff.1 (by simpa using hx)
    simp
  | succ k ih =>
    have hlen : n ≤ x.length := by rw [hx, Nat.succ_mul]; omega
    have hne : x ≠ [] := by intro h; subst h; simp at hlen; omega
    obtain ⟨h₁, h₂⟩ := ih (x := x.drop n) (by rw [List.length_drop, hx, Nat.succ_mul]; omega)
    rw [chunks_of_ne_nil hn hne]
    refine ⟨by rw [List.length_cons, h₁], fun c hc => ?_⟩
    rcases List.mem_cons.1 hc with rfl | hc
    · rw [List.length_take]; omega
    · exact h₂ c hc

private theorem length_take_mul {x : Bytes} {k n : Nat} (h : k * n ≤ x.length) : (x.take (k * n)).length = k * n := by
  rw [List.length_take]; omega

theorem CbcEncryptor.length_update {c c' : CbcEncryptor} {x out : Bytes} (h : c.update x = (.ok out, c')) :
    out.length + c'.pending.length = c.pending.length + x.length ∧
      c'.pending.length < c.cipher.blockSize ∧ c'.cipher = c.cipher := by
  unfold update advance at h
  split at h
  · cases h
  · simp only [Prod.mk.injEq, Except.ok.injEq] at h
    obtain ⟨rfl, rfl⟩ := h
    have hpos := c.cipher.blockSize_pos
    have hle := Nat.div_mul_le_self (c.pending ++ x).length c.cipher.blockSize
    have hlt := Nat.mod_lt (c.pending ++ x).length hpos
    have hdm := Nat.div_add_mod' (c.pending ++ x).length c.cipher.blockSize
    obtain ⟨h₁, -⟩ := length_chunks_of_dvd hpos (length_take_mul hle)
    refine ⟨?_, by rw [List.length_drop]; omega, rfl⟩
    rw [length_flatten_of_forall (fun _ => BlockCipher.length_of_mem_encryptChain), BlockCipher.length_encryptChain,
      h₁, List.length_drop, ← List.length_append]
    omega

theorem CbcDecryptor.length_update {c c' : CbcDecryptor} {x out : Bytes} (h : c.update x = (.ok out, c')) :
    out.length + c'.pending.length = c.pending.length + x.length ∧
      c'.pending.length ≤ c.cipher.blockSize ∧ c'.cipher = c.cipher := by
  unfold update advance ready at h
  split at h
  · cases h
  · simp only [Prod.mk.injEq, Except.ok.injEq] at h
    obtain ⟨rfl, rfl⟩ := h
    have hpos := c.cipher.blockSize_pos
    have hle := Nat.div_mul_le_self ((c.pending ++ x).length - 1) c.cipher.blockSize
    have hlt := Nat.mod_lt ((c.pending ++ x).length - 1) hpos
    have hdm := Nat.div_add_mod' ((c.pending ++ x).length - 1) c.cipher.blockSize
    obtain ⟨h₁, -⟩ := length_chunks_of_dvd hpos
      (length_take_mul (x := c.pending ++ x) (Nat.le_trans hle (Nat.sub_le ..)))
    refine ⟨?_, by rw [List.length_drop]; omega, rfl⟩
    rw [length_flatten_of_forall (fun _ => BlockCipher.length_of_mem_decryptChain), BlockCipher.length_decryptChain,
      h₁, List.length_drop, ← List.length_append]
    omega

theorem CbcEncryptor.finalized_finalize {c c' : CbcEncryptor} {out : Bytes} (h : c.finalize = (.ok out, c')) :
    c'.finalized = true := by
  unfold finalize advance at h
  split at h
  · cases h
  · cases h; rfl

theorem CbcDecryptor.finalized_finalize {c c' : CbcDecryptor} {out : Bytes} (h : c.finalize = (.ok out, c')) :
    c'.finalized = true := by
  unfold finalize advance at h
  split at h
  · cases h
  · split at h
    · cases h
    · simp only at h
      split at h
      · cases h
      · cases h; rfl

instance : ByteCipher CbcEncryptor where
  blockSize c := c.cipher.blockSize
  update := CbcEncryptor.update
  finalize := CbcEncryptor.finalize
  isFinalized := CbcEncryptor.finalized
  isFinalized_finalize := CbcEncryptor.finalized_finalize
  slack c := c.cipher.blockSize - c.pending.length
  slack_update h := by
    obtain ⟨h₁, h₂, h₃⟩ := CbcEncryptor.length_update h
    rw [h₃]
    omega

instance : ByteCipher CbcDecryptor where
  blockSize c := c.cipher.blockSize
  update := CbcDecryptor.update
  finalize := CbcDecryptor.finalize
  isFinalized := CbcDecryptor.finalized
  isFinalized_finalize := CbcDecryptor.finalized_finalize
  slack c := c.cipher.blockSize - c.pending.length
  slack_update h := by
    obtain ⟨h₁, h₂, h₃⟩ := CbcDecryptor.length_update h
    rw [h₃]
    omega

end Conduit
