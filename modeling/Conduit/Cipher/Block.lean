import Conduit.Bytes

/-!
# Block ciphers and chaining

A block cipher under a key maps blocks of one size to blocks of the same size.  Chaining extends it to lists of blocks:
each plaintext block is combined with the ciphertext block before it, the first with an initial block.  If decryption
undoes encryption on blocks, it does so on chains (`decryptChain_encryptChain`).
-/

namespace Conduit

/-- A block cipher under a key. -/
structure BlockCipher where
  blockSize : Nat
  blockSize_pos : 0 < blockSize
  blockSize_lt : blockSize < 256
  encrypt : Bytes → Bytes
  decrypt : Bytes → Bytes
  length_encrypt : ∀ x, (encrypt x).length = blockSize
  length_decrypt : ∀ x, (decrypt x).length = blockSize

/-- The block `y` combined by exclusive or with `x`, as far as that reaches. -/
def mask : Bytes → Bytes → Bytes
  | [], y => y
  | _ :: _, [] => []
  | a :: x, b :: y => (a ^^^ b) :: mask x y

@[simp] theorem length_mask (x y : Bytes) : (mask x y).length = y.length := by
  fun_induction mask x y with
  | case1 => rfl
  | case2 => rfl
  | case3 a x b y ih => simp [ih]

@[simp] theorem mask_mask (x y : Bytes) : mask x (mask x y) = y := by
  fun_induction mask x y with
  | case1 => rfl
  | case2 => rfl
  | case3 a x b y ih => rw [mask, ih, ← UInt8.xor_assoc, UInt8.xor_self, UInt8.zero_xor]

namespace BlockCipher

/-- Decryption of blocks undoes encryption. -/
def Decrypts (c : BlockCipher) : Prop := ∀ x, x.length = c.blockSize → c.decrypt (c.encrypt x) = x

/-- Decryption of blocks inverts encryption and the other way round. -/
def Invertible (c : BlockCipher) : Prop :=
  ∀ x, x.length = c.blockSize → c.decrypt (c.encrypt x) = x ∧ c.encrypt (c.decrypt x) = x

/-- The ciphertext blocks for a list of plaintext blocks that follow the ciphertext block `iv`. -/
def encryptChain (c : BlockCipher) (iv : Bytes) : List Bytes → List Bytes
  | [] => []
  | p :: ps => c.encrypt (mask iv p) :: encryptChain c (c.encrypt (mask iv p)) ps

/-- The plaintext blocks for a list of ciphertext blocks that follow the ciphertext block `iv`. -/
def decryptChain (c : BlockCipher) (iv : Bytes) : List Bytes → List Bytes
  | [] => []
  | e :: es => mask iv (c.decrypt e) :: decryptChain c e es

@[simp] theorem length_encryptChain (c : BlockCipher) (iv : Bytes) (ps : List Bytes) :
    (c.encryptChain iv ps).length = ps.length := by
  induction ps generalizing iv with
  | nil => rfl
  | cons p ps ih => simp [encryptChain, ih]

@[simp] theorem length_decryptChain (c : BlockCipher) (iv : Bytes) (es : List Bytes) :
    (c.decryptChain iv es).length = es.length := by
  induction es generalizing iv with
  | nil => rfl
  | cons e es ih => simp [decryptChain, ih]

theorem length_of_mem_encryptChain {c : BlockCipher} {iv : Bytes} {ps : List Bytes} {e : Bytes}
    (h : e ∈ c.encryptChain iv ps) : e.length = c.blockSize := by
  induction ps generalizing iv with
  | nil => simp [encryptChain] at h
  | cons p ps ih =>
    rcases List.mem_cons.1 h with rfl | h
    · exact c.length_encrypt _
    · exact ih h

theorem length_of_mem_decryptChain {c : BlockCipher} {iv : Bytes} {es : List Bytes} {p : Bytes}
    (h : p ∈ c.decryptChain iv es) : p.length = c.blockSize := by
  induction es generalizing iv with
  | nil => simp [decryptChain] at h
  | cons e es ih =>
    rcases List.mem_cons.1 h with rfl | h
    · rw [length_mask, c.length_decrypt]
    · exact ih h

theorem decryptChain_encryptChain {c : BlockCipher} (hc : c.Decrypts) (iv : Bytes) {ps : List Bytes}
    (hps : ∀ p ∈ ps, p.length = c.blockSize) : c.decryptChain iv (c.encryptChain iv ps) = ps := by
  induction ps generalizing iv with
  | nil => rfl
  | cons p ps ih =>
    rw [encryptChain, decryptChain, hc _ ((length_mask ..).trans (hps p (by simp))), mask_mask,
      ih _ (fun p h => hps p (by simp [h]))]

theorem encryptChain_decryptChain {c : BlockCipher} (hc : c.Invertible) (iv : Bytes) {es : List Bytes}
    (hes : ∀ e ∈ es, e.length = c.blockSize) : c.encryptChain iv (c.decryptChain iv es) = es := by
  induction es generalizing iv with
  | nil => rfl
  | cons e es ih =>
    rw [decryptChain, encryptChain, mask_mask, (hc e (hes e (by simp))).2, ih _ (fun e h => hes e (by simp [h]))]

end BlockCipher

end Conduit
