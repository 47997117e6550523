import Conduit.Cipher.Cbc

/-!
# Chained encryption, bit by bit and at once

What an encryptor gives for some bytes is taken off what remains, the encryption at once of all that it has not given
yet (`CbcEncryptor.update_eq`); the end gives the rest of it (`CbcEncryptor.finalize_eq`).  In the same way a decryptor
gives the decryption at once of all that it has not given yet, if there is one: if the bytes are whole blocks, the last
of them with a padding (`CbcDecryptor.update_eq`, `CbcDecryptor.finalize_eq`).  A cipher is one-shot if its stream ends
with `finalize`, also when that fails, and with nothing else.
-/

namespace Conduit

/-! ### Whole blocks -/

theorem paddedBlocks_append {size : Nat} (hs : 0 < size) {l : Bytes} {k : Nat} (hl : l.length = k * size) (r : Bytes) :
    paddedBlocks size (l ++ r) = chunks size l ++ paddedBlocks size r := by
  have hcut : (l ++ r).length / size * size = l.length + r.length / size * size := by
    rw [List.length_append, hl, Nat.add_comm, Nat.add_mul_div_right _ _ hs, Nat.add_mul, Nat.add_comm]
  rw [paddedBlocks, hcut, List.take_length_add_append, List.drop_length_add_append, chunks_append hs _ _ hl,
    List.append_assoc, paddedBlocks]

theorem paddedBlocks_of_lt {size : Nat} {x : Bytes} (h : x.length < size) :
    paddedBlocks size x = [padBlock size x] := by
  simp [paddedBlocks, Nat.div_eq_of_lt h]

namespace BlockCipher

variable {c : BlockCipher}

theorem encryptChain_append (iv : Bytes) (ps qs : List Bytes) :
    c.encryptChain iv (ps ++ qs) =
      c.encryptChain iv ps ++ c.encryptChain ((c.encryptChain iv ps).getLastD iv) qs := by
  induction ps generalizing iv with
  | nil => rfl
  | cons p ps ih => rw [List.cons_append, encryptChain, encryptChain, ih, List.getLastD_cons, List.cons_append]

theorem encryptPadded_append (iv : Bytes) {l : Bytes} {k : Nat} (hl : l.length = k * c.blockSize) (r : Bytes) :
    c.encryptPadded iv (l ++ r) =
      (c.encryptChain iv (chunks c.blockSize l)).flatten ++
        c.encryptPadded ((c.encryptChain iv (chunks c.blockSize l)).getLastD iv) r := by
  rw [encryptPadded, paddedBlocks_append c.blockSize_pos hl, encryptChain_append, List.flatten_append, encryptPadded]

theorem encryptPadded_of_lt (iv : Bytes) {x : Bytes} (h : x.length < c.blockSize) :
    c.encryptPadded iv x = c.encrypt (mask iv (padBlock c.blockSize x)) := by
  simp [encryptPadded, paddedBlocks_of_lt h, encryptChain]

/-- The padding fills the last block, or is a block by itself. -/
theorem length_encryptPadded (iv x : Bytes) :
    (c.encryptPadded iv x).length = (x.length / c.blockSize + 1) * c.blockSize := by
  have hle : x.length / c.blockSize * c.blockSize ≤ x.length := Nat.div_mul_le_self ..
  have htake : (x.take (x.length / c.blockSize * c.blockSize)).length = x.length / c.blockSize * c.blockSize := by
    rw [List.length_take, Nat.min_eq_left hle]
  rw [encryptPadded, length_flatten_of_forall (fun _ => length_of_mem_encryptChain), length_encryptChain, paddedBlocks,
    List.length_append, (length_chunks_of_dvd c.blockSize_pos htake).1, List.length_singleton]

end BlockCipher

/-! ### Encryptors -/

namespace CbcEncryptor

variable {c : CbcEncryptor}

/-- What the cipher gives at once for all it has not given yet, if `y` follows. -/
def remaining (c : CbcEncryptor) (y : Bytes) : Bytes := c.cipher.encryptPadded c.chain (c.pending ++ y)

/-- Before its end an encryptor takes all bytes, and what it gives for them is taken off what remains. -/
theorem update_eq (hc : c.finalized = false) (x : Bytes) : ∃ out c', c.update x = (.ok out, c') ∧
    c'.finalized = false ∧ c'.pending.length < c'.cipher.blockSize ∧
      ∀ y, out ++ c'.remaining y = c.remaining (x ++ y) := by
  have hready : ((c.pending ++ x).take ((c.pending ++ x).length / c.cipher.blockSize * c.cipher.blockSize)).length =
      (c.pending ++ x).length / c.cipher.blockSize * c.cipher.blockSize := by
    rw [List.length_take, Nat.min_eq_left (Nat.div_mul_le_self ..)]
  unfold update
  rw [if_neg (by simp [hc])]
  refine ⟨_, _, rfl, hc, ?_, ?_⟩
  · show ((c.pending ++ x).drop _).length < c.cipher.blockSize
    have hlt := Nat.mod_lt (c.pending ++ x).length c.cipher.blockSize_pos
    have hcut := Nat.div_add_mod' (c.pending ++ x).length c.cipher.blockSize
    rw [List.length_drop]
    omega
  · intro y
    simp only [remaining]
    rw [← BlockCipher.encryptPadded_append _ hready, ← List.append_assoc, List.take_append_drop, List.append_assoc]

theorem finalize_eq (hc : c.finalized = false) (hp : c.pending.length < c.cipher.blockSize) :
    ∃ c', c.finalize = (.ok (c.remaining []), c') ∧ c'.finalized = true ∧
      c'.pending.length < c'.cipher.blockSize := by
  unfold finalize
  rw [if_neg (by simp [hc])]
  refine ⟨_, Prod.ext ?_ rfl, rfl, c.cipher.blockSize_pos⟩
  simp [advance, remaining, BlockCipher.encryptPadded_of_lt _ hp, BlockCipher.encryptChain]

end CbcEncryptor

/-! ### Decryption at once -/

theorem chunks_flatten {n : Nat} (hn : 0 < n) {l : List Bytes} (h : ∀ c ∈ l, c.length = n) :
    chunks n l.flatten = l := by
  induction l with
  | nil => simp
  | cons c l ih =>
    have hc : c.length = 1 * n := by rw [h c List.mem_cons_self, Nat.one_mul]
    have hrest : ∀ c ∈ l, c.length = n := by
      intro c hc
      exact h c (List.mem_cons_of_mem _ hc)
    have hne : c ≠ [] := by
      rintro rfl
      simp at hc
      omega
    have hone : chunks n c = [c] := by
      rw [chunks_of_ne_nil hn hne, List.take_of_length_le (by omega), List.drop_eq_nil_of_le (by omega), chunks_nil]
    rw [List.flatten_cons, chunks_append hn _ _ hc, ih hrest, hone, List.singleton_append]

/-- The bytes of blocks of which the last one is padded, if it is. -/
def unpadBlocks (size : Nat) : List Bytes → Option Bytes
  | [] => none
  | [block] => unpadBlock size block
  | block :: blocks => (unpadBlocks size blocks).map (block ++ ·)

theorem unpadBlocks_append (size : Nat) (ps : List Bytes) {qs : List Bytes} (hq : qs ≠ []) :
    unpadBlocks size (ps ++ qs) = (unpadBlocks size qs).map (ps.flatten ++ ·) := by
  induction ps with
  | nil => simp
  | cons p ps ih =>
    obtain ⟨q, rest, hrest⟩ := List.exists_cons_of_ne_nil (List.append_ne_nil_of_right_ne_nil ps hq)
    rw [List.cons_append, hrest, unpadBlocks, ← hrest, ih, Option.map_map]
    · congr 1
      funext x
      simp
    · simp

theorem unpadBlocks_paddedBlocks {size : Nat} (hs : 0 < size) (hlt : size < 256) (x : Bytes) :
    unpadBlocks size (paddedBlocks size x) = some x := by
  have hrest : (x.drop (x.length / size * size)).length < size := by
    have hcut := Nat.div_add_mod' x.length size
    have hmod := Nat.mod_lt x.length hs
    rw [List.length_drop]
    omega
  rw [paddedBlocks, unpadBlocks_append _ _ (by simp), unpadBlocks, unpadBlock_padBlock hlt hrest, Option.map_some,
    flatten_chunks, List.take_append_drop]

namespace BlockCipher

variable {c : BlockCipher}

/-- The decryption of a whole byte string, if it consists of blocks and the last of these is padded. -/
def decryptPadded? (c : BlockCipher) (iv t : Bytes) : Option Bytes :=
  if t.length % c.blockSize = 0 then unpadBlocks c.blockSize (c.decryptChain iv (chunks c.blockSize t)) else none

theorem decryptChain_append (iv : Bytes) (es fs : List Bytes) :
    c.decryptChain iv (es ++ fs) = c.decryptChain iv es ++ c.decryptChain (es.getLastD iv) fs := by
  induction es generalizing iv with
  | nil => rfl
  | cons e es ih => rw [List.cons_append, decryptChain, decryptChain, ih, List.getLastD_cons, List.cons_append]

theorem decryptPadded?_append (iv : Bytes) {l : Bytes} {k : Nat} (hl : l.length = k * c.blockSize) {r : Bytes}
    (hr : r ≠ []) : c.decryptPadded? iv (l ++ r) =
      (c.decryptPadded? ((chunks c.blockSize l).getLastD iv) r).map
        ((c.decryptChain iv (chunks c.blockSize l)).flatten ++ ·) := by
  have hmod : (l ++ r).length % c.blockSize = r.length % c.blockSize := by
    rw [List.length_append, hl, Nat.add_comm, Nat.add_mul_mod_self_right]
  have hne (iv : Bytes) : c.decryptChain iv (chunks c.blockSize r) ≠ [] := by
    rw [chunks_of_ne_nil c.blockSize_pos hr, decryptChain]
    simp
  simp only [decryptPadded?, hmod]
  split
  · rw [chunks_append c.blockSize_pos _ _ hl, decryptChain_append, unpadBlocks_append _ _ (hne _)]
  · rfl

theorem decryptPadded?_of_length (iv : Bytes) {t : Bytes} (ht : t.length = c.blockSize) :
    c.decryptPadded? iv t = unpadBlock c.blockSize (mask iv (c.decrypt t)) := by
  have hpos := c.blockSize_pos
  have hne : t ≠ [] := by
    rintro rfl
    simp at ht
    omega
  have hone : chunks c.blockSize t = [t] := by
    rw [chunks_of_ne_nil hpos hne, List.take_of_length_le (by omega), List.drop_eq_nil_of_le (by omega), chunks_nil]
  rw [decryptPadded?, if_pos (by rw [ht, Nat.mod_self]), hone, decryptChain, decryptChain, unpadBlocks]

theorem length_of_decryptPadded? {iv t x : Bytes} (h : c.decryptPadded? iv t = some x) :
    t ≠ [] ∧ t.length % c.blockSize = 0 := by
  unfold decryptPadded? at h
  split at h
  · rename_i hmod
    refine ⟨?_, hmod⟩
    rintro rfl
    simp [decryptChain, unpadBlocks] at h
  · cases h

/-- Decryption at once undoes encryption at once. -/
theorem decryptPadded?_encryptPadded (hc : c.Decrypts) (iv x : Bytes) :
    c.decryptPadded? iv (c.encryptPadded iv x) = some x := by
  have hpos := c.blockSize_pos
  have hmod : (c.encryptPadded iv x).length % c.blockSize = 0 := by rw [length_encryptPadded, Nat.mul_mod_left]
  have hle : x.length / c.blockSize * c.blockSize ≤ x.length := Nat.div_mul_le_self ..
  have htake : (x.take (x.length / c.blockSize * c.blockSize)).length = x.length / c.blockSize * c.blockSize := by
    rw [List.length_take, Nat.min_eq_left hle]
  have hblocks : ∀ p ∈ paddedBlocks c.blockSize x, p.length = c.blockSize := by
    intro p hp
    rcases List.mem_append.1 hp with hp | hp
    · exact (length_chunks_of_dvd hpos htake).2 p hp
    · rw [List.mem_singleton.1 hp]
      have hcut := Nat.div_add_mod' x.length c.blockSize
      have hmod := Nat.mod_lt x.length hpos
      apply length_padBlock
      rw [List.length_drop]
      omega
  rw [decryptPadded?, if_pos hmod, encryptPadded, chunks_flatten hpos fun _ => length_of_mem_encryptChain,
    decryptChain_encryptChain hc _ hblocks, unpadBlocks_paddedBlocks hpos c.blockSize_lt]

end BlockCipher

/-! ### Decryptors -/

namespace CbcDecryptor

variable {c : CbcDecryptor}

/-- What the cipher gives at once for all it has not given yet, if `t` follows and that is the end. -/
def remaining? (c : CbcDecryptor) (t : Bytes) : Option Bytes := c.cipher.decryptPadded? c.chain (c.pending ++ t)

/-- Before its end a decryptor takes all bytes, and what it gives for them is taken off what remains. -/
theorem update_eq (hc : c.finalized = false) (x : Bytes) : ∃ out c', c.update x = (.ok out, c') ∧
    c'.finalized = false ∧ c'.pending.length ≤ c'.cipher.blockSize ∧ c'.cipher = c.cipher ∧
      ∀ t, c.pending ++ x ++ t ≠ [] → c.remaining? (x ++ t) = (c'.remaining? t).map (out ++ ·) := by
  have hle : c.ready (c.pending ++ x).length ≤ (c.pending ++ x).length - 1 := Nat.div_mul_le_self ..
  have hready : ((c.pending ++ x).take (c.ready (c.pending ++ x).length)).length =
      ((c.pending ++ x).length - 1) / c.cipher.blockSize * c.cipher.blockSize := by
    rw [List.length_take, Nat.min_eq_left (Nat.le_trans hle (Nat.sub_le ..)), ready]
  unfold update
  rw [if_neg (by simp [hc])]
  refine ⟨_, _, rfl, hc, ?_, rfl, ?_⟩
  · show ((c.pending ++ x).drop (c.ready _)).length ≤ c.cipher.blockSize
    have hlt := Nat.mod_lt ((c.pending ++ x).length - 1) c.cipher.blockSize_pos
    have hcut := Nat.div_add_mod' ((c.pending ++ x).length - 1) c.cipher.blockSize
    rw [List.length_drop, ready]
    omega
  · intro t ht
    -- the last byte is never given to the block cipher before the end
    have hrest : (c.pending ++ x).drop (c.ready (c.pending ++ x).length) ++ t ≠ [] := by
      intro hnil
      obtain ⟨hdrop, rfl⟩ := List.append_eq_nil_iff.1 hnil
      rw [List.append_nil] at ht
      have hpos := List.length_pos_iff.2 ht
      rw [List.drop_eq_nil_iff] at hdrop
      omega
    simp only [remaining?]
    rw [← BlockCipher.decryptPadded?_append _ hready hrest, ← List.append_assoc, ← List.append_assoc,
      List.take_append_drop]

theorem finalize_eq (hc : c.finalized = false) (hp : c.pending.length ≤ c.cipher.blockSize) {y : Bytes}
    (hy : c.remaining? [] = some y) : ∃ c', c.finalize = (.ok y, c') ∧ c'.finalized = true := by
  rw [remaining?, List.append_nil] at hy
  obtain ⟨hne, hmod⟩ := BlockCipher.length_of_decryptPadded? hy
  have hpos := List.length_pos_iff.2 hne
  -- a whole number of blocks, and not more than one
  have hlen : c.pending.length = c.cipher.blockSize := by
    rcases Nat.lt_or_eq_of_le hp with hlt | heq
    · rw [Nat.mod_eq_of_lt hlt] at hmod
      omega
    · exact heq
  rw [BlockCipher.decryptPadded?_of_length _ hlen] at hy
  refine ⟨{ c with chain := c.pending, pending := [], finalized := true }, ?_, rfl⟩
  simp [finalize, hc, hlen, advance, BlockCipher.decryptChain, hy]

end CbcDecryptor

/-! ### One-shot ciphers -/

/-- A cipher whose stream ends with `finalize`, also when that fails, and with nothing else. -/
class OneShotCipher (κ : Type) [ByteCipher κ] : Prop where
  isFinalized_update (c : κ) (x : Bytes) : ByteCipher.isFinalized (ByteCipher.update c x).2 = ByteCipher.isFinalized c
  isFinalized_finalize (c : κ) : ByteCipher.isFinalized (ByteCipher.finalize c).2 = true

instance : OneShotCipher CbcEncryptor where
  isFinalized_update c x := by
    show (c.update x).2.finalized = c.finalized
    unfold CbcEncryptor.update
    split <;> rfl
  isFinalized_finalize c := by
    show c.finalize.2.finalized = true
    unfold CbcEncryptor.finalize
    split
    · rename_i h
      exact h
    · rfl

instance : OneShotCipher CbcDecryptor where
  isFinalized_update c x := by
    show (c.update x).2.finalized = c.finalized
    unfold CbcDecryptor.update
    split <;> rfl
  isFinalized_finalize c := by
    show c.finalize.2.finalized = true
    unfold CbcDecryptor.finalize
    split
    · rename_i h
      exact h
    · split
      · rfl
      · simp only
        split <;> rfl

/-! ### Masking -/

theorem mask_mask_left {x y : Bytes} (h : x.length = y.length) : mask (mask x y) y = x := by
  fun_induction mask x y with
  | case1 y =>
    obtain rfl := List.length_eq_zero_iff.1 h.symm
    rfl
  | case2 => simp at h
  | case3 a x b y ih =>
    rw [mask, ih (by simpa using h), UInt8.xor_assoc, UInt8.xor_self, UInt8.xor_zero]

/-- The block cipher that combines every block with the key, and inverts itself. -/
def BlockCipher.masking (key : Bytes) (h : 0 < key.length ∧ key.length < 256) : BlockCipher where
  blockSize := key.length
  blockSize_pos := h.1
  blockSize_lt := h.2
  encrypt x := mask x key
  decrypt x := mask x key
  length_encrypt _ := length_mask ..
  length_decrypt _ := length_mask ..

theorem BlockCipher.invertible_masking {key : Bytes} (h : 0 < key.length ∧ key.length < 256) :
    (masking key h).Invertible := fun _ hx => ⟨mask_mask_left hx, mask_mask_left hx⟩

end Conduit
