import Conduit.Proofs.Cipher.Chaining

/-!
# Ciphers that are fed piece by piece

Fed with some bytes, a cipher has become and has given what these bytes make of it, however they were cut (`Course`).

* An encryptor has given the ciphertext of all whole blocks and keeps the rest back.  Its end gives what is missing of
  the chained encryption of the bytes filled up to whole blocks (`CbcEncryptor.incremental_encryption`).
* A decryptor has given the plaintext of all whole blocks in front of the last byte.  Its end succeeds exactly if it was
  fed the encryption of something, and what it has given then is that (`CbcDecryptor.incremental_decryption`).
-/

namespace Conduit

/-! ### Feeding -/

section

variable {κ : Type} [ByteCipher κ]

/-- Feeds a cipher some pieces, one after the other: all that it gives for them, unless it refuses one. -/
def feed : (pieces : List Bytes) → κ → Except Error Bytes × κ
  | [], c => (.ok [], c)
  | x :: pieces, c =>
    match ByteCipher.update c x with
    | (.error e, c) => (.error e, c)
    | (.ok out, c) =>
      match feed pieces c with
      | (.error e, c) => (.error e, c)
      | (.ok rest, c) => (.ok (out ++ rest), c)

/-- Fed with `x`, in whatever pieces, the cipher has become `state x` and has given `output x`. -/
structure Course (state : Bytes → κ) (output : Bytes → Bytes) : Prop where
  unended (x : Bytes) : ByteCipher.isFinalized (state x) = false
  update (x y : Bytes) : ∃ out, ByteCipher.update (state x) y = (.ok out, state (x ++ y)) ∧
    output (x ++ y) = output x ++ out

theorem Course.feed_eq {state : Bytes → κ} {output : Bytes → Bytes} (h : Course state output) (pieces : List Bytes)
    (x : Bytes) : ∃ out, feed pieces (state x) = (.ok out, state (x ++ pieces.flatten)) ∧
      output (x ++ pieces.flatten) = output x ++ out := by
  induction pieces generalizing x with
  | nil => exact ⟨[], by simp [feed], by simp⟩
  | cons y pieces ih =>
    obtain ⟨out, hu, hout⟩ := h.update x y
    obtain ⟨rest, hf, hrest⟩ := ih (x ++ y)
    rw [List.append_assoc] at hf hrest
    refine ⟨out ++ rest, ?_, ?_⟩
    · simp only [feed, hu, hf, List.flatten_cons]
    · rw [List.flatten_cons, hrest, hout, List.append_assoc]

end

/-! ### The first blocks -/

theorem chunks_of_length {n : Nat} (hn : 0 < n) {x : Bytes} (hx : x.length = n) : chunks n x = [x] := by
  have hone := chunks_flatten hn (List.forall_mem_singleton.2 hx)
  rwa [List.flatten_singleton] at hone

private theorem length_take_blocks {size k : Nat} {x : Bytes} (hk : k * size ≤ x.length) :
    (x.take (k * size)).length = k * size := by
  rw [List.length_take, Nat.min_eq_left hk]

/-- The first `k` blocks of a byte string. -/
def firstBlocks (size k : Nat) (x : Bytes) : List Bytes := chunks size (x.take (k * size))

theorem firstBlocks_append {size : Nat} (hs : 0 < size) {k : Nat} {x : Bytes} (hk : k * size ≤ x.length) (j : Nat)
    (y : Bytes) : firstBlocks size (k + j) (x ++ y) =
      firstBlocks size k x ++ firstBlocks size j (x.drop (k * size) ++ y) := by
  have htake : (x ++ y).take ((k + j) * size) = x.take (k * size) ++ (x.drop (k * size) ++ y).take (j * size) := by
    rw [Nat.add_mul, List.take_add, List.take_append_of_le_length hk, List.drop_append_of_le_length hk]
  rw [firstBlocks, htake, chunks_append hs _ _ (length_take_blocks hk), firstBlocks, firstBlocks]

private theorem drop_append_blocks {size k : Nat} {x : Bytes} (hk : k * size ≤ x.length) (j : Nat) (y : Bytes) :
    (x ++ y).drop ((k + j) * size) = (x.drop (k * size) ++ y).drop (j * size) := by
  rw [Nat.add_mul, ← List.drop_drop, List.drop_append_of_le_length hk]

private theorem length_append_blocks {size k : Nat} {x : Bytes} (hk : k * size ≤ x.length) (y : Bytes) :
    (x ++ y).length = (x.drop (k * size) ++ y).length + k * size := by
  rw [List.length_append, List.length_append, List.length_drop]
  omega

private theorem getLastD_append {α : Type} (l m : List α) (a : α) :
    (l ++ m).getLastD a = m.getLastD (l.getLastD a) := by
  induction l generalizing a with
  | nil => rfl
  | cons b l ih => rw [List.cons_append, List.getLastD_cons, List.getLastD_cons, ih]

/-! ### Encryption -/

/-- A byte string filled up to whole blocks, by a whole one if it consists of such. -/
def padded (size : Nat) (x : Bytes) : Bytes :=
  x ++ List.replicate (size - x.length % size) (UInt8.ofNat (size - x.length % size))

theorem chunks_padded {size : Nat} (hs : 0 < size) (x : Bytes) : chunks size (padded size x) = paddedBlocks size x := by
  have hcut := Nat.div_add_mod' x.length size
  have hmod := Nat.mod_lt x.length hs
  have htake := length_take_blocks (Nat.div_mul_le_self x.length size)
  have hdrop : (x.drop (x.length / size * size)).length = x.length % size := by
    rw [List.length_drop]
    omega
  have hlast : (padBlock size (x.drop (x.length / size * size))).length = size :=
    length_padBlock (Nat.le_of_lt (hdrop ▸ hmod))
  have hsplit : padded size x = x.take (x.length / size * size) ++ padBlock size (x.drop (x.length / size * size)) := by
    rw [padBlock, hdrop, ← List.append_assoc, List.take_append_drop, padded]
  rw [hsplit, chunks_append hs _ _ htake, chunks_of_length hs hlast, paddedBlocks]

/-- Encryption at once is that of the blocks of the padded plaintext. -/
theorem BlockCipher.encryptPadded_eq (c : BlockCipher) (iv x : Bytes) :
    c.encryptPadded iv x = (c.encryptChain iv (chunks c.blockSize (padded c.blockSize x))).flatten := by
  rw [chunks_padded c.blockSize_pos, encryptPadded]

namespace CbcEncryptor

/-- The ciphertext blocks that are given for `x` before the end: those of its whole blocks. -/
def early (c : BlockCipher) (iv x : Bytes) : List Bytes :=
  c.encryptChain iv (firstBlocks c.blockSize (x.length / c.blockSize) x)

/-- What a new encryptor has become when it was fed `x`. -/
def fed (c : BlockCipher) (iv x : Bytes) : CbcEncryptor :=
  ⟨c, (early c iv x).getLastD iv, x.drop (x.length / c.blockSize * c.blockSize), false⟩

theorem fed_nil (c : BlockCipher) (iv : Bytes) : fed c iv [] = new c iv := by
  simp [fed, early, firstBlocks, new, BlockCipher.encryptChain]

theorem length_pending_fed (c : BlockCipher) (iv x : Bytes) : (fed c iv x).pending.length < c.blockSize := by
  have hcut := Nat.div_add_mod' x.length c.blockSize
  have hmod := Nat.mod_lt x.length c.blockSize_pos
  rw [fed, List.length_drop]
  omega

/-- An encryptor gives the ciphertext of whole blocks as soon as it has them. -/
theorem course (c : BlockCipher) (iv : Bytes) : Course (fed c iv) fun x => (early c iv x).flatten where
  unended _ := rfl
  update x y := by
    have hk : x.length / c.blockSize * c.blockSize ≤ x.length := Nat.div_mul_le_self ..
    have hcount : (x ++ y).length / c.blockSize =
        x.length / c.blockSize + ((fed c iv x).pending ++ y).length / c.blockSize := by
      rw [length_append_blocks hk, Nat.add_mul_div_right _ _ c.blockSize_pos, Nat.add_comm, fed]
    have hearly : early c iv (x ++ y) = early c iv x ++ c.encryptChain ((early c iv x).getLastD iv)
        (firstBlocks c.blockSize (((fed c iv x).pending ++ y).length / c.blockSize) ((fed c iv x).pending ++ y)) := by
      rw [early, hcount, firstBlocks_append c.blockSize_pos hk, BlockCipher.encryptChain_append, early, fed]
    have hfed : fed c iv (x ++ y) = ⟨c, (early c iv (x ++ y)).getLastD iv,
        ((fed c iv x).pending ++ y).drop (((fed c iv x).pending ++ y).length / c.blockSize * c.blockSize), false⟩ := by
      rw [fed, hcount, drop_append_blocks hk, fed]
    refine ⟨_, ?_, by rw [hearly, List.flatten_append]⟩
    show (fed c iv x).update y = _
    rw [hfed, hearly, getLastD_append, update, if_neg (by simp [fed])]
    rfl

/-- However the plaintext is cut, an encryptor has given the ciphertext of all whole blocks of what it was fed, keeps back
less than a block, and with its end has given the chained encryption of the plaintext filled up to whole blocks. -/
theorem incremental_encryption (c : BlockCipher) (iv : Bytes) (pieces : List Bytes) :
    ∃ given last fed, feed pieces (new c iv) = (.ok given, fed) ∧ fed.finalize.1 = .ok last ∧
      given = (c.encryptChain iv
        (firstBlocks c.blockSize (pieces.flatten.length / c.blockSize) pieces.flatten)).flatten ∧
      fed.pending.length < c.blockSize ∧
      given ++ last = (c.encryptChain iv (chunks c.blockSize (padded c.blockSize pieces.flatten))).flatten ∧
      (given ++ last).length = (pieces.flatten.length / c.blockSize + 1) * c.blockSize := by
  obtain ⟨given, hfeed, hgiven⟩ := (course c iv).feed_eq pieces []
  rw [List.nil_append] at hfeed hgiven
  have hgiven : given = (early c iv pieces.flatten).flatten := by
    rw [hgiven]
    simp [early, firstBlocks, BlockCipher.encryptChain]
  have hpending := length_pending_fed c iv pieces.flatten
  obtain ⟨e, hfin, -⟩ := finalize_eq (c := fed c iv pieces.flatten) rfl hpending
  have htake := length_take_blocks (Nat.div_mul_le_self pieces.flatten.length c.blockSize)
  have hall : given ++ (fed c iv pieces.flatten).remaining [] = c.encryptPadded iv pieces.flatten := by
    rw [hgiven, remaining, List.append_nil, early, firstBlocks, fed, early, firstBlocks,
      ← BlockCipher.encryptPadded_append iv htake, List.take_append_drop]
  refine ⟨given, _, _, ?_, congrArg Prod.fst hfin, hgiven, hpending, ?_, ?_⟩
  · rw [← fed_nil]
    exact hfeed
  · rw [hall, BlockCipher.encryptPadded_eq]
  · rw [hall, BlockCipher.length_encryptPadded]

end CbcEncryptor

/-! ### Decryption -/

theorem eq_paddedBlocks_of_unpadBlocks {size : Nat} (hs : 0 < size) (hlt : size < 256) {blocks : List Bytes}
    (hb : ∀ b ∈ blocks, b.length = size) {x : Bytes} (h : unpadBlocks size blocks = some x) :
    blocks = paddedBlocks size x := by
  induction blocks generalizing x with
  | nil => cases h
  | cons b blocks ih =>
    obtain ⟨hlen, hrest⟩ := List.forall_mem_cons.1 hb
    cases blocks with
    | nil =>
      obtain ⟨hx, hpad⟩ := (unpadBlock_eq_some_iff hlt hlen).1 h
      rw [paddedBlocks_of_lt hx, hpad]
    | cons b' blocks =>
      obtain ⟨y, hy, rfl⟩ := Option.map_eq_some_iff.1 h
      rw [paddedBlocks_append hs (hlen.trans (Nat.one_mul size).symm), chunks_of_length hs hlen, ← ih hrest hy,
        List.singleton_append]

/-- What can be decrypted at once is the encryption of what it is decrypted to. -/
theorem BlockCipher.eq_encryptPadded_of_decryptPadded? {c : BlockCipher} (hc : c.Invertible) {iv t x : Bytes}
    (h : c.decryptPadded? iv t = some x) : t = c.encryptPadded iv x := by
  have hpos := c.blockSize_pos
  unfold decryptPadded? at h
  split at h
  · rename_i hmod
    have hlen : t.length = t.length / c.blockSize * c.blockSize := by
      have hcut := Nat.div_add_mod' t.length c.blockSize
      omega
    obtain ⟨-, hblocks⟩ := length_chunks_of_dvd hpos hlen
    have hplain : ∀ b ∈ c.decryptChain iv (chunks c.blockSize t), b.length = c.blockSize := fun _ =>
      length_of_mem_decryptChain
    rw [encryptPadded, ← eq_paddedBlocks_of_unpadBlocks hpos c.blockSize_lt hplain h,
      encryptChain_decryptChain hc iv hblocks, flatten_chunks]
  · cases h

theorem BlockCipher.decryptPadded?_eq_some_iff {c : BlockCipher} (hc : c.Invertible) {iv t x : Bytes} :
    c.decryptPadded? iv t = some x ↔ t = c.encryptPadded iv x := by
  constructor
  · exact eq_encryptPadded_of_decryptPadded? hc
  · rintro rfl
    exact decryptPadded?_encryptPadded (fun x hx => (hc x hx).1) iv x

namespace CbcDecryptor

/-- The ciphertext blocks that are decrypted before the end: all that are whole in front of the last byte. -/
def early (c : BlockCipher) (t : Bytes) : List Bytes := firstBlocks c.blockSize ((t.length - 1) / c.blockSize) t

/-- What a new decryptor has become when it was fed `t`. -/
def fed (c : BlockCipher) (iv t : Bytes) : CbcDecryptor :=
  ⟨c, (early c t).getLastD iv, t.drop ((t.length - 1) / c.blockSize * c.blockSize), false⟩

theorem fed_nil (c : BlockCipher) (iv : Bytes) : fed c iv [] = new c iv := by
  simp [fed, early, firstBlocks, new]

private theorem blocks_le (c : BlockCipher) (t : Bytes) : (t.length - 1) / c.blockSize * c.blockSize ≤ t.length :=
  Nat.le_trans (Nat.div_mul_le_self ..) (Nat.sub_le ..)

/-- A decryptor gives the plaintext of whole blocks as soon as it knows that they are not the last ones. -/
theorem course (c : BlockCipher) (iv : Bytes) :
    Course (fed c iv) fun t => (c.decryptChain iv (early c t)).flatten where
  unended _ := rfl
  update t y := by
    have hk := blocks_le c t
    have hcount : ((t ++ y).length - 1) / c.blockSize =
        (t.length - 1) / c.blockSize + (((fed c iv t).pending ++ y).length - 1) / c.blockSize := by
      have hlen : (t ++ y).length = ((fed c iv t).pending ++ y).length + (t.length - 1) / c.blockSize * c.blockSize :=
        length_append_blocks hk y
      rcases Nat.eq_zero_or_pos ((fed c iv t).pending ++ y).length with hzero | hpos
      · -- nothing is kept back only if nothing has come
        have hle := Nat.div_mul_le_self (t.length - 1) c.blockSize
        have hnil : t.length - 1 = 0 := by
          rw [List.length_append] at hlen
          omega
        rw [hlen, hzero, hnil, Nat.zero_div]
        simp
      · rw [hlen, Nat.add_comm, Nat.add_sub_assoc hpos, Nat.add_comm, Nat.add_mul_div_right _ _ c.blockSize_pos,
          Nat.add_comm]
    have hearly : early c (t ++ y) = early c t ++
        firstBlocks c.blockSize ((((fed c iv t).pending ++ y).length - 1) / c.blockSize) ((fed c iv t).pending ++ y) := by
      rw [early, hcount, firstBlocks_append c.blockSize_pos hk, early, fed]
    have hfed : fed c iv (t ++ y) = ⟨c, (early c (t ++ y)).getLastD iv, ((fed c iv t).pending ++ y).drop
        ((((fed c iv t).pending ++ y).length - 1) / c.blockSize * c.blockSize), false⟩ := by
      rw [fed, hcount, drop_append_blocks hk, fed]
    refine ⟨_, ?_, by rw [hearly, BlockCipher.decryptChain_append, List.flatten_append]⟩
    show (fed c iv t).update y = _
    rw [hfed, hearly, getLastD_append, update, if_neg (by simp [fed])]
    rfl

theorem length_pending_fed (c : BlockCipher) (iv t : Bytes) :
    (fed c iv t).pending.length = if t = [] then 0 else (t.length - 1) % c.blockSize + 1 := by
  have hcut := Nat.div_add_mod' (t.length - 1) c.blockSize
  rw [fed, List.length_drop]
  split
  · rename_i hnil
    simp [hnil]
  · rename_i hne
    have hpos := List.length_pos_iff.2 hne
    omega

theorem pending_fed_le (c : BlockCipher) (iv t : Bytes) : (fed c iv t).pending.length ≤ c.blockSize := by
  have hmod := Nat.mod_lt (t.length - 1) c.blockSize_pos
  rw [length_pending_fed]
  split <;> omega

/-- A whole block is kept back exactly if what has come consists of whole blocks, and is not nothing. -/
private theorem pending_fed_eq_iff (c : BlockCipher) (iv t : Bytes) :
    (fed c iv t).pending.length = c.blockSize ↔ ¬ (t = [] ∨ t.length % c.blockSize ≠ 0) := by
  have hmod := Nat.mod_lt (t.length - 1) c.blockSize_pos
  rw [length_pending_fed]
  by_cases hnil : t = []
  · simp only [hnil, if_true, true_or, not_true_eq_false, iff_false]
    omega
  · have hlast : t.length % c.blockSize = ((t.length - 1) % c.blockSize + 1) % c.blockSize := by
      rw [Nat.mod_add_mod, Nat.sub_add_cancel (List.length_pos_iff.2 hnil)]
    simp only [hnil, if_false, false_or, ne_eq, Decidable.not_not, hlast]
    rcases Nat.lt_or_eq_of_le (Nat.succ_le_of_lt hmod) with hlt | heq
    · rw [Nat.mod_eq_of_lt hlt]
      omega
    · rw [Nat.succ_eq_add_one] at heq
      rw [heq, Nat.mod_self]
      simp

/-- The end of a decryptor gives what remains, or tells what is wrong. -/
theorem result_finalize {d : CbcDecryptor} (hd : d.finalized = false) (hp : d.pending.length ≤ d.cipher.blockSize) :
    d.finalize.1 =
      match d.remaining? [] with
      | some x => .ok x
      | none => .error (.malformedStream (if d.pending.length = d.cipher.blockSize then .invalidPadding
          else .partialBlock d.pending.length d.cipher.blockSize)) := by
  rcases hr : d.remaining? [] with _ | x
  · by_cases hlen : d.pending.length = d.cipher.blockSize
    · rw [remaining?, List.append_nil, BlockCipher.decryptPadded?_of_length _ hlen] at hr
      simp [finalize, hd, hlen, advance, BlockCipher.decryptChain, hr]
    · simp [finalize, hd, hlen]
  · obtain ⟨d', hfin, -⟩ := finalize_eq hd hp hr
    rw [hfin]

/-- What is given before the end and what remains are the decryption at once. -/
theorem decryptPadded?_eq (c : BlockCipher) (iv t : Bytes) : c.decryptPadded? iv t =
    ((fed c iv t).remaining? []).map ((c.decryptChain iv (early c t)).flatten ++ ·) := by
  have htake := length_take_blocks (blocks_le c t)
  rw [remaining?, List.append_nil]
  by_cases hnil : t = []
  · simp [hnil, fed, early, firstBlocks, BlockCipher.decryptChain]
  · have hrest : t.drop ((t.length - 1) / c.blockSize * c.blockSize) ≠ [] := by
      have hpending := length_pending_fed c iv t
      rw [if_neg hnil] at hpending
      exact List.ne_nil_of_length_eq_add_one hpending
    have hsplit := BlockCipher.decryptPadded?_append iv htake hrest
    rw [List.take_append_drop] at hsplit
    exact hsplit

/-- However the ciphertext is cut, a decryptor has given the plaintext of all whole blocks in front of the last byte, and
keeps the rest back, at least a byte and at most a block if anything has come.  Its end succeeds exactly if it was fed
the encryption of something, and what it has given then is that; else the stream is malformed. -/
theorem incremental_decryption {c : BlockCipher} (hc : c.Invertible) (iv : Bytes) (pieces : List Bytes) :
    ∃ given fed, feed pieces (new c iv) = (.ok given, fed) ∧
      given = (c.decryptChain iv
        (firstBlocks c.blockSize ((pieces.flatten.length - 1) / c.blockSize) pieces.flatten)).flatten ∧
      fed.pending = pieces.flatten.drop ((pieces.flatten.length - 1) / c.blockSize * c.blockSize) ∧
      (pieces.flatten ≠ [] → 1 ≤ fed.pending.length ∧ fed.pending.length ≤ c.blockSize) ∧
      (∀ x, (∃ last, fed.finalize.1 = .ok last ∧ given ++ last = x) ↔ pieces.flatten = c.encryptPadded iv x) ∧
      (fed.finalize.1 = .error (.malformedStream
          (if pieces.flatten = [] ∨ pieces.flatten.length % c.blockSize ≠ 0
            then .partialBlock fed.pending.length c.blockSize else .invalidPadding)) ↔
        ∀ x, pieces.flatten ≠ c.encryptPadded iv x) := by
  obtain ⟨given, hfeed, hgiven⟩ := (course c iv).feed_eq pieces []
  rw [List.nil_append, fed_nil] at hfeed
  have hgiven : given = (c.decryptChain iv (early c pieces.flatten)).flatten := by
    simpa [early, firstBlocks, BlockCipher.decryptChain] using hgiven.symm
  have hresult := result_finalize (d := fed c iv pieces.flatten) rfl (pending_fed_le c iv pieces.flatten)
  have hwhole := decryptPadded?_eq c iv pieces.flatten
  rw [← hgiven] at hwhole
  refine ⟨given, _, hfeed, hgiven, rfl, ?_, ?_, ?_⟩
  · intro hne
    refine ⟨?_, pending_fed_le c iv pieces.flatten⟩
    rw [length_pending_fed, if_neg hne]
    exact Nat.le_add_left ..
  · intro x
    rw [← BlockCipher.decryptPadded?_eq_some_iff hc, hwhole, hresult]
    rcases (fed c iv pieces.flatten).remaining? [] with _ | y <;> simp
  · have hcause : (if pieces.flatten = [] ∨ pieces.flatten.length % c.blockSize ≠ 0
        then StreamFault.partialBlock (fed c iv pieces.flatten).pending.length c.blockSize else .invalidPadding) =
        if (fed c iv pieces.flatten).pending.length = c.blockSize then .invalidPadding
          else .partialBlock (fed c iv pieces.flatten).pending.length c.blockSize := by
      simp only [pending_fed_eq_iff, ite_not]
    have hnone : (∀ x, pieces.flatten ≠ c.encryptPadded iv x) ↔ c.decryptPadded? iv pieces.flatten = none := by
      simp only [Option.eq_none_iff_forall_ne_some, ne_eq, BlockCipher.decryptPadded?_eq_some_iff hc]
    rw [hnone, hwhole, hresult, hcause]
    rcases (fed c iv pieces.flatten).remaining? [] with _ | y
    · simp only [Option.map_none, iff_true]
      rfl
    · simp

/-- A block cipher on blocks of three bytes. -/
def sampleCipher : BlockCipher := .masking [3, 9, 4] (by decide)

/-- The encryption of four bytes, cut within both blocks and across their seam. -/
def samplePieces : List Bytes := [[8, 31], [], [25, 35, 20], [31]]

theorem decryption_samplePieces : sampleCipher.Invertible ∧
    ∃ fed, feed samplePieces (new sampleCipher [1, 2, 3]) = (.ok [10, 20, 30], fed) ∧ fed.finalize.1 = .ok [40] := by
  have hc : sampleCipher.Invertible := BlockCipher.invertible_masking _
  obtain ⟨given, fed, hfeed, hgiven, -, -, hiff, -⟩ := incremental_decryption hc [1, 2, 3] samplePieces
  obtain rfl : given = [10, 20, 30] := hgiven.trans (by decide +kernel)
  obtain ⟨last, hfin, hlast⟩ := (hiff [10, 20, 30, 40]).2 (by decide +kernel)
  obtain rfl : last = [40] := List.append_cancel_left hlast
  exact ⟨hc, fed, hfeed, hfin⟩

end CbcDecryptor

end Conduit
