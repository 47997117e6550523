import Conduit.Cipher.Any
import Conduit.Proofs.Cipher.Chaining

/-!
# What a cipher makes of a stream

A cipher turns a byte string into another one if it takes the first piece by piece, however it is cut, and gives the
second piece by piece, the last one at its end.  Where the output is cut is left to the cipher; so `Turns` is the
largest relation that its steps keep.

An encryptor turns any byte string into its encryption (`CbcEncryptor.turns_new`), a decryptor one that can be decrypted
into its decryption (`CbcDecryptor.turns_new`).
-/

namespace Conduit

section

variable {κ κ' : Type} [ByteCipher κ] [ByteCipher κ']

/-- The steps of a cipher keep the relation between it, what is still to follow and what it is still to give. -/
structure Turning (R : κ → Bytes → Bytes → Prop) : Prop where
  unended {c : κ} {t y : Bytes} (h : R c t y) : ByteCipher.isFinalized c = false
  update {c : κ} {x t y : Bytes} (h : R c (x ++ t) y) : ∃ out y' c', ByteCipher.update c x = (.ok out, c') ∧
    R c' t y' ∧ out ++ y' = y ∧ ByteCipher.blockSize c' = ByteCipher.blockSize c
  finalize {c : κ} {y : Bytes} (h : R c [] y) : ∃ c', ByteCipher.finalize c = (.ok y, c')

/-- If `t` follows and the stream ends there, the cipher gives `y`. -/
def Turns (c : κ) (t y : Bytes) : Prop := ∃ R : κ → Bytes → Bytes → Prop, Turning R ∧ R c t y

theorem turning_turns : Turning (Turns : κ → Bytes → Bytes → Prop) where
  unended := by
    rintro c t y ⟨R, hR, h⟩
    exact hR.unended h
  update := by
    rintro c x t y ⟨R, hR, h⟩
    obtain ⟨out, y', c', hu, h, hy, hsize⟩ := hR.update h
    exact ⟨out, y', c', hu, ⟨R, hR, h⟩, hy, hsize⟩
  finalize := by
    rintro c y ⟨R, hR, h⟩
    exact hR.finalize h

/-- A map that takes every cipher to one that does the same. -/
structure CipherHom (f : κ → κ') : Prop where
  blockSize (c : κ) : ByteCipher.blockSize (f c) = ByteCipher.blockSize c
  isFinalized (c : κ) : ByteCipher.isFinalized (f c) = ByteCipher.isFinalized c
  update (c : κ) (x : Bytes) : ByteCipher.update (f c) x = (ByteCipher.update c x).map id f
  finalize (c : κ) : ByteCipher.finalize (f c) = (ByteCipher.finalize c).map id f

theorem Turns.map {f : κ → κ'} (hf : CipherHom f) {c : κ} {t y : Bytes} (h : Turns c t y) : Turns (f c) t y := by
  refine ⟨fun c' t y => ∃ c, c' = f c ∧ Turns c t y, ⟨?_, ?_, ?_⟩, c, rfl, h⟩
  · rintro _ t y ⟨c, rfl, h⟩
    rw [hf.isFinalized]
    exact turning_turns.unended h
  · rintro _ x t y ⟨c, rfl, h⟩
    obtain ⟨out, y', c', hu, h, hy, hsize⟩ := turning_turns.update h
    refine ⟨out, y', f c', ?_, ⟨c', rfl, h⟩, hy, ?_⟩
    · rw [hf.update, hu]
      rfl
    · rw [hf.blockSize, hf.blockSize, hsize]
  · rintro _ y ⟨c, rfl, h⟩
    obtain ⟨c', hc⟩ := turning_turns.finalize h
    refine ⟨f c', ?_⟩
    rw [hf.finalize, hc]
    rfl

end

namespace CbcEncryptor

private theorem turning_remaining : Turning fun (c : CbcEncryptor) t y =>
    c.finalized = false ∧ c.pending.length < c.cipher.blockSize ∧ c.remaining t = y where
  unended h := h.1
  update := by
    rintro c x t y ⟨hf, -, rfl⟩
    obtain ⟨out, c', hu, hf', hp', hrest⟩ := update_eq hf x
    have hsize : c'.cipher = c.cipher := (length_update hu).2.2
    exact ⟨out, _, c', hu, ⟨hf', hp', rfl⟩, hrest t, congrArg BlockCipher.blockSize hsize⟩
  finalize := by
    rintro c y ⟨hf, hp, rfl⟩
    obtain ⟨c', hfin, -⟩ := finalize_eq hf hp
    exact ⟨c', hfin⟩

theorem turns_new (c : BlockCipher) (iv t : Bytes) : Turns (new c iv) t (c.encryptPadded iv t) :=
  ⟨_, turning_remaining, rfl, c.blockSize_pos, rfl⟩

end CbcEncryptor

namespace CbcDecryptor

private theorem turning_remaining : Turning fun (c : CbcDecryptor) t y =>
    c.finalized = false ∧ c.pending.length ≤ c.cipher.blockSize ∧ c.remaining? t = some y where
  unended h := h.1
  update := by
    rintro c x t y ⟨hf, -, hy⟩
    obtain ⟨out, c', hu, hf', hp', hsize, hrest⟩ := update_eq hf x
    have hne : c.pending ++ x ++ t ≠ [] := by
      rw [List.append_assoc]
      exact (BlockCipher.length_of_decryptPadded? hy).1
    rw [hrest t hne, Option.map_eq_some_iff] at hy
    obtain ⟨y', hy', rfl⟩ := hy
    exact ⟨out, y', c', hu, ⟨hf', hp', hy'⟩, rfl, congrArg BlockCipher.blockSize hsize⟩
  finalize := by
    rintro c y ⟨hf, hp, hy⟩
    obtain ⟨c', hfin, -⟩ := finalize_eq hf hp hy
    exact ⟨c', hfin⟩

theorem turns_new {c : BlockCipher} {iv t y : Bytes} (h : c.decryptPadded? iv t = some y) : Turns (new c iv) t y :=
  ⟨_, turning_remaining, rfl, Nat.zero_le _, h⟩

end CbcDecryptor

namespace AnyCipher

theorem hom_encryptor : CipherHom encryptor := ⟨fun _ => rfl, fun _ => rfl, fun _ _ => rfl, fun _ => rfl⟩

theorem hom_decryptor : CipherHom decryptor := ⟨fun _ => rfl, fun _ => rfl, fun _ _ => rfl, fun _ => rfl⟩

end AnyCipher

end Conduit
