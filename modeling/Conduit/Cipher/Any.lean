import Conduit.Cipher.Aes
import Conduit.Cipher.Cbc
import Conduit.Cipher.Scripted

/-!
# Ciphers of all kinds

One type for the ciphers that can stand in one place: chained encryption, chained decryption or a script.
-/

namespace Conduit

/-- A cipher of any kind. -/
inductive AnyCipher where
  | encryptor (c : CbcEncryptor)
  | decryptor (c : CbcDecryptor)
  | scripted (c : ScriptedCipher)

namespace AnyCipher

/-- Whether a cipher encrypts or decrypts. -/
inductive Purpose where
  | encrypt
  | decrypt
deriving DecidableEq, Repr

/-- Chained encryption or decryption under a key; the key and the initial block must have the right lengths. -/
def aes (size : Aes.KeySize) (purpose : Purpose) (key iv : Bytes) : Except Error AnyCipher :=
  match Aes.ofKey? size key with
  | none => .error (.invalidArgument .keyOrIvLength)
  | some cipher =>
    match cipher.checkIv iv with
    | .error e => .error e
    | .ok () =>
      match purpose with
      | .encrypt => .ok (.encryptor (.new cipher iv))
      | .decrypt => .ok (.decryptor (.new cipher iv))

def blockSize : AnyCipher → Nat
  | .encryptor c => ByteCipher.blockSize c
  | .decryptor c => ByteCipher.blockSize c
  | .scripted c => ByteCipher.blockSize c

def update (c : AnyCipher) (x : Bytes) : Except Error Bytes × AnyCipher :=
  match c with
  | .encryptor c => (c.update x).map id .encryptor
  | .decryptor c => (c.update x).map id .decryptor
  | .scripted c => (c.update x).map id .scripted

def finalize : AnyCipher → Except Error Bytes × AnyCipher
  | .encryptor c => c.finalize.map id .encryptor
  | .decryptor c => c.finalize.map id .decryptor
  | .scripted c => c.finalize.map id .scripted

def isFinalized : AnyCipher → Bool
  | .encryptor c => c.finalized
  | .decryptor c => c.finalized
  | .scripted c => c.finalized

def slack : AnyCipher → Nat
  | .encryptor c => ByteCipher.slack c
  | .decryptor c => ByteCipher.slack c
  | .scripted c => ByteCipher.slack c

/-- A short description of the cipher. -/
def describe : AnyCipher → String
  | .encryptor c => c.describe
  | .decryptor c => c.describe
  | .scripted c => c.describe

private theorem map_eq {κ κ' : Type} {p : Except Error Bytes × κ} {f : κ → κ'} {r : Except Error Bytes} {c' : κ'}
    (h : p.map id f = (r, c')) : p = (r, p.2) ∧ c' = f p.2 := by
  obtain ⟨rfl, rfl⟩ := Prod.mk.inj h
  exact ⟨rfl, rfl⟩

instance : ByteCipher AnyCipher where
  blockSize := blockSize
  update := update
  finalize := finalize
  isFinalized := isFinalized
  isFinalized_finalize {c c' out} h := by
    cases c with
    | encryptor c =>
      obtain ⟨hc, rfl⟩ := map_eq (p := c.finalize) (f := encryptor) h
      exact CbcEncryptor.finalized_finalize hc
    | decryptor c =>
      obtain ⟨hc, rfl⟩ := map_eq (p := c.finalize) (f := decryptor) h
      exact CbcDecryptor.finalized_finalize hc
    | scripted c =>
      obtain ⟨hc, rfl⟩ := map_eq (p := c.finalize) (f := scripted) h
      exact ScriptedCipher.finalized_finalize hc
  slack := slack
  slack_update {c c' x out} h := by
    cases c with
    | encryptor c =>
      obtain ⟨hc, rfl⟩ := map_eq (p := c.update x) (f := encryptor) h
      exact ByteCipher.slack_update hc
    | decryptor c =>
      obtain ⟨hc, rfl⟩ := map_eq (p := c.update x) (f := decryptor) h
      exact ByteCipher.slack_update hc
    | scripted c =>
      obtain ⟨hc, rfl⟩ := map_eq (p := c.update x) (f := scripted) h
      exact ByteCipher.slack_update hc

end AnyCipher

end Conduit
