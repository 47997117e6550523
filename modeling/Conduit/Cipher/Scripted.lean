import Conduit.Cipher.Basic
import Conduit.Script.Results

/-!
# Scripted ciphers

A scripted cipher flips the same bits of every byte, ends with a tail that it has been told, and fails when it has been
told to.  It can be used after it was finalized.
-/

namespace Conduit

/-- A cipher that follows a script. -/
structure ScriptedCipher where
  blockSize : Nat
  updates : List (Option Error)
  finals : List (Option Error)
  tail : Bytes
  finalized : Bool
deriving DecidableEq, Repr

namespace ScriptedCipher

def ofScript (blockSize : Nat) (updates finals : List (Option Error)) (tail : Bytes) : ScriptedCipher :=
  ⟨blockSize, updates, finals, tail, false⟩

def update (c : ScriptedCipher) (x : Bytes) : Except Error Bytes × ScriptedCipher :=
  let (result, updates) := nextResult c.updates
  (result.map fun _ => x.map (· ^^^ 0x55), { c with updates })

def finalize (c : ScriptedCipher) : Except Error Bytes × ScriptedCipher :=
  match nextResult c.finals with
  | (.error e, finals) => (.error e, { c with finals })
  | (.ok (), finals) => (.ok c.tail, { c with finals, finalized := true })

/-- A short description: the block size and whether the stream has ended. -/
def describe (c : ScriptedCipher) : String :=
  s!"ScriptedCipher \x7b block_size: {c.blockSize}, finalized: {c.finalized} \x7d"

theorem length_update {c c' : ScriptedCipher} {x out : Bytes} (h : c.update x = (.ok out, c')) :
    out.length = x.length := by
  unfold update at h
  rcases hr : nextResult c.updates with ⟨_ | _, updates⟩
  · rw [hr] at h; cases h
  · rw [hr] at h; cases h; exact List.length_map ..

theorem finalized_finalize {c c' : ScriptedCipher} {out : Bytes} (h : c.finalize = (.ok out, c')) :
    c'.finalized = true := by
  unfold finalize at h
  split at h
  · cases h
  · cases h; rfl

instance : ByteCipher ScriptedCipher where
  blockSize := blockSize
  update := update
  finalize := finalize
  isFinalized := finalized
  isFinalized_finalize := finalized_finalize
  slack _ := 0
  slack_update h := Nat.le_of_eq (congrArg (0 + ·) (length_update h).symm)

end ScriptedCipher

end Conduit
