import Conduit.Bytes
import Conduit.Error.Basic

/-!
# Ciphers

A cipher turns a stream of bytes into another one, bit by bit: `update` takes some bytes and gives those that are
ready, `finalize` ends the stream.  A cipher can keep back what it took, but only so much: `slack` bounds what it may
still keep, and every byte taken either is given back or uses up slack.
-/

namespace Conduit

/-- A transformation of byte streams. -/
class ByteCipher (κ : Type) where
  /-- The number of bytes that are worth reading at once. -/
  blockSize : κ → Nat
  update : κ → Bytes → Except Error Bytes × κ
  finalize : κ → Except Error Bytes × κ
  isFinalized : κ → Bool
  /-- How many bytes the cipher may still take without giving any. -/
  slack : κ → Nat
  isFinalized_finalize : ∀ {c c' : κ} {out : Bytes}, finalize c = (.ok out, c') → isFinalized c' = true
  slack_update : ∀ {c c' : κ} {x out : Bytes}, update c x = (.ok out, c') → slack c' + x.length ≤ slack c + out.length

end Conduit
