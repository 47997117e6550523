import Conduit.Bytes

/-!
# Block padding

A last block is filled up with bytes that each say how many there are, a whole block of them if nothing was missing.
Removing the padding accepts exactly what adding it produces (`unpad_eq_some_iff`).
-/

namespace Conduit

/-- Fills `x`, shorter than a block, up to a block of `size` bytes. -/
def padBlock (size : Nat) (x : Bytes) : Bytes :=
  x ++ List.replicate (size - x.length) (UInt8.ofNat (size - x.length))

/-- Removes the padding of a block of `size` bytes. -/
def unpadBlock (size : Nat) (block : Bytes) : Option Bytes :=
  let n := (block.getLastD 0).toNat
  if n = 0 ∨ size < n then none
  else if block.drop (size - n) = List.replicate n (UInt8.ofNat n) then some (block.take (size - n))
  else none

theorem length_padBlock {size : Nat} {x : Bytes} (h : x.length ≤ size) : (padBlock size x).length = size := by
  simp only [padBlock, List.length_append, List.length_replicate]; omega

theorem unpadBlock_padBlock {size : Nat} (hs : size < 256) {x : Bytes} (h : x.length < size) :
    unpadBlock size (padBlock size x) = some x := by
  obtain ⟨m, hm⟩ : ∃ m, size - x.length = m + 1 := ⟨size - x.length - 1, by omega⟩
  have hl : (padBlock size x).getLastD 0 = UInt8.ofNat (m + 1) := by
    rw [padBlock, hm, List.replicate_succ', ← List.append_assoc, List.getLastD_eq_getLast?, List.getLast?_concat]
    rfl
  have hn : (UInt8.ofNat (m + 1)).toNat = m + 1 := by
    rw [UInt8.toNat_ofNat']; exact Nat.mod_eq_of_lt (by omega)
  have hx : size - (m + 1) = x.length := by omega
  simp only [unpadBlock, hl, hn, hx]
  rw [if_neg (by omega), padBlock, hm, List.drop_left, if_pos rfl, List.take_left]

theorem unpadBlock_eq_some_iff {size : Nat} (hs : size < 256) {block x : Bytes} (hb : block.length = size) :
    unpadBlock size block = some x ↔ x.length < size ∧ block = padBlock size x := by
  refine ⟨fun h => ?_, fun ⟨hx, h⟩ => h ▸ unpadBlock_padBlock hs hx⟩
  unfold unpadBlock at h
  simp only at h
  split at h
  · simp at h
  · rename_i hn
    split at h
    · rename_i hd
      obtain rfl := Option.some.inj h
      have hl : (block.take (size - (block.getLastD 0).toNat)).length = size - (block.getLastD 0).toNat := by
        rw [List.length_take]; omega
      have hm : size - (size - (block.getLastD 0).toNat) = (block.getLastD 0).toNat := by omega
      refine ⟨by omega, ?_⟩
      rw [padBlock, hl, hm, ← hd, List.take_append_drop]
    · simp at h

end Conduit
