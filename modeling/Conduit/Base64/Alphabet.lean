import Conduit.Bytes

/-!
# Base64 alphabets

An alphabet gives a symbol to each of the numbers below 64.  The symbols differ from each other and from the pad, so a
symbol tells its number (`value?_symbol`) and the pad has none (`value?_pad`).
-/

namespace Conduit.Base64

/-- The byte that fills up a last quantum, `=`. -/
def pad : UInt8 := 61

/-- The `n` ASCII characters from `first` on. -/
def run (first : Char) (n : Nat) : Bytes := (List.range n).map fun i => UInt8.ofNat (first.toNat + i)

/-- The symbols for the numbers from 0 to 63, in order. -/
structure Alphabet where
  symbols : Bytes
  length_symbols : symbols.length = 64
  nodup : symbols.Nodup
  noPad : pad ∉ symbols

namespace Alphabet

/-- The symbol for a number. -/
def symbol (A : Alphabet) (v : Fin 64) : UInt8 := A.symbols.get (Fin.cast A.length_symbols.symm v)

/-- The number that a symbol stands for. -/
def value? (A : Alphabet) (b : UInt8) : Option (Fin 64) :=
  if h : A.symbols.idxOf b < 64 then some ⟨_, h⟩ else none

/-- The letters, the digits, `+` and `/`. -/
def standard : Alphabet where
  symbols := run 'A' 26 ++ run 'a' 26 ++ run '0' 10 ++ run '+' 1 ++ run '/' 1
  length_symbols := by decide +kernel
  nodup := by decide +kernel
  noPad := by decide +kernel

/-- The standard alphabet with `-` and `_` in the last places. -/
def urlSafe : Alphabet where
  symbols := run 'A' 26 ++ run 'a' 26 ++ run '0' 10 ++ run '-' 1 ++ run '_' 1
  length_symbols := by decide +kernel
  nodup := by decide +kernel
  noPad := by decide +kernel

/-- The alphabet of password hashes. -/
def crypt : Alphabet where
  symbols := run '.' 12 ++ run 'A' 26 ++ run 'a' 26
  length_symbols := by decide +kernel
  nodup := by decide +kernel
  noPad := by decide +kernel

/-- The alphabet of adaptive password hashes. -/
def bcrypt : Alphabet where
  symbols := run '.' 2 ++ run 'A' 26 ++ run 'a' 26 ++ run '0' 10
  length_symbols := by decide +kernel
  nodup := by decide +kernel
  noPad := by decide +kernel

/-- The alphabet of mailbox names, with `,` in place of `/`. -/
def imap : Alphabet where
  symbols := run 'A' 26 ++ run 'a' 26 ++ run '0' 10 ++ run '+' 2
  length_symbols := by decide +kernel
  nodup := by decide +kernel
  noPad := by decide +kernel

/-- The alphabet of files with two forks, in which no two symbols look alike. -/
def binHex : Alphabet where
  symbols := run '!' 13 ++ run '0' 7 ++ run '8' 2 ++ run '@' 15 ++ run 'P' 7 ++ run 'X' 4 ++ run '\x60' 7 ++ run 'h' 6 ++ run 'p' 3
  length_symbols := by decide +kernel
  nodup := by decide +kernel
  noPad := by decide +kernel

theorem value?_symbol (A : Alphabet) (v : Fin 64) : A.value? (A.symbol v) = some v := by
  have hv : v.val < A.symbols.length := by rw [A.length_symbols]; exact v.isLt
  have h : A.symbols.idxOf (A.symbol v) = v.val := by
    have hm : A.symbol v ∈ A.symbols := List.getElem_mem hv
    have hlt := List.idxOf_lt_length_of_mem hm
    have he : A.symbols[A.symbols.idxOf (A.symbol v)] = A.symbols[v.val] := List.getElem_idxOf hlt
    rcases Nat.lt_trichotomy (A.symbols.idxOf (A.symbol v)) v.val with hl | hl | hl
    · exact absurd he (List.pairwise_iff_getElem.1 A.nodup _ _ hlt hv hl)
    · exact hl
    · exact absurd he.symm (List.pairwise_iff_getElem.1 A.nodup _ _ hv hlt hl)
  simp [value?, h]

theorem symbol_of_value? {A : Alphabet} {b : UInt8} {v : Fin 64} (h : A.value? b = some v) : A.symbol v = b := by
  unfold value? at h
  split at h
  · rename_i hlt
    obtain rfl := Option.some.inj h
    exact List.getElem_idxOf (by rw [A.length_symbols]; exact hlt)
  · simp at h

@[simp] theorem value?_pad (A : Alphabet) : A.value? pad = none := by
  have : A.symbols.idxOf pad = 64 := by rw [List.idxOf_eq_length A.noPad, A.length_symbols]
  simp [value?, this]

theorem symbol_ne_pad (A : Alphabet) (v : Fin 64) : A.symbol v ≠ pad := by
  intro h
  have := A.value?_symbol v
  rw [h, value?_pad] at this
  simp at this

end Alphabet

end Conduit.Base64
