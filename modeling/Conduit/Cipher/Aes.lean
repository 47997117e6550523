import Conduit.Cipher.Block

/-!
# The advanced encryption standard

Blocks of sixteen bytes are seen as four columns of four bytes, with bytes as elements of the field of 256 elements.
Encryption adds the first round key and then, for each further one, replaces the bytes, shifts the rows, mixes the
columns (not in the last round) and adds the round key; decryption undoes these steps in the opposite order.  Keys have
16, 24 or 32 bytes.
-/

namespace Conduit.Aes

/-! ### The field -/

/-- Twice a field element. -/
def double (x : UInt8) : UInt8 := (x <<< 1) ^^^ (if x < 128 then 0 else 0x1b)

/-- The product of two field elements, by the lowest `n` bits of the second. -/
def timesBits : (n : Nat) → UInt8 → UInt8 → UInt8
  | 0, _, _ => 0
  | n + 1, x, y => (if y % 2 = 0 then 0 else x) ^^^ timesBits n (double x) (y >>> 1)

def times (x y : UInt8) : UInt8 := timesBits 8 x y

def power (x : UInt8) : Nat → UInt8
  | 0 => 1
  | n + 1 => times x (power x n)

/-- The inverse of a field element, and zero for zero. -/
def inverse (x : UInt8) : UInt8 := power x 254

/-- The bits of `x`, moved up by `n` places, those that fall out coming in below. -/
def rotate (x : UInt8) (n : UInt8) : UInt8 := (x <<< n) ||| (x >>> (8 - n))

/-- What each byte is replaced by. -/
def substitution : Vector UInt8 256 :=
  Vector.ofFn fun i =>
    let x := inverse (UInt8.ofNat i.val)
    x ^^^ rotate x 1 ^^^ rotate x 2 ^^^ rotate x 3 ^^^ rotate x 4 ^^^ 0x63

/-- What each byte replaces. -/
def reversal : Vector UInt8 256 :=
  Vector.ofFn fun i =>
    let x := UInt8.ofNat i.val
    inverse (rotate x 1 ^^^ rotate x 3 ^^^ rotate x 6 ^^^ 0x05)

def substitute (x : UInt8) : UInt8 := substitution.get x.toFin

def unsubstitute (x : UInt8) : UInt8 := reversal.get x.toFin

/-! ### Columns and blocks -/

/-- A column of four bytes. -/
structure Column where
  a : UInt8
  b : UInt8
  c : UInt8
  d : UInt8
deriving DecidableEq, Repr

namespace Column

def bytes (w : Column) : Bytes := [w.a, w.b, w.c, w.d]

def add (v w : Column) : Column := ⟨v.a ^^^ w.a, v.b ^^^ w.b, v.c ^^^ w.c, v.d ^^^ w.d⟩

def map (f : UInt8 → UInt8) (w : Column) : Column := ⟨f w.a, f w.b, f w.c, f w.d⟩

/-- The column with its first byte moved to the end. -/
def rotated (w : Column) : Column := ⟨w.b, w.c, w.d, w.a⟩

/-- The product of the column with the circulant matrix whose first row is `p q r s`. -/
def mix (p q r s : UInt8) (w : Column) : Column :=
  ⟨times w.a p ^^^ times w.b q ^^^ times w.c r ^^^ times w.d s,
   times w.a s ^^^ times w.b p ^^^ times w.c q ^^^ times w.d r,
   times w.a r ^^^ times w.b s ^^^ times w.c p ^^^ times w.d q,
   times w.a q ^^^ times w.b r ^^^ times w.c s ^^^ times w.d p⟩

/-- The columns of a byte string; up to three bytes behind the last one are left out. -/
def ofBytes : Bytes → List Column
  | a :: b :: c :: d :: rest => ⟨a, b, c, d⟩ :: ofBytes rest
  | _ => []

end Column

/-- A block of four columns. -/
structure Block where
  w : Column
  x : Column
  y : Column
  z : Column
deriving DecidableEq, Repr

namespace Block

def bytes (s : Block) : Bytes := s.w.bytes ++ s.x.bytes ++ s.y.bytes ++ s.z.bytes

/-- The block whose columns are the first four of a list; missing ones are zero. -/
def ofColumns (l : List Column) : Block :=
  ⟨l.getD 0 ⟨0, 0, 0, 0⟩, l.getD 1 ⟨0, 0, 0, 0⟩, l.getD 2 ⟨0, 0, 0, 0⟩, l.getD 3 ⟨0, 0, 0, 0⟩⟩

def ofBytes (x : Bytes) : Block := ofColumns (Column.ofBytes x)

def add (s t : Block) : Block := ⟨s.w.add t.w, s.x.add t.x, s.y.add t.y, s.z.add t.z⟩

def mapColumns (f : Column → Column) (s : Block) : Block := ⟨f s.w, f s.x, f s.y, f s.z⟩

def substitute (s : Block) : Block := s.mapColumns (.map Aes.substitute)

def unsubstitute (s : Block) : Block := s.mapColumns (.map Aes.unsubstitute)

/-- Moves row `r` by `r` places to the left. -/
def shiftRows (s : Block) : Block :=
  ⟨⟨s.w.a, s.x.b, s.y.c, s.z.d⟩, ⟨s.x.a, s.y.b, s.z.c, s.w.d⟩,
   ⟨s.y.a, s.z.b, s.w.c, s.x.d⟩, ⟨s.z.a, s.w.b, s.x.c, s.y.d⟩⟩

/-- Moves row `r` by `r` places to the right. -/
def unshiftRows (s : Block) : Block :=
  ⟨⟨s.w.a, s.z.b, s.y.c, s.x.d⟩, ⟨s.x.a, s.w.b, s.z.c, s.y.d⟩,
   ⟨s.y.a, s.x.b, s.w.c, s.z.d⟩, ⟨s.z.a, s.y.b, s.x.c, s.w.d⟩⟩

def mixColumns (s : Block) : Block := s.mapColumns (.mix 2 3 1 1)

def unmixColumns (s : Block) : Block := s.mapColumns (.mix 14 11 13 9)

@[simp] theorem unshiftRows_shiftRows (s : Block) : s.shiftRows.unshiftRows = s := rfl

@[simp] theorem length_bytes (s : Block) : s.bytes.length = 16 := rfl

end Block

/-! ### Keys -/

/-- The sizes of keys. -/
inductive KeySize where
  | bits128
  | bits192
  | bits256
deriving DecidableEq, Repr

namespace KeySize

/-- The number of columns of a key. -/
def columns : KeySize → Nat
  | .bits128 => 4
  | .bits192 => 6
  | .bits256 => 8

/-- The number of round keys. -/
def roundKeys (size : KeySize) : Nat := size.columns + 7

end KeySize

/-- The column behind the columns `row` of a key schedule, the last one in front. -/
def nextColumn (n : Nat) (row : List Column) : Column :=
  let last := row.headD ⟨0, 0, 0, 0⟩
  let changed :=
    if row.length % n = 0 then
      (last.rotated.map substitute).add ⟨power 2 (row.length / n - 1), 0, 0, 0⟩
    else if 6 < n ∧ row.length % n = 4 then last.map substitute
    else last
  changed.add (row.getD (n - 1) ⟨0, 0, 0, 0⟩)

/-- Adds `m` columns to a key schedule. -/
def extend (n : Nat) : (m : Nat) → List Column → List Column
  | 0, row => row
  | m + 1, row => extend n m (nextColumn n row :: row)

/-- The round keys for a key. -/
def schedule (size : KeySize) (key : Bytes) : List Block :=
  let columns := (extend size.columns (4 * size.roundKeys - size.columns) (Column.ofBytes key).reverse).reverse
  (chunks 4 columns).map Block.ofColumns

/-! ### Rounds -/

/-- The rounds for all round keys but the first. -/
def encryptRounds : List Block → Block → Block
  | [], s => s
  | [k], s => s.substitute.shiftRows.add k
  | k :: l :: ks, s => encryptRounds (l :: ks) (s.substitute.shiftRows.mixColumns.add k)

def encryptBlock (keys : List Block) (s : Block) : Block :=
  match keys with
  | [] => s
  | k :: ks => encryptRounds ks (s.add k)

/-- Undoes the rounds for all round keys but the first. -/
def decryptRounds : List Block → Block → Block
  | [], s => s
  | [k], s => (s.add k).unshiftRows.unsubstitute
  | k :: l :: ks, s => ((decryptRounds (l :: ks) s).add k).unmixColumns.unshiftRows.unsubstitute

def decryptBlock (keys : List Block) (s : Block) : Block :=
  match keys with
  | [] => s
  | k :: ks => (decryptRounds ks s).add k

/-- The cipher for a key, if the key has the right length. -/
def ofKey? (size : KeySize) (key : Bytes) : Option BlockCipher :=
  if key.length = 4 * size.columns then
    let keys := schedule size key
    some {
      blockSize := 16
      blockSize_pos := by decide
      blockSize_lt := by decide
      encrypt := fun x => (encryptBlock keys (.ofBytes x)).bytes
      decrypt := fun x => (decryptBlock keys (.ofBytes x)).bytes
      length_encrypt := fun _ => rfl
      length_decrypt := fun _ => rfl }
  else none

end Conduit.Aes
