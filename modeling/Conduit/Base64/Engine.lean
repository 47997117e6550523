import Conduit.Base64.Alphabet

/-!
# Base64 encoding and decoding

An engine is an alphabet together with its rules on padding.  `encode` writes three bytes as four symbols and pads the
rest; `encodedLength` is the length of the result.  A text is read in quanta of four places: one that holds a pad ends
its segment, so that encodings written back to back are read one after the other, and `decode` reads a list of quanta
segment by segment.  Every quantum that is read gives at least one byte (`length_le_of_decode`).
-/

namespace Conduit.Base64

/-- Which padding a reader accepts in the last quantum of a segment. -/
inductive PaddingMode where
  /-- The padding must fill up the quantum. -/
  | canonical
  /-- There may be padding or not. -/
  | indifferent
  /-- There must be none. -/
  | absent
deriving DecidableEq, Repr

/-- An alphabet, whether encodings are padded, which padding is accepted, and whether bits of a last symbol that count
for nothing may be set. -/
structure Engine where
  alphabet : Alphabet
  pads : Bool
  padding : PaddingMode
  trailingBits : Bool

/-- Why a text cannot be read: a byte that is no symbol, a last symbol with bits set that count for nothing, or padding
that is not accepted.  Offsets count from the start of the segment. -/
inductive DecodeError where
  | symbol (byte : UInt8) (offset : Nat)
  | lastSymbol (byte : UInt8) (offset : Nat)
  | padding
deriving DecidableEq, Repr

/-- What is reported of an unreadable text. -/
def DecodeError.message : DecodeError → String
  | .symbol byte offset => s!"Invalid symbol {byte}, offset {offset}."
  | .lastSymbol byte offset => s!"Invalid last symbol {byte}, offset {offset}."
  | .padding => "Invalid padding"

/-- The bytes in a whole group and the symbols in a whole quantum. -/
def groupSize : Nat := 3

@[inherit_doc groupSize] def quantumSize : Nat := 4

namespace Engine

/-- Padded, and padding is required. -/
def standard : Engine := ⟨.standard, true, .canonical, false⟩

def urlSafe : Engine := ⟨.urlSafe, true, .canonical, false⟩

/-- Not padded, and padding is refused. -/
def standardNoPad : Engine := ⟨.standard, false, .absent, false⟩

def urlSafeNoPad : Engine := ⟨.urlSafe, false, .absent, false⟩

/-! ### Encoding -/

/-- The four symbols for three bytes. -/
def quantum (e : Engine) (x y z : UInt8) : Bytes :=
  [x.toNat / 4, x.toNat % 4 * 16 + y.toNat / 16, y.toNat % 16 * 4 + z.toNat / 64, z.toNat % 64].map
    fun v => e.alphabet.symbol (Fin.ofNat 64 v)

/-- The padding that stands for `n` missing symbols. -/
def filler (e : Engine) (n : Nat) : Bytes := if e.pads then List.replicate n pad else []

/-- The encoding of a whole byte string. -/
def encode (e : Engine) : Bytes → Bytes
  | x :: y :: z :: rest => e.quantum x y z ++ encode e rest
  | [x, y] => (e.quantum x y 0).take 3 ++ e.filler 1
  | [x] => (e.quantum x 0 0).take 2 ++ e.filler 2
  | [] => []

/-- The length of the encoding of `n` bytes. -/
def encodedLength (e : Engine) (n : Nat) : Nat :=
  n / groupSize * quantumSize +
    if n % groupSize = 0 then 0 else if e.pads then quantumSize else n % groupSize + 1

theorem length_encode (e : Engine) (l : Bytes) : (e.encode l).length = e.encodedLength l.length := by
  fun_induction encode e l with
  | case1 x y z rest ih =>
    have h₁ : (x :: y :: z :: rest).length / groupSize = rest.length / groupSize + 1 := by
      simp only [List.length_cons, groupSize]; omega
    have h₂ : (x :: y :: z :: rest).length % groupSize = rest.length % groupSize := by
      simp only [List.length_cons, groupSize]; omega
    rw [List.length_append, ih, encodedLength, encodedLength, h₁, h₂, Nat.succ_mul, quantum, List.length_map]
    simp only [List.length_cons, List.length_nil, quantumSize]
    omega
  | case2 => cases h : e.pads <;> simp [encodedLength, filler, quantum, groupSize, quantumSize, h]
  | case3 => cases h : e.pads <;> simp [encodedLength, filler, quantum, groupSize, quantumSize, h]
  | case4 => simp [encodedLength]

theorem encodedLength_le (e : Engine) (n : Nat) : e.encodedLength n ≤ (n + 2) / groupSize * quantumSize := by
  have hg : groupSize = 3 := rfl
  have hq : quantumSize = 4 := rfl
  unfold encodedLength
  rw [hg, hq]
  split
  · omega
  · split <;> omega

/-- Whole groups are encoded by themselves. -/
theorem encode_append (e : Engine) (l r : Bytes) (h : l.length % groupSize = 0) :
    e.encode (l ++ r) = e.encode l ++ e.encode r := by
  fun_induction encode e l with
  | case1 x y z rest ih =>
    have : rest.length % groupSize = 0 := by
      simp only [List.length_cons, groupSize] at *; omega
    simp only [List.cons_append, encode, List.append_assoc, ih this]
  | case2 => simp [groupSize] at h
  | case3 => simp [groupSize] at h
  | case4 => rfl

end Engine

/-! ### Decoding -/

/-- Four places of a text. -/
structure Quantum where
  a : UInt8
  b : UInt8
  c : UInt8
  d : UInt8
deriving DecidableEq, Repr

namespace Quantum

def bytes (q : Quantum) : Bytes := [q.a, q.b, q.c, q.d]

/-- A quantum with a pad in it ends its segment. -/
def isPadded (q : Quantum) : Bool := pad ∈ q.bytes

/-- The quanta of a text; up to three bytes behind the last one are left out. -/
def ofBytes : Bytes → List Quantum
  | a :: b :: c :: d :: rest => ⟨a, b, c, d⟩ :: ofBytes rest
  | _ => []

theorem length_ofBytes (l : Bytes) : (ofBytes l).length = l.length / quantumSize := by
  fun_induction ofBytes l with
  | case1 a b c d rest ih =>
    simp only [List.length_cons, ih, quantumSize]; omega
  | case2 l h =>
    rcases l with _ | ⟨a, _ | ⟨b, _ | ⟨c, _ | ⟨d, l⟩⟩⟩⟩
    · simp
    · simp [quantumSize]
    · simp [quantumSize]
    · simp [quantumSize]
    · exact (h _ _ _ _ _ rfl).elim

/-- The segments of a text: each one ends with its first padded quantum, the last one perhaps without any. -/
def segments : List Quantum → List (List Quantum)
  | [] => []
  | q :: qs =>
    if q.isPadded then [q] :: segments qs
    else match segments qs with
      | [] => [[q]]
      | s :: rest => (q :: s) :: rest

@[simp] theorem flatten_segments (qs : List Quantum) : (segments qs).flatten = qs := by
  fun_induction segments qs with
  | case1 => rfl
  | case2 q qs h ih => simp [ih]
  | case3 q qs h hs ih => rw [hs] at ih; simp [← ih]
  | case4 q qs h s rest hs ih => rw [hs] at ih; simp [← ih]

end Quantum

/-- The three bytes with the same bits as four numbers below 64. -/
def join (v₀ v₁ v₂ v₃ : Nat) : Bytes :=
  [UInt8.ofNat (v₀ * 4 + v₁ / 16), UInt8.ofNat (v₁ % 16 * 16 + v₂ / 4), UInt8.ofNat (v₂ % 4 * 64 + v₃)]

namespace Engine

/-- The number of the symbol at an offset. -/
def number (e : Engine) (offset : Nat) (byte : UInt8) : Except DecodeError Nat :=
  match e.alphabet.value? byte with
  | some v => .ok v.val
  | none => .error (.symbol byte offset)

/-- Reads a quantum that is not the last of its segment: four symbols. -/
def decodeInner (e : Engine) (offset : Nat) (q : Quantum) : Except DecodeError Bytes := do
  let v₀ ← e.number offset q.a
  let v₁ ← e.number (offset + 1) q.b
  let v₂ ← e.number (offset + 2) q.c
  let v₃ ← e.number (offset + 3) q.d
  return join v₀ v₁ v₂ v₃

/-- Accepts the bytes before some padding, if the engine accepts padding and the bits of the last symbol that count
for nothing. -/
def acceptPadded (e : Engine) (bytes : Bytes) (last : UInt8) (offset bits : Nat) : Except DecodeError Bytes :=
  if e.padding = .absent then .error .padding
  else if bits ≠ 0 ∧ e.trailingBits = false then .error (.lastSymbol last offset)
  else .ok bytes

/-- Reads the last quantum of a segment: four symbols, or two or three and a pad in each place behind them. -/
def decodeLast (e : Engine) (offset : Nat) (q : Quantum) : Except DecodeError Bytes := do
  let v₀ ← e.number offset q.a
  let v₁ ← e.number (offset + 1) q.b
  if q.c = pad then
    if q.d = pad then
      e.acceptPadded ((join v₀ v₁ 0 0).take 1) q.b (offset + 1) (v₁ % 16)
    else throw (.symbol pad (offset + 2))
  else
    let v₂ ← e.number (offset + 2) q.c
    if q.d = pad then
      e.acceptPadded ((join v₀ v₁ v₂ 0).take 2) q.c (offset + 2) (v₂ % 4)
    else
      let v₃ ← e.number (offset + 3) q.d
      return join v₀ v₁ v₂ v₃

/-- Reads a segment from the given offset on. -/
def decodeSegment (e : Engine) (offset : Nat) : List Quantum → Except DecodeError Bytes
  | [] => .ok []
  | [q] => e.decodeLast offset q
  | q :: r :: qs => do
    let bytes ← e.decodeInner offset q
    let more ← decodeSegment e (offset + quantumSize) (r :: qs)
    return bytes ++ more

/-- Reads one segment after the other. -/
def decodeSegments (e : Engine) : List (List Quantum) → Except DecodeError Bytes
  | [] => .ok []
  | s :: rest => do
    let bytes ← e.decodeSegment 0 s
    let more ← decodeSegments e rest
    return bytes ++ more

/-- Reads a list of quanta. -/
def decode (e : Engine) (qs : List Quantum) : Except DecodeError Bytes := e.decodeSegments (Quantum.segments qs)

end Engine

/-! ### Every quantum gives a byte -/

theorem bind_eq_ok {α β : Type} {x : Except DecodeError α} {f : α → Except DecodeError β} {b : β}
    (h : (x >>= f) = .ok b) : ∃ a, x = .ok a ∧ f a = .ok b := by
  cases x with
  | error e => cases h
  | ok a => exact ⟨a, rfl, h⟩

theorem Engine.length_decodeInner {e : Engine} {o : Nat} {q : Quantum} {out : Bytes}
    (h : e.decodeInner o q = .ok out) : out.length = 3 := by
  obtain ⟨v₀, -, h⟩ := bind_eq_ok h
  obtain ⟨v₁, -, h⟩ := bind_eq_ok h
  obtain ⟨v₂, -, h⟩ := bind_eq_ok h
  obtain ⟨v₃, -, h⟩ := bind_eq_ok h
  obtain rfl := Except.ok.inj h
  rfl

theorem Engine.eq_of_acceptPadded {e : Engine} {bytes out : Bytes} {last : UInt8} {o bits : Nat}
    (h : e.acceptPadded bytes last o bits = .ok out) : out = bytes := by
  unfold acceptPadded at h
  split at h
  · cases h
  · split at h
    · cases h
    · exact (Except.ok.inj h).symm

theorem Engine.one_le_length_decodeLast {e : Engine} {o : Nat} {q : Quantum} {out : Bytes}
    (h : e.decodeLast o q = .ok out) : 1 ≤ out.length := by
  obtain ⟨v₀, -, h⟩ := bind_eq_ok h
  obtain ⟨v₁, -, h⟩ := bind_eq_ok h
  split at h
  · split at h
    · rw [eq_of_acceptPadded h]; simp [join]
    · cases h
  · obtain ⟨v₂, -, h⟩ := bind_eq_ok h
    split at h
    · rw [eq_of_acceptPadded h]; simp [join]
    · obtain ⟨v₃, -, h⟩ := bind_eq_ok h
      obtain rfl := Except.ok.inj h
      simp [join]

theorem Engine.length_le_of_decodeSegment {e : Engine} {o : Nat} {qs : List Quantum} {out : Bytes}
    (h : e.decodeSegment o qs = .ok out) : qs.length ≤ out.length := by
  fun_induction decodeSegment e o qs generalizing out with
  | case1 => exact Nat.zero_le _
  | case2 o q => exact one_le_length_decodeLast h
  | case3 o q r qs ih =>
    obtain ⟨bytes, hb, h⟩ := bind_eq_ok h
    obtain ⟨more, hm, h⟩ := bind_eq_ok h
    obtain rfl := Except.ok.inj h
    have := length_decodeInner hb
    have := ih hm
    simp only [List.length_append, List.length_cons] at *
    omega

theorem Engine.length_le_of_decodeSegments {e : Engine} {ss : List (List Quantum)} {out : Bytes}
    (h : e.decodeSegments ss = .ok out) : ss.flatten.length ≤ out.length := by
  fun_induction decodeSegments e ss generalizing out with
  | case1 => exact Nat.zero_le _
  | case2 s rest ih =>
    obtain ⟨bytes, hb, h⟩ := bind_eq_ok h
    obtain ⟨more, hm, h⟩ := bind_eq_ok h
    obtain rfl := Except.ok.inj h
    have := length_le_of_decodeSegment hb
    have := ih hm
    simp only [List.length_append, List.flatten_cons] at *
    omega

theorem Engine.length_le_of_decode {e : Engine} {qs : List Quantum} {out : Bytes} (h : e.decode qs = .ok out) :
    qs.length ≤ out.length := by
  simpa using length_le_of_decodeSegments h

end Conduit.Base64
