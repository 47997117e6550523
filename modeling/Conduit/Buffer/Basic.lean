import Conduit.Buffer.Queue

/-!
# Buffers

A buffer is a well-formed segment queue.  Seen through `toList` it is a queue of bytes: the operations append behind
the last byte and take from the first one, wherever the segments begin and end.  `length_toList` makes the number of
bytes that a buffer keeps agree with this view.

Operations that a caller can ask too much of (`skip`, `copyOut`, `transfer`, `writeWith`, `readWith`) answer with a
`Fault`; the others (`drop`, `moveTo`, `fill`, `dropHead`) do as much as can be done.
-/

namespace Conduit

/-- A queue of bytes, kept in segments. -/
structure Buffer where
  queue : SegmentQueue
  wellFormed : queue.WellFormed
deriving DecidableEq

namespace Buffer

def empty : Buffer := ⟨.empty, .empty⟩

instance : Inhabited Buffer := ⟨empty⟩

/-- The bytes of the buffer, the first to be taken in front. -/
def toList (b : Buffer) : Bytes := b.queue.toList

/-- The number of bytes in the buffer. -/
def length (b : Buffer) : Nat := b.queue.length

def isEmpty (b : Buffer) : Bool := b.length == 0

def segmentCount (b : Buffer) : Nat := b.queue.segments.length

/-- The bytes of the buffer, segment by segment. -/
def pieces (b : Buffer) : List Bytes := b.queue.segments.map Segment.bytes

/-- Writes `data` behind the last byte. -/
def append (b : Buffer) (data : Bytes) : Buffer := ⟨b.queue.append data, b.wellFormed.append data⟩

/-- A buffer that holds a copy of `data`. -/
def ofList (data : Bytes) : Buffer := empty.append data

/-- Writes one byte behind the last one. -/
def push (b : Buffer) (byte : UInt8) : Buffer := b.append [byte]

/-- Takes the first byte. -/
def popFront (b : Buffer) : Option (UInt8 × Buffer) :=
  match h : b.queue.popFront with
  | none => none
  | some (byte, q) => some (byte, ⟨q, (SegmentQueue.popFront_eq_some h).2 b.wellFormed⟩)

/-- The first `n` bytes. -/
def take (b : Buffer) (n : Nat) : Bytes := b.toList.take n

/-- Consumes the first `n` bytes, or all if there are fewer. -/
def drop (b : Buffer) (n : Nat) : Buffer := ⟨b.queue.drop n, b.wellFormed.drop n⟩

/-- The bytes of the first segment. -/
def head (b : Buffer) : Bytes := b.queue.head

/-- Consumes `n` bytes of the first segment, or all of it if it holds fewer. -/
def dropHead (b : Buffer) (n : Nat) : Buffer :=
  ⟨b.queue.dropHead (min n b.head.length), b.wellFormed.dropHead (Nat.min_le_right ..)⟩

/-- Hands the first `n` bytes over to `target`: the new target and what is left.  Whole segments are not copied. -/
def moveTo (b : Buffer) (n : Nat) (target : Buffer) : Buffer × Buffer :=
  have h := b.wellFormed.moveTo target.wellFormed (Nat.min_le_right n b.length)
  (⟨_, h.1⟩, ⟨_, h.2⟩)

/-- The window that is lent to a writer of at most `n` bytes. -/
def window (b : Buffer) (n : Nat) : Window := b.queue.window n

/-- Commits the bytes written into the window for at most `n` bytes. -/
def fill (b : Buffer) (n : Nat) (data : Bytes) : Buffer :=
  ⟨b.queue.fill n (data.take (b.window n).size), b.wellFormed.fill (by rw [List.length_take]; exact Nat.min_le_left ..)⟩

/-- Two buffers hold the same bytes, whatever their segments. -/
def sameBytes (a b : Buffer) : Bool := a.toList == b.toList

/-- A short description: the number of bytes and of segments. -/
def describe (b : Buffer) : String :=
  s!"Buffer \x7b len: {b.length}, segments: {b.segmentCount} \x7d"

/-! ### Requests that can ask too much -/

/-- A request that a buffer cannot serve. -/
inductive Fault where
  | skip (asked held : Nat)
  | copy (asked held : Nat)
  | move (asked held : Nat)
  | commit (written exposed : Nat)
  | consume (consumed readable : Nat)
deriving DecidableEq, Repr

/-- What is reported of a fault. -/
def Fault.message : Fault → String
  | .skip n held => s!"cannot skip {n} bytes of a buffer holding {held} bytes"
  | .copy n held => s!"cannot copy {n} bytes out of a buffer holding {held} bytes"
  | .move n held => s!"cannot move {n} bytes out of a buffer holding {held} bytes"
  | .commit n exposed => s!"committed {n} bytes but the cursor only exposed {exposed} bytes"
  | .consume n readable => s!"consumed {n} bytes but only {readable} bytes were readable"

/-- Discards the first `n` bytes. -/
def skip (b : Buffer) (n : Nat) : Except Fault Buffer :=
  if n ≤ b.length then .ok (b.drop n) else .error (.skip n b.length)

/-- Takes the first `n` bytes. -/
def copyOut (b : Buffer) (n : Nat) : Except Fault (Bytes × Buffer) :=
  if n ≤ b.length then .ok (b.take n, b.drop n) else .error (.copy n b.length)

/-- Hands the first `n` bytes over to `target`: the new target and what is left. -/
def transfer (b : Buffer) (n : Nat) (target : Buffer) : Except Fault (Buffer × Buffer) :=
  if n ≤ b.length then .ok (b.moveTo n target) else .error (.move n b.length)

/-- Lends a window for at most `n` bytes to `write`, which leaves the window's memory behind and says how many bytes of
it, from the front, are written.  These are committed; if `write` fails, nothing is.  No window is lent for `n = 0`. -/
def writeWith {ε : Type} (b : Buffer) (n : Nat) (write : (w : Window) → Except ε (Vector UInt8 w.size × Nat)) :
    Except Fault (Except ε Nat × Buffer) :=
  if n = 0 then .ok (.ok 0, b)
  else match write (b.window n) with
    | .error e => .ok (.error e, b)
    | .ok (memory, written) =>
      if written ≤ (b.window n).size then .ok (.ok written, b.fill n (memory.toList.take written))
      else .error (.commit written (b.window n).size)

/-- Shows the bytes of the first segment to `read`, which says how many of them are used.  These are consumed; if
`read` fails, nothing is.  Nothing is shown of an empty buffer. -/
def readWith {ε : Type} (b : Buffer) (read : Bytes → Except ε Nat) : Except Fault (Except ε Nat × Buffer) :=
  if b.isEmpty then .ok (.ok 0, b)
  else match read b.head with
    | .error e => .ok (.error e, b)
    | .ok consumed =>
      if consumed ≤ b.head.length then .ok (.ok consumed, b.dropHead consumed)
      else .error (.consume consumed b.head.length)

/-! ### The bytes after each operation -/

@[simp] theorem length_toList (b : Buffer) : b.toList.length = b.length :=
  (SegmentQueue.wellFormed_iff.1 b.wellFormed).2.symm

@[simp] theorem toList_empty : empty.toList = [] := rfl

@[simp] theorem length_empty : empty.length = 0 := rfl

theorem length_eq_zero_iff {b : Buffer} : b.length = 0 ↔ b.toList = [] := by
  rw [← length_toList, List.length_eq_zero_iff]

theorem isEmpty_iff {b : Buffer} : b.isEmpty ↔ b.toList = [] := by
  rw [← length_eq_zero_iff, isEmpty, beq_iff_eq]

theorem flatten_pieces (b : Buffer) : b.pieces.flatten = b.toList := by
  simp [pieces, toList, SegmentQueue.toList, readable, List.flatMap]

@[simp] theorem toList_append (b : Buffer) (data : Bytes) : (b.append data).toList = b.toList ++ data :=
  SegmentQueue.toList_append ..

@[simp] theorem length_append (b : Buffer) (data : Bytes) : (b.append data).length = b.length + data.length := rfl

@[simp] theorem toList_ofList (data : Bytes) : (ofList data).toList = data := by simp [ofList]

@[simp] theorem length_ofList (data : Bytes) : (ofList data).length = data.length := by simp [ofList]

@[simp] theorem toList_push (b : Buffer) (byte : UInt8) : (b.push byte).toList = b.toList ++ [byte] := by
  simp [push]

theorem popFront_eq_some {b c : Buffer} {byte : UInt8} (h : b.popFront = some (byte, c)) :
    b.toList = byte :: c.toList := by
  unfold popFront at h
  split at h
  · simp at h
  · rename_i hq
    simp only [Option.some.injEq, Prod.mk.injEq] at h
    obtain ⟨rfl, rfl⟩ := h
    exact (SegmentQueue.popFront_eq_some hq).1

theorem popFront_eq_none_iff {b : Buffer} : b.popFront = none ↔ b.toList = [] := by
  refine ⟨fun h => ?_, fun h => ?_⟩
  · unfold popFront at h
    split at h
    · rename_i hq; exact SegmentQueue.popFront_eq_none b.wellFormed hq
    · simp at h
  · rcases hp : b.popFront with _ | ⟨byte, c⟩
    · rfl
    · rw [popFront_eq_some hp] at h; simp at h

@[simp] theorem toList_drop (b : Buffer) (n : Nat) : (b.drop n).toList = b.toList.drop n :=
  SegmentQueue.toList_drop ..

@[simp] theorem length_drop (b : Buffer) (n : Nat) : (b.drop n).length = b.length - n := rfl

@[simp] theorem length_take (b : Buffer) (n : Nat) : (b.take n).length = min n b.length := by
  rw [take, List.length_take, length_toList]

theorem head_isPrefix (b : Buffer) : b.toList = b.head ++ b.toList.drop b.head.length := by
  unfold head SegmentQueue.head toList SegmentQueue.toList
  split
  · rename_i h; simp [h]
  · rename_i s row h; simp [h]

theorem length_head_le (b : Buffer) : b.head.length ≤ b.length := by
  have := congrArg List.length b.head_isPrefix
  rw [List.length_append, length_toList] at this
  omega

theorem head_eq_nil_iff {b : Buffer} : b.head = [] ↔ b.toList = [] := by
  refine ⟨fun h => ?_, fun h => ?_⟩
  · unfold head SegmentQueue.head at h
    split at h
    · rename_i hs; simp [toList, SegmentQueue.toList, hs]
    · rename_i s row hs; exact absurd h (b.wellFormed.1 s (by simp [hs])).1
  · have := b.head_isPrefix
    rw [h] at this
    exact (List.append_eq_nil_iff.1 this.symm).1

@[simp] theorem toList_dropHead (b : Buffer) (n : Nat) :
    (b.dropHead n).toList = b.toList.drop (min n b.head.length) :=
  SegmentQueue.toList_dropHead (Nat.min_le_right ..)

theorem length_dropHead (b : Buffer) (n : Nat) :
    (b.dropHead n).length = b.length - min n b.head.length := by
  rw [← length_toList, toList_dropHead, List.length_drop, length_toList]

@[simp] theorem toList_moveTo_fst (b : Buffer) (n : Nat) (target : Buffer) :
    (b.moveTo n target).1.toList = target.toList ++ b.toList.take n := by
  show (b.queue.moveTo (min n b.length) target.queue).1.toList = _
  rw [(SegmentQueue.toList_moveTo ..).1, ← length_toList]
  show target.toList ++ b.toList.take (min n b.toList.length) = _
  rw [← List.take_eq_take_min]

@[simp] theorem toList_moveTo_snd (b : Buffer) (n : Nat) (target : Buffer) :
    (b.moveTo n target).2.toList = b.toList.drop n := by
  show (b.queue.moveTo (min n b.length) target.queue).2.toList = _
  rw [(SegmentQueue.toList_moveTo ..).2, ← length_toList]
  show b.toList.drop _ = _
  rcases Nat.le_total n b.toList.length with h | h
  · rw [Nat.min_eq_left h]
  · rw [Nat.min_eq_right h, List.drop_length, List.drop_eq_nil_of_le h]

@[simp] theorem length_moveTo_fst (b : Buffer) (n : Nat) (target : Buffer) :
    (b.moveTo n target).1.length = target.length + min n b.length := rfl

@[simp] theorem length_moveTo_snd (b : Buffer) (n : Nat) (target : Buffer) :
    (b.moveTo n target).2.length = b.length - n := by
  rw [← length_toList, toList_moveTo_snd, List.length_drop, length_toList]

@[simp] theorem size_window (b : Buffer) (n : Nat) : (b.window n).size = min n segmentSize :=
  (SegmentQueue.size_window ..).1

@[simp] theorem toList_fill (b : Buffer) (n : Nat) (data : Bytes) :
    (b.fill n data).toList = b.toList ++ data.take (min n segmentSize) := by
  show (b.queue.fill n (data.take (b.window n).size)).toList = _
  rw [SegmentQueue.toList_fill (by rw [List.length_take]; exact Nat.min_le_left ..), size_window]; rfl

theorem length_fill (b : Buffer) (n : Nat) (data : Bytes) :
    (b.fill n data).length = b.length + min (min n segmentSize) data.length := by
  rw [← length_toList, toList_fill, List.length_append, List.length_take, length_toList]

@[simp] theorem fill_nil (b : Buffer) (n : Nat) : b.fill n [] = b := by
  simp [fill, SegmentQueue.fill]

theorem sameBytes_iff {a b : Buffer} : a.sameBytes b ↔ a.toList = b.toList := by simp [sameBytes]

end Buffer

end Conduit
