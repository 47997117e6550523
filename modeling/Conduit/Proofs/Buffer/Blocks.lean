import Conduit.Buffer.Basic

/-!
# Segment queues in memory

A block is the memory of a segment with the two offsets `start` and `stop` into it; a block queue keeps blocks and a
number of readable bytes, as a segment queue keeps segments.  Everything here is checked: a part that is not inside a
memory, a difference that would be negative, a demand that a helper does not allow and a round of a loop that gets
nowhere end in `Trap.misuse`, and nothing is assumed of the offsets.

`Block.Sound` is what a block must satisfy for its own operations to be those of the segment that it shows
(`Sound.push_eq`, `Sound.consume_eq`).
-/

namespace Conduit

/-- Why an operation does not come to an end. -/
inductive Trap where
  /-- More is asked for than there is. -/
  | fault (f : Buffer.Fault)
  | misuse
deriving DecidableEq, Repr

/-! ### Checked operations -/

/-- The difference of two numbers. -/
def minus (m n : Nat) : Except Trap Nat := if n ≤ m then .ok (m - n) else .error .misuse

/-- The part `start..stop` of a memory. -/
def slice (memory : Bytes) (start stop : Nat) : Except Trap Bytes :=
  if start ≤ stop ∧ stop ≤ memory.length then .ok ((memory.take stop).drop start) else .error .misuse

/-- Copies `data` over the part of a memory that begins at `start` and is as long. -/
def overwrite (memory : Bytes) (start : Nat) (data : Bytes) : Except Trap Bytes :=
  if start + data.length ≤ memory.length then
    .ok (memory.take start ++ data ++ memory.drop (start + data.length))
  else .error .misuse

theorem minus_of_le {m n : Nat} (h : n ≤ m) : minus m n = .ok (m - n) := if_pos h

theorem slice_of_le {memory : Bytes} {start stop : Nat} (h : start ≤ stop) (h' : stop ≤ memory.length) :
    slice memory start stop = .ok ((memory.take stop).drop start) := if_pos ⟨h, h'⟩

theorem slice_zero {memory : Bytes} {n : Nat} (h : n ≤ memory.length) : slice memory 0 n = .ok (memory.take n) :=
  slice_of_le (Nat.zero_le n) h

/-- A copy changes no length, and leaves the bytes before it as they are. -/
theorem overwrite_of_le {memory data : Bytes} {start : Nat} (h : start + data.length ≤ memory.length) :
    ∃ memory', overwrite memory start data = .ok memory' ∧ memory'.length = memory.length ∧
      memory'.take (start + data.length) = memory.take start ++ data := by
  refine ⟨_, if_pos h, ?_, ?_⟩
  · simp only [List.length_append, List.length_take, List.length_drop]
    omega
  · apply List.take_left'
    rw [List.length_append, List.length_take]
    omega

@[simp] theorem ok_bind {α β : Type} (a : α) (f : α → Except Trap β) : (Except.ok a >>= f) = f a := rfl

/-! ### Blocks -/

/-- The memory of a segment.  The bytes at `start..stop` are readable, those behind `stop` are spare. -/
structure Block where
  memory : Bytes
  start : Nat
  stop : Nat
deriving DecidableEq, Repr

namespace Block

/-- A block that nothing is written to yet. -/
def fresh : Block := ⟨List.replicate segmentSize 0, 0, 0⟩

def readable (b : Block) : Except Trap Bytes := slice b.memory b.start b.stop

def length (b : Block) : Except Trap Nat := minus b.stop b.start

def isEmpty (b : Block) : Bool := b.start == b.stop

def spare (b : Block) : Except Trap Nat := minus b.memory.length b.stop

/-- The block with `data` written behind its readable bytes. -/
def extend (b : Block) (data : Bytes) : Block :=
  ⟨b.memory.take b.stop ++ data ++ b.memory.drop (b.stop + data.length), b.start, b.stop + data.length⟩

/-- Writes as much of `data` as fits behind the readable bytes, and tells how much. -/
def push (b : Block) (data : Bytes) : Except Trap (Nat × Block) := do
  let count := min (← b.spare) data.length
  let memory ← overwrite b.memory b.stop (← slice data 0 count)
  return (count, { b with memory := memory, stop := b.stop + count })

/-- The block with its first `n` readable bytes consumed. -/
def drop (b : Block) (n : Nat) : Block := { b with start := b.start + n }

/-- Consumes the first `n` readable bytes. -/
def consume (b : Block) (n : Nat) : Except Trap Block := do
  if n ≤ (← b.length) then return { b with start := b.start + n } else .error .misuse

/-- The part of the spare memory that is lent to a writer of at most `n` bytes. -/
def window (b : Block) (n : Nat) : Except Trap Window := do
  let stop := b.stop + min (← b.spare) n
  let _ ← slice b.memory b.stop stop
  return ⟨b.stop, stop⟩

/-- The segment that a block shows. -/
def segment (b : Block) : Segment := ⟨b.start, (b.memory.take b.stop).drop b.start⟩

/-- The readable part is a part of the memory, and the memory has the size of a segment. -/
structure Sound (b : Block) : Prop where
  start_le : b.start ≤ b.stop
  stop_le : b.stop ≤ b.memory.length
  size : b.memory.length = segmentSize

theorem Sound.fresh : Sound fresh := ⟨Nat.le_refl 0, Nat.zero_le _, List.length_replicate ..⟩

section

variable {b : Block} (h : b.Sound)

include h

theorem Sound.length_bytes : b.segment.bytes.length = b.stop - b.start := by
  rw [segment, List.length_drop, List.length_take, Nat.min_eq_left h.stop_le]

theorem Sound.stop_segment : b.segment.stop = b.stop := by
  have := h.start_le
  rw [Segment.stop, h.length_bytes]
  show b.start + (b.stop - b.start) = b.stop
  omega

theorem Sound.readable_eq : b.readable = .ok b.segment.bytes := slice_of_le h.start_le h.stop_le

theorem Sound.length_eq : b.length = .ok b.segment.bytes.length := by
  rw [h.length_bytes]
  exact minus_of_le h.start_le

theorem Sound.isEmpty_iff : b.isEmpty ↔ b.segment.bytes = [] := by
  have := h.start_le
  rw [← List.length_eq_zero_iff, h.length_bytes, isEmpty, beq_iff_eq]
  omega

theorem Sound.spare_segment : b.segment.spare = b.memory.length - b.stop := by
  rw [Segment.spare, h.stop_segment, h.size]

theorem Sound.spare_eq : b.spare = .ok b.segment.spare := by
  rw [h.spare_segment]
  exact minus_of_le h.stop_le

theorem Sound.window_eq (n : Nat) : b.window n = .ok ⟨b.stop, b.stop + min b.segment.spare n⟩ := by
  have hspare := h.spare_segment
  have := h.stop_le
  simp only [window, h.spare_eq, ok_bind]
  rw [slice_of_le (by omega) (by omega)]
  rfl

/-- Writing behind `stop` shows the segment with the bytes pushed.  The bytes `rest` that are written as well, but not
made readable, are not seen. -/
theorem Sound.write (data rest : Bytes) (hle : b.stop + (data ++ rest).length ≤ b.memory.length) :
    ∃ memory, overwrite b.memory b.stop (data ++ rest) = .ok memory ∧
      Sound ⟨memory, b.start, b.stop + data.length⟩ ∧
        segment ⟨memory, b.start, b.stop + data.length⟩ = b.segment.push data := by
  obtain ⟨memory, hm, hlength, htake⟩ := overwrite_of_le hle
  have hstart := h.start_le
  rw [List.length_append] at hle htake
  refine ⟨memory, hm, ⟨?_, ?_, hlength.trans h.size⟩, ?_⟩
  · simp only
    omega
  · rw [hlength]
    simp only
    omega
  · have hstop : (b.memory.take b.stop).length = b.stop := by rw [List.length_take]; omega
    have hread : memory.take (b.stop + data.length) = b.memory.take b.stop ++ data := by
      have := congrArg (List.take (b.stop + data.length)) htake
      rw [List.take_take, Nat.min_eq_left (by omega)] at this
      rw [this, ← List.append_assoc, List.take_left' (by rw [List.length_append, hstop])]
    simp only [segment, Segment.push, Segment.mk.injEq, true_and]
    rw [hread, List.drop_append_of_le_length (by omega)]

theorem Sound.push_eq (data : Bytes) :
    b.push data = .ok (min b.segment.spare data.length, b.extend (data.take b.segment.spare)) ∧
      (b.extend (data.take b.segment.spare)).Sound ∧
        (b.extend (data.take b.segment.spare)).segment = b.segment.push (data.take b.segment.spare) := by
  have hlen : (data.take b.segment.spare).length = min b.segment.spare data.length := List.length_take
  have hspare := h.spare_segment
  have hfit : b.stop + (data.take b.segment.spare ++ []).length ≤ b.memory.length := by
    have := h.stop_le
    rw [List.append_nil]
    omega
  obtain ⟨memory, hm, hwrite⟩ := h.write _ [] hfit
  rw [List.append_nil] at hm hfit
  have hextend : b.extend (data.take b.segment.spare) = ⟨memory, b.start, b.stop + (data.take b.segment.spare).length⟩ := by
    rw [overwrite, if_pos hfit] at hm
    rw [extend, Except.ok.inj hm]
  rw [hextend]
  refine ⟨?_, hwrite⟩
  simp only [push, h.spare_eq, ok_bind]
  rw [slice_zero (Nat.min_le_right ..), ok_bind, ← List.take_eq_take_min, hm, ok_bind, hlen]
  rfl

theorem Sound.consume_eq {n : Nat} (hn : n ≤ b.segment.bytes.length) :
    b.consume n = .ok (b.drop n) ∧ (b.drop n).Sound ∧ (b.drop n).segment = b.segment.drop n ∧
      ((b.drop n).isEmpty ↔ b.segment.bytes.length ≤ n) := by
  have hsound : (b.drop n).Sound := by
    have := h.start_le
    rw [h.length_bytes] at hn
    exact ⟨by simp only [drop]; omega, h.stop_le, h.size⟩
  have hsegment : (b.drop n).segment = b.segment.drop n := by
    simp [drop, segment, Segment.drop, List.drop_drop]
  refine ⟨?_, hsound, hsegment, ?_⟩
  · rw [consume, h.length_eq, ok_bind, if_pos hn]
    rfl
  · rw [hsound.isEmpty_iff, hsegment, Segment.drop, List.drop_eq_nil_iff]

end

end Block

/-! ### Queues of blocks -/

/-- A row of blocks, the oldest first, and the number of readable bytes in it. -/
structure BlockQueue where
  blocks : List Block
  length : Nat
deriving DecidableEq, Repr

namespace BlockQueue

def empty : BlockQueue := ⟨[], 0⟩

/-- The last block of a row if it has room for `n` bytes, else a new one, and the blocks before it. -/
def tailFor (n : Nat) (row : List Block) : Except Trap (List Block × Block) :=
  if 0 < n ∧ n ≤ segmentSize then
    match row.getLast? with
    | none => .ok (row, .fresh)
    | some tail => do
      if (← tail.spare) < n then return (row, .fresh) else return (row.dropLast, tail)
  else .error .misuse

/-- One round of `put`: writes as much of `data` as the last block takes, and tells how much. -/
def putSome (q : BlockQueue) (data : Bytes) : Except Trap (Nat × BlockQueue) := do
  let (row, tail) ← tailFor 1 q.blocks
  let (count, tail) ← tail.push data
  return (count, ⟨row ++ [tail], q.length + count⟩)

/-- Writes `data` behind the last byte. -/
def put (q : BlockQueue) (data : Bytes) : Except Trap BlockQueue :=
  if data = [] then .ok q
  else do
    let (count, q) ← q.putSome data
    if _h : 0 < count ∧ count ≤ data.length then put q (data.drop count) else .error .misuse
termination_by data.length
decreasing_by rw [List.length_drop]; omega

/-- Takes the first byte. -/
def popFront (q : BlockQueue) : Except Trap (Option UInt8 × BlockQueue) :=
  match q.blocks with
  | [] => .ok (none, q)
  | head :: row => do
    match ← head.readable with
    | [] => .error .misuse
    | byte :: _ =>
      let head ← head.consume 1
      let length ← minus q.length 1
      return (some byte, ⟨if head.isEmpty then row else head :: row, length⟩)

/-- Consumes the first `n` bytes, block by block. -/
def discard : Nat → List Block → Except Trap (List Block)
  | _, [] => .ok []
  | n, head :: row =>
    if 0 < n then do
      let step := min (← head.length) n
      let head ← head.consume step
      let n ← minus n step
      if head.isEmpty then discard n row
      else if 0 < n then .error .misuse else return head :: row
    else .ok (head :: row)

/-- Discards the first `n` bytes. -/
def skip (q : BlockQueue) (n : Nat) : Except Trap BlockQueue :=
  if n ≤ q.length then do
    let length ← minus q.length n
    let row ← discard n q.blocks
    return ⟨row, length⟩
  else .error (.fault (.skip n q.length))

/-- Copies the first bytes over those of `room` from `filled` on, block by block, and consumes them. -/
def copyFront (room : Bytes) (filled : Nat) : List Block → Except Trap (Bytes × Nat × List Block)
  | [] => .ok (room, filled, [])
  | head :: row =>
    if filled < room.length then do
      let step := min (← head.length) (← minus room.length filled)
      let room ← overwrite room filled (← slice (← head.readable) 0 step)
      let head ← head.consume step
      let filled := filled + step
      if head.isEmpty then copyFront room filled row
      else if filled < room.length then .error .misuse else return (room, filled, head :: row)
    else .ok (room, filled, head :: row)

/-- Fills `room` with the first bytes. -/
def copyOut (q : BlockQueue) (room : Bytes) : Except Trap (Bytes × BlockQueue) :=
  if room.length ≤ q.length then do
    let (room, filled, row) ← copyFront room 0 q.blocks
    let length ← minus q.length filled
    return (room, ⟨row, length⟩)
  else .error (.fault (.copy room.length q.length))

/-- Puts a whole block behind the row, or copies a short one into the last block if it fits there. -/
def link (q : BlockQueue) (b : Block) : Except Trap BlockQueue := do
  let size ← b.length
  match q.blocks.getLast? with
  | none => return ⟨q.blocks ++ [b], q.length + size⟩
  | some tail =>
    if size < compactionThreshold then
      if size ≤ (← tail.spare) then
        let (_, tail) ← tail.push (← b.readable)
        return ⟨q.blocks.dropLast ++ [tail], q.length + size⟩
      else return ⟨q.blocks ++ [b], q.length + size⟩
    else return ⟨q.blocks ++ [b], q.length + size⟩

/-- Hands the first `n` bytes of a row of blocks with `length` bytes over to `target`: the new target and what is left. -/
def handOver (n : Nat) (target : BlockQueue) : List Block → Nat → Except Trap (BlockQueue × BlockQueue)
  | [], length => .ok (target, ⟨[], length⟩)
  | head :: row, length =>
    if 0 < n then do
      let size ← head.length
      if size ≤ n then
        let length ← minus length size
        let n ← minus n size
        let target ← target.link head
        handOver n target row length
      else
        let target ← target.put (← slice (← head.readable) 0 n)
        let head ← head.consume n
        let length ← minus length n
        return (target, ⟨head :: row, length⟩)
    else .ok (target, ⟨head :: row, length⟩)

/-- Hands the first `n` bytes over to `target`: the new target and what is left. -/
def transfer (q : BlockQueue) (n : Nat) (target : BlockQueue) : Except Trap (BlockQueue × BlockQueue) :=
  if n ≤ q.length then handOver n target q.blocks q.length else .error (.fault (.move n q.length))

/-- The row without its last block if that is empty. -/
def release (row : List Block) : List Block :=
  match row.getLast? with
  | none => row
  | some tail => if tail.isEmpty then row.dropLast else row

/-- Lends a part of the last block's memory to `write`, which leaves bytes in it and says how many of them, from the
front, are written.  If it fails, none is.  A new block that nothing is written to is released. -/
def writeWith {ε : Type} (q : BlockQueue) (n : Nat) (write : (w : Window) → Vector UInt8 w.size × Except ε Nat) :
    Except Trap (Except ε Nat × BlockQueue) :=
  if n = 0 then .ok (.ok 0, q)
  else do
    let (row, tail) ← tailFor (min n segmentSize) q.blocks
    let w ← tail.window n
    let memory ← overwrite tail.memory w.start (write w).1.toList
    match (write w).2 with
    | .error e => return (.error e, ⟨release (row ++ [{ tail with memory := memory }]), q.length⟩)
    | .ok written =>
      if written ≤ w.size then
        return (.ok written,
          ⟨release (row ++ [{ tail with memory := memory, stop := tail.stop + written }]), q.length + written⟩)
      else .error (.fault (.commit written w.size))

/-- Shows the readable bytes of the first block to `read`, which says how many of them are used. -/
def readWith {ε : Type} (q : BlockQueue) (read : Bytes → Except ε Nat) : Except Trap (Except ε Nat × BlockQueue) :=
  match q.blocks with
  | [] => .ok (.ok 0, q)
  | head :: row => do
    let readable ← head.length
    match read (← head.readable) with
    | .error e => return (.error e, q)
    | .ok consumed =>
      if consumed ≤ readable then
        let head ← head.consume consumed
        let length ← minus q.length consumed
        return (.ok consumed, ⟨if head.isEmpty then row else head :: row, length⟩)
      else .error (.fault (.consume consumed readable))

/-- The readable bytes, block by block. -/
def pieces (q : BlockQueue) : Except Trap (List Bytes) := q.blocks.mapM Block.readable

/-- A copy of the readable bytes. -/
def toList (q : BlockQueue) : Except Trap Bytes := return (← q.pieces).flatten

/-- Compares two queues by their lengths and then byte by byte, as far as both go. -/
def agrees (q r : BlockQueue) : Except Trap Bool := do
  if q.length = r.length then
    let x ← q.pieces
    let y ← r.pieces
    return (x.flatten.zip y.flatten).all fun p => p.1 == p.2
  else return false

/-- The segment queue that a block queue shows. -/
def queue (q : BlockQueue) : SegmentQueue := ⟨q.blocks.map Block.segment, q.length⟩

end BlockQueue

end Conduit
