import Conduit.Buffer.Segment

/-!
# Segment queues

A segment queue is a row of segments together with the number of its readable bytes, which the operations keep up to
date by themselves.  `WellFormed` says that this number is right and that every segment is valid; every operation
keeps it (`WellFormed.append`, …, `WellFormed.fill`).
-/

namespace Conduit

/-- A row of segments, the oldest first, and the number of readable bytes in it. -/
structure SegmentQueue where
  segments : List Segment
  length : Nat
deriving DecidableEq, Repr

/-- The part `start..stop` of a segment, lent to be written. -/
structure Window where
  start : Nat
  stop : Nat
deriving DecidableEq, Repr

/-- The number of bytes that a window shows. -/
def Window.size (w : Window) : Nat := w.stop - w.start

namespace SegmentQueue

def empty : SegmentQueue := ⟨[], 0⟩

/-- The readable bytes, in order. -/
def toList (q : SegmentQueue) : Bytes := readable q.segments

/-- Every segment is valid and the length is the number of readable bytes. -/
def WellFormed (q : SegmentQueue) : Prop := RowValid q.segments ∧ q.length = q.toList.length

/-- Writes `data` behind the last byte. -/
def append (q : SegmentQueue) (data : Bytes) : SegmentQueue :=
  ⟨appendBytes data q.segments, q.length + data.length⟩

/-- Takes the first byte. -/
def popFront (q : SegmentQueue) : Option (UInt8 × SegmentQueue) :=
  match q.segments with
  | ⟨start, byte :: bytes⟩ :: row =>
    some (byte, ⟨if bytes = [] then row else ⟨start + 1, bytes⟩ :: row, q.length - 1⟩)
  | _ => none

/-- Consumes the first `n` bytes. -/
def drop (q : SegmentQueue) (n : Nat) : SegmentQueue := ⟨dropFront n q.segments, q.length - n⟩

/-- Consumes `n` bytes of the first segment. -/
def dropHead (q : SegmentQueue) (n : Nat) : SegmentQueue :=
  match q.segments with
  | [] => q
  | s :: row => ⟨if n < s.bytes.length then s.drop n :: row else row, q.length - n⟩

/-- Hands the first `n` bytes of `q` over to `target`: the new target and what is left of `q`. -/
def moveTo (q : SegmentQueue) (n : Nat) (target : SegmentQueue) : SegmentQueue × SegmentQueue :=
  let rows := handOver n target.segments q.segments
  (⟨rows.1, target.length + n⟩, ⟨rows.2, q.length - n⟩)

/-- The window that is lent to a writer of at most `n` bytes: the spare part of the last segment if that holds `n`
bytes or is a whole segment, else the front of a new one. -/
def window (q : SegmentQueue) (n : Nat) : Window :=
  let spare := if min n segmentSize ≤ room q.segments then room q.segments else segmentSize
  ⟨segmentSize - spare, segmentSize - spare + min spare n⟩

/-- Commits `data`, written into the window for at most `n` bytes.  A new segment stays only if it holds a byte. -/
def fill (q : SegmentQueue) (n : Nat) (data : Bytes) : SegmentQueue :=
  if data = [] then q
  else if min n segmentSize ≤ room q.segments then ⟨extendLast data q.segments, q.length + data.length⟩
  else ⟨q.segments ++ [⟨0, data⟩], q.length + data.length⟩

/-! ### Well-formedness -/

theorem wellFormed_iff {q : SegmentQueue} : q.WellFormed ↔ RowValid q.segments ∧ q.length = q.toList.length := .rfl

instance (q : SegmentQueue) : Decidable q.WellFormed :=
  inferInstanceAs (Decidable ((∀ s ∈ q.segments, s.Valid) ∧ _))

theorem WellFormed.empty : WellFormed .empty := by decide

@[simp] theorem toList_append (q : SegmentQueue) (data : Bytes) : (q.append data).toList = q.toList ++ data :=
  readable_appendBytes ..

theorem WellFormed.append {q : SegmentQueue} (h : q.WellFormed) (data : Bytes) : (q.append data).WellFormed := by
  rw [wellFormed_iff] at *
  exact ⟨h.1.appendBytes data, by rw [toList_append, List.length_append, ← h.2]; rfl⟩

theorem popFront_eq_some {q r : SegmentQueue} {b : UInt8} (h : q.popFront = some (b, r)) :
    q.toList = b :: r.toList ∧ (q.WellFormed → r.WellFormed) := by
  unfold popFront at h
  split at h
  · rename_i start byte bytes row hs
    simp only [Option.some.injEq, Prod.mk.injEq] at h
    obtain ⟨rfl, rfl⟩ := h
    have hr : readable (if bytes = [] then row else ⟨start + 1, bytes⟩ :: row) = bytes ++ readable row := by
      split
      · rename_i hb; subst hb; rfl
      · rfl
    have hl : q.toList = byte :: (bytes ++ readable row) := by simp [toList, hs]
    refine ⟨by rw [hl, toList, hr], fun hq => ?_⟩
    rw [wellFormed_iff] at *
    rw [hl, List.length_cons] at hq
    refine ⟨?_, by rw [toList, hr]; simp only; omega⟩
    have hv : (⟨start, byte :: bytes⟩ : Segment).Valid := hq.1 _ (by simp [hs])
    have hrow : RowValid row := fun s hm => hq.1 s (by simp [hs, hm])
    simp only
    split
    · exact hrow
    · rename_i hb
      refine fun s hm => ?_
      rcases List.mem_cons.1 hm with rfl | hm
      · exact hv.drop (n := 1) (by
          have := List.length_pos_iff.2 hb
          simp only [List.length_cons]; omega)
      · exact hrow s hm
  · simp at h

theorem popFront_eq_none {q : SegmentQueue} (hq : q.WellFormed) (h : q.popFront = none) : q.toList = [] := by
  unfold popFront at h
  split at h
  · simp at h
  · rename_i hs
    rcases hseg : q.segments with _ | ⟨⟨start, _ | ⟨b, bytes⟩⟩, row⟩
    · simp [toList, hseg]
    · have hv := hq.1 ⟨start, []⟩ (by simp [hseg])
      exact absurd rfl hv.1
    · exact (hs _ _ _ _ hseg).elim

@[simp] theorem toList_drop (q : SegmentQueue) (n : Nat) : (q.drop n).toList = q.toList.drop n :=
  readable_dropFront ..

theorem WellFormed.drop {q : SegmentQueue} (h : q.WellFormed) (n : Nat) : (q.drop n).WellFormed := by
  rw [wellFormed_iff] at *
  exact ⟨h.1.dropFront n, by rw [toList_drop, List.length_drop, ← h.2]; rfl⟩

/-- The readable bytes of the first segment. -/
def head (q : SegmentQueue) : Bytes :=
  match q.segments with
  | [] => []
  | s :: _ => s.bytes

theorem toList_dropHead {q : SegmentQueue} {n : Nat} (hn : n ≤ q.head.length) :
    (q.dropHead n).toList = q.toList.drop n := by
  unfold dropHead
  split
  · rename_i h; simp [toList, h]
  · rename_i s row h
    have hn : n ≤ s.bytes.length := by simpa [head, h] using hn
    simp only [toList, h, readable_cons]
    rw [List.drop_append_of_le_length hn]
    split
    · rfl
    · rw [List.drop_eq_nil_of_le (by omega), List.nil_append]

theorem WellFormed.dropHead {q : SegmentQueue} (h : q.WellFormed) {n : Nat} (hn : n ≤ q.head.length) :
    (q.dropHead n).WellFormed := by
  rw [wellFormed_iff, toList_dropHead hn] at *
  refine ⟨?_, ?_⟩
  · unfold SegmentQueue.dropHead
    split
    · exact h.1
    · rename_i s row hs
      simp only
      split
      · rename_i hlt
        intro t ht
        rcases List.mem_cons.1 ht with rfl | ht
        · exact (h.1 s (by simp [hs])).drop hlt
        · exact h.1 t (by simp [hs, ht])
      · exact fun t ht => h.1 t (by simp [hs, ht])
  · rw [List.length_drop, ← h.2]
    unfold SegmentQueue.dropHead
    split
    · rename_i hs
      simp only [head, hs, List.length_nil, Nat.le_zero_eq] at hn
      omega
    · rfl

theorem toList_moveTo (q : SegmentQueue) (n : Nat) (target : SegmentQueue) :
    (q.moveTo n target).1.toList = target.toList ++ q.toList.take n ∧
      (q.moveTo n target).2.toList = q.toList.drop n :=
  readable_handOver ..

theorem WellFormed.moveTo {q target : SegmentQueue} (h : q.WellFormed) (ht : target.WellFormed) {n : Nat}
    (hn : n ≤ q.length) : (q.moveTo n target).1.WellFormed ∧ (q.moveTo n target).2.WellFormed := by
  obtain ⟨h₁, h₂⟩ := toList_moveTo q n target
  rw [wellFormed_iff] at *
  rw [wellFormed_iff, h₁, h₂, List.length_append, List.length_take, List.length_drop, ← h.2, ← ht.2,
    Nat.min_eq_left hn]
  obtain ⟨v₁, v₂⟩ := ht.1.handOver h.1 n
  exact ⟨⟨v₁, rfl⟩, ⟨v₂, rfl⟩⟩

theorem room_le (row : List Segment) : room row ≤ segmentSize := by
  rcases List.eq_nil_or_concat row with rfl | ⟨row, s, rfl⟩
  · exact Nat.zero_le _
  · rw [List.concat_eq_append, room_append_singleton, Segment.spare]; omega

/-- A window shows exactly the bytes asked for, up to a whole segment, and ends inside its segment. -/
theorem size_window (q : SegmentQueue) (n : Nat) :
    (q.window n).size = min n segmentSize ∧ (q.window n).stop ≤ segmentSize := by
  have := room_le q.segments
  unfold window Window.size
  simp only
  split <;> omega

theorem toList_fill {q : SegmentQueue} {n : Nat} {data : Bytes} (h : data.length ≤ (q.window n).size) :
    (q.fill n data).toList = q.toList ++ data := by
  unfold fill
  split
  · rename_i hd; simp [hd]
  · rename_i hd
    have hpos := List.length_pos_iff.2 hd
    rw [(size_window q n).1] at h
    split
    · exact readable_extendLast (.inl (ne_nil_of_room_pos (by omega)))
    · simp [toList]

theorem WellFormed.fill {q : SegmentQueue} (hq : q.WellFormed) {n : Nat} {data : Bytes}
    (h : data.length ≤ (q.window n).size) : (q.fill n data).WellFormed := by
  rw [wellFormed_iff, toList_fill h, List.length_append]
  rw [wellFormed_iff] at hq
  rw [(size_window q n).1] at h
  unfold SegmentQueue.fill
  split
  · rename_i hd; simpa [hd] using hq
  · rename_i hd
    split
    · exact ⟨hq.1.extendLast (by omega), by rw [← hq.2]⟩
    · refine ⟨hq.1.append fun s hs => ?_, by rw [← hq.2]⟩
      rw [List.mem_singleton.1 hs]
      exact ⟨hd, by simp only [Segment.stop]; omega⟩

end SegmentQueue

end Conduit
