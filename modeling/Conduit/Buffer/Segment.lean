import Conduit.Bytes

/-!
# Segments

A segment is one block of `segmentSize` bytes that is written from its front and read from its front.  The bytes at
`start..stop` are readable, those behind `stop` are spare; what was read is never written again, so a segment that is
drained from the front keeps its spare room and nothing more.

The operations that follow act on a row of segments, the oldest first: `room` and `extendLast` on the last of them,
`dropFront` on the first ones.
-/

namespace Conduit

/-- The size of a segment in bytes. -/
def segmentSize : Nat := 8192

/-- A segment shorter than this is copied when it is handed over and the receiver has room for it. -/
def compactionThreshold : Nat := segmentSize / 2

/-- A block of memory of which the bytes from offset `start` on are readable. -/
structure Segment where
  start : Nat
  bytes : Bytes
deriving DecidableEq, Repr

namespace Segment

/-- The offset behind the last readable byte. -/
def stop (s : Segment) : Nat := s.start + s.bytes.length

/-- The number of bytes that can still be written. -/
def spare (s : Segment) : Nat := segmentSize - s.stop

/-- The segment with `data` written behind its readable bytes. -/
def push (s : Segment) (data : Bytes) : Segment := { s with bytes := s.bytes ++ data }

/-- The segment with its first `n` readable bytes consumed. -/
def drop (s : Segment) (n : Nat) : Segment := ⟨s.start + n, s.bytes.drop n⟩

/-- A segment holds at least one readable byte and stays inside its block. -/
def Valid (s : Segment) : Prop := s.bytes ≠ [] ∧ s.stop ≤ segmentSize

instance (s : Segment) : Decidable s.Valid := inferInstanceAs (Decidable (_ ∧ _))

theorem Valid.length_pos {s : Segment} (h : s.Valid) : 0 < s.bytes.length :=
  List.length_pos_iff.2 h.1

theorem Valid.push {s : Segment} (h : s.Valid) {data : Bytes} (hd : data.length ≤ s.spare) :
    (s.push data).Valid := by
  refine ⟨by simp [Segment.push, h.1], ?_⟩
  have := h.2
  simp only [Segment.push, stop, spare, List.length_append] at *
  omega

theorem Valid.drop {s : Segment} (h : s.Valid) {n : Nat} (hn : n < s.bytes.length) : (s.drop n).Valid := by
  refine ⟨by simp [Segment.drop, hn], ?_⟩
  have := h.2
  simp only [Segment.drop, stop, List.length_drop] at *
  omega

end Segment

/-! ### Rows of segments -/

/-- The readable bytes of a row of segments, in order. -/
def readable (row : List Segment) : Bytes := row.flatMap Segment.bytes

@[simp] theorem readable_nil : readable [] = [] := rfl

@[simp] theorem readable_cons (s : Segment) (row : List Segment) :
    readable (s :: row) = s.bytes ++ readable row := rfl

@[simp] theorem readable_append (row row' : List Segment) :
    readable (row ++ row') = readable row ++ readable row' := by simp [readable]

/-- The spare room of the last segment; a row without segments has none. -/
def room : List Segment → Nat
  | [] => 0
  | [s] => s.spare
  | _ :: s :: row => room (s :: row)

/-- Writes `data` into the last segment. -/
def extendLast (data : Bytes) : List Segment → List Segment
  | [] => []
  | [s] => [s.push data]
  | r :: s :: row => r :: extendLast data (s :: row)

/-- Fills the last segment with as much of `data` as fits, the rest goes into new segments. -/
def appendBytes (data : Bytes) (row : List Segment) : List Segment :=
  extendLast (data.take (room row)) row ++ (chunks segmentSize (data.drop (room row))).map (Segment.mk 0)

/-- Puts a whole segment behind the row.  A short one is copied into the last segment if it fits there. -/
def link (s : Segment) (row : List Segment) : List Segment :=
  if s.bytes.length < compactionThreshold ∧ s.bytes.length ≤ room row then extendLast s.bytes row
  else row ++ [s]

/-- Consumes the first `n` readable bytes; segments that become empty go. -/
def dropFront : Nat → List Segment → List Segment
  | _, [] => []
  | n, s :: row => if n < s.bytes.length then s.drop n :: row else dropFront (n - s.bytes.length) row

/-- Hands the first `n` readable bytes of `source` over to `target`: segments that go as a whole are linked, of the
last one a part is copied.  The result is the new target and what is left of the source. -/
def handOver : Nat → List Segment → List Segment → List Segment × List Segment
  | _, target, [] => (target, [])
  | n, target, s :: source =>
    if s.bytes.length ≤ n then handOver (n - s.bytes.length) (link s target) source
    else (appendBytes (s.bytes.take n) target, s.drop n :: source)

/-! ### What the operations do to the readable bytes -/

theorem room_append_singleton (row : List Segment) (s : Segment) : room (row ++ [s]) = s.spare := by
  induction row with
  | nil => rfl
  | cons r row ih =>
    cases row with
    | nil => rfl
    | cons t row => simpa [room] using ih

theorem extendLast_append_singleton (data : Bytes) (row : List Segment) (s : Segment) :
    extendLast data (row ++ [s]) = row ++ [s.push data] := by
  induction row with
  | nil => rfl
  | cons r row ih =>
    cases row with
    | nil => rfl
    | cons t row => simpa [extendLast] using ih

theorem readable_extendLast {row : List Segment} {data : Bytes} (h : row ≠ [] ∨ data = []) :
    readable (extendLast data row) = readable row ++ data := by
  rcases List.eq_nil_or_concat row with rfl | ⟨row, s, rfl⟩
  · rcases h with h | rfl
    · exact absurd rfl h
    · rfl
  · simp [extendLast_append_singleton, Segment.push]

theorem ne_nil_of_room_pos {row : List Segment} (h : 0 < room row) : row ≠ [] := by
  rintro rfl; simp [room] at h

theorem readable_map_mk (l : List Bytes) : readable (l.map (Segment.mk 0)) = l.flatten := by
  induction l with
  | nil => rfl
  | cons c l ih => simp [ih]

theorem readable_appendBytes (data : Bytes) (row : List Segment) :
    readable (appendBytes data row) = readable row ++ data := by
  have h : row ≠ [] ∨ data.take (room row) = [] := by
    by_cases hr : room row = 0
    · right; simp [hr]
    · left; exact ne_nil_of_room_pos (Nat.pos_of_ne_zero hr)
  rw [appendBytes, readable_append, readable_extendLast h, readable_map_mk, flatten_chunks, List.append_assoc,
    List.take_append_drop]

theorem readable_link (s : Segment) (row : List Segment) : readable (link s row) = readable row ++ s.bytes := by
  unfold link
  split
  · rename_i h
    apply readable_extendLast
    rcases Nat.eq_zero_or_pos (room row) with h0 | h0
    · right; exact List.length_eq_zero_iff.1 (by omega)
    · left; exact ne_nil_of_room_pos h0
  · simp

theorem readable_dropFront (n : Nat) (row : List Segment) : readable (dropFront n row) = (readable row).drop n := by
  induction row generalizing n with
  | nil => simp [dropFront]
  | cons s row ih =>
    unfold dropFront
    split
    · rename_i h
      simp only [readable_cons, Segment.drop]
      rw [List.drop_append_of_le_length (by omega)]
    · rename_i h
      rw [ih, readable_cons, List.drop_append, List.drop_eq_nil_of_le (show s.bytes.length ≤ n by omega), List.nil_append]

theorem readable_handOver (n : Nat) (target source : List Segment) :
    readable (handOver n target source).1 = readable target ++ (readable source).take n ∧
      readable (handOver n target source).2 = (readable source).drop n := by
  induction source generalizing n target with
  | nil => simp [handOver]
  | cons s source ih =>
    unfold handOver
    split
    · rename_i h
      obtain ⟨h₁, h₂⟩ := ih (n - s.bytes.length) (link s target)
      rw [h₁, h₂, readable_link, readable_cons, List.take_append, List.drop_append,
        List.take_of_length_le (show s.bytes.length ≤ n from h), List.drop_eq_nil_of_le (show s.bytes.length ≤ n from h)]
      simp
    · rename_i h
      rw [readable_appendBytes, readable_cons, readable_cons, List.take_append_of_le_length (by omega),
        List.drop_append_of_le_length (by omega)]
      exact ⟨rfl, rfl⟩

/-! ### The operations keep segments valid -/

/-- Every segment of the row is valid. -/
def RowValid (row : List Segment) : Prop := ∀ s ∈ row, s.Valid

theorem RowValid.nil : RowValid [] := by simp [RowValid]

theorem RowValid.append {row row' : List Segment} (h : RowValid row) (h' : RowValid row') :
    RowValid (row ++ row') := by
  intro s hs
  rcases List.mem_append.1 hs with hs | hs
  · exact h s hs
  · exact h' s hs

theorem RowValid.extendLast {row : List Segment} (h : RowValid row) {data : Bytes} (hd : data.length ≤ room row) :
    RowValid (extendLast data row) := by
  rcases List.eq_nil_or_concat row with rfl | ⟨row, s, rfl⟩
  · exact RowValid.nil
  · rw [List.concat_eq_append] at *
    rw [extendLast_append_singleton]
    rw [room_append_singleton] at hd
    refine RowValid.append (fun t ht => h t (by simp [ht])) fun t ht => ?_
    rw [List.mem_singleton.1 ht]
    exact (h s (by simp)).push hd

theorem RowValid.appendBytes {row : List Segment} (h : RowValid row) (data : Bytes) :
    RowValid (appendBytes data row) := by
  refine (h.extendLast (by rw [List.length_take]; omega)).append fun s hs => ?_
  obtain ⟨c, hc, rfl⟩ := List.mem_map.1 hs
  obtain ⟨hne, hlen⟩ := length_of_mem_chunks (by decide) hc
  exact ⟨hne, by simpa [Segment.stop] using hlen⟩

theorem RowValid.link {row : List Segment} (h : RowValid row) {s : Segment} (hs : s.Valid) :
    RowValid (link s row) := by
  unfold Conduit.link
  split
  · rename_i hc; exact h.extendLast hc.2
  · exact h.append fun t ht => by rw [List.mem_singleton.1 ht]; exact hs

theorem RowValid.dropFront {row : List Segment} (h : RowValid row) (n : Nat) : RowValid (dropFront n row) := by
  induction row generalizing n with
  | nil => exact RowValid.nil
  | cons s row ih =>
    unfold Conduit.dropFront
    split
    · rename_i hn
      intro t ht
      rcases List.mem_cons.1 ht with rfl | ht
      · exact (h s (by simp)).drop hn
      · exact h t (by simp [ht])
    · exact ih (fun t ht => h t (by simp [ht])) _

theorem RowValid.handOver {target source : List Segment} (ht : RowValid target) (hs : RowValid source) (n : Nat) :
    RowValid (handOver n target source).1 ∧ RowValid (handOver n target source).2 := by
  induction source generalizing n target with
  | nil => exact ⟨ht, RowValid.nil⟩
  | cons s source ih =>
    unfold Conduit.handOver
    split
    · exact ih (ht.link (hs s (by simp))) (fun t h => hs t (by simp [h])) _
    · rename_i h
      refine ⟨ht.appendBytes _, fun t hm => ?_⟩
      rcases List.mem_cons.1 hm with rfl | hm
      · exact (hs s (by simp)).drop (by omega)
      · exact hs t (by simp [hm])

end Conduit
