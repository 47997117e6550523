import Conduit.Proofs.Buffer.Blocks

/-!
# Rows of blocks

What the loops over blocks do is what the operations on rows of segments do to the segments that the blocks show
(`view`): writing behind the last block (`put_eq`), consuming and copying the first ones (`discard_eq`,
`copyFront_eq`), handing them over (`handOver_eq`).  All loops that take bytes from the front leave the same blocks
(`cut`).  No loop misuses anything, as long as the blocks are sound and hold a byte each.
-/

namespace Conduit

/-! ### Rows of segments, a segment at a time -/

theorem spare_push (s : Segment) (data : Bytes) : (s.push data).spare = s.spare - data.length := by
  simp only [Segment.spare, Segment.stop, Segment.push, List.length_append]
  omega

theorem room_extendLast (data : Bytes) (row : List Segment) : room (extendLast data row) = room row - data.length := by
  rcases List.eq_nil_or_concat row with rfl | ⟨row, s, rfl⟩
  · exact (Nat.zero_sub _).symm
  · rw [List.concat_eq_append, extendLast_append_singleton, room_append_singleton, room_append_singleton, spare_push]

@[simp] theorem extendLast_nil (row : List Segment) : extendLast [] row = row := by
  rcases List.eq_nil_or_concat row with rfl | ⟨row, s, rfl⟩
  · rfl
  · rw [List.concat_eq_append, extendLast_append_singleton, Segment.push, List.append_nil]

@[simp] theorem appendBytes_nil (row : List Segment) : appendBytes [] row = row := by simp [appendBytes]

/-- Writing into the last segment first. -/
theorem appendBytes_eq_extend (data : Bytes) (row : List Segment) :
    appendBytes data row = appendBytes (data.drop (room row)) (extendLast (data.take (room row)) row) := by
  rcases Nat.le_total (room row) data.length with h | h
  · have hfull : room (extendLast (data.take (room row)) row) = 0 := by
      rw [room_extendLast, List.length_take]
      omega
    rw [appendBytes, appendBytes, hfull, List.take_zero, extendLast_nil, List.drop_zero]
  · rw [List.drop_eq_nil_of_le h, appendBytes_nil, appendBytes, List.drop_eq_nil_of_le h, chunks_nil, List.map_nil,
      List.append_nil]

/-- Writing into a new segment first, behind a full one. -/
theorem appendBytes_eq_new {data : Bytes} {row : List Segment} (hdata : data ≠ []) (hroom : room row = 0) :
    appendBytes data row = appendBytes (data.drop segmentSize) (row ++ [⟨0, data.take segmentSize⟩]) := by
  have hnew : room (row ++ [⟨0, data.take segmentSize⟩]) = segmentSize - data.length := by
    rw [room_append_singleton, Segment.spare, Segment.stop, List.length_take]
    simp only
    omega
  have hleft : appendBytes data row
      = row ++ [⟨0, data.take segmentSize⟩] ++ (chunks segmentSize (data.drop segmentSize)).map (Segment.mk 0) := by
    rw [appendBytes, hroom, List.take_zero, extendLast_nil, List.drop_zero, chunks_of_ne_nil (by decide) hdata]
    simp
  rw [hleft, appendBytes, hnew]
  rcases Nat.le_total segmentSize data.length with h | h
  · rw [Nat.sub_eq_zero_of_le h, List.take_zero, extendLast_nil, List.drop_zero]
  · simp [List.drop_eq_nil_of_le h]

theorem dropFront_zero {row : List Segment} (h : RowValid row) : dropFront 0 row = row := by
  cases row with
  | nil => rfl
  | cons s row =>
    rw [dropFront, if_pos (h s (by simp)).length_pos, Segment.drop, Nat.add_zero, List.drop_zero]

theorem handOver_zero (target : List Segment) {source : List Segment} (h : RowValid source) :
    handOver 0 target source = (target, source) := by
  cases source with
  | nil => rfl
  | cons s source =>
    have := (h s (by simp)).length_pos
    rw [handOver, if_neg (by omega), List.take_zero, appendBytes_nil, Segment.drop, Nat.add_zero, List.drop_zero]

/-- Handing bytes over leaves what consuming them leaves. -/
theorem handOver_snd (n : Nat) (target source : List Segment) : (handOver n target source).2 = dropFront n source := by
  induction source generalizing n target with
  | nil => rfl
  | cons s source ih =>
    rw [handOver, dropFront]
    by_cases hwhole : s.bytes.length ≤ n
    · rw [if_pos hwhole, if_neg (Nat.not_lt_of_le hwhole)]
      exact ih ..
    · rw [if_neg hwhole, if_pos (Nat.lt_of_not_le hwhole)]

namespace BlockQueue

/-! ### Rows of blocks -/

/-- The segments that a row of blocks shows. -/
def view (row : List Block) : List Segment := row.map Block.segment

@[simp] theorem view_nil : view [] = [] := rfl

@[simp] theorem view_cons (head : Block) (row : List Block) : view (head :: row) = head.segment :: view row := rfl

theorem view_concat (row : List Block) (tail : Block) : view (row ++ [tail]) = view row ++ [tail.segment] := by
  simp [view]

/-- Every block of the row is sound. -/
def RowSound (row : List Block) : Prop := ∀ b ∈ row, b.Sound

theorem RowSound.concat {row : List Block} {tail : Block} (h : RowSound row) (ht : tail.Sound) :
    RowSound (row ++ [tail]) := by
  intro b hb
  rcases List.mem_append.1 hb with hb | hb
  · exact h b hb
  · rw [List.mem_singleton.1 hb]
    exact ht

/-- The row ends with `tail`, which has room for `n` bytes, and `row'` are the blocks before it; or there is no such room,
and `tail` is a new block behind the row. -/
def TailOf (n : Nat) (row row' : List Block) (tail : Block) : Prop :=
  n ≤ room (view row) ∧ row = row' ++ [tail] ∨ room (view row) < n ∧ row' = row ∧ tail = .fresh

theorem tailFor_eq {row : List Block} (h : RowSound row) {n : Nat} (hn : 0 < n) (hn' : n ≤ segmentSize) :
    ∃ row' tail, tailFor n row = .ok (row', tail) ∧ RowSound row' ∧ tail.Sound ∧ TailOf n row row' tail := by
  unfold TailOf
  rw [tailFor, if_pos ⟨hn, hn'⟩]
  rcases List.eq_nil_or_concat row with rfl | ⟨row, tail, rfl⟩
  · exact ⟨_, _, rfl, h, .fresh, .inr ⟨hn, rfl, rfl⟩⟩
  · rw [List.concat_eq_append] at *
    have htail : tail.Sound := h tail (by simp)
    rw [view_concat, room_append_singleton, List.getLast?_concat, List.dropLast_concat]
    simp only [htail.spare_eq, ok_bind]
    by_cases hs : tail.segment.spare < n
    · rw [if_pos hs]
      exact ⟨_, _, rfl, h, .fresh, .inr ⟨hs, rfl, rfl⟩⟩
    · rw [if_neg hs]
      exact ⟨_, _, rfl, fun b hb => h b (by simp [hb]), htail, .inl ⟨by omega, rfl⟩⟩

theorem TailOf.spare_pos {row row' : List Block} {tail : Block} (h : TailOf 1 row row' tail) : 0 < tail.segment.spare := by
  rcases h with ⟨hroom, hrow⟩ | ⟨-, -, rfl⟩
  · rw [hrow, view_concat, room_append_singleton] at hroom
    exact hroom
  · decide

/-- A round of writing fills up the last block with room, or a new one. -/
theorem put_round {q : BlockQueue} {row : List Block} {tail : Block} (htail : tailFor 1 q.blocks = .ok (row, tail))
    (hsound : tail.Sound) (hspare : 0 < tail.segment.spare) {data : Bytes} (hdata : data ≠ []) :
    q.put data =
      put ⟨row ++ [tail.extend (data.take tail.segment.spare)], q.length + min tail.segment.spare data.length⟩
        (data.drop tail.segment.spare) := by
  have hpos := List.length_pos_iff.2 hdata
  have hsome : q.putSome data = .ok (min tail.segment.spare data.length,
      ⟨row ++ [tail.extend (data.take tail.segment.spare)], q.length + min tail.segment.spare data.length⟩) := by
    simp only [putSome, htail, ok_bind, (hsound.push_eq data).1]
    rfl
  have hdrop : data.drop (min tail.segment.spare data.length) = data.drop tail.segment.spare := by
    rcases Nat.le_total tail.segment.spare data.length with hle | hle
    · rw [Nat.min_eq_left hle]
    · rw [Nat.min_eq_right hle, List.drop_length, List.drop_eq_nil_of_le hle]
  rw [put, if_neg hdata]
  simp only [hsome, ok_bind]
  rw [dif_pos ⟨Nat.lt_min.2 ⟨hspare, hpos⟩, Nat.min_le_right ..⟩, hdrop]

theorem put_nil (q : BlockQueue) : q.put [] = .ok q := by rw [put, if_pos rfl]

theorem put_eq {q : BlockQueue} (h : RowSound q.blocks) (data : Bytes) :
    ∃ q', q.put data = .ok q' ∧ RowSound q'.blocks ∧ q'.queue = q.queue.append data := by
  by_cases hdata : data = []
  · subst hdata
    exact ⟨q, q.put_nil, h, by simp [SegmentQueue.append, queue]⟩
  · obtain ⟨row, tail, htail, hrow, hsound, hcases⟩ := tailFor_eq h Nat.one_pos (by decide)
    have hspare := hcases.spare_pos
    have hpos := List.length_pos_iff.2 hdata
    obtain ⟨-, hsound', hsegment⟩ := hsound.push_eq data
    -- a round writes at least one byte, so what is left to be written is shorter
    obtain ⟨q', hput, hsound'', hqueue⟩ := put_eq
      (q := ⟨row ++ [tail.extend (data.take tail.segment.spare)], q.length + min tail.segment.spare data.length⟩)
      (hrow.concat hsound') (data.drop tail.segment.spare)
    refine ⟨q', by rw [put_round htail hsound hspare hdata, hput], hsound'', ?_⟩
    rw [hqueue]
    simp only [SegmentQueue.append, queue, SegmentQueue.mk.injEq]
    constructor
    · rw [← view, ← view, view_concat, hsegment]
      rcases hcases with ⟨-, hq⟩ | ⟨hroom, rfl, rfl⟩
      · rw [hq, view_concat, appendBytes_eq_extend data, room_append_singleton, extendLast_append_singleton]
      · exact (appendBytes_eq_new hdata (by omega)).symm
    · rw [List.length_drop]
      omega
termination_by data.length
decreasing_by rw [List.length_drop]; omega

/-! ### The first bytes of a row -/

theorem RowSound.cons_iff {head : Block} {row : List Block} :
    RowSound (head :: row) ↔ head.Sound ∧ RowSound row := List.forall_mem_cons

/-- The row without its first `n` bytes: blocks that hold no byte any more go, the next one begins later. -/
def cut : Nat → List Block → List Block
  | _, [] => []
  | n, head :: row =>
    if n < head.stop - head.start then head.drop n :: row else cut (n - (head.stop - head.start)) row

theorem RowSound.cut {row : List Block} (h : RowSound row) (n : Nat) : RowSound (cut n row) := by
  induction row generalizing n with
  | nil => exact h
  | cons head row ih =>
    obtain ⟨hhead, hrow⟩ := RowSound.cons_iff.1 h
    rw [BlockQueue.cut]
    split
    · rename_i hlt
      rw [← hhead.length_bytes] at hlt
      exact RowSound.cons_iff.2 ⟨(hhead.consume_eq (Nat.le_of_lt hlt)).2.1, hrow⟩
    · exact ih hrow _

theorem view_cut {row : List Block} (h : RowSound row) (n : Nat) : view (cut n row) = dropFront n (view row) := by
  induction row generalizing n with
  | nil => rfl
  | cons head row ih =>
    obtain ⟨hhead, hrow⟩ := RowSound.cons_iff.1 h
    rw [cut, view_cons, dropFront, hhead.length_bytes]
    split
    · rename_i hlt
      rw [← hhead.length_bytes] at hlt
      rw [view_cons, (hhead.consume_eq (Nat.le_of_lt hlt)).2.2.1]
    · exact ih hrow _

theorem cut_zero {row : List Block} (h : RowSound row) (hv : RowValid (view row)) : cut 0 row = row := by
  cases row with
  | nil => rfl
  | cons head row =>
    have hpos := (hv head.segment (by simp)).length_pos
    rw [(h head (by simp)).length_bytes] at hpos
    rw [cut, if_pos hpos, Block.drop, Nat.add_zero]

/-- Cutting inside the first block, which goes if nothing of it is left. -/
theorem cut_cons_of_le {head : Block} {row : List Block} (h : RowSound (head :: row)) (hv : RowValid (view row)) {n : Nat}
    (hn : n ≤ head.segment.bytes.length) :
    cut n (head :: row) = if (head.drop n).isEmpty then row else head.drop n :: row := by
  obtain ⟨hhead, hrow⟩ := RowSound.cons_iff.1 h
  have hempty := (hhead.consume_eq hn).2.2.2
  rw [cut, ← hhead.length_bytes]
  by_cases hlt : n < head.segment.bytes.length
  · rw [if_pos hlt, if_neg (by rw [hempty]; omega)]
  · rw [if_neg hlt, if_pos (by rw [hempty]; omega), Nat.sub_eq_zero_of_le hn, cut_zero hrow hv]

/-! ### Loops over the first blocks -/

theorem discard_eq {row : List Block} (h : RowSound row) (hv : RowValid (view row)) (n : Nat) :
    discard n row = .ok (cut n row) := by
  induction row generalizing n with
  | nil => rfl
  | cons head row ih =>
    obtain ⟨hhead, hrow⟩ := RowSound.cons_iff.1 h
    rw [discard]
    by_cases hn : 0 < n
    · obtain ⟨hconsume, -, -, hempty⟩ := hhead.consume_eq (Nat.min_le_left head.segment.bytes.length n)
      rw [if_pos hn]
      simp only [hhead.length_eq, ok_bind, hconsume, minus_of_le (Nat.min_le_right ..), hempty, cut, ← hhead.length_bytes]
      by_cases hlt : n < head.segment.bytes.length
      · rw [Nat.min_eq_right (Nat.le_of_lt hlt), if_neg (by omega), if_neg (by omega), if_pos hlt]
        rfl
      · rw [Nat.min_eq_left (Nat.le_of_not_lt hlt), if_pos (Nat.le_refl _), if_neg hlt]
        exact ih hrow (fun s hs => hv s (by simp [hs])) _
    · rw [if_neg hn, Nat.eq_zero_of_not_pos hn, cut_zero h hv]

theorem copyFront_eq {row : List Block} (h : RowSound row) (hv : RowValid (view row)) {room : Bytes} {filled : Nat}
    (hfilled : filled ≤ room.length) (hroom : room.length ≤ filled + (readable (view row)).length) :
    copyFront room filled row
      = .ok (room.take filled ++ (readable (view row)).take (room.length - filled), room.length,
          cut (room.length - filled) row) := by
  induction row generalizing room filled with
  | nil =>
    have hfull : filled = room.length := by simp at hroom; omega
    simp [copyFront, hfull, cut]
  | cons head row ih =>
    obtain ⟨hhead, hrow⟩ := RowSound.cons_iff.1 h
    rw [copyFront]
    by_cases hlt : filled < room.length
    · obtain ⟨step, hstep⟩ : ∃ step, min head.segment.bytes.length (room.length - filled) = step := ⟨_, rfl⟩
      have hle : step ≤ head.segment.bytes.length := by omega
      obtain ⟨hconsume, -, -, hempty⟩ := hhead.consume_eq hle
      have hpiece : (head.segment.bytes.take step).length = step := by rw [List.length_take, Nat.min_eq_left hle]
      obtain ⟨room', hcopy, hlength, htake⟩ :=
        overwrite_of_le (show filled + (head.segment.bytes.take step).length ≤ room.length by omega)
      rw [hpiece] at htake
      rw [if_pos hlt]
      simp only [hhead.length_eq, ok_bind, hhead.readable_eq, minus_of_le hfilled, hstep, slice_zero hle, hcopy, hconsume,
        hempty, view_cons, readable_cons, cut, ← hhead.length_bytes]
      by_cases hshort : room.length - filled < head.segment.bytes.length
      · -- the last round: `room` is full and a part of the block is left
        have hfull : filled + step = room.length := by omega
        rw [if_neg (by omega), if_neg (by omega), if_pos hshort, List.take_append_of_le_length (Nat.le_of_lt hshort),
          show room.length - filled = step by omega, ← htake, List.take_of_length_le (by omega), hfull]
        rfl
      · -- the block is used up and the next one continues behind it
        have hwhole : step = head.segment.bytes.length := by omega
        rw [if_pos (by omega), if_neg hshort]
        simp only [view_cons, readable_cons, List.length_append] at hroom
        rw [ih hrow (fun s hs => hv s (by simp [hs])) (show filled + step ≤ room'.length by omega) (by omega), htake, hlength,
          List.take_of_length_le (Nat.le_of_eq hwhole.symm), List.take_append,
          List.take_of_length_le (Nat.le_of_not_lt hshort), List.append_assoc, hwhole, Nat.sub_add_eq]
    · have hfull : filled = room.length := by omega
      rw [if_neg hlt, hfull, Nat.sub_self, cut_zero h hv]
      simp

/-! ### Handing over -/

theorem link_eq {q : BlockQueue} (h : RowSound q.blocks) {b : Block} (hb : b.Sound) (hv : b.segment.Valid) :
    ∃ q', q.link b = .ok q' ∧ RowSound q'.blocks ∧ view q'.blocks = Conduit.link b.segment (view q.blocks) ∧
      q'.length = q.length + b.segment.bytes.length := by
  obtain ⟨row, length⟩ := q
  have hpos := hv.length_pos
  simp only [link, hb.length_eq, ok_bind]
  rcases List.eq_nil_or_concat row with rfl | ⟨row, tail, rfl⟩
  · -- nothing fits into a row without blocks, as no segment is empty
    refine ⟨_, rfl, RowSound.concat h hb, ?_, rfl⟩
    rw [Conduit.link, if_neg (by simp only [view_nil, room]; omega), view_concat]
  · rw [List.concat_eq_append] at *
    have htail : tail.Sound := h tail (by simp)
    have hrow : RowSound row := fun b hb => h b (by simp [hb])
    have hlinked : RowSound (row ++ [tail] ++ [b]) ∧
        view (row ++ [tail] ++ [b]) = view (row ++ [tail]) ++ [b.segment] := ⟨RowSound.concat h hb, view_concat ..⟩
    rw [Conduit.link, view_concat row, room_append_singleton, List.getLast?_concat, List.dropLast_concat]
    simp only
    by_cases hshort : b.segment.bytes.length < compactionThreshold
    · rw [if_pos hshort]
      simp only [htail.spare_eq, ok_bind]
      by_cases hfit : b.segment.bytes.length ≤ tail.segment.spare
      · obtain ⟨hpush, hsound, hsegment⟩ := htail.push_eq b.segment.bytes
        rw [if_pos hfit, if_pos ⟨hshort, hfit⟩]
        simp only [hb.readable_eq, ok_bind, hpush]
        refine ⟨_, rfl, hrow.concat hsound, ?_, rfl⟩
        rw [view_concat, hsegment, List.take_of_length_le hfit, extendLast_append_singleton]
      · rw [if_neg hfit, if_neg fun h => hfit h.2]
        exact ⟨_, rfl, hlinked.1, by rw [hlinked.2, view_concat], rfl⟩
    · rw [if_neg hshort, if_neg fun h => hshort h.1]
      exact ⟨_, rfl, hlinked.1, by rw [hlinked.2, view_concat], rfl⟩

theorem handOver_eq {row : List Block} (h : RowSound row) (hv : RowValid (view row)) {target : BlockQueue}
    (ht : RowSound target.blocks) {n length : Nat} (hn : n ≤ (readable (view row)).length) (hlength : n ≤ length) :
    ∃ target', handOver n target row length = .ok (target', ⟨cut n row, length - n⟩) ∧ RowSound target'.blocks ∧
      view target'.blocks = (Conduit.handOver n (view target.blocks) (view row)).1 ∧
        target'.length = target.length + n := by
  induction row generalizing target n length with
  | nil =>
    have hn : n = 0 := by simpa using hn
    subst hn
    exact ⟨target, rfl, ht, rfl, rfl⟩
  | cons head row ih =>
    obtain ⟨hhead, hrow⟩ := RowSound.cons_iff.1 h
    have hvrow : RowValid (view row) := fun s hs => hv s (by simp [hs])
    rw [handOver]
    by_cases hpos : 0 < n
    · rw [if_pos hpos]
      simp only [hhead.length_eq, ok_bind, view_cons, Conduit.handOver, cut, ← hhead.length_bytes]
      by_cases hwhole : head.segment.bytes.length ≤ n
      · obtain ⟨target', hlink, hsound, hview, hlen⟩ := link_eq ht hhead (hv _ (by simp))
        rw [if_pos hwhole, if_pos hwhole, if_neg (Nat.not_lt_of_le hwhole)]
        simp only [minus_of_le hwhole, minus_of_le (Nat.le_trans hwhole hlength), ok_bind, hlink]
        simp only [view_cons, readable_cons, List.length_append] at hn
        obtain ⟨target'', heq, hsound', hview', hlen'⟩ :=
          ih hrow hvrow hsound (show n - head.segment.bytes.length ≤ (readable (view row)).length by omega)
            (show n - head.segment.bytes.length ≤ length - head.segment.bytes.length by omega)
        refine ⟨target'', ?_, hsound', by rw [hview', hview], by omega⟩
        rw [heq, show length - head.segment.bytes.length - (n - head.segment.bytes.length) = length - n by omega]
      · have hle : n ≤ head.segment.bytes.length := Nat.le_of_not_le hwhole
        obtain ⟨target', hput, hsound, hqueue⟩ := put_eq ht (head.segment.bytes.take n)
        obtain ⟨hconsume, -, -, -⟩ := hhead.consume_eq hle
        rw [if_neg hwhole, if_neg hwhole, if_pos (Nat.lt_of_not_le hwhole)]
        simp only [hhead.readable_eq, ok_bind, slice_zero hle, hput, hconsume, minus_of_le hlength]
        obtain ⟨hview, hlen⟩ := SegmentQueue.mk.inj hqueue
        rw [List.length_take, Nat.min_eq_left hle] at hlen
        exact ⟨_, rfl, hsound, hview, hlen⟩
    · rw [if_neg hpos, Nat.eq_zero_of_not_pos hpos, handOver_zero _ hv, cut_zero h hv]
      exact ⟨_, rfl, ht, rfl, rfl⟩

/-! ### Lending and showing -/

theorem release_concat (row : List Block) (tail : Block) :
    release (row ++ [tail]) = if tail.isEmpty then row else row ++ [tail] := by
  rw [release, List.getLast?_concat, List.dropLast_concat]

/-- After `data` is written into the last block, or into a new one, a block without a readable byte is not kept. -/
theorem release_eq {row row' : List Block} {n : Nat} {tail tail' : Block} (hv : RowValid (view row))
    (hrow : RowSound row') (htail : TailOf n row row' tail) (hsound : tail'.Sound) {data : Bytes}
    (hsegment : tail'.segment = tail.segment.push data) :
    RowSound (release (row' ++ [tail'])) ∧ view (release (row' ++ [tail'])) =
      if data = [] then view row
      else if n ≤ room (view row) then extendLast data (view row) else view row ++ [⟨0, data⟩] := by
  rw [release_concat]
  have hempty := hsound.isEmpty_iff
  rw [hsegment, Segment.push, List.append_eq_nil_iff] at hempty
  rcases htail with ⟨hroom, rfl⟩ | ⟨hroom, rfl, rfl⟩
  · -- a block that was there before holds a byte, whether anything is written to it or not
    have hbytes : tail.segment.bytes ≠ [] := (hv tail.segment (by simp [view])).1
    rw [if_neg fun h => hbytes (hempty.1 h).1, view_concat, hsegment, if_pos hroom, view_concat,
      extendLast_append_singleton]
    refine ⟨hrow.concat hsound, ?_⟩
    split
    · rename_i hdata
      rw [hdata, Segment.push, List.append_nil]
    · rfl
  · by_cases hdata : data = []
    · rw [if_pos (hempty.2 ⟨rfl, hdata⟩), if_pos hdata]
      exact ⟨hrow, rfl⟩
    · rw [if_neg fun h => hdata (hempty.1 h).2, if_neg hdata, if_neg (by omega), view_concat, hsegment]
      exact ⟨hrow.concat hsound, rfl⟩

theorem mapM_readable {row : List Block} (h : RowSound row) :
    row.mapM Block.readable = .ok ((view row).map Segment.bytes) := by
  induction row with
  | nil => rfl
  | cons head row ih =>
    obtain ⟨hhead, hrow⟩ := RowSound.cons_iff.1 h
    rw [List.mapM_cons, hhead.readable_eq, ok_bind, ih hrow]
    rfl

end BlockQueue

end Conduit
