import Mathlib.Algebra.GroupWithZero.Nat
import Conduit.Proofs.Buffer.Contents
import Conduit.Proofs.Buffer.Rows

/-!
# Buffers in memory

Block queues, worked on with checked operations only, do what buffers do: they give the same answers and faults, show
the segments that the buffers have, and never misuse a memory or a number (`BlockQueue.Represents`, `Matches`).  So they
are queues of bytes, as the buffers are (`buffers_are_byte_queues`), and from empty ones on every block holds a readable
byte and stays inside its memory, and the number of readable bytes that is kept is the right one
(`blocks_valid_of_performAllIn`).
-/

namespace Conduit

open Function (update)
open Buffer (Fault)

theorem SegmentQueue.popFront_eq_drop {q q' : SegmentQueue} {byte : UInt8} (hq : RowValid q.segments)
    (h : q.popFront = some (byte, q')) : q' = q.drop 1 := by
  unfold SegmentQueue.popFront at h
  split at h
  · rename_i start byte' bytes row hsegments
    obtain ⟨rfl, rfl⟩ := Prod.mk.inj (Option.some.inj h)
    have hrow : RowValid row := fun s hs => hq s (by simp [hsegments, hs])
    rw [SegmentQueue.drop, hsegments, dropFront]
    cases bytes with
    | nil => simp [dropFront_zero hrow]
    | cons => simp [Segment.drop]
  · cases h

theorem SegmentQueue.dropHead_eq_drop {q : SegmentQueue} (hq : RowValid q.segments) {n : Nat} (hn : n ≤ q.head.length) :
    q.dropHead n = q.drop n := by
  unfold SegmentQueue.dropHead SegmentQueue.drop
  rcases hsegments : q.segments with _ | ⟨s, row⟩
  · have hzero : n = 0 := by simpa [SegmentQueue.head, hsegments] using hn
    cases q
    cases hsegments
    rw [hzero]
    rfl
  · have hrow : RowValid row := fun t ht => hq t (by simp [hsegments, ht])
    have hle : n ≤ s.bytes.length := by simpa [SegmentQueue.head, hsegments] using hn
    rw [dropFront]
    by_cases hlt : n < s.bytes.length
    · simp only [if_pos hlt]
    · simp only [if_neg hlt, Nat.sub_eq_zero_of_le hle, dropFront_zero hrow]

namespace Buffer

theorem eq_of_queue_eq {a b : Buffer} (h : a.queue = b.queue) : a = b := by
  cases a
  cases b
  cases h
  rfl

/-! Whatever takes bytes from the front leaves what dropping them leaves. -/

theorem popFront_eq_drop {b c : Buffer} {byte : UInt8} (h : b.popFront = some (byte, c)) : c = b.drop 1 := by
  unfold Buffer.popFront at h
  split at h
  · cases h
  · rename_i hq
    obtain ⟨rfl, rfl⟩ := Prod.mk.inj (Option.some.inj h)
    exact eq_of_queue_eq (SegmentQueue.popFront_eq_drop b.wellFormed.1 hq)

theorem dropHead_eq_drop {b : Buffer} {n : Nat} (hn : n ≤ b.head.length) : b.dropHead n = b.drop n := by
  refine eq_of_queue_eq ?_
  show b.queue.dropHead (min n b.head.length) = b.queue.drop n
  rw [Nat.min_eq_left hn]
  exact SegmentQueue.dropHead_eq_drop b.wellFormed.1 hn

theorem snd_moveTo {b : Buffer} {n : Nat} (hn : n ≤ b.length) (target : Buffer) : (b.moveTo n target).2 = b.drop n := by
  refine eq_of_queue_eq ?_
  show SegmentQueue.mk (Conduit.handOver (min n b.length) target.queue.segments b.queue.segments).2 _ = b.queue.drop n
  rw [handOver_snd, Nat.min_eq_left hn]
  rfl

end Buffer

theorem SegmentQueue.fill_eq (q : SegmentQueue) (n : Nat) (data : Bytes) :
    q.fill n data =
      ⟨if data = [] then q.segments
        else if min n segmentSize ≤ room q.segments then extendLast data q.segments else q.segments ++ [⟨0, data⟩],
        q.length + data.length⟩ := by
  unfold SegmentQueue.fill
  split
  · rename_i hdata
    rw [hdata]
    rfl
  · split <;> rfl

/-- A checked outcome and one of buffers: both are results, related by `R`, or both are the same fault. -/
inductive Matches {α β : Type} (R : α → β → Prop) : Except Trap α → Except Fault β → Prop where
  | ok {x : α} {y : β} (h : R x y) : Matches R (.ok x) (.ok y)
  | fault (f : Fault) : Matches R (.error (.fault f)) (.error f)

theorem Matches.map {α β α' β' : Type} {R : α → β → Prop} {R' : α' → β' → Prop} {f : α → α'} {g : β → β'}
    {r : Except Trap α} {r' : Except Fault β} (h : Matches R r r') (hR : ∀ x y, R x y → R' (f x) (g y)) :
    Matches R' (r.map f) (r'.map g) := by
  cases h with
  | ok h => exact .ok (hR _ _ h)
  | fault f => exact .fault f

theorem Matches.mono {α β : Type} {R R' : α → β → Prop} {r : Except Trap α} {r' : Except Fault β} (h : Matches R r r')
    (hR : ∀ x y, R x y → R' x y) : Matches R' r r' := by
  cases h with
  | ok h => exact .ok (hR _ _ h)
  | fault f => exact .fault f

namespace BlockQueue

/-- Every block holds a readable byte and stays inside its memory, which has the size of a segment, and the length is
the number of readable bytes. -/
structure Valid (q : BlockQueue) : Prop where
  blocks : ∀ b ∈ q.blocks, b.start < b.stop ∧ b.stop ≤ b.memory.length ∧ b.memory.length = segmentSize
  length : q.length = (q.blocks.map fun b => b.stop - b.start).sum

theorem Valid.length_blocks_eq_zero_iff {q : BlockQueue} (h : q.Valid) : q.blocks.length = 0 ↔ q.length = 0 := by
  rw [h.length]
  rcases hq : q.blocks with _ | ⟨head, row⟩
  · simp
  · have := (h.blocks head (by simp [hq])).1
    rw [List.map_cons, List.sum_cons, List.length_cons]
    omega

/-- The queue without its first `n` bytes. -/
def drop (q : BlockQueue) (n : Nat) : BlockQueue := ⟨cut n q.blocks, q.length - n⟩

/-- The blocks are sound and show the segments of the buffer. -/
structure Represents (q : BlockQueue) (b : Buffer) : Prop where
  sound : RowSound q.blocks
  queue_eq : q.queue = b.queue

theorem represents_empty : Represents .empty .empty := ⟨fun _ h => (List.not_mem_nil h).elim, rfl⟩

theorem length_readable_view {row : List Block} (h : RowSound row) :
    (readable (view row)).length = (row.map fun b => b.stop - b.start).sum := by
  induction row with
  | nil => rfl
  | cons head row ih =>
    obtain ⟨hhead, hrow⟩ := RowSound.cons_iff.1 h
    rw [view_cons, readable_cons, List.length_append, hhead.length_bytes, ih hrow, List.map_cons, List.sum_cons]

section

variable {q : BlockQueue} {b : Buffer} (h : q.Represents b)

include h

theorem Represents.view_eq : view q.blocks = b.queue.segments := congrArg SegmentQueue.segments h.queue_eq

theorem Represents.length_eq : q.length = b.length := congrArg SegmentQueue.length h.queue_eq

theorem Represents.rowValid : RowValid (view q.blocks) := by
  rw [h.view_eq]
  exact b.wellFormed.1

theorem Represents.readable_eq : readable (view q.blocks) = b.toList := by
  rw [h.view_eq]
  rfl

theorem Represents.valid : q.Valid where
  blocks := by
    intro k hk
    have hsound := h.sound k hk
    have hpos := (h.rowValid k.segment (List.mem_map_of_mem hk)).length_pos
    rw [hsound.length_bytes] at hpos
    exact ⟨by omega, hsound.stop_le, hsound.size⟩
  length := by rw [h.length_eq, ← Buffer.length_toList, ← h.readable_eq, length_readable_view h.sound]

/-! ### The operations -/

theorem Represents.put (data : Bytes) : ∃ q', q.put data = .ok q' ∧ q'.Represents (b.append data) := by
  obtain ⟨q', hput, hsound, hqueue⟩ := put_eq h.sound data
  exact ⟨q', hput, hsound, by rw [hqueue, h.queue_eq]; rfl⟩

theorem Represents.drop (n : Nat) : (q.drop n).Represents (b.drop n) where
  sound := h.sound.cut n
  queue_eq := by
    show SegmentQueue.mk (view (cut n q.blocks)) (q.length - n) = b.queue.drop n
    rw [view_cut h.sound, h.view_eq, h.length_eq]
    rfl

theorem Represents.skip_eq {n : Nat} (hn : n ≤ b.length) : q.skip n = .ok (q.drop n) := by
  rw [← h.length_eq] at hn
  rw [BlockQueue.skip, if_pos hn, minus_of_le hn, ok_bind, discard_eq h.sound h.rowValid]
  rfl

theorem Represents.skip (n : Nat) : Matches Represents (q.skip n) (b.skip n) := by
  unfold Buffer.skip
  split
  · rename_i hn
    rw [h.skip_eq hn]
    exact .ok (h.drop n)
  · rename_i hn
    rw [BlockQueue.skip, h.length_eq, if_neg hn]
    exact .fault _

theorem Represents.copyOut_eq {room : Bytes} (hn : room.length ≤ b.length) :
    q.copyOut room = .ok (b.take room.length, q.drop room.length) := by
  have hroom : room.length ≤ 0 + (readable (view q.blocks)).length := by
    rw [h.readable_eq, Buffer.length_toList, Nat.zero_add]
    exact hn
  have hcopy := copyFront_eq h.sound h.rowValid (Nat.zero_le room.length) hroom
  rw [h.readable_eq] at hcopy
  rw [← h.length_eq] at hn
  rw [BlockQueue.copyOut, if_pos hn]
  simp only [hcopy, ok_bind, minus_of_le hn]
  rfl

theorem Represents.copyOut (room : Bytes) :
    Matches (fun x y => x.1 = y.1 ∧ x.2.Represents y.2) (q.copyOut room) (b.copyOut room.length) := by
  unfold Buffer.copyOut
  split
  · rename_i hn
    rw [h.copyOut_eq hn]
    exact .ok ⟨rfl, h.drop _⟩
  · rename_i hn
    rw [BlockQueue.copyOut, h.length_eq, if_neg hn]
    exact .fault _

theorem Represents.front {head : Block} {row : List Block} (hq : q.blocks = head :: row) :
    head.Sound ∧ RowValid (view row) ∧ head.segment.Valid ∧ b.head = head.segment.bytes ∧
      head.segment.bytes.length ≤ b.length := by
  have hview := h.view_eq
  have hvalid := h.rowValid
  rw [hq, view_cons] at hview hvalid
  have hhead : b.head = head.segment.bytes := by rw [Buffer.head, SegmentQueue.head, ← hview]
  exact ⟨h.sound head (by simp [hq]), fun s hs => hvalid s (by simp [hs]), hvalid _ (by simp), hhead,
    hhead ▸ b.length_head_le⟩

/-- Cutting inside the first block. -/
theorem Represents.drop_eq {head : Block} {row : List Block} (hq : q.blocks = head :: row) {n : Nat}
    (hn : n ≤ head.segment.bytes.length) :
    q.drop n = ⟨if (head.drop n).isEmpty then row else head.drop n :: row, q.length - n⟩ := by
  obtain ⟨-, hvrow, -⟩ := h.front hq
  rw [BlockQueue.drop, hq, cut_cons_of_le (hq ▸ h.sound) hvrow hn]

theorem Represents.length_eq_zero (hq : q.blocks = []) : b.length = 0 := by
  rw [← Buffer.length_toList, ← h.readable_eq, hq]
  rfl

theorem Represents.popFront_eq {head : Block} {row : List Block} (hq : q.blocks = head :: row) :
    ∃ byte, b.popFront = some (byte, b.drop 1) ∧ q.popFront = .ok (some byte, q.drop 1) := by
  obtain ⟨hhead, -, hvalid, hbytes, hle⟩ := h.front hq
  have hpos := hvalid.length_pos
  obtain ⟨hconsume, -⟩ := hhead.consume_eq hpos
  have hlist := b.head_isPrefix
  rcases hp : b.popFront with _ | ⟨byte, c⟩
  · have hnil := Buffer.head_eq_nil_iff.2 (Buffer.popFront_eq_none_iff.1 hp)
    exact absurd (hbytes ▸ hnil) hvalid.1
  · obtain ⟨bytes, hcons⟩ : ∃ bytes, head.segment.bytes = byte :: bytes := by
      rw [Buffer.popFront_eq_some hp, hbytes] at hlist
      rcases hseg : head.segment.bytes with _ | ⟨byte', bytes⟩
      · exact absurd hseg hvalid.1
      · rw [hseg, List.cons_append] at hlist
        exact ⟨bytes, by rw [(List.cons.inj hlist).1]⟩
    refine ⟨byte, by rw [Buffer.popFront_eq_drop hp], ?_⟩
    rw [h.drop_eq hq hpos, BlockQueue.popFront, hq]
    simp only [hhead.readable_eq, hcons, ok_bind, hconsume, minus_of_le (show 1 ≤ q.length by rw [h.length_eq]; omega)]
    rfl

theorem Represents.popFront :
    ∃ q', q.popFront = .ok (b.popFront.map Prod.fst, q') ∧ q'.Represents ((b.popFront.map Prod.snd).getD b) := by
  rcases hq : q.blocks with _ | ⟨head, row⟩
  · have hnone : b.popFront = none :=
      Buffer.popFront_eq_none_iff.2 (Buffer.length_eq_zero_iff.1 (h.length_eq_zero hq))
    exact ⟨q, by rw [BlockQueue.popFront, hq, hnone]; rfl, by rw [hnone]; exact h⟩
  · obtain ⟨byte, hpop, heq⟩ := h.popFront_eq hq
    exact ⟨q.drop 1, by rw [heq, hpop]; rfl, by rw [hpop]; exact h.drop 1⟩

theorem Represents.transfer_eq {r : BlockQueue} {c : Buffer} (hr : r.Represents c) {n : Nat} (hn : n ≤ b.length) :
    ∃ r', q.transfer n r = .ok (r', q.drop n) ∧ r'.Represents (b.moveTo n c).1 := by
  obtain ⟨target, heq, htarget, hview, hlength⟩ :=
    handOver_eq h.sound h.rowValid hr.sound (n := n) (by rw [h.readable_eq, Buffer.length_toList]; exact hn) hn
  rw [h.view_eq, hr.view_eq] at hview
  refine ⟨target, ?_, htarget, ?_⟩
  · rw [BlockQueue.transfer, h.length_eq, if_pos hn, heq, BlockQueue.drop, h.length_eq]
  · show SegmentQueue.mk (view target.blocks) target.length = (b.queue.moveTo (min n b.length) c.queue).1
    rw [hview, hlength, hr.length_eq, Nat.min_eq_left hn]
    rfl

theorem Represents.transfer {r : BlockQueue} {c : Buffer} (hr : r.Represents c) (n : Nat) :
    Matches (fun x y => x.1.Represents y.1 ∧ x.2.Represents y.2) (q.transfer n r) (b.transfer n c) := by
  unfold Buffer.transfer
  split
  · rename_i hn
    obtain ⟨r', heq, htarget⟩ := h.transfer_eq hr hn
    rw [heq]
    exact .ok ⟨htarget, by rw [Buffer.snd_moveTo hn]; exact h.drop n⟩
  · rename_i hn
    rw [BlockQueue.transfer, h.length_eq, if_neg hn]
    exact .fault _

/-- The window that a block queue lends is the buffer's. -/
theorem Represents.window_eq {n : Nat} {row : List Block} {tail : Block} (hsound : tail.Sound)
    (htail : TailOf (min n segmentSize) q.blocks row tail) : tail.window n = .ok (b.window n) := by
  have hstop : segmentSize - tail.segment.spare = tail.stop := by
    have := hsound.stop_le
    rw [hsound.spare_segment, ← hsound.size]
    omega
  rw [hsound.window_eq, Buffer.window, SegmentQueue.window, ← h.view_eq]
  rcases htail with ⟨hroom, hq⟩ | ⟨hroom, -, rfl⟩
  · rw [hq, view_concat, room_append_singleton] at hroom ⊢
    simp only [if_pos hroom, hstop]
  · have hfresh : Block.fresh.segment.spare = segmentSize := by decide
    rw [hfresh] at hstop ⊢
    simp only [if_neg (Nat.not_le_of_lt hroom), hstop]

/-- Committing the first `k` bytes that are left in the window, `k = 0` included. -/
theorem Represents.commit {n : Nat} {row : List Block} {tail : Block} (hrow : RowSound row) (hsound : tail.Sound)
    (htail : TailOf (min n segmentSize) q.blocks row tail) (memory : Vector UInt8 (b.window n).size) {k : Nat}
    (hk : k ≤ (b.window n).size) :
    ∃ memory', overwrite tail.memory (b.window n).start memory.toList = .ok memory' ∧
      Represents ⟨release (row ++ [⟨memory', tail.start, tail.stop + k⟩]), q.length + k⟩
        (b.fill n (memory.toList.take k)) := by
  have hwindow : b.window n = ⟨tail.stop, tail.stop + min tail.segment.spare n⟩ :=
    Except.ok.inj ((h.window_eq hsound htail).symm.trans (hsound.window_eq n))
  have hstart : (b.window n).start = tail.stop := congrArg Window.start hwindow
  have hsize : (b.window n).size = min tail.segment.spare n := by
    rw [hwindow]
    exact Nat.add_sub_cancel_left ..
  have hlength : (memory.toList.take k).length = k := by
    rw [List.length_take, Vector.length_toList, Nat.min_eq_left hk]
  have hfit : tail.stop + (memory.toList.take k ++ memory.toList.drop k).length ≤ tail.memory.length := by
    have hspare := hsound.spare_segment
    have := hsound.stop_le
    rw [List.take_append_drop, Vector.length_toList]
    omega
  -- all of the window is overwritten, the first `k` bytes of it are read later
  obtain ⟨memory', hm, hsound', hsegment⟩ := hsound.write _ _ hfit
  rw [List.take_append_drop] at hm
  rw [hlength] at hsound' hsegment
  obtain ⟨hrelease, hview⟩ := release_eq h.rowValid hrow htail hsound' hsegment
  refine ⟨memory', by rw [hstart]; exact hm, hrelease, ?_⟩
  show SegmentQueue.mk (view _) (q.length + k) = b.queue.fill n ((memory.toList.take k).take (b.window n).size)
  rw [List.take_take, Nat.min_eq_right hk, SegmentQueue.fill_eq, hview, h.view_eq, h.length_eq, hlength]
  rfl

/-- Lending a window is writing into the memory of the last block, or of a new one, and making a part of that readable. -/
theorem Represents.lend {n : Nat} (hn : n ≠ 0) : ∃ row tail, tail.Sound ∧
    TailOf (min n segmentSize) q.blocks row tail ∧
      ∀ {ε : Type} (write : (w : Window) → Vector UInt8 w.size × Except ε Nat), ∃ memory,
        overwrite tail.memory (b.window n).start (write (b.window n)).1.toList = .ok memory ∧
        (∀ k ≤ (b.window n).size, Represents ⟨release (row ++ [⟨memory, tail.start, tail.stop + k⟩]), q.length + k⟩
          (b.fill n ((write (b.window n)).1.toList.take k))) ∧
        q.writeWith n write = match (write (b.window n)).2 with
          | .error e => .ok (.error e, ⟨release (row ++ [⟨memory, tail.start, tail.stop⟩]), q.length⟩)
          | .ok k =>
            if k ≤ (b.window n).size then
              .ok (.ok k, ⟨release (row ++ [⟨memory, tail.start, tail.stop + k⟩]), q.length + k⟩)
            else .error (.fault (.commit k (b.window n).size)) := by
  have hpos : 0 < min n segmentSize := Nat.lt_min.2 ⟨Nat.pos_of_ne_zero hn, by decide⟩
  obtain ⟨row, tail, htail, hrow, hsound, hcases⟩ := tailFor_eq h.sound hpos (Nat.min_le_right ..)
  refine ⟨row, tail, hsound, hcases, fun write => ?_⟩
  have hcommit := fun k => h.commit hrow hsound hcases (write (b.window n)).1 (k := k)
  obtain ⟨memory, hm, -⟩ := hcommit 0 (Nat.zero_le _)
  refine ⟨memory, hm, ?_, ?_⟩
  · intro k hk
    obtain ⟨memory', hm', hrep⟩ := hcommit k hk
    obtain rfl : memory = memory' := Except.ok.inj (hm.symm.trans hm')
    exact hrep
  · unfold BlockQueue.writeWith
    rw [if_neg hn]
    simp only [htail, h.window_eq hsound hcases, ok_bind, hm]
    rcases (write (b.window n)).2 with e | k
    · rfl
    · rfl

theorem Represents.writeWith {ε : Type} (n : Nat) (write : (w : Window) → Vector UInt8 w.size × Except ε Nat) :
    Matches (fun x y => x.1 = y.1 ∧ x.2.Represents y.2) (q.writeWith n write)
      (b.writeWith n fun w => (write w).2.map ((write w).1, ·)) := by
  unfold Buffer.writeWith
  by_cases hn : n = 0
  · rw [if_pos hn, BlockQueue.writeWith, if_pos hn]
    exact .ok ⟨rfl, h⟩
  · obtain ⟨row, tail, -, -, hlend⟩ := h.lend hn
    obtain ⟨memory, -, hcommit, heq⟩ := hlend write
    rw [heq, if_neg hn]
    rcases hw : (write (b.window n)).2 with e | k
    · -- the memory is written to, but as if nothing had been committed
      have hrep := hcommit 0 (Nat.zero_le _)
      rw [List.take_zero, Buffer.fill_nil] at hrep
      simp only [hw, Except.map]
      exact .ok ⟨rfl, hrep⟩
    · by_cases hk : k ≤ (b.window n).size
      · simp only [hw, Except.map, if_pos hk]
        exact .ok ⟨rfl, hcommit k hk⟩
      · simp only [hw, Except.map, if_neg hk]
        exact .fault _

theorem Represents.readWith_eq {ε : Type} {head : Block} {row : List Block} (hq : q.blocks = head :: row)
    (read : Bytes → Except ε Nat) :
    q.readWith read = match read b.head with
      | .error e => .ok (.error e, q)
      | .ok n => if n ≤ b.head.length then .ok (.ok n, q.drop n) else .error (.fault (.consume n b.head.length)) := by
  obtain ⟨hhead, -, -, hbytes, hle⟩ := h.front hq
  rw [hbytes, BlockQueue.readWith, hq]
  simp only [hhead.length_eq, hhead.readable_eq, ok_bind]
  rcases hread : read head.segment.bytes with e | n
  · rfl
  · by_cases hn : n ≤ head.segment.bytes.length
    · obtain ⟨hconsume, -⟩ := hhead.consume_eq hn
      simp only [if_pos hn, hconsume, ok_bind, minus_of_le (show n ≤ q.length by rw [h.length_eq]; omega), h.drop_eq hq hn]
      rfl
    · simp only [if_neg hn]

theorem Represents.readWith {ε : Type} (read : Bytes → Except ε Nat) :
    Matches (fun x y => x.1 = y.1 ∧ x.2.Represents y.2) (q.readWith read) (b.readWith read) := by
  unfold Buffer.readWith
  rcases hq : q.blocks with _ | ⟨head, row⟩
  · rw [if_pos (show b.isEmpty from beq_iff_eq.2 (h.length_eq_zero hq)), BlockQueue.readWith, hq]
    exact .ok ⟨rfl, h⟩
  · obtain ⟨-, -, hvalid, hbytes, hle⟩ := h.front hq
    have hpos := hvalid.length_pos
    have hempty : ¬ b.isEmpty := by
      rw [Buffer.isEmpty, beq_iff_eq]
      omega
    rw [h.readWith_eq hq, if_neg hempty]
    rcases read b.head with e | n
    · exact .ok ⟨rfl, h⟩
    · by_cases hn : n ≤ b.head.length
      · simp only [if_pos hn, Buffer.dropHead_eq_drop hn]
        exact .ok ⟨rfl, h.drop n⟩
      · simp only [if_neg hn]
        exact .fault _

theorem Represents.pieces : q.pieces = .ok b.pieces := by
  rw [BlockQueue.pieces, mapM_readable h.sound, h.view_eq]
  rfl

theorem Represents.toList : q.toList = .ok b.toList := by
  rw [BlockQueue.toList, h.pieces, ok_bind, Buffer.flatten_pieces]
  rfl

theorem Represents.agrees {r : BlockQueue} {c : Buffer} (hr : r.Represents c) : q.agrees r = .ok (b.agrees c) := by
  unfold BlockQueue.agrees Buffer.agrees
  rw [h.length_eq, hr.length_eq, h.pieces, hr.pieces]
  by_cases hlength : b.length = c.length
  · rw [if_pos hlength, beq_iff_eq.2 hlength, Bool.true_and]
    rfl
  · rw [if_neg hlength, beq_eq_false_iff_ne.2 hlength, Bool.false_and]
    rfl

end

end BlockQueue

/-! ### Calls -/

namespace Buffer

variable {ι ε : Type} [DecidableEq ι]

/-- Makes a call on block queues. -/
def Call.performIn (call : Call ι ε) (mem : ι → BlockQueue) : Except Trap (Answer ε × (ι → BlockQueue)) :=
  match call with
  | .append i data => ((mem i).put data).map fun q => (.done, update mem i q)
  | .push i byte => ((mem i).put [byte]).map fun q => (.done, update mem i q)
  | .popFront i => (mem i).popFront.map fun (byte, q) => (.byte byte, update mem i q)
  | .skip i n => ((mem i).skip n).map fun q => (.done, update mem i q)
  | .copyOut i room => ((mem i).copyOut room).map fun (x, q) => (.bytes x, update mem i q)
  | .clear i => .ok (.done, update mem i .empty)
  | .transfer i j _ n => ((mem i).transfer n (mem j)).map fun (q, rest) => (.done, update (update mem i rest) j q)
  | .writeWith i n write => ((mem i).writeWith n write).map fun (r, q) => (.count r, update mem i q)
  | .readWith i read => ((mem i).readWith read).map fun (r, q) => (.count r, update mem i q)
  | .toList i => (mem i).toList.map fun x => (.bytes x, mem)
  | .length i => .ok (.count (.ok (mem i).length), mem)
  | .compare i j => ((mem i).agrees (mem j)).map fun r => (.truth r, mem)

/-- Makes one call after the other, up to the first trap. -/
def performAllIn : (calls : List (Call ι ε)) → (ι → BlockQueue) → Except Trap (List (Answer ε) × (ι → BlockQueue))
  | [], mem => .ok ([], mem)
  | call :: calls, mem =>
    match call.performIn mem with
    | .error t => .error t
    | .ok (answer, mem) => (performAllIn calls mem).map fun (answers, mem) => (answer :: answers, mem)

/-- Every block queue represents the buffer of the same name. -/
def RepresentAll (mem : ι → BlockQueue) (bs : ι → Buffer) : Prop := ∀ i, (mem i).Represents (bs i)

theorem RepresentAll.update {mem : ι → BlockQueue} {bs : ι → Buffer} (h : RepresentAll mem bs) (i : ι) {q : BlockQueue}
    {b : Buffer} (hq : q.Represents b) : RepresentAll (update mem i q) (update bs i b) := by
  intro j
  by_cases hj : j = i
  · subst hj
    rw [Function.update_self, Function.update_self]
    exact hq
  · rw [Function.update_of_ne hj, Function.update_of_ne hj]
    exact h j

/-- The same answers are given, and the same buffers represented. -/
def SameOutcome {α : Type} : Except Trap (α × (ι → BlockQueue)) → Except Fault (α × (ι → Buffer)) → Prop :=
  Matches fun x y => x.1 = y.1 ∧ RepresentAll x.2 y.2

omit [DecidableEq ι] in
theorem SameOutcome.of_ok {α : Type} {x : α} {mem : ι → BlockQueue} {r : Except Fault (α × (ι → Buffer))}
    (h : SameOutcome (.ok (x, mem)) r) : ∃ bs, r = .ok (x, bs) ∧ RepresentAll mem bs := by
  cases h with
  | @ok _ y hxy => exact ⟨y.2, by rw [show x = y.1 from hxy.1], hxy.2⟩

omit [DecidableEq ι] in
theorem SameOutcome.exists_ok {α : Type} {x : α} {bs : ι → Buffer} {r : Except Trap (α × (ι → BlockQueue))}
    (h : SameOutcome r (.ok (x, bs))) : ∃ mem, r = .ok (x, mem) ∧ RepresentAll mem bs := by
  cases h with
  | @ok y _ hxy => exact ⟨y.2, by rw [← show y.1 = x from hxy.1], hxy.2⟩

/-- One call. -/
theorem Call.sameOutcome_perform (call : Call ι ε) {mem : ι → BlockQueue} {bs : ι → Buffer} (h : RepresentAll mem bs) :
    SameOutcome (call.performIn mem) (call.perform bs) := by
  cases call with
  | append i data =>
    obtain ⟨q, hput, hq⟩ := (h i).put data
    simp only [performIn, hput]
    exact .ok ⟨rfl, h.update i hq⟩
  | push i byte =>
    obtain ⟨q, hput, hq⟩ := (h i).put [byte]
    simp only [performIn, hput]
    exact .ok ⟨rfl, h.update i hq⟩
  | popFront i =>
    obtain ⟨q, hpop, hq⟩ := (h i).popFront
    simp only [performIn, hpop]
    rcases hb : (bs i).popFront with _ | ⟨byte, b⟩
    · rw [hb] at hq
      have hsame := h.update i hq
      rw [Option.map_none, Option.getD_none, Function.update_eq_self] at hsame
      simp only [perform, hb]
      exact .ok ⟨rfl, hsame⟩
    · rw [hb] at hq
      simp only [perform, hb]
      exact .ok ⟨rfl, h.update i hq⟩
  | skip i n => exact ((h i).skip n).map fun _ _ hq => ⟨rfl, h.update i hq⟩
  | copyOut i room =>
    exact ((h i).copyOut room).map fun _ _ hq => ⟨congrArg Answer.bytes hq.1, h.update i hq.2⟩
  | clear i => exact .ok ⟨rfl, h.update i BlockQueue.represents_empty⟩
  | transfer i j _ n =>
    exact ((h i).transfer (h j) n).map fun _ _ hq => ⟨rfl, (h.update i hq.2).update j hq.1⟩
  | writeWith i n write =>
    exact ((h i).writeWith n write).map fun _ _ hq => ⟨congrArg Answer.count hq.1, h.update i hq.2⟩
  | readWith i read =>
    exact ((h i).readWith read).map fun _ _ hq => ⟨congrArg Answer.count hq.1, h.update i hq.2⟩
  | toList i =>
    simp only [performIn, (h i).toList]
    exact .ok ⟨rfl, h⟩
  | length i =>
    simp only [performIn, perform, (h i).length_eq]
    exact .ok ⟨rfl, h⟩
  | compare i j =>
    simp only [performIn, (h i).agrees (h j)]
    exact .ok ⟨rfl, h⟩

/-- A run of calls. -/
theorem sameOutcome_performAll (calls : List (Call ι ε)) {mem : ι → BlockQueue} {bs : ι → Buffer}
    (h : RepresentAll mem bs) : SameOutcome (performAllIn calls mem) (performAll calls bs) := by
  induction calls generalizing mem bs with
  | nil => exact .ok ⟨rfl, h⟩
  | cons call calls ih =>
    have hcall := call.sameOutcome_perform h
    unfold performAllIn performAll
    generalize call.performIn mem = r, call.perform bs = r' at hcall ⊢
    cases hcall with
    | fault f => exact .fault f
    | ok hsame =>
      obtain ⟨hanswer, hmem⟩ := hsame
      exact (ih hmem).map fun x y hq => ⟨by simp only [hanswer, hq.1], hq.2⟩

/-- What block queues answer, and the bytes that they hold in the end, are what they are for byte strings. -/
theorem allowsAll_performAllIn (calls : List (Call ι ε)) {mem : ι → BlockQueue} {bs : ι → Buffer}
    (hmem : RepresentAll mem bs) :
    match performAllIn calls mem with
    | .ok (answers, mem) => ∃ c, AllowsAll calls (contents bs) (.ok (answers, c)) ∧ ∀ i, (mem i).toList = .ok (c i)
    | .error (.fault f) => AllowsAll calls (contents bs) (.error f)
    | .error .misuse => False := by
  have h := sameOutcome_performAll calls hmem
  have hall := allowsAll_performAll calls bs
  generalize performAllIn calls mem = r, performAll calls bs = r' at h hall
  cases h with
  | fault f => exact hall
  | @ok x y h =>
    obtain ⟨answers, mem'⟩ := x
    obtain ⟨answers', bs'⟩ := y
    obtain ⟨rfl, hmem'⟩ := h
    exact ⟨contents bs', hall, fun i => (hmem' i).toList⟩

/-- Whatever is done with buffers, they hold the bytes that byte strings would hold, and the answers and the faults are
theirs: a call that asks for more than there is, and no other one, is a fault.  Of every buffer, the number that it
keeps is the number of its bytes, its pieces join to them, and it agrees with the buffers that hold the same bytes.  The
loops over blocks in memory do the same, from whatever represents the buffers on, and never misuse a memory or a
number. -/
theorem buffers_are_byte_queues (calls : List (Call ι ε)) (bs : ι → Buffer) :
    AllowsAll calls (contents bs) (seen (performAll calls bs)) ∧
      (∀ b : Buffer, b.length = b.toList.length ∧ b.pieces.flatten = b.toList) ∧
        (∀ a b : Buffer, a.agrees b ↔ a.toList = b.toList) ∧
          ∀ mem : ι → BlockQueue, RepresentAll mem bs →
            match performAllIn calls mem with
            | .ok (answers, mem) =>
              ∃ c, AllowsAll calls (contents bs) (.ok (answers, c)) ∧ ∀ i, (mem i).toList = .ok (c i)
            | .error (.fault f) => AllowsAll calls (contents bs) (.error f)
            | .error .misuse => False :=
  ⟨allowsAll_performAll calls bs, fun b => ⟨b.length_toList.symm, b.flatten_pieces⟩, fun _ _ => agrees_iff,
    fun _ hmem => allowsAll_performAllIn calls hmem⟩

/-- Calls on block queues that are empty at first never misuse a memory or a number: they come to the same fault as
calls on buffers, or give the same answers and leave the segments of the buffers.  Every block then holds a readable
byte and stays inside its memory, the length is the number of readable bytes, and it is zero only without blocks. -/
theorem blocks_valid_of_performAllIn (calls : List (Call ι ε)) :
    match performAllIn calls fun _ => .empty with
    | .ok (answers, mem) =>
      (∀ i, (mem i).Valid ∧ ((mem i).blocks.length = 0 ↔ (mem i).length = 0)) ∧
        ∃ bs, performAll calls (fun _ => .empty) = .ok (answers, bs) ∧ ∀ i, (mem i).queue = (bs i).queue
    | .error (.fault f) => performAll calls (fun _ => .empty) = .error f
    | .error .misuse => False := by
  have h : SameOutcome (performAllIn calls fun _ => .empty) (performAll calls fun _ => .empty) :=
    sameOutcome_performAll calls fun _ => BlockQueue.represents_empty
  generalize performAllIn calls (fun _ => BlockQueue.empty) = r, performAll calls (fun _ => .empty) = r' at h
  cases h with
  | fault f => rfl
  | @ok x y h =>
    obtain ⟨answers, mem⟩ := x
    obtain ⟨answers', bs⟩ := y
    obtain ⟨rfl, hmem⟩ := h
    exact ⟨fun i => ⟨(hmem i).valid, (hmem i).valid.length_blocks_eq_zero_iff⟩, bs, rfl, fun i => (hmem i).queue_eq⟩

end Buffer

end Conduit
