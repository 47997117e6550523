import Conduit.Proofs.Buffer.Representation

/-!
# What a writer leaves in a lent window

A window is lent out of the spare memory of one block, the last one or a new one, and the writer may leave anything in
all of it.  What it commits is read behind the bytes that were there, no byte outside the window changes, and a writer
that commits nothing leaves the pieces of the queue as they were, whether a block was added for it or not (`Commits`).
The rest of what it leaves stays in the memory, but no later call tells it from anything else (`lending_commits`).
-/

namespace Conduit

open Function (update)

/-- The number of bytes that a writer commits; one that fails commits none. -/
def committed {ε : Type} : Except ε Nat → Nat
  | .ok k => k
  | .error _ => 0

/-- The block after a writer has left `left` in the window `w` of it and has committed `k` bytes. -/
def Block.lent (b : Block) (w : Window) (left : Bytes) (k : Nat) : Block :=
  ⟨b.memory.take w.start ++ left ++ b.memory.drop w.stop, b.start, b.stop + k⟩

namespace BlockQueue

/-- The queue lends `w` to a writer of at most `n` bytes: a part of the spare memory of `tail`, which is the last block
or a new one, with `row` before it. -/
structure Lends (q : BlockQueue) (n : Nat) (row : List Block) (tail : Block) (w : Window) : Prop where
  place : q.blocks = row ++ [tail] ∨ q.blocks = row ∧ tail = .fresh
  readable : tail.start ≤ tail.stop
  start_eq : w.start = tail.stop
  stop_le : w.stop ≤ tail.memory.length
  size_eq : w.size = min n segmentSize

/-- The queue after a writer has left `left` in the window and has committed `k` bytes of it. -/
def settle (q : BlockQueue) (row : List Block) (tail : Block) (w : Window) (left : Bytes) (k : Nat) : BlockQueue :=
  ⟨release (row ++ [tail.lent w left k]), q.length + k⟩

/-- What becomes of a queue when `left` is left in the window and `k` bytes of it are committed. -/
structure Commits (q : BlockQueue) (row : List Block) (tail : Block) (w : Window) (left : Bytes) (k : Nat)
    (q' : BlockQueue) : Prop where
  contents : ∃ x, q.toList = .ok x ∧ q'.toList = .ok (x ++ left.take k)
  length : q'.length = q.length + k
  /-- The blocks before the last one, and the last one's memory outside the window, are as they were.  A new block that
  nothing is committed to is released. -/
  blocks : q'.blocks = row ++ [tail.lent w left k] ∨ k = 0 ∧ q.blocks = row ∧ q'.blocks = row
  unchanged : k = 0 → q'.pieces = q.pieces ∧ q'.length = q.length ∧ q'.blocks.length = q.blocks.length

/-- Overwriting a window of a block leaves the bytes in it. -/
theorem lent_of_overwrite {b : Block} {w : Window} {left memory : Bytes} (hstart : w.start ≤ w.stop)
    (hlength : left.length = w.size) (h : overwrite b.memory w.start left = .ok memory) (k : Nat) :
    (⟨memory, b.start, b.stop + k⟩ : Block) = b.lent w left k := by
  have hstop : w.start + left.length = w.stop := by
    rw [hlength, Window.size]
    omega
  unfold overwrite at h
  split at h
  · obtain rfl := Except.ok.inj h
    rw [Block.lent, hstop]
  · cases h

section

variable {q : BlockQueue} {b : Buffer} (h : q.Represents b)

include h

/-- Lending in one equation: what a writer leaves in the window is in the memory afterwards, whatever is committed. -/
theorem Represents.lends {n : Nat} (hn : n ≠ 0) : ∃ row tail, q.Lends n row tail (b.window n) ∧
    ∀ {ε : Type} (write : (w : Window) → Vector UInt8 w.size × Except ε Nat),
      (∀ k ≤ (b.window n).size,
        Represents (q.settle row tail (b.window n) (write (b.window n)).1.toList k)
          (b.fill n ((write (b.window n)).1.toList.take k))) ∧
      q.writeWith n write =
        if committed (write (b.window n)).2 ≤ (b.window n).size then
          .ok ((write (b.window n)).2,
            q.settle row tail (b.window n) (write (b.window n)).1.toList (committed (write (b.window n)).2))
        else .error (.fault (.commit (committed (write (b.window n)).2) (b.window n).size)) := by
  obtain ⟨row, tail, hsound, htail, hlend⟩ := h.lend hn
  have hwindow : b.window n = ⟨tail.stop, tail.stop + min tail.segment.spare n⟩ :=
    Except.ok.inj ((h.window_eq hsound htail).symm.trans (hsound.window_eq n))
  have hstart : (b.window n).start = tail.stop := congrArg Window.start hwindow
  have hstop : (b.window n).stop = tail.stop + min tail.segment.spare n := congrArg Window.stop hwindow
  have hspare := hsound.spare_segment
  have hle := hsound.stop_le
  refine ⟨row, tail, ⟨?_, hsound.start_le, hstart, by omega, b.size_window n⟩, fun write => ?_⟩
  · rcases htail with ⟨-, hq⟩ | ⟨-, hrow, hfresh⟩
    · exact .inl hq
    · exact .inr ⟨hrow.symm, hfresh⟩
  · obtain ⟨memory, hm, hrep, heq⟩ := hlend write
    have hlent := lent_of_overwrite (by omega) (Vector.length_toList ..) hm
    -- an error leaves the memory as a commit of no bytes does
    have hlent₀ : (⟨memory, tail.start, tail.stop⟩ : Block) = _ := hlent 0
    simp only [hlent] at hrep heq
    refine ⟨hrep, ?_⟩
    rw [heq]
    rcases (write (b.window n)).2 with e | k
    · simp only [hlent₀, committed, settle, Nat.add_zero, Nat.zero_le, if_true]
    · rfl

/-- A block without a readable byte was not there before, and is not there afterwards. -/
theorem Represents.blocks_settle {n : Nat} {row : List Block} {tail : Block} {w : Window} (hlends : q.Lends n row tail w)
    (left : Bytes) (k : Nat) :
    (q.settle row tail w left k).blocks = row ++ [tail.lent w left k] ∨
      k = 0 ∧ q.blocks = row ∧ (q.settle row tail w left k).blocks = row := by
  rw [BlockQueue.settle, release_concat]
  split
  · rename_i hempty
    have hstop : tail.start = tail.stop + k := beq_iff_eq.1 hempty
    have hle := hlends.readable
    rcases hlends.place with hblocks | ⟨hblocks, -⟩
    · have hlt := (h.valid.blocks tail (by simp [hblocks])).1
      omega
    · exact .inr ⟨by omega, hblocks, rfl⟩
  · exact .inl rfl

theorem Represents.commits {n : Nat} {row : List Block} {tail : Block} {w : Window} (hlends : q.Lends n row tail w)
    {left : Bytes} {k : Nat} (hk : k ≤ min n segmentSize)
    (hrep : (q.settle row tail w left k).Represents (b.fill n (left.take k))) :
    q.Commits row tail w left k (q.settle row tail w left k) where
  contents := by
    refine ⟨b.toList, h.toList, ?_⟩
    rw [hrep.toList, Buffer.toList_fill, List.take_take, Nat.min_eq_right hk]
  length := rfl
  blocks := h.blocks_settle hlends left k
  unchanged := by
    rintro rfl
    rw [List.take_zero, Buffer.fill_nil] at hrep
    have hview := congrArg List.length (hrep.view_eq.trans h.view_eq.symm)
    rw [view, view, List.length_map, List.length_map] at hview
    exact ⟨hrep.pieces.trans h.pieces.symm, rfl, hview⟩

end

end BlockQueue

namespace Buffer

open BlockQueue

variable {ι ε : Type} [DecidableEq ι]

/-! ### What later calls see -/

/-- The outcome of calls in terms of the segments that the queues show. -/
def seenIn {α : Type} (r : Except Trap (α × (ι → BlockQueue))) : Except Trap (α × (ι → SegmentQueue)) :=
  r.map (Prod.map id fun mem i => (mem i).queue)

omit [DecidableEq ι] in
theorem SameOutcome.seenIn_eq {α : Type} {r : Except Trap (α × (ι → BlockQueue))} {s : Except Fault (α × (ι → Buffer))}
    (h : SameOutcome r s) : seenIn r = (s.mapError .fault).map (Prod.map id fun bs i => (bs i).queue) := by
  cases h with
  | fault f => rfl
  | @ok x y hxy =>
    have hqueues : (fun i => (x.2 i).queue) = fun i => (y.2 i).queue := funext fun i => (hxy.2 i).queue_eq
    show Except.ok (x.1, fun i => (x.2 i).queue) = Except.ok (y.1, fun i => (y.2 i).queue)
    rw [hxy.1, hqueues]

/-- Memories that represent the same buffers cannot be told apart by calls, whatever is in their spare parts. -/
theorem RepresentAll.seenIn_performAllIn {mem mem' : ι → BlockQueue} {bs : ι → Buffer} (h : RepresentAll mem bs)
    (h' : RepresentAll mem' bs) (calls : List (Call ι ε)) :
    seenIn (performAllIn calls mem) = seenIn (performAllIn calls mem') :=
  (sameOutcome_performAll calls h).seenIn_eq.trans (sameOutcome_performAll calls h').seenIn_eq.symm

/-- Two writers that commit the same bytes and give the same answer are not told apart by the calls that follow. -/
theorem RepresentAll.seenIn_writeWith {mem : ι → BlockQueue} {bs : ι → Buffer} (h : RepresentAll mem bs) (i : ι) (n : Nat)
    {write write' : (w : Window) → Vector UInt8 w.size × Except ε Nat}
    (hanswer : (write ((bs i).window n)).2 = (write' ((bs i).window n)).2)
    (hdata : (write ((bs i).window n)).1.toList.take (committed (write ((bs i).window n)).2)
      = (write' ((bs i).window n)).1.toList.take (committed (write ((bs i).window n)).2)) (calls : List (Call ι ε)) :
    seenIn (performAllIn (.writeWith i n write :: calls) mem)
      = seenIn (performAllIn (.writeWith i n write' :: calls) mem) := by
  have hsame : (bs i).writeWith n (fun w => (write w).2.map ((write w).1, ·))
      = (bs i).writeWith n fun w => (write' w).2.map ((write' w).1, ·) := by
    unfold Buffer.writeWith
    simp only [← hanswer]
    rcases hr : (write ((bs i).window n)).2 with e | k
    · rfl
    · rw [hr] at hdata
      simp only [Except.map, show List.take k _ = List.take k _ from hdata]
  have hperform : performAll (.writeWith i n write :: calls) bs = performAll (.writeWith i n write' :: calls) bs := by
    simp only [performAll, Call.perform, hsame]
  refine (sameOutcome_performAll _ h).seenIn_eq.trans ?_
  rw [hperform]
  exact (sameOutcome_performAll _ h).seenIn_eq.symm

/-! ### Lending after any calls -/

/-- Queues that calls leave of empty ones represent the buffers that the same calls leave of empty ones. -/
theorem representAll_of_performAllIn {calls : List (Call ι ε)} {answers : List (Answer ε)} {mem : ι → BlockQueue}
    (h : performAllIn calls (fun _ => .empty) = .ok (answers, mem)) :
    ∃ bs, performAll calls (fun _ => .empty) = .ok (answers, bs) ∧ RepresentAll mem bs := by
  have hsame : SameOutcome (performAllIn calls fun _ => .empty) (performAll calls fun _ => .empty) :=
    sameOutcome_performAll calls fun _ => represents_empty
  rw [h] at hsame
  exact hsame.of_ok

theorem exists_performAllIn {calls : List (Call ι ε)} {answers : List (Answer ε)} {bs : ι → Buffer}
    (h : performAll calls (fun _ => .empty) = .ok (answers, bs)) :
    ∃ mem, performAllIn calls (fun _ => .empty) = .ok (answers, mem) ∧ RepresentAll mem bs := by
  have hsame : SameOutcome (performAllIn calls fun _ => .empty) (performAll calls fun _ => .empty) :=
    sameOutcome_performAll calls fun _ => represents_empty
  rw [h] at hsame
  exact hsame.exists_ok

/-- Lending after any calls.  The window is a part of the spare memory of one block and shows as many bytes as are asked
for, up to the size of a segment, and which one it is does not depend on the writer, so that this is about writers that
look into the memory as well.  Whatever the writer leaves in the window: the bytes it commits are read behind those that
were there, and if there are none, because it fails or writes nothing, then nothing of the queue has changed that can be
read.  No later calls tell what else it has left.  Committing more than the window shows is a fault.  Buffers do the
same. -/
theorem lending_commits {calls : List (Call ι ε)} {answers : List (Answer ε)} {mem : ι → BlockQueue}
    (h : performAllIn calls (fun _ => .empty) = .ok (answers, mem)) (i : ι) {n : Nat} (hn : 0 < n) :
    ∃ row tail w bs, (mem i).Lends n row tail w ∧ performAll calls (fun _ => .empty) = .ok (answers, bs) ∧
      ∀ write : (w : Window) → Vector UInt8 w.size × Except ε Nat,
        Matches (fun x y => x.1 = y.1 ∧ x.2.queue = y.2.queue) ((mem i).writeWith n write)
            ((bs i).writeWith n fun w => (write w).2.map ((write w).1, ·)) ∧
          if committed (write w).2 ≤ w.size then
            ∃ q, (mem i).writeWith n write = .ok ((write w).2, q) ∧
              (mem i).Commits row tail w (write w).1.toList (committed (write w).2) q ∧
              (committed (write w).2 = 0 → ∀ later : List (Call ι ε),
                seenIn (performAllIn later (update mem i q)) = seenIn (performAllIn later mem)) ∧
              ∀ write' : (w : Window) → Vector UInt8 w.size × Except ε Nat, (write w).2 = (write' w).2 →
                (write w).1.toList.take (committed (write w).2) = (write' w).1.toList.take (committed (write w).2) →
                  ∀ later, seenIn (performAllIn (.writeWith i n write :: later) mem)
                    = seenIn (performAllIn (.writeWith i n write' :: later) mem)
          else (mem i).writeWith n write = .error (.fault (.commit (committed (write w).2) w.size)) := by
  obtain ⟨bs, hbs, hmem⟩ := representAll_of_performAllIn h
  obtain ⟨row, tail, hlends, hlend⟩ := (hmem i).lends (Nat.ne_of_gt hn)
  refine ⟨row, tail, (bs i).window n, bs, hlends, hbs, fun write => ⟨?_, ?_⟩⟩
  · exact ((hmem i).writeWith n write).mono fun _ _ hq => ⟨hq.1, hq.2.queue_eq⟩
  · obtain ⟨hrep, heq⟩ := hlend write
    rw [heq]
    split
    · rename_i hk
      have hcommits := (hmem i).commits hlends (by rw [← size_window]; exact hk) (hrep _ hk)
      refine ⟨_, rfl, hcommits, fun hzero later => ?_, fun write' hanswer hdata => ?_⟩
      · have hq := hrep _ hk
        rw [hzero, List.take_zero, fill_nil] at hq
        have hsame := hmem.update i hq
        rw [Function.update_eq_self, ← hzero] at hsame
        exact hsame.seenIn_performAllIn hmem later
      · exact hmem.seenIn_writeWith i n hanswer hdata
    · rfl

/-- A writer that has failed leaves nines in all of its window; the next one leaves sevens and commits two of them. -/
theorem lending_commits_after_failure : ∃ answers mem,
    performAllIn [Call.append () [1, 2, 3], .writeWith () 4 fun w => (Vector.replicate w.size 9, .error ())]
        (fun _ => .empty) = .ok (answers, mem) ∧
      ∃ q, (mem ()).writeWith 4 (fun w => (Vector.replicate w.size 7, (.ok 2 : Except Unit Nat))) = .ok (.ok 2, q) ∧
        q.toList = .ok [1, 2, 3, 7, 7] := by
  obtain ⟨bs, hbs, hheld⟩ : ∃ bs, performAll
      [Call.append () [1, 2, 3], .writeWith () 4 fun w => (Vector.replicate w.size 9, .error ())] (fun _ => .empty)
        = .ok ([.done, .count (.error ())], bs) ∧ (bs ()).toList = [1, 2, 3] :=
    ⟨_, rfl, by simp only [Function.update_self, toList_append, toList_empty, List.nil_append]⟩
  obtain ⟨mem, hmem, hrep⟩ := exists_performAllIn hbs
  obtain ⟨row, tail, w, _, hlends, -, hlend⟩ := lending_commits hmem () (n := 4) (by decide)
  have hsize : w.size = 4 := by rw [hlends.size_eq]; rfl
  have hwrite := (hlend fun w => (Vector.replicate w.size 7, .ok 2)).2
  rw [if_pos (by rw [hsize]; decide)] at hwrite
  obtain ⟨q, heq, hcommits, -⟩ := hwrite
  refine ⟨_, mem, hmem, q, heq, ?_⟩
  obtain ⟨x, hx, hq⟩ := hcommits.contents
  obtain rfl : x = [1, 2, 3] := Except.ok.inj (hx.symm.trans ((hrep ()).toList.trans (congrArg _ hheld)))
  rw [hq, Vector.toList_replicate, hsize]
  rfl

end Buffer

end Conduit
