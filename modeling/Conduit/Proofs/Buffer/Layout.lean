import Conduit.Proofs.Buffer.Lending

/-!
# The layout of buffers

Which blocks a buffer keeps, what is in their memory and where their readable bytes begin and end depends on how many
bytes were taken from the front and on the bytes that were put behind the last one, but not on the calls that took them
or put them (`same_layout`).  Taking `n` bytes, a byte or a block at a time, leaves `BlockQueue.drop n`; putting a byte
string is putting its first byte and then the others (`BlockQueue.put_cons`), and so it can be cut anywhere.
-/

namespace Conduit

open Function (update)

/-! ### Putting bytes piece by piece -/

/-- What is written in two pieces is as if written at once. -/
theorem Block.extend_append {b : Block} (h : b.stop ≤ b.memory.length) (x y : Bytes) :
    b.extend (x ++ y) = (b.extend x).extend y := by
  have hlen : (b.memory.take b.stop ++ x).length = b.stop + x.length := by
    rw [List.length_append, List.length_take, Nat.min_eq_left h]
  have htake : (b.memory.take b.stop ++ x ++ b.memory.drop (b.stop + x.length)).take (b.stop + x.length)
      = b.memory.take b.stop ++ x := List.take_left' hlen
  have hdrop : (b.memory.take b.stop ++ x ++ b.memory.drop (b.stop + x.length)).drop (b.stop + x.length + y.length)
      = b.memory.drop (b.stop + x.length + y.length) := by
    rw [← hlen, List.drop_length_add_append, hlen, List.drop_drop]
  simp only [Block.extend]
  rw [htake, hdrop, List.length_append, ← List.append_assoc, Nat.add_assoc]

namespace BlockQueue

theorem tailFor_concat {n : Nat} (hn : 0 < n) (hn' : n ≤ segmentSize) (row : List Block) {tail : Block}
    (hsound : tail.Sound) (hroom : n ≤ tail.segment.spare) : tailFor n (row ++ [tail]) = .ok (row, tail) := by
  rw [tailFor, if_pos ⟨hn, hn'⟩, List.getLast?_concat, List.dropLast_concat]
  simp only [hsound.spare_eq, ok_bind]
  rw [if_neg (Nat.not_lt_of_le hroom)]
  rfl

/-- Putting a byte and then others is putting them at once: if the block has room for more than the byte, it is the one
that the others go to. -/
theorem put_cons {q : BlockQueue} (h : RowSound q.blocks) (byte : UInt8) (data : Bytes) :
    q.put (byte :: data) = q.put [byte] >>= fun q => q.put data := by
  have hcons (l : Bytes) : byte :: l ≠ [] := List.cons_ne_nil byte l
  obtain ⟨row, tail, htail, hrow, hsound, hcases⟩ := tailFor_eq h Nat.one_pos (by decide)
  have hspare := hcases.spare_pos
  obtain ⟨spare, hsucc⟩ : ∃ spare, tail.segment.spare = spare + 1 := ⟨_, (Nat.sub_add_cancel hspare).symm⟩
  obtain ⟨-, hsound', hsegment⟩ := hsound.push_eq [byte]
  have hfirst : [byte].take (spare + 1) = [byte] := by simp
  rw [hsucc, hfirst] at hsound' hsegment
  rw [put_round htail hsound hspare (hcons data), put_round htail hsound hspare (hcons []), hsucc, hfirst,
    List.take_succ_cons, List.drop_succ_cons, List.drop_succ_cons, List.drop_nil, put_nil, ok_bind]
  by_cases hmore : spare = 0 ∨ data = []
  · -- the round is over with the first byte
    have htake : data.take spare = [] := List.take_eq_nil_iff.2 hmore
    rcases hmore with rfl | rfl
    · rw [htake, List.drop_zero]
      simp
    · rw [htake, List.drop_nil]
  · obtain ⟨hpos, hdata⟩ := not_or.1 hmore
    have hroom : (tail.extend [byte]).segment.spare = spare := by
      rw [hsegment, spare_push, hsucc]
      rfl
    have htail' := tailFor_concat Nat.one_pos (by decide) row hsound' (by rw [hroom]; omega)
    rw [put_round htail' hsound' (by rw [hroom]; omega) hdata, hroom, ← Block.extend_append hsound.stop_le,
      List.singleton_append]
    congr 2
    simp only [List.length_cons, List.length_nil]
    omega

theorem put_append {q : BlockQueue} (h : RowSound q.blocks) (x y : Bytes) :
    q.put (x ++ y) = q.put x >>= fun q => q.put y := by
  induction x generalizing q with
  | nil => rw [List.nil_append, put_nil, ok_bind]
  | cons byte x ih =>
    obtain ⟨q', hput, hsound, -⟩ := put_eq h [byte]
    rw [List.cons_append, put_cons h, put_cons h byte x, hput, ok_bind, ok_bind, ih hsound]

/-! ### Taking bytes piece by piece -/

theorem cut_cut (m n : Nat) (row : List Block) : cut n (cut m row) = cut (m + n) row := by
  induction row generalizing m n with
  | nil => rfl
  | cons head row ih =>
    rw [cut, cut]
    by_cases hm : m < head.stop - head.start
    · have hleft : (head.drop m).stop - (head.drop m).start = head.stop - head.start - m := by
        simp only [Block.drop]
        omega
      rw [if_pos hm, cut, hleft]
      by_cases hn : n < head.stop - head.start - m
      · rw [if_pos hn, if_pos (by omega), Block.drop, Block.drop, Block.drop, Nat.add_assoc]
      · have hrest : m + n - (head.stop - head.start) = n - (head.stop - head.start - m) := by omega
        rw [if_neg hn, if_neg (by omega), hrest]
    · have hrest : m + n - (head.stop - head.start) = m - (head.stop - head.start) + n := by omega
      rw [if_neg hm, if_neg (by omega), ih, hrest]

theorem drop_drop (q : BlockQueue) (m n : Nat) : (q.drop m).drop n = q.drop (m + n) := by
  rw [drop, drop, drop, cut_cut, Nat.sub_sub]

theorem Represents.drop_zero {q : BlockQueue} {b : Buffer} (h : q.Represents b) : q.drop 0 = q := by
  rw [BlockQueue.drop, cut_zero h.sound h.rowValid, Nat.sub_zero]

/-- A reader takes what it says that it uses; one that fails takes nothing. -/
theorem Represents.of_readWith {q q' : BlockQueue} {b : Buffer} (h : q.Represents b) {ε : Type}
    {read : Bytes → Except ε Nat} {r : Except ε Nat} (hread : q.readWith read = .ok (r, q')) : q' = q.drop (committed r) := by
  rcases hq : q.blocks with _ | ⟨head, row⟩
  · rw [BlockQueue.readWith, hq] at hread
    cases hread
    exact h.drop_zero.symm
  · rw [h.readWith_eq hq] at hread
    rcases hr : read b.head with e | n
    · rw [hr] at hread
      cases hread
      exact h.drop_zero.symm
    · rw [hr] at hread
      simp only at hread
      split at hread
      · cases hread
        rfl
      · cases hread

end BlockQueue

namespace Buffer

open BlockQueue

variable {ι ε : Type}

/-! ### Calls that take bytes -/

/-- The call takes the first `n` bytes of the buffer `i`, if there are so many. -/
inductive Call.Takes (i : ι) : Call ι ε → Nat → Prop where
  | popFront : Takes i (.popFront i) 1
  | skip (n : Nat) : Takes i (.skip i n) n
  | copyOut (room : Bytes) : Takes i (.copyOut i room) room.length
  | transfer {j : ι} (distinct : i ≠ j) (n : Nat) : Takes i (.transfer i j distinct n) n

/-- The calls take the first `n` bytes of the buffer `i` one after the other, if there are so many. -/
inductive TakeAll (i : ι) : List (Call ι ε) → Nat → Prop where
  | nil : TakeAll i [] 0
  | cons {call : Call ι ε} {calls : List (Call ι ε)} {m n : Nat} (h : call.Takes i m) (hs : TakeAll i calls n) :
    TakeAll i (call :: calls) (m + n)

theorem TakeAll.single {i : ι} {call : Call ι ε} {n : Nat} (h : call.Takes i n) : TakeAll i [call] n := .cons h .nil

theorem takeAll_replicate (i : ι) (n : Nat) : TakeAll i (List.replicate n (.popFront i : Call ι ε)) n := by
  induction n with
  | zero => exact .nil
  | succ n ih =>
    rw [List.replicate_succ, Nat.add_comm]
    exact .cons .popFront ih

theorem takeAll_map_skip (i : ι) (parts : List Nat) : TakeAll i (parts.map (.skip i : Nat → Call ι ε)) parts.sum := by
  induction parts with
  | nil => exact .nil
  | cons n parts ih => exact .cons (.skip n) ih

/-- The number of bytes that an answer counts. -/
def Answer.counted : Answer ε → Nat
  | .count r => committed r
  | _ => 0

/-! ### Runs of calls -/

variable [DecidableEq ι]

section

variable {mem mem' : ι → BlockQueue} {bs : ι → Buffer} {i : ι}

theorem Call.Takes.performIn {call : Call ι ε} {n : Nat} (hcall : call.Takes i n) (h : RepresentAll mem bs)
    (hn : n ≤ (bs i).length) : ∃ answer mem', call.performIn mem = .ok (answer, mem') ∧ mem' i = (mem i).drop n := by
  cases hcall with
  | popFront =>
    rcases hq : (mem i).blocks with _ | ⟨head, row⟩
    · rw [(h i).length_eq_zero hq] at hn
      cases hn
    · obtain ⟨byte, -, hpop⟩ := (h i).popFront_eq hq
      exact ⟨_, _, by rw [Call.performIn, hpop]; rfl, Function.update_self ..⟩
  | skip => exact ⟨_, _, by rw [Call.performIn, (h i).skip_eq hn]; rfl, Function.update_self ..⟩
  | copyOut room => exact ⟨_, _, by rw [Call.performIn, (h i).copyOut_eq hn]; rfl, Function.update_self ..⟩
  | @transfer j distinct =>
    obtain ⟨q, htransfer, -⟩ := (h i).transfer_eq (h j) hn
    refine ⟨_, _, by rw [Call.performIn, htransfer]; rfl, ?_⟩
    rw [Function.update_of_ne distinct, Function.update_self]

theorem TakeAll.performAllIn {taking : List (Call ι ε)} {n : Nat} (htaking : TakeAll i taking n) (h : RepresentAll mem bs)
    (hn : n ≤ (bs i).length) :
    ∃ answers mem', performAllIn taking mem = .ok (answers, mem') ∧ mem' i = (mem i).drop n := by
  induction htaking generalizing mem bs with
  | nil => exact ⟨[], mem, rfl, (h i).drop_zero.symm⟩
  | @cons call calls m n hcall _ ih =>
    obtain ⟨answer, mem', hperform, hmem'⟩ := hcall.performIn h (by omega)
    obtain ⟨bs', -, h'⟩ := SameOutcome.of_ok (hperform ▸ call.sameOutcome_perform h)
    have hlength : (bs' i).length = (bs i).length - m := by
      rw [← (h' i).length_eq, hmem', ← (h i).length_eq]
      rfl
    obtain ⟨answers, mem'', hall, hmem''⟩ := ih h' (by omega)
    refine ⟨answer :: answers, mem'', ?_, by rw [hmem'', hmem', drop_drop]⟩
    simp only [Buffer.performAllIn, hperform, hall]
    rfl

/-- Readers take what their answers count. -/
theorem of_performAllIn_readWith {reads : List (Bytes → Except ε Nat)} {answers : List (Answer ε)}
    (h : RepresentAll mem bs) (hrun : performAllIn (reads.map (.readWith i)) mem = .ok (answers, mem')) :
    mem' i = (mem i).drop (answers.map Answer.counted).sum := by
  induction reads generalizing mem bs answers with
  | nil =>
    cases hrun
    exact (h i).drop_zero.symm
  | cons read reads ih =>
    rw [List.map_cons, performAllIn] at hrun
    have hcall := (Call.readWith i read).sameOutcome_perform h
    rw [Call.performIn] at hrun hcall
    rcases hread : (mem i).readWith read with t | ⟨r, q⟩
    · rw [hread] at hrun
      cases hrun
    · rw [hread] at hrun hcall
      obtain ⟨bs', -, h'⟩ := SameOutcome.of_ok hcall
      simp only [Except.map] at hrun
      rcases hall : performAllIn (reads.map (.readWith i)) (update mem i q) with t | ⟨answers', mem''⟩
      · rw [hall] at hrun
        cases hrun
      · rw [hall] at hrun
        cases hrun
        rw [ih h' hall, Function.update_self, (h i).of_readWith hread, drop_drop]
        rfl

/-- Putting parts one by one puts what they join to. -/
theorem exists_performAllIn_append (h : RepresentAll mem bs) (i : ι) (parts : List Bytes) :
    ∃ answers mem', performAllIn (parts.map (.append i : Bytes → Call ι ε)) mem = .ok (answers, mem') ∧
      (mem i).put parts.flatten = .ok (mem' i) := by
  induction parts generalizing mem bs with
  | nil => exact ⟨[], mem, rfl, put_nil _⟩
  | cons data parts ih =>
    obtain ⟨q, hput, hq⟩ := (h i).put data
    obtain ⟨answers, mem', hall, hput'⟩ := ih (h.update i hq)
    rw [Function.update_self] at hput'
    refine ⟨.done :: answers, mem', ?_, by rw [List.flatten_cons, put_append (h i).sound, hput, ok_bind, hput']⟩
    simp only [List.map_cons, performAllIn, Call.performIn, hput, Except.map, hall]

/-- Pushing a byte is appending it alone. -/
theorem performAllIn_push (i : ι) (data : Bytes) (mem : ι → BlockQueue) :
    performAllIn (data.map (.push i : UInt8 → Call ι ε)) mem
      = performAllIn ((data.map fun byte => [byte]).map (.append i)) mem := by
  induction data generalizing mem with
  | nil => rfl
  | cons byte data ih =>
    have hpush : (Call.push i byte : Call ι ε).performIn mem = (Call.append i [byte]).performIn mem := rfl
    rw [List.map_cons, List.map_cons, List.map_cons, performAllIn, performAllIn, hpush]
    simp only [ih]

end

/-! ### Layouts after calls -/

/-- The calls succeed in memory and on the buffers, with the same answers, and leave the blocks of `q` and the segments
of `b` to `i`. -/
def Leaves (mem : ι → BlockQueue) (bs : ι → Buffer) (i : ι) (calls : List (Call ι ε)) (q : BlockQueue) (b : Buffer) :
    Prop :=
  ∃ answers mem' bs', performAllIn calls mem = .ok (answers, mem') ∧ performAll calls bs = .ok (answers, bs') ∧
    mem' i = q ∧ bs' i = b

theorem RepresentAll.leaves {mem mem' : ι → BlockQueue} {bs : ι → Buffer} {i : ι} (h : RepresentAll mem bs)
    {calls : List (Call ι ε)} {answers : List (Answer ε)} (hrun : performAllIn calls mem = .ok (answers, mem'))
    {b : Buffer} (hb : (mem' i).Represents b) : Leaves mem bs i calls (mem' i) b := by
  obtain ⟨bs', hbs', h'⟩ := SameOutcome.of_ok (hrun ▸ sameOutcome_performAll calls h)
  exact ⟨answers, mem', bs', hrun, hbs', rfl, eq_of_queue_eq ((h' i).queue_eq.symm.trans hb.queue_eq)⟩

/-- Ways to take the first `n` bytes of the buffer `i`: one by one, by discarding them at once or in parts, by copying
them, by handing them over, or by readers that use as many in all. -/
inductive Taking (mem : ι → BlockQueue) (i : ι) (n : Nat) : List (Call ι ε) → Prop where
  | bytes : Taking mem i n (List.replicate n (.popFront i))
  | skip : Taking mem i n [.skip i n]
  | parts (parts : List Nat) (hsum : parts.sum = n) : Taking mem i n (parts.map (.skip i))
  | copyOut (room : Bytes) (hroom : room.length = n) : Taking mem i n [.copyOut i room]
  | transfer (j : ι) (distinct : i ≠ j) : Taking mem i n [.transfer i j distinct n]
  | readers (reads : List (Bytes → Except ε Nat)) (answers : List (Answer ε)) (mem' : ι → BlockQueue)
      (hrun : performAllIn (reads.map (.readWith i)) mem = .ok (answers, mem'))
      (hsum : (answers.map Answer.counted).sum = n) : Taking mem i n (reads.map (.readWith i))

/-- Ways to put `data` behind the last byte of the buffer `i`: at once, in parts, or byte by byte. -/
inductive Putting (i : ι) (data : Bytes) : List (Call ι ε) → Prop where
  | append : Putting i data [.append i data]
  | parts (parts : List Bytes) (hjoin : parts.flatten = data) : Putting i data (parts.map (.append i))
  | bytes : Putting i data (data.map (.push i))

theorem Taking.leaves {mem : ι → BlockQueue} {bs : ι → Buffer} {i : ι} {n : Nat} {taking : List (Call ι ε)}
    (htaking : Taking mem i n taking) (h : RepresentAll mem bs) (hn : n ≤ (bs i).length) :
    Leaves mem bs i taking ((mem i).drop n) ((bs i).drop n) := by
  have hdrop := (h i).drop n
  have htakes {taking : List (Call ι ε)} (htaking : TakeAll i taking n) :
      Leaves mem bs i taking ((mem i).drop n) ((bs i).drop n) := by
    obtain ⟨answers, mem', hrun, hmem'⟩ := htaking.performAllIn h hn
    rw [← hmem'] at hdrop ⊢
    exact h.leaves hrun hdrop
  cases htaking with
  | bytes => exact htakes (takeAll_replicate i n)
  | skip => exact htakes (.single (.skip n))
  | parts parts hsum => exact htakes (hsum ▸ takeAll_map_skip i parts)
  | copyOut room hroom => exact htakes (.single (hroom ▸ .copyOut room))
  | transfer j distinct => exact htakes (.single (.transfer distinct n))
  | readers reads answers mem' hrun hsum =>
    rw [← hsum, ← of_performAllIn_readWith h hrun] at hdrop ⊢
    exact h.leaves hrun hdrop

theorem Putting.leaves {mem : ι → BlockQueue} {bs : ι → Buffer} {i : ι} {data : Bytes} {putting : List (Call ι ε)}
    (hputting : Putting i data putting) (h : RepresentAll mem bs) {q : BlockQueue} (hput : (mem i).put data = .ok q) :
    Leaves mem bs i putting q ((bs i).append data) := by
  obtain ⟨q', hput', hq⟩ := (h i).put data
  obtain rfl : q = q' := Except.ok.inj (hput.symm.trans hput')
  have hputs (parts : List Bytes) (hjoin : parts.flatten = data)
      (hsame : performAllIn putting mem = performAllIn (parts.map (.append i)) mem) :
      Leaves mem bs i putting q ((bs i).append data) := by
    obtain ⟨answers, mem', hrun, hmem'⟩ := exists_performAllIn_append h i parts
    rw [← hsame] at hrun
    rw [hjoin] at hmem'
    obtain rfl : q = mem' i := Except.ok.inj (hput.symm.trans hmem')
    exact h.leaves hrun hq
  cases hputting with
  | append => exact hputs [data] (by simp) rfl
  | parts parts hjoin => exact hputs parts hjoin rfl
  | bytes =>
    have hjoin : (data.map fun byte => [byte]).flatten = data := by
      rw [← List.flatMap_def, List.flatMap_singleton']
    exact hputs _ hjoin (performAllIn_push i data mem)

/-- After any calls, all ways to take the first bytes of a buffer succeed and leave the same blocks, with the same memory
and the same offsets, and the same segments: those of which as many bytes are dropped.  So do all ways to put a byte
string behind the last byte. -/
theorem same_layout {calls : List (Call ι ε)} {answers : List (Answer ε)} {mem : ι → BlockQueue}
    (h : performAllIn calls (fun _ => .empty) = .ok (answers, mem)) (i : ι) :
    ∃ bs, performAll calls (fun _ => .empty) = .ok (answers, bs) ∧
      (∀ n ≤ (mem i).length, ∀ taking : List (Call ι ε), Taking mem i n taking →
        Leaves mem bs i taking ((mem i).drop n) ((bs i).drop n)) ∧
      ∀ data : Bytes, ∃ q, ∀ putting : List (Call ι ε), Putting i data putting →
        Leaves mem bs i putting q ((bs i).append data) := by
  obtain ⟨bs, hbs, hmem⟩ := representAll_of_performAllIn h
  refine ⟨bs, hbs, ?_, ?_⟩
  · intro n hn taking htaking
    rw [(hmem i).length_eq] at hn
    exact htaking.leaves hmem hn
  · intro data
    obtain ⟨q, hput, -⟩ := (hmem i).put data
    exact ⟨q, fun putting hputting => hputting.leaves hmem hput⟩

/-- Two bytes are left in the first block, and two are in the second one. -/
def sampleCalls : List (Call Unit Unit) := [.append () (List.replicate 8194 7), .skip () 8190]

/-- A reader that fails, one that uses all that it is shown, and one that uses a byte. -/
def sampleReaders : List (Bytes → Except Unit Nat) := [fun _ => .error (), fun shown => .ok shown.length, fun _ => .ok 1]

/-- The readers take three bytes out of two blocks, and leave what three bytes taken one by one leave. -/
theorem same_layout_of_sampleCalls : ∃ answers mem bs,
    performAllIn sampleCalls (fun _ => .empty) = .ok (answers, mem) ∧ 3 ≤ (mem ()).length ∧
      Taking mem () 3 (sampleReaders.map (.readWith ())) ∧
      Leaves mem bs () (sampleReaders.map (.readWith ())) ((mem ()).drop 3) ((bs ()).drop 3) ∧
      Leaves mem bs () (List.replicate 3 (.popFront () : Call Unit Unit)) ((mem ()).drop 3) ((bs ()).drop 3) := by
  have hrun : ((performAll sampleCalls fun _ => .empty).toOption.bind fun o =>
      (performAll (sampleReaders.map (.readWith ())) o.2).toOption.map fun p =>
        ((o.2 ()).length, (p.1.map Answer.counted).sum)) = some (4, 3) := by
    decide +kernel
  rcases hcalls : performAll sampleCalls fun _ => .empty with f | ⟨answers, bs⟩
  · rw [hcalls] at hrun
    cases hrun
  · rw [hcalls] at hrun
    obtain ⟨mem, hmem, hrep⟩ := exists_performAllIn hcalls
    obtain ⟨bs', hbs', htaking, -⟩ := same_layout hmem ()
    obtain rfl : bs = bs' := (Prod.mk.inj (Except.ok.inj (hcalls.symm.trans hbs'))).2
    have hreaders := sameOutcome_performAll (sampleReaders.map (.readWith ())) hrep
    rcases hread : performAll (sampleReaders.map (.readWith ())) bs with f | ⟨taken, bs'⟩
    · simp [Except.toOption, hread] at hrun
    · simp only [Except.toOption, Option.bind_some, hread, Option.map_some, Option.some.injEq, Prod.mk.injEq] at hrun
      obtain ⟨hlength, hsum⟩ := hrun
      rw [hread] at hreaders
      obtain ⟨mem', hread', -⟩ := hreaders.exists_ok
      have hn : 3 ≤ (mem ()).length := by
        rw [(hrep ()).length_eq, hlength]
        decide
      have hways : Taking mem () 3 (sampleReaders.map (.readWith ())) := .readers _ _ _ hread' hsum
      exact ⟨answers, mem, bs, hmem, hn, hways, htaking 3 hn _ hways, htaking 3 hn _ .bytes⟩

end Buffer

end Conduit
