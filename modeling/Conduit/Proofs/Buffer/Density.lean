import Mathlib.Data.List.Chain
import Conduit.Proofs.Buffer.Contents
import Conduit.Proofs.Buffer.Rows

/-!
# Dense buffers

A buffer gets a new segment only if the last one is full, or for a segment that is handed over and is not short or does
not fit into the last one.  So, as long as nothing is consumed but by handing it over as a whole, every two neighbouring
segments hold more than the compaction threshold together: a segment that has a neighbour behind it is never written
again, and one that has none only grows (`RowDense.extendLast`, `RowDense.link`).  Taken in pairs, the segments are
therefore few for the bytes that they hold (`dense_of_performAll`).
-/

namespace Conduit

open Function (update)

/-! ### Dense rows -/

/-- Two segments hold more than the compaction threshold together. -/
def Filled (r s : Segment) : Prop := compactionThreshold < r.bytes.length + s.bytes.length

/-- Nothing of the segments was consumed, and every two neighbours are filled. -/
structure RowDense (row : List Segment) : Prop where
  valid : RowValid row
  start_eq : ∀ s ∈ row, s.start = 0
  filled : row.IsChain Filled

section

variable {row source target : List Segment} {s t : Segment}

theorem RowDense.nil : RowDense [] := ⟨.nil, by simp, .nil⟩

/-- A dense row and a segment behind it that is filled with the last one. -/
theorem RowDense.concat (h : RowDense row) (hs : s.Valid) (hstart : s.start = 0)
    (hfilled : ∀ r ∈ row.getLast?, Filled r s) : RowDense (row ++ [s]) where
  valid := by
    refine h.valid.append fun t ht => ?_
    rw [List.mem_singleton.1 ht]
    exact hs
  start_eq := List.forall_mem_append.2 ⟨h.start_eq, List.forall_mem_singleton.2 hstart⟩
  filled := by
    refine h.filled.append (.singleton s) ?_
    intro r hr t ht
    obtain rfl : s = t := by simpa using ht
    exact hfilled r hr

/-- What a dense row is without its last segment, and what that is for it. -/
theorem RowDense.of_concat (h : RowDense (row ++ [s])) :
    RowDense row ∧ s.Valid ∧ s.start = 0 ∧ ∀ r ∈ row.getLast?, Filled r s := by
  have hmem : s ∈ row ++ [s] := List.mem_append_right _ (List.mem_singleton.2 rfl)
  obtain ⟨hchain, -, hfilled⟩ := List.isChain_append.1 h.filled
  refine ⟨⟨?_, ?_, hchain⟩, h.valid s hmem, h.start_eq s hmem, ?_⟩
  · exact fun t ht => h.valid t (List.mem_append_left _ ht)
  · exact fun t ht => h.start_eq t (List.mem_append_left _ ht)
  · exact fun r hr => hfilled r hr s (by simp)

/-- The room of a dense row is what its last segment does not hold. -/
theorem RowDense.room_add (h : RowDense row) (ht : t ∈ row.getLast?) : room row + t.bytes.length = segmentSize := by
  rcases List.eq_nil_or_concat row with rfl | ⟨init, s, rfl⟩
  · simp at ht
  · rw [List.concat_eq_append] at *
    obtain rfl : s = t := by simpa using ht
    obtain ⟨-, hvalid, hstart, -⟩ := h.of_concat
    have hstop := hvalid.2
    rw [room_append_singleton, Segment.spare]
    rw [Segment.stop, hstart] at *
    omega

/-! ### What keeps rows dense -/

/-- The last segment only grows. -/
theorem RowDense.extendLast (h : RowDense row) {data : Bytes} (hdata : data.length ≤ room row) :
    RowDense (extendLast data row) := by
  rcases List.eq_nil_or_concat row with rfl | ⟨init, s, rfl⟩
  · exact .nil
  · rw [List.concat_eq_append] at *
    obtain ⟨hinit, hvalid, hstart, hfilled⟩ := h.of_concat
    rw [room_append_singleton] at hdata
    rw [extendLast_append_singleton]
    refine hinit.concat (hvalid.push hdata) hstart ?_
    intro r hr
    have hless : compactionThreshold < r.bytes.length + s.bytes.length := hfilled r hr
    show compactionThreshold < r.bytes.length + (s.bytes ++ data).length
    rw [List.length_append]
    omega

/-- A segment that is handed over and becomes a new one is long, or too long for the room in front of it. -/
theorem RowDense.link (h : RowDense row) (hs : s.Valid) (hstart : s.start = 0) : RowDense (link s row) := by
  unfold Conduit.link
  split
  · rename_i hfits
    exact h.extendLast hfits.2
  · rename_i hfits
    refine h.concat hs hstart ?_
    intro r hr
    have hroom := h.room_add hr
    have hpos := (h.valid r (List.mem_of_getLast? hr)).length_pos
    show compactionThreshold < r.bytes.length + s.bytes.length
    simp only [compactionThreshold, segmentSize] at *
    omega

/-- A segment with bytes in it, behind a full one. -/
theorem RowDense.concat_of_full (h : RowDense row) (hroom : room row = 0) {data : Bytes} (hne : data ≠ [])
    (hlen : data.length ≤ segmentSize) : RowDense (row ++ [⟨0, data⟩]) := by
  refine h.concat ⟨hne, ?_⟩ rfl ?_
  · simpa [Segment.stop] using hlen
  · intro r hr
    have hfull := h.room_add hr
    show compactionThreshold < r.bytes.length + data.length
    simp only [compactionThreshold, segmentSize] at *
    omega

theorem RowDense.appendBytes (h : RowDense row) (data : Bytes) : RowDense (appendBytes data row) := by
  -- fill the last segment, then put the next one behind it, then what is left
  induction hn : data.length using Nat.strong_induction_on generalizing row data with
  | _ n ih =>
    subst hn
    have hfirst : RowDense (Conduit.extendLast (data.take (room row)) row) :=
      h.extendLast (by rw [List.length_take]; exact Nat.min_le_left ..)
    rw [appendBytes_eq_extend]
    by_cases hrest : data.drop (room row) = []
    · rw [hrest, appendBytes_nil]
      exact hfirst
    · have hmore : 0 < (data.drop (room row)).length := List.length_pos_iff.2 hrest
      rw [List.length_drop] at hmore
      have hfull : room (Conduit.extendLast (data.take (room row)) row) = 0 := by
        rw [room_extendLast, List.length_take]
        omega
      rw [appendBytes_eq_new hrest hfull]
      refine ih _ ?_ (hfirst.concat_of_full hfull ?_ ?_) _ rfl
      · rw [List.length_drop, List.length_drop]
        simp only [segmentSize]
        omega
      · rw [ne_eq, List.take_eq_nil_iff]
        simp [hrest, segmentSize]
      · exact List.length_take_le ..

/-- Handing over whole segments that are fresh keeps the target dense. -/
theorem RowDense.handOver (ht : RowDense target) (hvalid : RowValid source) (hstart : ∀ s ∈ source, s.start = 0)
    {n : Nat} (hn : (readable source).length ≤ n) :
    RowDense (handOver n target source).1 ∧ (handOver n target source).2 = [] := by
  induction source generalizing n target with
  | nil => exact ⟨ht, rfl⟩
  | cons s source ih =>
    rw [readable_cons, List.length_append] at hn
    obtain ⟨hs, hrest⟩ := List.forall_mem_cons.1 hstart
    have hlink := ht.link (hvalid s List.mem_cons_self) hs
    rw [Conduit.handOver, if_pos (by omega)]
    exact ih hlink (fun t ht => hvalid t (List.mem_cons_of_mem _ ht)) hrest (by omega)

/-! ### How many segments there are -/

/-- Every two segments, taken in pairs from the front, hold more than the threshold. -/
theorem half_length_le (hvalid : RowValid row) (hfilled : row.IsChain Filled) :
    (compactionThreshold + 1) * (row.length / 2) ≤ (readable row).length := by
  induction row using List.twoStepInduction with
  | nil => simp
  | singleton s => simp
  | cons_cons r s row ih _ =>
    obtain ⟨hpair, hrest⟩ := List.isChain_cons_cons.1 hfilled
    have hpair : compactionThreshold < r.bytes.length + s.bytes.length := hpair
    have hle := ih (fun t ht => hvalid t (by simp [ht])) hrest.tail
    rw [readable_cons, readable_cons, List.length_append, List.length_append, List.length_cons, List.length_cons,
      show (row.length + 1 + 1) / 2 = row.length / 2 + 1 by omega, Nat.mul_succ]
    omega

theorem RowDense.length_le (h : RowDense row) :
    row.length ≤ 2 * ((readable row).length / (compactionThreshold + 1)) + 1 := by
  have hhalf : row.length / 2 ≤ (readable row).length / (compactionThreshold + 1) := by
    rw [Nat.le_div_iff_mul_le (Nat.succ_pos _), Nat.mul_comm]
    exact half_length_le h.valid h.filled
  omega

end

/-! ### Dense buffers -/

namespace Buffer

/-- The segments of the buffer are a dense row. -/
def Dense (b : Buffer) : Prop := RowDense b.queue.segments

theorem dense_empty : Dense .empty := RowDense.nil

section

variable {b target : Buffer}

theorem Dense.append (h : b.Dense) (data : Bytes) : (b.append data).Dense := RowDense.appendBytes h data

/-- Moving all of a dense buffer leaves a dense one, and the target dense. -/
theorem Dense.moveTo (h : b.Dense) (ht : target.Dense) :
    (b.moveTo b.length target).1.Dense ∧ (b.moveTo b.length target).2.Dense := by
  have hlen : (readable b.queue.segments).length ≤ min b.length b.length := by
    rw [Nat.min_self]
    exact Nat.le_of_eq b.length_toList
  obtain ⟨hmoved, hleft⟩ := RowDense.handOver ht h.valid h.start_eq hlen
  refine ⟨hmoved, ?_⟩
  show RowDense (handOver _ target.queue.segments b.queue.segments).2
  rw [hleft]
  exact .nil

/-- Neighbouring pieces hold more than the threshold, and so there are few. -/
theorem Dense.pieces (h : b.Dense) :
    b.pieces.IsChain (fun x y => compactionThreshold < x.length + y.length) ∧
      b.segmentCount ≤ 2 * (b.length / (compactionThreshold + 1)) + 1 := by
  refine ⟨(List.isChain_map _).2 h.filled, ?_⟩
  have hle := RowDense.length_le h
  have hlen : (readable b.queue.segments).length = b.length := b.length_toList
  rw [hlen] at hle
  exact hle

end

/-! ### Dense buffers in a run -/

variable {ι ε : Type}

/-- The call puts bytes into a buffer, moves all that one buffer holds to another one, or changes nothing. -/
def Call.Adds (call : Call ι ε) (bs : ι → Buffer) : Prop :=
  match call with
  | .append _ _ => True
  | .push _ _ => True
  | .transfer i _ _ n => n = (bs i).length
  | .toList _ => True
  | .length _ => True
  | .compare _ _ => True
  | _ => False

theorem dense_update [DecidableEq ι] {bs : ι → Buffer} (h : ∀ i, (bs i).Dense) (i : ι) {b : Buffer} (hb : b.Dense) :
    ∀ j, (update bs i b j).Dense :=
  (Function.forall_update_iff bs fun _ b => b.Dense).2 ⟨hb, fun j _ => h j⟩

variable [DecidableEq ι]

/-- Every one of the calls adds, in the state in which it is made. -/
def AllAdd : (calls : List (Call ι ε)) → (ι → Buffer) → Prop
  | [], _ => True
  | call :: calls, bs => call.Adds bs ∧
    match call.perform bs with
    | .error _ => True
    | .ok (_, bs) => AllAdd calls bs

/-- A call that adds to dense buffers succeeds and leaves dense buffers. -/
theorem Call.Adds.dense {call : Call ι ε} {bs : ι → Buffer} (hcall : call.Adds bs) (h : ∀ i, (bs i).Dense) :
    ∃ answer bs', call.perform bs = .ok (answer, bs') ∧ ∀ i, (bs' i).Dense := by
  cases call with
  | append i data => exact ⟨_, _, rfl, dense_update h i ((h i).append data)⟩
  | push i byte => exact ⟨_, _, rfl, dense_update h i ((h i).append [byte])⟩
  | transfer i j distinct n =>
    obtain rfl : n = (bs i).length := hcall
    obtain ⟨hmoved, hleft⟩ := (h i).moveTo (h j)
    have htransfer : (bs i).transfer (bs i).length (bs j) = .ok ((bs i).moveTo (bs i).length (bs j)) :=
      if_pos (Nat.le_refl _)
    refine ⟨.done, _, ?_, dense_update (dense_update h i hleft) j hmoved⟩
    rw [perform, htransfer]
    rfl
  | toList i => exact ⟨_, _, rfl, h⟩
  | length i => exact ⟨_, _, rfl, h⟩
  | compare i j => exact ⟨_, _, rfl, h⟩
  | popFront => exact hcall.elim
  | skip => exact hcall.elim
  | copyOut => exact hcall.elim
  | clear => exact hcall.elim
  | writeWith => exact hcall.elim
  | readWith => exact hcall.elim

theorem AllAdd.dense {calls : List (Call ι ε)} {bs : ι → Buffer} (hcalls : AllAdd calls bs) (h : ∀ i, (bs i).Dense) :
    ∃ answers bs', performAll calls bs = .ok (answers, bs') ∧ ∀ i, (bs' i).Dense := by
  induction calls generalizing bs with
  | nil => exact ⟨[], bs, rfl, h⟩
  | cons call calls ih =>
    obtain ⟨hcall, hrest⟩ := hcalls
    obtain ⟨answer, bs', hp, hdense⟩ := hcall.dense h
    rw [hp] at hrest
    obtain ⟨answers, bs'', hall, hdense'⟩ := ih hrest hdense
    refine ⟨answer :: answers, bs'', ?_, hdense'⟩
    simp only [performAll, hp, hall]
    rfl

/-- Calls on buffers that are empty at first and of which each one adds, where a buffer is consumed only as a whole,
succeed.  Then every two neighbouring segments of a buffer hold more than the compaction threshold, and the segments are
no more than twice the times that one byte more than that goes into the length, and one. -/
theorem dense_of_performAll {calls : List (Call ι ε)} (h : AllAdd calls fun _ => .empty) :
    ∃ answers bs, performAll calls (fun _ => .empty) = .ok (answers, bs) ∧ ∀ i,
      (bs i).pieces.IsChain (fun x y => 4096 < x.length + y.length) ∧
        (bs i).segmentCount ≤ 2 * ((bs i).length / 4097) + 1 := by
  obtain ⟨answers, bs, hall, hdense⟩ := h.dense fun _ => dense_empty
  exact ⟨answers, bs, hall, fun i => (hdense i).pieces⟩

/-- One byte, and behind it what two other buffers hold. -/
def sampleMoves (x y : Bytes) : List (Call (Fin 3) Empty) :=
  [.push 0 1, .append 1 x, .append 2 y, .transfer 1 0 (by decide) x.length, .transfer 2 0 (by decide) y.length]

theorem allAdd_sampleMoves (x y : Bytes) : AllAdd (sampleMoves x y) fun _ => .empty := by
  simp [AllAdd, sampleMoves, Call.Adds, Call.perform, transfer, Except.map, push]

/-- There can be as many segments as that: halves of a segment are not short, and none of them is copied. -/
theorem dense_of_sampleMoves : AllAdd (sampleMoves (List.replicate 4096 2) (List.replicate 4096 3)) (fun _ => .empty) ∧
    ∃ answers bs,
      performAll (sampleMoves (List.replicate 4096 2) (List.replicate 4096 3)) (fun _ => .empty) = .ok (answers, bs) ∧
        (bs 0).length = 8193 ∧ (bs 0).segmentCount = 2 * ((bs 0).length / 4097) + 1 := by
  have hadds := allAdd_sampleMoves (List.replicate 4096 2) (List.replicate 4096 3)
  obtain ⟨answers, bs, hall, hdense⟩ := dense_of_performAll hadds
  have hrun : (performAll (sampleMoves (List.replicate 4096 2) (List.replicate 4096 3)) fun _ => .empty).map
      (fun o => ((o.2 0).length, (o.2 0).segmentCount)) = .ok (8193, 3) := by
    decide +kernel
  rw [hall] at hrun
  obtain ⟨hlen, hcount⟩ := Prod.mk.inj (Except.ok.inj hrun)
  refine ⟨hadds, answers, bs, hall, hlen, Nat.le_antisymm (hdense 0).2 ?_⟩
  rw [hlen, hcount]

end Buffer

end Conduit
