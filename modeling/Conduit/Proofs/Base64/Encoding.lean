import Conduit.Proofs.Base64.Steps

/-!
# Encoding in steps

A sink lends each step of encoding one window of its unsent text (`encodeStep_eq_writeWith`).  The text for `stepSize`
bytes is as long as a segment, and so the window has room for all of it, however the unsent text is laid out
(`writeWith_encodeSlice`).  All steps but the last are whole groups: pads stand at the end of the text or nowhere.
Together, what is encoded is the text of the whole, without fail, and no byte that is pending is lost on the way
(`encode_stepwise`).
-/

namespace Conduit

/-- All pieces but the last have the whole length. -/
theorem length_of_mem_dropLast_chunks {α : Type} {n : Nat} (hn : 0 < n) {l c : List α}
    (h : c ∈ (chunks n l).dropLast) : c.length = n := by
  fun_induction chunks n l with
  | case1 => cases h
  | case2 a l ih =>
    by_cases hrest : chunks n (l.drop (n - 1)) = []
    · rw [hrest] at h
      cases h
    · rw [List.dropLast_cons_of_ne_nil hrest] at h
      rcases List.mem_cons.1 h with rfl | h
      · -- something is left behind the first piece, so it is not cut short
        have hlt : n - 1 < l.length := by
          refine Nat.lt_of_not_le fun hle => hrest ?_
          rw [List.drop_eq_nil_of_le hle, chunks_nil]
        rw [List.length_cons, List.length_take, Nat.min_eq_left (Nat.le_of_lt hlt), Nat.sub_add_cancel hn]
      · exact ih h

namespace Base64.Engine

variable {e : Engine}

/-! ### Where the pads are -/

theorem pad_notMem_quantum (x y z : UInt8) : pad ∉ e.quantum x y z := by
  intro h
  obtain ⟨v, -, hv⟩ := List.mem_map.1 h
  exact e.alphabet.symbol_ne_pad _ hv

/-- The number of symbols that are missing in the last quantum of the text for `n` bytes. -/
def padLength (n : Nat) : Nat := (groupSize - n % groupSize) % groupSize

/-- A text is symbols and, behind them, the filler for those that are missing. -/
theorem encode_eq_append_filler (e : Engine) (l : Bytes) :
    ∃ symbols, pad ∉ symbols ∧ e.encode l = symbols ++ e.filler (padLength l.length) := by
  fun_induction encode e l with
  | case1 x y z rest ih =>
    obtain ⟨symbols, hpad, hrest⟩ := ih
    have hpads : padLength (x :: y :: z :: rest).length = padLength rest.length := by
      simp only [padLength, groupSize, List.length_cons]
      omega
    refine ⟨e.quantum x y z ++ symbols, ?_, ?_⟩
    · exact fun h => (List.mem_append.1 h).elim (pad_notMem_quantum x y z) hpad
    · rw [hpads, hrest, List.append_assoc]
  | case2 x y => exact ⟨_, fun h => pad_notMem_quantum x y 0 (List.mem_of_mem_take h), rfl⟩
  | case3 x => exact ⟨_, fun h => pad_notMem_quantum x 0 0 (List.mem_of_mem_take h), rfl⟩
  | case4 => exact ⟨[], by simp, by simp [padLength, filler, groupSize]⟩

theorem pad_notMem_encode {l : Bytes} (hl : l.length % groupSize = 0) : pad ∉ e.encode l := by
  obtain ⟨symbols, hpad, htext⟩ := e.encode_eq_append_filler l
  have hfiller : e.filler (padLength l.length) = [] := by simp [padLength, filler, hl]
  rwa [htext, hfiller, List.append_nil]

end Base64.Engine

open Base64

namespace Base64Sink

variable {σ : Type} {e : Engine}

/-! ### One step -/

/-- Writes the text for a step to the front of a window, if the window has room for it. -/
def encodeSlice (e : Engine) (step : Bytes) (w : Window) : Except Error (Vector UInt8 w.size × Nat) :=
  if h : (e.encode step).length ≤ w.size then
    let memory := e.encode step ++ List.replicate (w.size - (e.encode step).length) 0
    .ok (⟨memory.toArray, by simp [memory, h]⟩, (e.encode step).length)
  else .error (.invalidArgument .windowTooSmall)

/-- A step of encoding writes to the window that is lent for the length of the text; if it fails, nothing is
committed. -/
theorem encodeStep_eq_writeWith {step : Bytes} (hlimit : e.encodedLength step.length < sizeLimit) (text : Buffer) :
    text.writeWith (e.encodedLength step.length) (encodeSlice e step) =
      .ok (match encodeStep e step text with
        | .ok text' => (.ok (e.encodedLength step.length), text')
        | .error err => (.error err, text)) := by
  have hcopy (memory : Bytes) : (e.encode step ++ memory).take (e.encode step).length = e.encode step := List.take_left
  unfold Buffer.writeWith
  by_cases hzero : e.encodedLength step.length = 0
  · have htext : e.encode step = [] := List.length_eq_zero_iff.1 (by rw [Engine.length_encode, hzero])
    have hok : encodeStep e step text = .ok text := by
      simp [encodeStep, hzero, htext, sizeLimit]
    rw [if_pos hzero, hok, hzero]
  · rw [if_neg hzero]
    by_cases hroom : (e.encode step).length ≤ (text.window (e.encodedLength step.length)).size
    · simp only [encodeSlice, encodeStep, dif_pos hroom, if_neg (Nat.not_le_of_lt hlimit),
        if_neg (Nat.not_lt_of_le hroom)]
      rw [if_pos hroom]
      simp only [Vector.toList_mk, hcopy]
      rw [Engine.length_encode]
    · simp only [encodeSlice, encodeStep, dif_neg hroom, if_neg (Nat.not_le_of_lt hlimit),
        if_pos (Nat.lt_of_not_le hroom)]

/-- A step writes all of its text to the window, and all of it is committed. -/
theorem writeWith_encodeSlice {step : Bytes} (h : step.length ≤ stepSize) (text : Buffer) :
    text.writeWith (e.encodedLength step.length) (encodeSlice e step) =
      .ok (.ok (e.encode step).length, text.fill (e.encodedLength step.length) (e.encode step)) := by
  have hle := encodedLength_le_segmentSize (e := e) h
  have hlimit : segmentSize < sizeLimit := by decide
  rw [encodeStep_eq_writeWith (Nat.lt_of_le_of_lt hle hlimit), encodeStep_eq_fill h, Engine.length_encode]

/-! ### All steps -/

/-- The bytes that are no longer pending, of those that were and of `data` behind them, are encoded behind the text that
was unsent. -/
def Encodes (s : Base64Sink σ) (data : Bytes) (s' : Base64Sink σ) : Prop :=
  ∃ taken, taken ++ s'.pending = s.pending ++ data ∧ s'.unsent.toList = s.unsent.toList ++ s.engine.encode taken

theorem encodes_accept (s : Base64Sink σ) (data : Bytes) :
    (s.accept data).1 = .ok () ∧ s.Encodes data (s.accept data).2 := by
  obtain ⟨unsent, haccept, htext⟩ := accept_eq s data
  rw [haccept]
  refine ⟨rfl, _, ?_, htext⟩
  split
  · exact List.append_nil _
  · exact wholeGroups_append_afterGroups _

/-- Encoding never fails, whatever text is unsent, and appends the text of the whole, with pads at its end or nowhere.
All steps but the last are whole groups and have no pads; each writes its text, at most a segment, to one window.  Of
the bytes that are pending none is given up unless its text is unsent. -/
theorem encode_stepwise [ByteSink σ] (s : Base64Sink σ) (data : Bytes) :
    (∃ unsent, s.encode data = (.ok (), { s with unsent }) ∧
      unsent.toList = s.unsent.toList ++ s.engine.encode data) ∧
    (∃ symbols, pad ∉ symbols ∧
      s.engine.encode data = symbols ++ s.engine.filler (Engine.padLength data.length) ∧
      (s.engine.pads = false → s.engine.encode data = symbols)) ∧
    (∀ step ∈ (chunks stepSize data).dropLast, step.length = stepSize ∧ step.length % groupSize = 0 ∧
      pad ∉ s.engine.encode step) ∧
    (∀ step ∈ chunks stepSize data, s.engine.encodedLength step.length ≤ segmentSize ∧ ∀ text : Buffer,
      (text.window (s.engine.encodedLength step.length)).size = (s.engine.encode step).length ∧
      encodeStep s.engine step text =
        .ok (text.fill (s.engine.encodedLength step.length) (s.engine.encode step)) ∧
      text.writeWith (s.engine.encodedLength step.length) (encodeSlice s.engine step) =
        .ok (.ok (s.engine.encode step).length,
          text.fill (s.engine.encodedLength step.length) (s.engine.encode step))) ∧
    (∀ more, (s.accept more).1 = .ok () ∧ s.Encodes more (s.accept more).2) ∧
    (∀ host, s.emitTail host = s.forward host ∨ ∃ s' host', s'.pending = [] ∧
      (s.forward host).endpoint.Encodes [] s' ∧ s.emitTail host = s'.forward host') := by
  have hwhole : stepSize % groupSize = 0 := by decide
  refine ⟨encode_eq s data, ?_, fun step hstep => ?_, fun step hstep => ?_, encodes_accept s, fun host => ?_⟩
  · obtain ⟨symbols, hpad, htext⟩ := s.engine.encode_eq_append_filler data
    refine ⟨symbols, hpad, htext, fun hpads => ?_⟩
    rw [htext, Engine.filler, hpads, if_neg Bool.false_ne_true, List.append_nil]
  · have hlength := length_of_mem_dropLast_chunks (by decide) hstep
    have hgroups : step.length % groupSize = 0 := by rw [hlength, hwhole]
    exact ⟨hlength, hgroups, Engine.pad_notMem_encode hgroups⟩
  · have hlength : step.length ≤ stepSize := (length_of_mem_chunks (by decide) hstep).2
    exact ⟨encodedLength_le_segmentSize hlength, fun text =>
      ⟨size_window_of_step hlength text, encodeStep_eq_fill hlength text, writeWith_encodeSlice hlength text⟩⟩
  · rcases emitTail_cases s host with ⟨htail, -⟩ | ⟨-, unsent, htext, htail⟩
    · exact .inl htail
    · refine .inr ⟨_, _, rfl, ⟨s.pending, ?_, ?_⟩, htail⟩
      · rw [pending_forward]
      · rw [engine_forward, htext]

example : stepSize = 6144 ∧ segmentSize = 8192 := ⟨rfl, rfl⟩

/-- The bytes of a whole step. -/
def fullStep : Bytes := List.replicate stepSize 0

/-- A new sink of padded text, over memory. -/
def freshSink : Base64Sink MemorySink := .new (.empty .none) .standard false

theorem length_fullStep : fullStep.length = stepSize := List.length_replicate

theorem chunks_fullStep : chunks stepSize (fullStep ++ [1]) = [fullStep, [1]] := by
  have hlength : fullStep.length = 1 * stepSize := by rw [length_fullStep, Nat.one_mul]
  have hne : fullStep ≠ [] := List.ne_nil_of_length_eq_add_one length_fullStep
  have hfirst : chunks stepSize fullStep = [fullStep] := by
    rw [chunks_of_ne_nil (by decide) hne, ← length_fullStep, List.take_length, List.drop_length, chunks_nil]
  have hsecond : chunks stepSize ([1] : Bytes) = [[1]] := by
    rw [chunks, List.take_nil, List.drop_nil, chunks_nil]
  rw [chunks_append (by decide) _ _ hlength, hfirst, hsecond, List.singleton_append]

/-- With a byte behind it, a whole step fills a segment with text that has no pads, whatever text is unsent; that of the
byte comes behind it. -/
theorem encode_stepwise_fullStep :
    fullStep ∈ (chunks stepSize (fullStep ++ [1])).dropLast ∧ pad ∉ Engine.standard.encode fullStep ∧
      fullStep ∈ chunks stepSize (fullStep ++ [1]) ∧
      (∀ text : Buffer, (text.window segmentSize).size = (Engine.standard.encode fullStep).length ∧
        encodeStep .standard fullStep text = .ok (text.fill segmentSize (Engine.standard.encode fullStep))) ∧
      ∃ unsent, freshSink.encode (fullStep ++ [1]) = (.ok (), { freshSink with unsent }) ∧
        unsent.length = segmentSize + 4 := by
  obtain ⟨⟨unsent, hencode, htext⟩, -, hinner, hsteps, -, -⟩ := encode_stepwise freshSink (fullStep ++ [1])
  have hfirst : fullStep ∈ (chunks stepSize (fullStep ++ [1])).dropLast := by
    rw [chunks_fullStep]
    exact List.mem_singleton.2 rfl
  have hmem : fullStep ∈ chunks stepSize (fullStep ++ [1]) := by
    rw [chunks_fullStep]
    exact List.mem_cons_self
  obtain ⟨-, -, hpad⟩ := hinner fullStep hfirst
  obtain ⟨-, hwindow⟩ := hsteps fullStep hmem
  have hwhole : freshSink.engine.encodedLength fullStep.length = segmentSize := by
    rw [length_fullStep]
    rfl
  have hlength : freshSink.engine.encodedLength (stepSize + 1) = segmentSize + 4 := rfl
  rw [hwhole] at hwindow
  refine ⟨hfirst, hpad, hmem, fun text => ⟨(hwindow text).1, (hwindow text).2.1⟩, unsent, hencode, ?_⟩
  rw [← Buffer.length_toList, htext, List.length_append, Engine.length_encode, List.length_append, length_fullStep,
    List.length_singleton, hlength]
  exact Nat.zero_add _

end Base64Sink

end Conduit
