import Conduit.Base64.Engine
import Conduit.Endpoint
import Conduit.Layer

/-!
# Writing Base64 text

A Base64 sink writes to another sink the text for the bytes that it takes.  Only whole groups are encoded as they come;
`pending` are the one or two bytes behind them, `unsent` is text that the inner sink has not accepted yet and that goes
first at the next call.  `finish` and `close` encode the tail.  A segmented sink encodes each write by itself.

Text is produced in steps that each fill at most one window of the buffer (`encodeStep_eq_ok`), so that encoding does
not fail.
-/

namespace Conduit

open Base64

/-- A sink that writes text to another one.  Its two queues are `pending` and `unsent`. -/
structure Base64Sink (σ : Type) where
  inner : σ
  engine : Engine
  pending : Bytes
  unsent : Buffer
  segmented : Bool
  closed : Bool

namespace Base64Sink

variable {σ : Type}

def new (inner : σ) (engine : Engine) (segmented : Bool) : Base64Sink σ :=
  ⟨inner, engine, [], .empty, segmented, false⟩

/-- The number of bytes of one encoding step: their text fills a segment. -/
def stepSize : Nat := segmentSize / quantumSize * groupSize

/-- The first number of bytes that no buffer can hold. -/
def sizeLimit : Nat := UInt64.size

/-- Appends the text for some bytes, at most `stepSize`. -/
def encodeStep (e : Engine) (step : Bytes) (text : Buffer) : Except Error Buffer :=
  let n := e.encodedLength step.length
  if sizeLimit ≤ n then .error (.invalidArgument (.cannotEncode step.length))
  else if (text.window n).size < (e.encode step).length then .error (.invalidArgument .windowTooSmall)
  else .ok (text.fill n (e.encode step))

/-- Appends the text for one step after the other, until one fails. -/
def encodeSteps (e : Engine) : List Bytes → Buffer → Except Error Unit × Buffer
  | [], text => (.ok (), text)
  | step :: steps, text =>
    match encodeStep e step text with
    | .error err => (.error err, text)
    | .ok text => encodeSteps e steps text

/-- Appends the text for `data` to what is unsent. -/
def encode (s : Base64Sink σ) (data : Bytes) : Except Error Unit × Base64Sink σ :=
  let (result, unsent) := encodeSteps s.engine (chunks stepSize data) s.unsent
  (result, { s with unsent })

/-- Nothing is kept back. -/
def isSettled (s : Base64Sink σ) : Bool := s.pending.isEmpty && s.unsent.isEmpty

/-- Takes `data`: encodes what is pending and `data`, up to the last whole group unless each write is a segment. -/
def accept (s : Base64Sink σ) (data : Bytes) : Except Error Unit × Base64Sink σ :=
  let raw := s.pending ++ data
  let aligned := if s.segmented then raw.length else raw.length / groupSize * groupSize
  { s with pending := raw.drop aligned }.encode (raw.take aligned)

variable [ByteSink σ]

/-- Offers the unsent text to the inner sink. -/
def forward (s : Base64Sink σ) (host : Host) : CallOutcome (Base64Sink σ) :=
  if s.unsent.length = 0 then ⟨.ok (), s, host⟩
  else match ByteSink.write s.inner s.unsent.length s.unsent host with
    | ⟨result, inner, unsent, host⟩ => ⟨result, { s with inner, unsent }, host⟩

/-- Encodes and forwards the tail, if there is one. -/
def emitTail (s : Base64Sink σ) (host : Host) : CallOutcome (Base64Sink σ) :=
  match s.forward host with
  | ⟨.error e, s, host⟩ => ⟨.error e, s, host⟩
  | ⟨.ok (), s, host⟩ =>
    if s.pending = [] then ⟨.ok (), s, host⟩
    else
      let host := host.report (.base64Tail s.pending.length)
      match { s with pending := [] }.encode s.pending with
      | (.error e, s) => ⟨.error e, s, host⟩
      | (.ok (), s) => s.forward host

/-- Takes `n` bytes of the buffer, unless earlier text cannot be delivered. -/
def write (s : Base64Sink σ) (n : Nat) (b : Buffer) (host : Host) : WriteOutcome (Base64Sink σ) :=
  match checkWrite b.length n with
  | .error e => ⟨.error e, s, b, host⟩
  | .ok () =>
    if s.closed then ⟨.error .closed, s, b, host⟩
    else match s.forward host with
      | ⟨.error e, s, host⟩ => ⟨.error e, s, b, host⟩
      | ⟨.ok (), s, host⟩ =>
        match s.accept (b.take n) with
        | (.error e, s) => ⟨.error e, s, b.drop n, host⟩
        | (.ok (), s) =>
          match s.forward host with
          | ⟨result, s, host⟩ => ⟨result, s, b.drop n, host⟩

/-- Forwards whole groups and flushes the inner sink; the pending bytes stay. -/
def flush (s : Base64Sink σ) (host : Host) : CallOutcome (Base64Sink σ) :=
  if s.closed then ⟨.error .closed, s, host⟩
  else match s.forward host with
    | ⟨.error e, s, host⟩ => ⟨.error e, s, host⟩
    | ⟨.ok (), s, host⟩ =>
      match ByteSink.flush s.inner host with
      | ⟨result, inner, host⟩ => ⟨result, { s with inner }, host⟩

/-- Ends the segment; later writes begin a new one. -/
def finish (s : Base64Sink σ) (host : Host) : CallOutcome (Base64Sink σ) :=
  if s.closed then ⟨.error .closed, s, host⟩ else s.emitTail host

/-- Ends the segment and closes the inner sink. -/
def close (s : Base64Sink σ) (host : Host) : CallOutcome (Base64Sink σ) :=
  if s.closed then ⟨.ok (), s, host⟩
  else match s.emitTail host with
    | ⟨tail, s, host⟩ =>
      if retryable tail then ⟨tail, s, host⟩
      else match ByteSink.close s.inner host with
        | ⟨inner_result, inner, host⟩ =>
          let (result, closed) := settle tail inner_result
          ⟨result, { s with inner, closed }, host⟩

/-- Gives the sink up; bytes that were not delivered are reported, after those of the inner sink. -/
def discard (s : Base64Sink σ) (host : Host) : Host :=
  let host := ByteSink.discard s.inner host
  if s.isSettled then host else host.report (.base64Dropped s.pending.length s.unsent.length)

/-- Gives the inner sink back if everything was delivered to it; else all is given up. -/
def release (s : Base64Sink σ) (host : Host) : Except Error σ × Host :=
  if s.isSettled then (.ok s.inner, host)
  else (.error (.malformedStream (.undeliveredText s.pending.length s.unsent.length)), s.discard host)

instance : ByteSink (Base64Sink σ) where
  write := write
  flush := flush
  close := close
  timeout s := ByteSink.timeout s.inner
  discard := discard

end Base64Sink

/-! ### Encoding step by step -/

namespace Base64Sink

variable {e : Engine} {step : Bytes}

/-- The text for a step is as long as a segment at most. -/
theorem encodedLength_le_segmentSize (h : step.length ≤ stepSize) : e.encodedLength step.length ≤ segmentSize := by
  have hstep : stepSize = 6144 := rfl
  have hsegment : segmentSize = 8192 := rfl
  have hle : e.encodedLength step.length ≤ (step.length + 2) / 3 * 4 := e.encodedLength_le _
  omega

/-- The window that is lent for a step has room for its text and no more. -/
theorem size_window_of_step (h : step.length ≤ stepSize) (text : Buffer) :
    (text.window (e.encodedLength step.length)).size = (e.encode step).length := by
  rw [Buffer.size_window, Nat.min_eq_left (encodedLength_le_segmentSize h), Engine.length_encode]

theorem encodeStep_eq_fill (h : step.length ≤ stepSize) (text : Buffer) :
    encodeStep e step text = .ok (text.fill (e.encodedLength step.length) (e.encode step)) := by
  have hle := encodedLength_le_segmentSize (e := e) h
  have hlimit : segmentSize < sizeLimit := by decide
  have hroom := size_window_of_step (e := e) h text
  unfold encodeStep
  rw [if_neg (by omega), if_neg (by omega)]

theorem encodeStep_eq_ok (h : step.length ≤ stepSize) (text : Buffer) :
    ∃ text', encodeStep e step text = .ok text' ∧ text'.toList = text.toList ++ e.encode step := by
  refine ⟨_, encodeStep_eq_fill h text, ?_⟩
  rw [Buffer.toList_fill, ← Buffer.size_window text, size_window_of_step h, List.take_length]

end Base64Sink

end Conduit
