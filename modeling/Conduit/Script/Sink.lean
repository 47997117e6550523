import Conduit.Endpoint
import Conduit.Script.Results

/-!
# Scripted sinks

A scripted sink answers its calls as it has been told, whatever is asked of it and whether it has been closed or not.
It remembers the calls and the bytes that it has taken.
-/

namespace Conduit

/-- The answer to a write: how many bytes are taken at most, and the error that follows, if there is one. -/
structure SinkStep where
  accepted : Option Nat
  failure : Option Error
deriving DecidableEq, Repr

/-- A call on a sink. -/
inductive SinkCall where
  | write (n : Nat)
  | flush
  | close
deriving DecidableEq, Repr

/-- A sink that follows a script. -/
structure ScriptedSink where
  steps : List SinkStep
  flushResults : List (Option Error)
  closeResults : List (Option Error)
  timeout : Timeout
  contents : Bytes
  calls : List SinkCall
deriving DecidableEq, Repr

namespace ScriptedSink

def ofScript (steps : List SinkStep) (flushResults closeResults : List (Option Error)) (timeout : Timeout) :
    ScriptedSink := ⟨steps, flushResults, closeResults, timeout, [], []⟩

/-- The number of bytes that the next write takes of the `n` bytes it is asked to take. -/
def share (s : ScriptedSink) (n : Nat) : Nat :=
  match s.steps with
  | [] => n
  | step :: _ => min n (step.accepted.getD n)

/-- A write of more bytes than there are is a fault of the caller if the script lets it get that far. -/
def fault? (s : ScriptedSink) (n : Nat) (b : Buffer) : Option Buffer.Fault :=
  if b.length < s.share n then some (.copy (s.share n) b.length) else none

def write (s : ScriptedSink) (n : Nat) (b : Buffer) (host : Host) : WriteOutcome ScriptedSink :=
  let result := (nextResult (s.steps.map SinkStep.failure)).1
  ⟨result, { s with
    calls := s.calls ++ [.write n], steps := s.steps.tail, contents := s.contents ++ b.take (s.share n) },
    b.drop (s.share n), host⟩

def flush (s : ScriptedSink) (host : Host) : CallOutcome ScriptedSink :=
  let (result, flushResults) := nextResult s.flushResults
  ⟨result, { s with calls := s.calls ++ [.flush], flushResults }, host⟩

def close (s : ScriptedSink) (host : Host) : CallOutcome ScriptedSink :=
  let (result, closeResults) := nextResult s.closeResults
  ⟨result, { s with calls := s.calls ++ [.close], closeResults }, host⟩

instance : ByteSink ScriptedSink where
  write := write
  flush := flush
  close := close
  timeout := timeout
  discard _ host := host

end ScriptedSink

end Conduit
