import Conduit.Endpoint

/-!
# Writing to memory

A memory sink takes every byte it is asked to take, and remembers the size of each write and the number of flushes and
closes.
-/

namespace Conduit

/-- A sink that keeps the bytes it takes. -/
structure MemorySink where
  contents : Bytes
  writes : List Nat
  flushes : Nat
  closes : Nat
  timeout : Timeout
deriving DecidableEq, Repr

namespace MemorySink

def empty (timeout : Timeout) : MemorySink := ⟨[], [], 0, 0, timeout⟩

def closed (s : MemorySink) : Bool := 0 < s.closes

def write (s : MemorySink) (n : Nat) (b : Buffer) (host : Host) : WriteOutcome MemorySink :=
  match checkWrite b.length n with
  | .error e => ⟨.error e, s, b, host⟩
  | .ok () =>
    if s.closed then ⟨.error .closed, s, b, host⟩
    else ⟨.ok (), { s with contents := s.contents ++ b.take n, writes := s.writes ++ [n] }, b.drop n, host⟩

def flush (s : MemorySink) (host : Host) : CallOutcome MemorySink :=
  if s.closed then ⟨.error .closed, s, host⟩ else ⟨.ok (), { s with flushes := s.flushes + 1 }, host⟩

def close (s : MemorySink) (host : Host) : CallOutcome MemorySink :=
  ⟨.ok (), { s with closes := s.closes + 1 }, host⟩

instance : ByteSink MemorySink where
  write := write
  flush := flush
  close := close
  timeout := timeout
  discard _ host := host

end MemorySink

end Conduit
