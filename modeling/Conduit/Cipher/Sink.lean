import Conduit.Cipher.Basic
import Conduit.Endpoint
import Conduit.Layer

/-!
# Writing through a cipher

A cipher sink passes the bytes that it takes through a cipher and writes the result to another sink; `unsent` is output
that the inner sink has not accepted yet and that goes first at the next call.  `flush` and `close` end the stream of
the cipher, after a deadline check of their own.
-/

namespace Conduit

/-- A sink that writes the output of a cipher to another one. -/
structure CipherSink (κ σ : Type) where
  inner : σ
  cipher : κ
  unsent : Buffer
  flushed : Bool
  closed : Bool

namespace CipherSink

variable {κ σ : Type}

def new (inner : σ) (cipher : κ) : CipherSink κ σ := ⟨inner, cipher, .empty, false, false⟩

variable [ByteCipher κ]

/-- The cipher has ended its stream and nothing is kept back. -/
def isSettled (s : CipherSink κ σ) : Bool := ByteCipher.isFinalized s.cipher && s.unsent.isEmpty

variable [ByteSink σ]

/-- Offers the unsent output to the inner sink. -/
def forward (s : CipherSink κ σ) (host : Host) : CallOutcome (CipherSink κ σ) :=
  if s.unsent.length = 0 then ⟨.ok (), s, host⟩
  else match ByteSink.write s.inner s.unsent.length s.unsent host with
    | ⟨result, inner, unsent, host⟩ => ⟨result, { s with inner, unsent }, host⟩

/-- Ends the stream of the cipher, unless that has been done, and forwards all output. -/
def finalize (s : CipherSink κ σ) (host : Host) : CallOutcome (CipherSink κ σ) :=
  match s.forward host with
  | ⟨.error e, s, host⟩ => ⟨.error e, s, host⟩
  | ⟨.ok (), s, host⟩ =>
    if ByteCipher.isFinalized s.cipher then ⟨.ok (), s, host⟩
    else match (ByteSink.timeout s.inner).check host with
      | (.error e, host) => ⟨.error e, s, host⟩
      | (.ok (), host) =>
        match ByteCipher.finalize s.cipher with
        | (.error e, cipher) => ⟨.error e, { s with cipher }, host⟩
        | (.ok out, cipher) =>
          { s with cipher, unsent := s.unsent.append out }.forward (host.report (.cipherFinalized out.length))

/-- Takes `n` bytes of the buffer, unless earlier output cannot be delivered. -/
def write (s : CipherSink κ σ) (n : Nat) (b : Buffer) (host : Host) : WriteOutcome (CipherSink κ σ) :=
  match checkWrite b.length n with
  | .error e => ⟨.error e, s, b, host⟩
  | .ok () =>
    if s.closed then ⟨.error .closed, s, b, host⟩
    else if ByteCipher.isFinalized s.cipher then ⟨.error (.malformedStream .writeAfterFinalize), s, b, host⟩
    else match s.forward host with
      | ⟨.error e, s, host⟩ => ⟨.error e, s, b, host⟩
      | ⟨.ok (), s, host⟩ =>
        match ByteCipher.update s.cipher (b.take n) with
        | (.error e, cipher) => ⟨.error e, { s with cipher }, b.drop n, host⟩
        | (.ok out, cipher) =>
          match { s with cipher, unsent := s.unsent.append out }.forward host with
          | ⟨result, s, host⟩ => ⟨result, s, b.drop n, host⟩

/-- Ends the stream and flushes the inner sink; this succeeds only once. -/
def flush (s : CipherSink κ σ) (host : Host) : CallOutcome (CipherSink κ σ) :=
  if s.closed then ⟨.error .closed, s, host⟩
  else if s.flushed then ⟨.error (.malformedStream .alreadyFlushed), s, host⟩
  else match s.finalize host with
    | ⟨.error e, s, host⟩ => ⟨.error e, s, host⟩
    | ⟨.ok (), s, host⟩ =>
      match ByteSink.flush s.inner host with
      | ⟨.error e, inner, host⟩ => ⟨.error e, { s with inner }, host⟩
      | ⟨.ok (), inner, host⟩ => ⟨.ok (), { s with inner, flushed := true }, host⟩

/-- Ends the stream and closes the inner sink. -/
def close (s : CipherSink κ σ) (host : Host) : CallOutcome (CipherSink κ σ) :=
  if s.closed then ⟨.ok (), s, host⟩
  else match s.finalize host with
    | ⟨tail, s, host⟩ =>
      if retryable tail then ⟨tail, s, host⟩
      else match ByteSink.close s.inner host with
        | ⟨inner_result, inner, host⟩ =>
          let (result, closed) := settle tail inner_result
          ⟨result, { s with inner, closed }, host⟩

/-- Gives the sink up; output that was not delivered is reported, after that of the inner sink. -/
def discard (s : CipherSink κ σ) (host : Host) : Host :=
  let host := ByteSink.discard s.inner host
  if s.isSettled then host else host.report (.cipherDropped (ByteCipher.isFinalized s.cipher) s.unsent.length)

/-- Gives the inner sink back if the stream has ended and all output was delivered to it; else all is given up. -/
def release (s : CipherSink κ σ) (host : Host) : Except Error σ × Host :=
  if ByteCipher.isFinalized s.cipher = false then (.error (.malformedStream .notFinalized), s.discard host)
  else if s.unsent.isEmpty = false then
    (.error (.malformedStream (.undeliveredOutput s.unsent.length)), s.discard host)
  else (.ok s.inner, host)

instance : ByteSink (CipherSink κ σ) where
  write := write
  flush := flush
  close := close
  timeout s := ByteSink.timeout s.inner
  discard := discard

end CipherSink

end Conduit
