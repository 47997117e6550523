import Conduit.Error.Io
import Conduit.Base64.Engine
import Conduit.Time.Duration

/-!
# Errors

Every call on a source, a sink or a cipher fails with one of five errors, each with its cause: a request that cannot
be served, a closed endpoint, a deadline that has passed, a stream without the structure that a layer expects, or an
error of what is wrapped.  Only after a passed deadline can the same call succeed later (`Error.retryable`).
-/

namespace Conduit

/-- The largest number of bytes in one request. -/
def maxRequestLength : Nat := (UInt64.size - 1) / 4

/-- A request that cannot be served. -/
inductive ArgumentFault where
  | requestTooLong (asked : Nat)
  | notBelowLimit (asked : Nat)
  | notAvailable (asked available : Nat)
  | keyOrIvLength
  | cannotEncode (count : Nat)
  | windowTooSmall
  | other (text : String)
deriving DecidableEq, Repr

/-- What is reported of a request that cannot be served. -/
def ArgumentFault.message : ArgumentFault → String
  | .requestTooLong n => s!"byte count {n} exceeds the maximum request length {maxRequestLength}"
  | .notBelowLimit n => s!"byte count {n} must be below {maxRequestLength}"
  | .notAvailable n available => s!"byte count {n} exceeds the {available} bytes available in the source buffer"
  | .keyOrIvLength => "invalid key or IV: Invalid Length"
  | .cannotEncode n => s!"cannot encode {n} bytes"
  | .windowTooSmall => "Output slice too small"
  | .other text => text

/-- A stream without the structure that a layer expects, or a layer that is used when its stream has ended. -/
inductive StreamFault where
  | trailingSymbols (count : Nat)
  | invalidBase64 (error : Base64.DecodeError)
  | alreadyMalformed
  | undeliveredText (pending unsent : Nat)
  | cipherFailed
  | writeAfterFinalize
  | alreadyFlushed
  | notFinalized
  | undeliveredOutput (count : Nat)
  | alreadyFinalized
  | partialBlock (count blockSize : Nat)
  | invalidPadding
  | other (text : String)
deriving DecidableEq, Repr

/-- What is reported of a malformed stream. -/
def StreamFault.message : StreamFault → String
  | .trailingSymbols n => s!"{n} trailing bytes do not form a Base64 quantum"
  | .invalidBase64 error => s!"invalid Base64: {error.message}"
  | .alreadyMalformed => "the stream was previously found to be malformed"
  | .undeliveredText pending unsent => s!"{pending} unencoded and {unsent} encoded bytes were not delivered"
  | .cipherFailed => "the cipher stream previously failed"
  | .writeAfterFinalize => "cannot write after the cipher was finalized"
  | .alreadyFlushed => "the cipher stream was already flushed"
  | .notFinalized => "the cipher has not been finalized"
  | .undeliveredOutput n => s!"{n} bytes of cipher output were not delivered"
  | .alreadyFinalized => "the cipher has already been finalized"
  | .partialBlock n size => s!"ciphertext ends with {n} bytes instead of one {size}-byte block"
  | .invalidPadding => "invalid PKCS#7 padding: Unpad Error"
  | .other text => text

/-- Why a call has failed. -/
inductive Error where
  | invalidArgument (fault : ArgumentFault)
  | closed
  | timedOut (elapsed : Duration)
  | malformedStream (fault : StreamFault)
  | io (error : IoError)
deriving DecidableEq, Repr

namespace Error

/-- Whether the same call may succeed later. -/
def retryable : Error → Bool
  | .timedOut _ => true
  | _ => false

/-- What is reported of an error, unless that is the disk's affair. -/
def message? : Error → Option String
  | .invalidArgument fault => some s!"invalid argument: {fault.message}"
  | .closed => some "operation on a closed resource"
  | .timedOut elapsed => some s!"timed out after {elapsed.text}"
  | .malformedStream fault => some s!"malformed stream: {fault.message}"
  | .io error => error.message?

/-- The kind of input or output error that comes closest. -/
def ioKind : Error → IoErrorKind
  | .invalidArgument _ => .invalidInput
  | .closed => .other
  | .timedOut _ => .timedOut
  | .malformedStream _ => .invalidData
  | .io error => error.kind

/-- The input or output error that reports this one. -/
def toIo : Error → IoError
  | .io error => error
  | e => .stated e.ioKind (e.message?.getD "")

theorem retryable_iff {e : Error} : e.retryable ↔ ∃ elapsed, e = .timedOut elapsed := by
  cases e <;> simp [retryable]

theorem kind_toIo (e : Error) : e.toIo.kind = e.ioKind := by cases e <;> rfl

theorem message?_toIo (e : Error) : e.toIo.message? = e.message? := by cases e <;> rfl

end Error

end Conduit
