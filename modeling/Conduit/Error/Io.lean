/-!
# Input and output errors

What a channel, a file or a whole-stream operation reports when it fails.  An error that the disk reports has a kind
and no text of ours.
-/

namespace Conduit

instance decidableEqExcept {ε α : Type} [DecidableEq ε] [DecidableEq α] : DecidableEq (Except ε α)
  | .ok a, .ok b => decidable_of_iff (a = b) ⟨congrArg _, Except.ok.inj⟩
  | .error a, .error b => decidable_of_iff (a = b) ⟨congrArg _, Except.error.inj⟩
  | .ok _, .error _ => .isFalse nofun
  | .error _, .ok _ => .isFalse nofun

/-- The kinds of input and output errors. -/
inductive IoErrorKind where
  | interrupted
  | wouldBlock
  | brokenPipe
  | timedOut
  | unexpectedEnd
  | nothingWritten
  | notFound
  | notADirectory
  | isADirectory
  | invalidFilename
  | permissionDenied
  | invalidData
  | invalidInput
  | connectionReset
  | other
deriving DecidableEq, Repr

/-- What bytes are written to. -/
inductive Medium where
  | channel
  | file
deriving DecidableEq, Repr

def Medium.name : Medium → String
  | .channel => "channel"
  | .file => "file"

/-- An input or output error: reported by the disk, stated by whoever serves the bytes, a path with a zero in it, a
medium that took none of the bytes it was offered, or a stream that ended before the bytes asked for had come. -/
inductive IoError where
  | ofDisk (kind : IoErrorKind)
  | stated (kind : IoErrorKind) (text : String)
  | zeroInPath
  | nothingAccepted (medium : Medium)
  | endedEarly (received wanted : Nat)
deriving DecidableEq, Repr

namespace IoError

def kind : IoError → IoErrorKind
  | .ofDisk kind => kind
  | .stated kind _ => kind
  | .zeroInPath => .invalidInput
  | .nothingAccepted _ => .nothingWritten
  | .endedEarly .. => .unexpectedEnd

/-- What is reported of the error, unless that is the disk's affair. -/
def message? : IoError → Option String
  | .ofDisk _ => none
  | .stated _ text => some text
  | .zeroInPath => some "file name contained an unexpected NUL byte"
  | .nothingAccepted medium => some s!"{medium.name} accepted no bytes"
  | .endedEarly received wanted => some s!"stream ended after {received} of {wanted} bytes"

end IoError

end Conduit
