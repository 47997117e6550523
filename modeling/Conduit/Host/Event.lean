import Conduit.Error.Basic
import Conduit.Time.Clock

/-!
# Events

What endpoints report of their lives.  An event has a level, a message and named fields, and is written on one line:
the level, the message and each field as `name=value`, with fixed words in quotes.
-/

namespace Conduit

/-- How much an event matters. -/
inductive Level where
  | debug
  | warn
deriving DecidableEq, Repr

def Level.name : Level → String
  | .debug => "DEBUG"
  | .warn => "WARN"

/-- The direction in which a channel is used. -/
inductive Direction where
  | read
  | write
deriving DecidableEq, Repr

/-- How a file is opened: to be read, to be written anew, or to be written from its end on. -/
inductive OpenMode where
  | read
  | create
  | append (position : Nat)
deriving DecidableEq, Repr

/-- What an endpoint reports. -/
inductive Event where
  | deadlineReached (elapsed : Duration)
  | channelClosed (direction : Direction)
  | fileOpened (path : String) (mode : OpenMode)
  | fileClosed (position : Nat)
  | malformedBase64 (reason : StreamFault)
  | base64Tail (count : Nat)
  | base64Dropped (pending unsent : Nat)
  | cipherFinalized (count : Nat)
  | cipherDropped (finalized : Bool) (unsent : Nat)
deriving DecidableEq, Repr

/-- The value of a field: one of a few fixed words, a free text, a number or a truth value. -/
inductive FieldValue where
  | word (text : String)
  | text (text : String)
  | count (n : Nat)
  | flag (b : Bool)
deriving DecidableEq, Repr

def FieldValue.render : FieldValue → String
  | .word s => s!"\"{s}\""
  | .text s => s
  | .count n => toString n
  | .flag b => if b then "true" else "false"

namespace Event

/-- Passed deadlines, malformed text and lost bytes are warnings. -/
def level : Event → Level
  | .deadlineReached _ | .malformedBase64 _ | .base64Dropped .. | .cipherDropped .. => .warn
  | .channelClosed _ | .fileOpened .. | .fileClosed _ | .base64Tail _ | .cipherFinalized _ => .debug

def message : Event → String
  | .deadlineReached _ => "deadline reached"
  | .channelClosed _ => "channel closed"
  | .fileOpened .. => "file opened"
  | .fileClosed _ => "file closed"
  | .malformedBase64 _ => "malformed Base64 stream"
  | .base64Tail _ => "encoding padded tail"
  | .base64Dropped .. => "Base64 sink dropped with undelivered bytes"
  | .cipherFinalized _ => "cipher finalized"
  | .cipherDropped .. => "cipher sink dropped before its output was delivered"

/-- The fields of an event, in the order in which they are written. -/
def fields : Event → List (String × FieldValue)
  | .deadlineReached elapsed => [("timeout.elapsed_ms", .count (elapsed.nanos / 1000000))]
  | .channelClosed .read => [("channel.direction", .word "read")]
  | .channelClosed .write => [("channel.direction", .word "write")]
  | .fileOpened path .read => [("file.path", .text path), ("file.mode", .word "read")]
  | .fileOpened path .create => [("file.path", .text path), ("file.mode", .word "create")]
  | .fileOpened path (.append position) =>
    [("file.path", .text path), ("file.mode", .word "append"), ("file.position", .count position)]
  | .fileClosed position => [("file.position", .count position)]
  | .malformedBase64 reason => [("base64.reason", .text reason.message)]
  | .base64Tail n => [("base64.tail_bytes", .count n)]
  | .base64Dropped pending unsent => [("base64.pending_bytes", .count pending), ("base64.unsent_bytes", .count unsent)]
  | .cipherFinalized n => [("cipher.final_bytes", .count n)]
  | .cipherDropped finalized unsent => [("cipher.finalized", .flag finalized), ("cipher.unsent_bytes", .count unsent)]

/-- An event as one line of a log. -/
def line (e : Event) : String :=
  " ".intercalate (e.level.name :: e.message :: e.fields.map fun (name, value) => s!"{name}={value.render}")

end Event

end Conduit
