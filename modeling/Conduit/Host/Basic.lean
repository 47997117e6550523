import Conduit.Host.Disk
import Conduit.Host.Event

/-!
# Hosts

A host is what all endpoints share: a clock, a disk and a journal.  The journal keeps, besides the events that are
reported, when a deadline was found not to have passed and when a channel, a file or a disk was asked to move bytes;
so it shows what was checked before each wait.
-/

namespace Conduit

/-- What a channel or a file can be asked to do, and what a caller may have to wait for. -/
inductive Transfer where
  | channelRead
  | channelWrite
  | channelFlush
  | fileRead
  | fileWrite
  | fileSync
deriving DecidableEq, Repr

/-- An entry of the journal. -/
inductive Entry where
  | event (event : Event)
  | withinDeadline
  | transfer (transfer : Transfer)
deriving DecidableEq, Repr

/-- A clock, a disk and a journal, the last entry in front. -/
structure Host where
  clock : Clock
  disk : Disk
  journal : List Entry
deriving DecidableEq, Repr

namespace Host

def start : Host := ⟨.start, .empty, []⟩

/-- The host with one more entry in its journal. -/
def note (host : Host) (entry : Entry) : Host := { host with journal := entry :: host.journal }

def report (host : Host) (event : Event) : Host := host.note (.event event)

/-- The host when its clock is read next. -/
def readClock (host : Host) : Host := { host with clock := host.clock.read }

def sleep (host : Host) (d : Duration) : Host := { host with clock := host.clock.sleep d }

/-- The events that have been reported, the first in front. -/
def events (host : Host) : List Event :=
  host.journal.reverse.filterMap fun
    | .event e => some e
    | _ => none

@[simp] theorem disk_note (host : Host) (entry : Entry) : (host.note entry).disk = host.disk := rfl

@[simp] theorem clock_note (host : Host) (entry : Entry) : (host.note entry).clock = host.clock := rfl

@[simp] theorem journal_note (host : Host) (entry : Entry) : (host.note entry).journal = entry :: host.journal := rfl

@[simp] theorem disk_report (host : Host) (event : Event) : (host.report event).disk = host.disk := rfl

@[simp] theorem clock_report (host : Host) (event : Event) : (host.report event).clock = host.clock := rfl

@[simp] theorem journal_report (host : Host) (event : Event) :
    (host.report event).journal = .event event :: host.journal := rfl

theorem events_report (host : Host) (event : Event) : (host.report event).events = host.events ++ [event] := by
  simp [events]

end Host

end Conduit
