import Conduit.Endpoint

/-!
# Writing to a file

A file sink keeps a position of its own and writes at it, one segment of the buffer after the other.  Opened with
`create` it begins with an empty file, with `append` behind the last byte there is.
-/

namespace Conduit

/-- A sink that writes to a file from a position on. -/
structure FileSink where
  file : Location
  position : Nat
  timeout : Timeout
  closed : Bool
deriving DecidableEq, Repr

namespace FileSink

/-- Creates a file, or empties it, to be written from its start. -/
def create (path : String) (host : Host) : Except Error FileSink × Host :=
  match host.disk.openToWrite path with
  | .error e => (.error (.io e), host)
  | .ok file =>
    (.ok ⟨file, 0, .none, false⟩, { host with disk := host.disk.put file .empty }.report (.fileOpened path .create))

/-- Opens a file, created if there is none, to be written from the given position on. -/
def startingAt (path : String) (position : Nat) (host : Host) : Except Error FileSink × Host :=
  match host.disk.openToWrite path with
  | .error e => (.error (.io e), host)
  | .ok file => (.ok ⟨file, position, .none, false⟩, { host with disk := host.disk.touch file })

/-- Opens a file, created if there is none, to be written from its end on. -/
def append (path : String) (host : Host) : Except Error FileSink × Host :=
  match startingAt path 0 host with
  | (.error e, host) => (.error e, host)
  | (.ok s, host) =>
    match host.disk.inspect (.file s.file) with
    | (.error e, disk) => (.error (.io e), { host with disk })
    | (.ok position, disk) =>
      (.ok { s with position }, { host with disk }.report (.fileOpened path (.append position)))

/-- Writes the first `n` bytes of the buffer until the file has all of them. -/
def deliver (s : FileSink) (deadline : Deadline) (n : Nat) (b : Buffer) (host : Host) : WriteOutcome FileSink :=
  if _hn : n = 0 then ⟨.ok (), s, b, host⟩
  else match _hd : deadline.check host with
    | (.error e, host) => ⟨.error e, s, b, host⟩
    | (.ok (), checked) =>
      match _h : checked.disk.writeAt s.file s.position (b.head.take n) with
      | (.ok count, disk) =>
        let host := { checked with disk }.note (.transfer .fileWrite)
        if _hc : count = 0 then ⟨.error (.io (.nothingAccepted .file)), s, b, host⟩
        else deliver { s with position := s.position + count } deadline (n - count) (b.dropHead count) host
      | (.error e, disk) =>
        let host := { checked with disk }.note (.transfer .fileWrite)
        if _hi : e.kind = .interrupted then deliver s deadline n b host
        else ⟨.error (.io e), s, b, host⟩
termination_by n + host.disk.grants.length
decreasing_by
  · have := Disk.grants_writeAt_ok _h
    rw [Deadline.disk_of_check _hd] at this
    simp only [Host.disk_note]
    omega
  · have := Disk.grants_writeAt_error _h _hi
    rw [Deadline.disk_of_check _hd] at this
    simp only [Host.disk_note]
    omega

def write (s : FileSink) (n : Nat) (b : Buffer) (host : Host) : WriteOutcome FileSink :=
  match checkWrite b.length n with
  | .error e => ⟨.error e, s, b, host⟩
  | .ok () =>
    if s.closed then ⟨.error .closed, s, b, host⟩
    else s.deliver (s.timeout.start host).1 n b (s.timeout.start host).2

/-- Has the disk store what was written; its error, if there is one, becomes ours. -/
def store (s : FileSink) (host : Host) : CallOutcome FileSink :=
  match host.disk.store with
  | (.error e, disk) => ⟨.error (.io e), s, { host with disk }.note (.transfer .fileSync)⟩
  | (.ok (), disk) => ⟨.ok (), s, { host with disk }.note (.transfer .fileSync)⟩

/-- Waits until the disk has stored what was written. -/
def flush (s : FileSink) (host : Host) : CallOutcome FileSink :=
  if s.closed then ⟨.error .closed, s, host⟩
  else match s.timeout.check host with
    | (.error e, host) => ⟨.error e, s, host⟩
    | (.ok (), host) => s.store host

def close (s : FileSink) (host : Host) : CallOutcome FileSink :=
  if s.closed then ⟨.ok (), s, host⟩
  else ⟨.ok (), { s with closed := true }, host.report (.fileClosed s.position)⟩

/-- Having the disk store what was written moves no bytes, however it ends. -/
theorem store_eq (s : FileSink) (host : Host) : (s.store host).endpoint = s ∧
    (s.store host).host.journal = .transfer .fileSync :: host.journal ∧
      ∃ refusals, (s.store host).host.disk = { host.disk with refusals } := by
  unfold store
  rcases hstore : host.disk.store with ⟨e | _, disk⟩
  · exact ⟨rfl, rfl, (Disk.attempt_eq hstore).1⟩
  · exact ⟨rfl, rfl, (Disk.attempt_eq hstore).1⟩

instance : ByteSink FileSink where
  write := write
  flush := flush
  close := close
  timeout := timeout
  discard _ host := host

end FileSink

end Conduit
