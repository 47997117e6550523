import Conduit.Bytes
import Conduit.Host.Basic
import Conduit.Script.Results

/-!
# Channels

A channel is what a connection to the outside does, written down as a script: how it answers its next reads, writes and
flushes.  Every finite course that a connection can take is such a script.  Behind the end of its script a channel has
nothing left to be read and accepts all it is offered.  It remembers what it was offered and what it accepted.
-/

namespace Conduit

/-- The answer to a read: after a pause, an error or some bytes, none meaning the end. -/
structure ReadTurn where
  pause : Duration
  served : Except IoError Bytes
deriving DecidableEq, Repr

/-- The answer to a write: after a pause, an error or how many bytes are accepted at most. -/
structure WriteTurn where
  pause : Duration
  accepted : Except IoError (Option Nat)
deriving DecidableEq, Repr

/-- A channel.  `held` are bytes that are there to be read before the next turn, `pace` bounds every transfer. -/
structure Channel where
  held : Bytes
  reads : List ReadTurn
  writes : List WriteTurn
  flushes : List (Option IoError)
  pace : Option Nat
  offered : List Nat
  written : Bytes
  flushCount : Nat
deriving DecidableEq, Repr

namespace Channel

/-- A channel that follows a script. -/
def ofScript (reads : List ReadTurn) (writes : List WriteTurn) (flushes : List (Option IoError)) : Channel :=
  ⟨[], reads, writes, flushes, none, [], [], 0⟩

/-- A channel that serves `data` and accepts everything, with a bound on each transfer. -/
def paced (data : Bytes) (pace : Option Nat) : Channel := ⟨data, [], [], [], pace, [], [], 0⟩

/-- How many of `n` bytes one transfer moves at most. -/
def bound (c : Channel) (n : Nat) : Nat := min n (c.pace.getD n)

/-- Serves the front of `data` and holds the rest. -/
def serve (c : Channel) (n : Nat) (data : Bytes) : Bytes × Channel :=
  (data.take (c.bound n), { c with held := data.drop (c.bound n) })

/-- Asks for at most `n` bytes; none means that there are no more. -/
def read (c : Channel) (n : Nat) (host : Host) : Except IoError Bytes × Channel × Host :=
  let c := { c with offered := c.offered ++ [n] }
  let host := host.note (.transfer .channelRead)
  if c.held ≠ [] then
    let (data, c) := c.serve n c.held
    (.ok data, c, host)
  else match c.reads with
    | [] => (.ok [], c, host)
    | ⟨pause, .error e⟩ :: reads => (.error e, { c with reads }, host.sleep pause)
    | ⟨pause, .ok data⟩ :: reads =>
      let (data, c) := { c with reads }.serve n data
      (.ok data, c, host.sleep pause)

/-- Accepts the front of `data`, at most `n` bytes. -/
def accept (c : Channel) (n : Nat) (data : Bytes) : Except IoError Nat × Channel :=
  let data := data.take (c.bound n)
  (.ok data.length, { c with written := c.written ++ data })

/-- Offers `data` and learns how many bytes of it, from the front, are accepted. -/
def write (c : Channel) (data : Bytes) (host : Host) : Except IoError Nat × Channel × Host :=
  let c := { c with offered := c.offered ++ [data.length] }
  let host := host.note (.transfer .channelWrite)
  match c.writes with
  | [] =>
    let (count, c) := c.accept data.length data
    (count, c, host)
  | ⟨pause, .error e⟩ :: writes => (.error e, { c with writes }, host.sleep pause)
  | ⟨pause, .ok limit⟩ :: writes =>
    let (count, c) := { c with writes }.accept (limit.getD data.length) data
    (count, c, host.sleep pause)

/-- Asks for everything that was accepted to be passed on. -/
def flush (c : Channel) (host : Host) : Except IoError Unit × Channel × Host :=
  let (result, flushes) := nextResult c.flushes
  (result, { c with flushes, flushCount := c.flushCount + 1 }, host.note (.transfer .channelFlush))

/-- The number of reads that can still bring bytes or an error. -/
def unread (c : Channel) : Nat := c.reads.length + if c.held = [] then 0 else 1

/-! ### What a transfer moves -/

theorem length_read {c c' : Channel} {n : Nat} {host host' : Host} {data : Bytes}
    (h : c.read n host = (.ok data, c', host')) : data.length ≤ n ∧ c'.reads.length ≤ c.reads.length := by
  have hb (c : Channel) (data : Bytes) : (data.take (c.bound n)).length ≤ n := by
    simp only [List.length_take, bound]; omega
  unfold read at h
  simp only at h
  split at h
  · cases h; exact ⟨hb _ _, Nat.le_refl _⟩
  · split at h
    · cases h; exact ⟨Nat.zero_le _, Nat.le_refl _⟩
    · cases h
    · rename_i hr; cases h; exact ⟨hb _ _, by simp [serve, hr]⟩

theorem reads_read_error {c c' : Channel} {n : Nat} {host host' : Host} {e : IoError}
    (h : c.read n host = (.error e, c', host')) : c'.reads.length < c.reads.length := by
  unfold read at h
  simp only at h
  split at h
  · cases h
  · split at h
    · cases h
    · rename_i hr; cases h; simp [hr]
    · cases h

theorem length_write {c c' : Channel} {data : Bytes} {host host' : Host} {count : Nat}
    (h : c.write data host = (.ok count, c', host')) :
    count ≤ data.length ∧ c'.written = c.written ++ data.take count ∧ c'.writes.length ≤ c.writes.length := by
  have hb (c : Channel) (n : Nat) : (data.take (c.bound n)).length ≤ data.length := List.length_take_le' ..
  have ht (c : Channel) (n : Nat) : data.take (data.take (c.bound n)).length = data.take (c.bound n) := by
    rw [List.length_take, ← List.take_eq_take_min]
  unfold write at h
  simp only [accept] at h
  split at h
  · cases h; exact ⟨hb _ _, by rw [ht], Nat.le_refl _⟩
  · cases h
  · rename_i hr; cases h; exact ⟨hb _ _, by rw [ht], by simp [hr]⟩

theorem writes_write_error {c c' : Channel} {data : Bytes} {host host' : Host} {e : IoError}
    (h : c.write data host = (.error e, c', host')) :
    c'.written = c.written ∧ c'.writes.length < c.writes.length := by
  unfold write at h
  simp only [accept] at h
  split at h
  · cases h
  · rename_i hr; cases h; exact ⟨rfl, by simp [hr]⟩
  · cases h

end Channel

end Conduit
