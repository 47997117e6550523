import Conduit.Channel.Basic
import Conduit.Endpoint

/-!
# Reading from a channel

Each read of a channel source makes one read of the channel, straight into the spare room of the buffer; interrupted
ones are repeated.  The deadline is checked before each.  Once the channel has served no bytes, the stream has ended
and the channel is not read again.
-/

namespace Conduit

/-- A source that reads from a channel until that serves no bytes. -/
structure ChannelSource where
  channel : Channel
  timeout : Timeout
  ended : Bool
  closed : Bool
deriving DecidableEq, Repr

namespace ChannelSource

def ofChannel (channel : Channel) (timeout : Timeout) : ChannelSource := ⟨channel, timeout, false, false⟩

/-- Reads the channel, at most `n` bytes, until it is not interrupted. -/
def poll (s : ChannelSource) (deadline : Deadline) (n : Nat) (b : Buffer) (host : Host) :
    ReadOutcome ChannelSource :=
  match deadline.check host with
  | (.error e, host) => ⟨.error e, s, b, host⟩
  | (.ok (), host) =>
    match _h : s.channel.read (b.window n).size host with
    | (.ok data, channel, host) =>
      if data = [] then ⟨.ok none, { s with channel, ended := true }, b, host⟩
      else ⟨.ok (some data.length), { s with channel }, b.fill n data, host⟩
    | (.error e, channel, host) =>
      if e.kind = .interrupted then poll { s with channel } deadline n b host
      else ⟨.error (.io e), { s with channel }, b, host⟩
termination_by s.channel.reads.length
decreasing_by exact Channel.reads_read_error _h

def read (s : ChannelSource) (n : Nat) (b : Buffer) (host : Host) : ReadOutcome ChannelSource :=
  match checkRead n with
  | .error e => ⟨.error e, s, b, host⟩
  | .ok () =>
    if s.closed then ⟨.error .closed, s, b, host⟩
    else if n = 0 then ⟨.ok (some 0), s, b, host⟩
    else if s.ended then ⟨.ok none, s, b, host⟩
    else s.poll (s.timeout.start host).1 n b (s.timeout.start host).2

def close (s : ChannelSource) (host : Host) : CallOutcome ChannelSource :=
  if s.closed then ⟨.ok (), s, host⟩
  else ⟨.ok (), { s with closed := true }, host.report (.channelClosed .read)⟩

/-- The channel, unless the source has been closed. -/
def release (s : ChannelSource) : Except Error Channel := if s.closed then .error .closed else .ok s.channel

theorem poll_eq_some {s : ChannelSource} {deadline : Deadline} {n k : Nat} {b : Buffer} {host : Host}
    (h : (s.poll deadline n b host).result = .ok (some k)) :
    0 < k ∧ k ≤ min n segmentSize ∧ ∃ data, data.length = k ∧ (s.poll deadline n b host).buffer = b.fill n data := by
  fun_induction poll s deadline n b host with
  | case1 => simp at h
  | case2 => simp at h
  | case3 s host host' hc data channel host'' hr hd =>
    simp only [Except.ok.injEq, Option.some.injEq] at h
    have := List.length_pos_iff.2 hd
    have := (Channel.length_read hr).1
    rw [Buffer.size_window] at this
    exact ⟨by omega, by omega, data, h, rfl⟩
  | case4 => rename_i ih; exact ih h
  | case5 => simp at h

theorem read_eq_some {s : ChannelSource} {n k : Nat} {b : Buffer} {host : Host}
    (h : (s.read n b host).result = .ok (some k)) :
    (k = 0 ↔ n = 0) ∧ (s.read n b host).buffer.length = b.length + k := by
  unfold read at h ⊢
  split
  · rename_i he; simp [he] at h
  · rename_i he
    rw [he] at h
    by_cases hc : s.closed
    · simp [hc] at h
    · by_cases hn : n = 0
      · simp_all
      · by_cases hd : s.ended
        · simp [hc, hn, hd] at h
        · simp only [hc, hn, hd, if_false, Bool.false_eq_true] at h ⊢
          obtain ⟨h₁, h₂, data, hl, hb⟩ := poll_eq_some h
          rw [hb, Buffer.length_fill]
          exact ⟨iff_of_false (Nat.ne_of_gt h₁) id, by omega⟩

instance : ByteSource ChannelSource where
  read := read
  close := close
  timeout := timeout
  patience _ := 0
  length_read h := (read_eq_some h).2
  patience_read {s n b host r} hn h := by
    have hr : r ≠ some 0 := by
      rintro rfl
      exact Nat.ne_of_gt hn ((read_eq_some h).1.1 rfl)
    simp [hr]

end ChannelSource

end Conduit
