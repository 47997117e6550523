import Conduit.Channel.Basic
import Conduit.Endpoint

/-!
# Writing to a channel

A write to a channel sink offers the channel one segment after the other, and the rest of it again, until all bytes are
accepted.  The deadline is checked before each offer.  What was accepted has left the buffer, whatever comes after it.
-/

namespace Conduit

/-- A sink that writes to a channel. -/
structure ChannelSink where
  channel : Channel
  timeout : Timeout
  closed : Bool
deriving DecidableEq, Repr

namespace ChannelSink

def ofChannel (channel : Channel) (timeout : Timeout) : ChannelSink := ⟨channel, timeout, false⟩

/-- Offers the first `n` bytes of the buffer until all of them are accepted. -/
def deliver (s : ChannelSink) (deadline : Deadline) (n : Nat) (b : Buffer) (host : Host) :
    WriteOutcome ChannelSink :=
  if _hn : n = 0 then ⟨.ok (), s, b, host⟩
  else match deadline.check host with
    | (.error e, host) => ⟨.error e, s, b, host⟩
    | (.ok (), host) =>
      match _h : s.channel.write (b.head.take n) host with
      | (.ok count, channel, host) =>
        if _hc : count = 0 then ⟨.error (.io (.nothingAccepted .channel)), { s with channel }, b, host⟩
        else deliver { s with channel } deadline (n - count) (b.dropHead count) host
      | (.error e, channel, host) =>
        if e.kind = .interrupted then deliver { s with channel } deadline n b host
        else ⟨.error (.io e), { s with channel }, b, host⟩
termination_by n + s.channel.writes.length
decreasing_by
  · have := (Channel.length_write _h).2.2
    omega
  · have := (Channel.writes_write_error _h).2
    omega

def write (s : ChannelSink) (n : Nat) (b : Buffer) (host : Host) : WriteOutcome ChannelSink :=
  match checkWrite b.length n with
  | .error e => ⟨.error e, s, b, host⟩
  | .ok () =>
    if s.closed then ⟨.error .closed, s, b, host⟩
    else s.deliver (s.timeout.start host).1 n b (s.timeout.start host).2

/-- Flushes the channel; the error of the channel, if there is one, becomes ours. -/
def flushChannel (s : ChannelSink) (host : Host) : CallOutcome ChannelSink :=
  match s.channel.flush host with
  | (.ok (), channel, host) => ⟨.ok (), { s with channel }, host⟩
  | (.error e, channel, host) => ⟨.error (.io e), { s with channel }, host⟩

def flush (s : ChannelSink) (host : Host) : CallOutcome ChannelSink :=
  if s.closed then ⟨.error .closed, s, host⟩
  else match s.timeout.check host with
    | (.error e, host) => ⟨.error e, s, host⟩
    | (.ok (), host) => s.flushChannel host

/-- Closes the sink and flushes the channel a last time.  The sink is closed even if that fails. -/
def close (s : ChannelSink) (host : Host) : CallOutcome ChannelSink :=
  if s.closed then ⟨.ok (), s, host⟩
  else { s with closed := true }.flushChannel (host.report (.channelClosed .write))

/-- The channel, unless the sink has been closed. -/
def release (s : ChannelSink) : Except Error Channel := if s.closed then .error .closed else .ok s.channel

instance : ByteSink ChannelSink where
  write := write
  flush := flush
  close := close
  timeout := timeout
  discard _ host := host

end ChannelSink

end Conduit
