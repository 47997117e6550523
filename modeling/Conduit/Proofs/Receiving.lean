import Conduit.Channel.Sink
import Conduit.Memory.Sink

/-!
# Receiving sinks

An exact sink takes, by a write that succeeds, all bytes it was asked to take.  A receiving sink also accounts for the
bytes that it takes off a buffer: a write, even if it fails, moves some bytes from the front of the buffer to what the
sink has received, and nothing else changes what was received.  A channel sink has received what its channel accepted, a
memory sink what it holds.

A layer that has kept something back offers it to the sink below before it does anything else; `drain` is that offer.
-/

namespace Conduit

variable {σ : Type} [ByteSink σ]

/-- Writes all that a buffer holds, if that is anything. -/
def drain (s : σ) (b : Buffer) (host : Host) : WriteOutcome σ :=
  if b.length = 0 then ⟨.ok (), s, b, host⟩ else ByteSink.write s b.length b host

theorem drain_of_nil {b : Buffer} (h : b.toList = []) (s : σ) (host : Host) : drain s b host = ⟨.ok (), s, b, host⟩ :=
  if_pos (Buffer.length_eq_zero_iff.2 h)

/-- A sink of which a write that succeeds takes all bytes it was asked to take. -/
class ExactSink (σ : Type) [ByteSink σ] : Prop where
  buffer_of_write_ok {s : σ} {n : Nat} {b : Buffer} {host : Host} :
    (ByteSink.write s n b host).result = .ok () → (ByteSink.write s n b host).buffer.toList = b.toList.drop n

theorem buffer_of_drain_ok [ExactSink σ] {s : σ} {b : Buffer} {host : Host} (h : (drain s b host).result = .ok ()) :
    (drain s b host).buffer.toList = [] := by
  unfold drain at h ⊢
  split at h
  · rename_i hb
    rw [if_pos hb]
    exact Buffer.length_eq_zero_iff.1 hb
  · rename_i hb
    rw [if_neg hb, ExactSink.buffer_of_write_ok h, ← Buffer.length_toList, List.drop_length]

/-- A sink that accounts for the bytes it takes. -/
class ReceivingSink (σ : Type) [ByteSink σ] where
  /-- The bytes that were taken so far, in order. -/
  received : σ → Bytes
  write_takes (s : σ) (n : Nat) (b : Buffer) (host : Host) : ∃ k ≤ n,
    received (ByteSink.write s n b host).sink = received s ++ b.toList.take k ∧
      (ByteSink.write s n b host).buffer.toList = b.toList.drop k ∧
        ((ByteSink.write s n b host).result = .ok () → k = n)
  received_flush (s : σ) (host : Host) : received (ByteSink.flush s host).endpoint = received s
  received_close (s : σ) (host : Host) : received (ByteSink.close s host).endpoint = received s

namespace ReceivingSink

variable [ReceivingSink σ]

/-- What a write takes is what its buffer loses. -/
theorem received_append_buffer (s : σ) (n : Nat) (b : Buffer) (host : Host) :
    received (ByteSink.write s n b host).sink ++ (ByteSink.write s n b host).buffer.toList =
      received s ++ b.toList := by
  obtain ⟨k, -, h₁, h₂, -⟩ := write_takes s n b host
  rw [h₁, h₂, List.append_assoc, List.take_append_drop]

theorem received_append_drain (s : σ) (b : Buffer) (host : Host) :
    received (drain s b host).sink ++ (drain s b host).buffer.toList = received s ++ b.toList := by
  unfold drain
  split
  · rfl
  · exact received_append_buffer ..

instance : ExactSink σ where
  buffer_of_write_ok {s n b host} h := by
    obtain ⟨k, -, -, h₂, h₃⟩ := write_takes s n b host
    rw [h₂, h₃ h]

end ReceivingSink

/-! ### Channels -/

namespace ChannelSink

/-- Each offer moves the accepted bytes from the front of the buffer to what the channel has written. -/
private theorem deliver_takes (s : ChannelSink) (deadline : Deadline) (n : Nat) (b : Buffer) (host : Host) :
    ∃ k ≤ n, (s.deliver deadline n b host).sink.channel.written = s.channel.written ++ b.toList.take k ∧
      (s.deliver deadline n b host).buffer.toList = b.toList.drop k ∧
        ((s.deliver deadline n b host).result = .ok () → k = n) := by
  fun_induction deliver s deadline n b host with
  | case1 s b host => exact ⟨0, Nat.le_refl _, by simp⟩
  | case2 => exact ⟨0, Nat.zero_le _, by simp⟩
  | case3 s n b host hn host' hc channel host'' hw =>
    -- nothing was accepted
    have hz := (Channel.length_write hw).2.1
    exact ⟨0, Nat.zero_le _, by simpa using hz⟩
  | case4 s n b host hn host' hc count channel host'' hw hpos ih =>
    obtain ⟨k, hk, h₁, h₂, h₃⟩ := ih
    obtain ⟨hle, hwritten, -⟩ := Channel.length_write hw
    have hcount : count ≤ n ∧ count ≤ b.head.length := by rw [List.length_take] at hle; omega
    have htake : (b.head.take n).take count = b.toList.take count := by
      rw [List.take_take, Nat.min_eq_left hcount.1, b.head_isPrefix, List.take_append_of_le_length hcount.2]
    refine ⟨count + k, by omega, ?_, ?_, fun h => by have := h₃ h; omega⟩
    · rw [h₁, hwritten, htake, Buffer.toList_dropHead, Nat.min_eq_left hcount.2, List.append_assoc, ← List.take_add]
    · rw [h₂, Buffer.toList_dropHead, Nat.min_eq_left hcount.2, List.drop_drop]
  | case5 s n b host hn host' hc e channel host'' hw hi ih =>
    rw [← (Channel.writes_write_error hw).1]
    exact ih
  | case6 s n b host hn host' hc e channel host'' hw hi =>
    have hz := (Channel.writes_write_error hw).1
    exact ⟨0, Nat.zero_le _, by simpa using hz⟩

private theorem write_takes (s : ChannelSink) (n : Nat) (b : Buffer) (host : Host) :
    ∃ k ≤ n, (s.write n b host).sink.channel.written = s.channel.written ++ b.toList.take k ∧
      (s.write n b host).buffer.toList = b.toList.drop k ∧ ((s.write n b host).result = .ok () → k = n) := by
  unfold write
  split
  · exact ⟨0, Nat.zero_le _, by simp⟩
  · split
    · exact ⟨0, Nat.zero_le _, by simp⟩
    · exact deliver_takes ..

private theorem written_of_flush {c c' : Channel} {r : Except IoError Unit} {host host' : Host}
    (h : c.flush host = (r, c', host')) : c'.written = c.written := by
  have := congrArg (fun p => p.2.1.written) h
  exact this.symm

private theorem written_flushChannel (s : ChannelSink) (host : Host) :
    (s.flushChannel host).endpoint.channel.written = s.channel.written := by
  unfold flushChannel
  split <;> rename_i h
  · exact written_of_flush h
  · exact written_of_flush h

instance : ReceivingSink ChannelSink where
  received s := s.channel.written
  write_takes := write_takes
  received_flush s host := by
    show (s.flush host).endpoint.channel.written = s.channel.written
    unfold flush
    split
    · rfl
    · split
      · rfl
      · exact written_flushChannel ..
  received_close s host := by
    show (s.close host).endpoint.channel.written = s.channel.written
    unfold close
    split
    · rfl
    · exact written_flushChannel ..

end ChannelSink

/-! ### Memory -/

namespace MemorySink

private theorem write_takes (s : MemorySink) (n : Nat) (b : Buffer) (host : Host) :
    ∃ k ≤ n, (s.write n b host).sink.contents = s.contents ++ b.toList.take k ∧
      (s.write n b host).buffer.toList = b.toList.drop k ∧ ((s.write n b host).result = .ok () → k = n) := by
  unfold write
  split
  · exact ⟨0, Nat.zero_le _, by simp⟩
  · split
    · exact ⟨0, Nat.zero_le _, by simp⟩
    · exact ⟨n, Nat.le_refl _, rfl, by simp, fun _ => rfl⟩

instance : ReceivingSink MemorySink where
  received := contents
  write_takes := write_takes
  received_flush s host := by
    show (s.flush host).endpoint.contents = s.contents
    unfold flush
    split <;> rfl
  received_close _ _ := rfl

end MemorySink

end Conduit
