import Conduit.Channel.Sink
import Conduit.Channel.Source
import Conduit.File.Sink
import Conduit.File.Source

/-!
# Deadlines

A caller may have to wait whenever a channel or a file is asked to do something, and whoever asks checks the deadline
of the call before.  The journal of the host shows both, so `Punctual` can say it: between two transfers of a call, and
before the first one, the deadline was found not to have passed.  A call whose time is up before it starts does nothing
(`Timeout.Expired`); it fails, unless it does not have to wait.

All calls of channel and file endpoints are punctual but one: a channel sink that is closed flushes its channel without
looking at the clock (`punctual_endpoints`, `ChannelSink.close_expired`).
-/

namespace Conduit

/-! ### What the journal shows -/

/-- Since the journal was `base`, every transfer has come after a check that was passed, with no transfer in between. -/
def Punctual (base : List Entry) (host : Host) : Prop :=
  ∃ entries, host.journal = entries ++ base ∧
    ∀ newer t older, entries = newer ++ .transfer t :: older →
      ∃ between earlier, older = between ++ .withinDeadline :: earlier ∧ ∀ t', .transfer t' ∉ between

/-- Nothing was transferred since the journal was `base`. -/
def Quiet (base : List Entry) (host : Host) : Prop :=
  ∃ entries, host.journal = entries ++ base ∧ ∀ t, .transfer t ∉ entries

/-- All was punctual, and the last thing that happened is that a check was passed. -/
private def Checked (base : List Entry) (host : Host) : Prop :=
  ∃ before : Host, Punctual base before ∧ host.journal = .withinDeadline :: before.journal

theorem Quiet.punctual {base : List Entry} {host : Host} (h : Quiet base host) : Punctual base host := by
  obtain ⟨entries, hj, hno⟩ := h
  refine ⟨entries, hj, ?_⟩
  intro newer t older heq
  have hmem : .transfer t ∈ entries := by
    rw [heq]
    exact List.mem_append_right _ List.mem_cons_self
  exact absurd hmem (hno t)

theorem Quiet.of_journal {base : List Entry} {host : Host} (h : host.journal = base) : Quiet base host :=
  ⟨[], h, fun _ => List.not_mem_nil⟩

theorem Quiet.of_event {base : List Entry} {host : Host} {event : Event} (h : host.journal = .event event :: base) :
    Quiet base host := by
  refine ⟨[.event event], h, ?_⟩
  intro t ht
  cases List.mem_singleton.1 ht

theorem Punctual.of_journal {base : List Entry} {host host' : Host} (h : Punctual base host)
    (hj : host'.journal = host.journal) : Punctual base host' := by
  obtain ⟨entries, hentries, hall⟩ := h
  exact ⟨entries, hj.trans hentries, hall⟩

/-- An entry that is not a transfer changes nothing. -/
theorem Punctual.of_entry {base : List Entry} {host host' : Host} (h : Punctual base host) {entry : Entry}
    (he : ∀ t, entry ≠ .transfer t) (hj : host'.journal = entry :: host.journal) : Punctual base host' := by
  obtain ⟨entries, hentries, hall⟩ := h
  refine ⟨entry :: entries, by rw [hj, hentries]; rfl, ?_⟩
  intro newer t older heq
  cases newer with
  | nil => exact absurd (List.cons.inj heq).1 (he t)
  | cons e newer => exact hall newer t older (List.cons.inj heq).2

private theorem Checked.punctual {base : List Entry} {host : Host} (h : Checked base host) : Punctual base host := by
  obtain ⟨before, hp, hj⟩ := h
  exact hp.of_entry (by simp) hj

/-- Right after a check that was passed, something may be transferred. -/
private theorem Checked.transfer {base : List Entry} {host host' : Host} (h : Checked base host) {t : Transfer}
    (hj : host'.journal = .transfer t :: host.journal) : Punctual base host' := by
  obtain ⟨before, ⟨entries, hentries, hall⟩, hcheck⟩ := h
  refine ⟨.transfer t :: .withinDeadline :: entries, by rw [hj, hcheck, hentries]; rfl, ?_⟩
  intro newer t' older heq
  -- it is the last entry, with the check right before it, or stands among the old ones
  rcases newer with _ | ⟨e, _ | ⟨e', newer⟩⟩
  · refine ⟨[], entries, ?_, fun _ => List.not_mem_nil⟩
    exact (List.cons.inj heq).2.symm
  · cases (List.cons.inj (List.cons.inj heq).2).1
  · exact hall newer t' older (List.cons.inj (List.cons.inj heq).2).2

/-! ### Checks -/

/-- A check is noted if it is passed, and reported if it is not; it never touches the disk. -/
theorem Deadline.journal_of_check {deadline : Deadline} {host host' : Host} {r : Except Error Unit}
    (h : deadline.check host = (r, host')) :
    (r = .ok () ∧ host'.journal = .withinDeadline :: host.journal) ∨
      ∃ elapsed, r = .error (.timedOut elapsed) ∧ host'.journal = .event (.deadlineReached elapsed) :: host.journal := by
  unfold Deadline.check at h
  split at h
  · cases h
    exact .inl ⟨rfl, rfl⟩
  · split at h
    · cases h
      exact .inl ⟨rfl, rfl⟩
    · cases h
      exact .inr ⟨_, rfl, rfl⟩

private theorem Punctual.check_ok {base : List Entry} {deadline : Deadline} {host host' : Host} (h : Punctual base host)
    (hc : deadline.check host = (.ok (), host')) : Checked base host' := by
  rcases Deadline.journal_of_check hc with ⟨-, hj⟩ | ⟨elapsed, hr, -⟩
  · exact ⟨host, h, hj⟩
  · cases hr

private theorem Punctual.check_error {base : List Entry} {deadline : Deadline} {host host' : Host} {e : Error}
    (h : Punctual base host) (hc : deadline.check host = (.error e, host')) : Punctual base host' := by
  rcases Deadline.journal_of_check hc with ⟨hr, -⟩ | ⟨elapsed, -, hj⟩
  · cases hr
  · exact h.of_entry (by simp) hj

/-- When a call starts now, its time is up. -/
def Timeout.Expired (policy : Timeout) (host : Host) : Prop :=
  ∃ limit, policy.limit? host.readClock.clock.now = some limit ∧ limit ≤ host.readClock.clock.now

/-- A call whose time is up does not pass its first check, since the clock does not go back. -/
theorem Timeout.Expired.check {policy : Timeout} {host : Host} (h : policy.Expired host) :
    ∃ elapsed host', (policy.start host).1.check (policy.start host).2 = (.error (.timedOut elapsed), host') ∧
      Quiet host.journal host' ∧ host'.disk = host.disk := by
  obtain ⟨limit, hlimit, hle⟩ := h
  -- starting the deadline and checking it are two readings of the clock
  have hclock : host.readClock.clock.now ≤ host.readClock.readClock.clock.now := host.readClock.clock.now_le_read
  have hlate : ¬ host.readClock.readClock.clock.now < limit := by omega
  have hcheck : (policy.start host).1.check (policy.start host).2 =
      let elapsed : Duration := ⟨host.readClock.readClock.clock.now - host.readClock.clock.now⟩
      (.error (.timedOut elapsed), host.readClock.readClock.report (.deadlineReached elapsed)) := by
    simp only [Timeout.start, Deadline.check, hlimit, hlate, if_false]
  exact ⟨_, _, hcheck, Quiet.of_event rfl, rfl⟩

/-! ### Channels -/

namespace Channel

theorem journal_read {c c' : Channel} {n : Nat} {host host' : Host} {r : Except IoError Bytes}
    (h : c.read n host = (r, c', host')) : host'.journal = .transfer .channelRead :: host.journal := by
  unfold read at h
  simp only at h
  split at h
  · cases h
    rfl
  · split at h
    · cases h
      rfl
    · cases h
      rfl
    · cases h
      rfl

theorem journal_write {c c' : Channel} {data : Bytes} {host host' : Host} {r : Except IoError Nat}
    (h : c.write data host = (r, c', host')) : host'.journal = .transfer .channelWrite :: host.journal := by
  unfold write at h
  simp only at h
  split at h
  · cases h
    rfl
  · cases h
    rfl
  · cases h
    rfl

end Channel

theorem ChannelSource.punctual_poll {base : List Entry} {s : ChannelSource} {deadline : Deadline} {n : Nat} {b : Buffer}
    {host : Host} (h : Punctual base host) : Punctual base (s.poll deadline n b host).host := by
  fun_induction ChannelSource.poll s deadline n b host with
  | case1 s host e host' hc => exact h.check_error hc
  | case2 s host host' hc channel host'' hr => exact (h.check_ok hc).transfer (Channel.journal_read hr)
  | case3 s host host' hc data channel host'' hr hd => exact (h.check_ok hc).transfer (Channel.journal_read hr)
  | case4 s host host' hc e channel host'' hr hi ih =>
    have hread : Punctual base host'' := (h.check_ok hc).transfer (Channel.journal_read hr)
    exact ih hread
  | case5 s host host' hc e channel host'' hr hi => exact (h.check_ok hc).transfer (Channel.journal_read hr)

theorem ChannelSink.punctual_deliver {base : List Entry} {s : ChannelSink} {deadline : Deadline} {n : Nat} {b : Buffer}
    {host : Host} (h : Punctual base host) : Punctual base (s.deliver deadline n b host).host := by
  fun_induction ChannelSink.deliver s deadline n b host with
  | case1 => exact h
  | case2 s n b host hn e host' hc => exact h.check_error hc
  | case3 s n b host hn host' hc channel host'' hw => exact (h.check_ok hc).transfer (Channel.journal_write hw)
  | case4 s n b host hn host' hc count channel host'' hw hpos ih =>
    have hwrite : Punctual base host'' := (h.check_ok hc).transfer (Channel.journal_write hw)
    exact ih hwrite
  | case5 s n b host hn host' hc e channel host'' hw hi ih =>
    have hwrite : Punctual base host'' := (h.check_ok hc).transfer (Channel.journal_write hw)
    exact ih hwrite
  | case6 s n b host hn host' hc e channel host'' hw hi => exact (h.check_ok hc).transfer (Channel.journal_write hw)

/-! ### Files -/

/-- The file is read after the check that was passed before, and again only after the next one. -/
private theorem FileSource.punctual_poll {base : List Entry} {s : FileSource} {deadline : Deadline} {n : Nat}
    {b : Buffer} {host : Host} (h : Checked base host) : Punctual base (s.poll deadline n b host).host := by
  fun_induction FileSource.poll s deadline n b host with
  | case1 => exact h.transfer rfl
  | case2 => exact h.transfer rfl
  | case3 host e disk hr hi e' host' hc =>
    have hread : Punctual base ({ host with disk }.note (.transfer .fileRead)) := h.transfer rfl
    exact hread.check_error hc
  | case4 host e disk hr hi host' hc ih =>
    have hread : Punctual base ({ host with disk }.note (.transfer .fileRead)) := h.transfer rfl
    exact ih (hread.check_ok hc)
  | case5 => exact h.transfer rfl

theorem FileSink.punctual_deliver {base : List Entry} {s : FileSink} {deadline : Deadline} {n : Nat} {b : Buffer}
    {host : Host} (h : Punctual base host) : Punctual base (s.deliver deadline n b host).host := by
  fun_induction FileSink.deliver s deadline n b host with
  | case1 => exact h
  | case2 s n b host hn e host' hc => exact h.check_error hc
  | case3 s n b host hn checked hc disk hw host' => exact (h.check_ok hc).transfer rfl
  | case4 s n b host hn checked hc count disk hw host' hpos ih => exact ih ((h.check_ok hc).transfer rfl)
  | case5 s n b host hn checked hc e disk hw host' hi ih => exact ih ((h.check_ok hc).transfer rfl)
  | case6 s n b host hn checked hc e disk hw host' hi => exact (h.check_ok hc).transfer rfl

/-! ### Endpoints -/

/-- What a call shows whose time is up before it starts: it has transferred nothing, and failed if it had to wait. -/
structure Stopped {α : Type} (waits : Prop) (host : Host) (result : Except Error α) (host' : Host) : Prop where
  quiet : Quiet host.journal host'
  disk : host'.disk = host.disk
  failed : waits → ∃ elapsed, result = .error (.timedOut elapsed)

/-- All calls of such a source are punctual.  `waits` says which reads have to wait; the others are answered in the same
way at any time.  A read whose time is up leaves all as it is. -/
structure PunctualSource (σ : Type) [ByteSource σ] (waits : σ → Nat → Prop) : Prop where
  read (s : σ) (n : Nat) (b : Buffer) (host : Host) : Punctual host.journal (ByteSource.read s n b host).host
  stop (s : σ) (n : Nat) (b : Buffer) (host : Host) (h : (ByteSource.timeout s).Expired host) :
    let o := ByteSource.read s n b host
    (o.source = s ∧ o.buffer = b) ∧ Stopped (waits s n) host o.result o.host
  answer (s : σ) (n : Nat) (b : Buffer) (h : ¬ waits s n) : ∃ r, ∀ host, ByteSource.read s n b host = ⟨r, s, b, host⟩
  close (s : σ) (host : Host) :
    Quiet host.journal (ByteSource.close s host).host ∧ (ByteSource.close s host).host.disk = host.disk

/-- All writes and flushes of such a sink are punctual.  `isOpen` says for which sinks they have to wait, as long as
there is something to write.  A call whose time is up leaves all as it is. -/
structure PunctualSink (τ : Type) [ByteSink τ] (isOpen : τ → Prop) : Prop where
  write (s : τ) (n : Nat) (b : Buffer) (host : Host) : Punctual host.journal (ByteSink.write s n b host).host
  flush (s : τ) (host : Host) : Punctual host.journal (ByteSink.flush s host).host
  stopWrite (s : τ) (n : Nat) (b : Buffer) (host : Host) (h : (ByteSink.timeout s).Expired host) :
    let o := ByteSink.write s n b host
    (o.sink = s ∧ o.buffer = b) ∧
      Stopped (isOpen s ∧ 0 < n ∧ checkWrite b.length n = .ok ()) host o.result o.host
  stopFlush (s : τ) (host : Host) (h : (ByteSink.timeout s).Expired host) :
    (ByteSink.flush s host).endpoint = s ∧
      Stopped (isOpen s) host (ByteSink.flush s host).result (ByteSink.flush s host).host

theorem Quiet.refl (host : Host) : Quiet host.journal host := Quiet.of_journal rfl

theorem Stopped.of_not {α : Type} {waits : Prop} (h : ¬ waits) {host host' : Host} (hj : host'.journal = host.journal)
    (hd : host'.disk = host.disk) (result : Except Error α) : Stopped waits host result host' :=
  ⟨Quiet.of_journal hj, hd, fun hw => absurd hw h⟩

/-- When a call starts its deadline, nothing has happened yet. -/
theorem Timeout.punctual_start (policy : Timeout) (host : Host) : Punctual host.journal (policy.start host).2 :=
  (Quiet.of_journal rfl).punctual

section

variable {σ : Type} [ByteSource σ]

/-- A source is punctual if a read that has to wait starts its deadline and then asks for bytes, if it does that
punctually, and if it does not ask unless the first check is passed. -/
theorem PunctualSource.of_ask {waits : σ → Nat → Prop} (ask : σ → Deadline → Nat → Buffer → Host → ReadOutcome σ)
    (hwaits : ∀ {s n}, waits s n → ∀ b host, ByteSource.read s n b host =
      ask s ((ByteSource.timeout s).start host).1 n b ((ByteSource.timeout s).start host).2)
    (honce : ∀ {s n}, ¬ waits s n → ∀ b, ∃ r, ∀ host, ByteSource.read s n b host = ⟨r, s, b, host⟩)
    (hask : ∀ {base s deadline n b host}, Punctual base host → Punctual base (ask s deadline n b host).host)
    (hlate : ∀ {s deadline n b host e host'}, deadline.check host = (.error e, host') →
      ask s deadline n b host = ⟨.error e, s, b, host'⟩)
    (hclose : ∀ s host, Quiet host.journal (ByteSource.close (σ := σ) s host).host ∧
      (ByteSource.close s host).host.disk = host.disk) : PunctualSource σ waits := by
  constructor
  · intro s n b host
    by_cases hw : waits s n
    · rw [hwaits hw]
      exact hask ((ByteSource.timeout s).punctual_start host)
    · obtain ⟨r, hr⟩ := honce hw b
      rw [hr]
      exact (Quiet.refl host).punctual
  · intro s n b host h
    by_cases hw : waits s n
    · obtain ⟨elapsed, host', hc, hq, hd⟩ := h.check
      rw [hwaits hw, hlate hc]
      exact ⟨⟨rfl, rfl⟩, hq, hd, fun _ => ⟨elapsed, rfl⟩⟩
    · obtain ⟨r, hr⟩ := honce hw b
      rw [hr]
      exact ⟨⟨rfl, rfl⟩, Stopped.of_not hw rfl rfl r⟩
  · intro s n b h
    exact honce h b
  · exact hclose

end

section

variable {τ : Type} [ByteSink τ]

/-- A sink is punctual if a write that has to wait starts its deadline and then puts its bytes, if it does that
punctually and not unless the first check is passed, and if a flush makes one transfer after a check. -/
theorem PunctualSink.of_put {isOpen : τ → Prop} (put : τ → Deadline → Nat → Buffer → Host → WriteOutcome τ)
    (push : τ → Host → CallOutcome τ)
    (hwaits : ∀ {s n b}, isOpen s ∧ 0 < n ∧ checkWrite b.length n = .ok () → ∀ host, ByteSink.write s n b host =
      put s ((ByteSink.timeout s).start host).1 n b ((ByteSink.timeout s).start host).2)
    (honce : ∀ {s n b}, ¬ (isOpen s ∧ 0 < n ∧ checkWrite b.length n = .ok ()) → ∀ host,
      ∃ r host', ByteSink.write s n b host = ⟨r, s, b, host'⟩ ∧ host'.journal = host.journal ∧ host'.disk = host.disk)
    (hput : ∀ {base s deadline n b host}, Punctual base host → Punctual base (put s deadline n b host).host)
    (hlate : ∀ {s deadline n b host e host'}, 0 < n → deadline.check host = (.error e, host') →
      put s deadline n b host = ⟨.error e, s, b, host'⟩)
    (hflush : ∀ {s}, isOpen s → ∀ host, ByteSink.flush s host =
      match (ByteSink.timeout s).check host with
      | (.error e, host) => ⟨.error e, s, host⟩
      | (.ok (), host) => push s host)
    (hclosed : ∀ {s}, ¬ isOpen s → ∀ host, ∃ r, ByteSink.flush s host = ⟨r, s, host⟩)
    (hpush : ∀ s host, ∃ t, (push s host).host.journal = .transfer t :: host.journal) : PunctualSink τ isOpen := by
  constructor
  · intro s n b host
    by_cases hw : isOpen s ∧ 0 < n ∧ checkWrite b.length n = .ok ()
    · rw [hwaits hw]
      exact hput ((ByteSink.timeout s).punctual_start host)
    · obtain ⟨r, host', hr, hj, -⟩ := honce hw host
      rw [hr]
      exact (Quiet.of_journal hj).punctual
  · intro s host
    by_cases ho : isOpen s
    · have hstart := (ByteSink.timeout s).punctual_start host
      rw [hflush ho]
      rcases hc : (ByteSink.timeout s).check host with ⟨e | _, host'⟩
      · exact hstart.check_error hc
      · obtain ⟨t, ht⟩ := hpush s host'
        exact (hstart.check_ok hc).transfer ht
    · obtain ⟨r, hr⟩ := hclosed ho host
      rw [hr]
      exact (Quiet.refl host).punctual
  · intro s n b host h
    by_cases hw : isOpen s ∧ 0 < n ∧ checkWrite b.length n = .ok ()
    · obtain ⟨elapsed, host', hc, hq, hd⟩ := h.check
      rw [hwaits hw, hlate hw.2.1 hc]
      exact ⟨⟨rfl, rfl⟩, hq, hd, fun _ => ⟨elapsed, rfl⟩⟩
    · obtain ⟨r, host', hr, hj, hd⟩ := honce hw host
      rw [hr]
      exact ⟨⟨rfl, rfl⟩, Stopped.of_not hw hj hd r⟩
  · intro s host h
    by_cases ho : isOpen s
    · obtain ⟨elapsed, host', hc, hq, hd⟩ := h.check
      have hc : (ByteSink.timeout s).check host = (.error (.timedOut elapsed), host') := hc
      rw [hflush ho, hc]
      exact ⟨rfl, hq, hd, fun _ => ⟨elapsed, rfl⟩⟩
    · obtain ⟨r, hr⟩ := hclosed ho host
      rw [hr]
      exact ⟨rfl, Stopped.of_not ho rfl rfl r⟩

end

namespace ChannelSource

/-- The source has to ask its channel. -/
def Waits (s : ChannelSource) (n : Nat) : Prop :=
  s.closed = false ∧ s.ended = false ∧ 0 < n ∧ n ≤ maxRequestLength

theorem read_of_waits {s : ChannelSource} {n : Nat} (h : s.Waits n) (b : Buffer) (host : Host) :
    s.read n b host = s.poll (s.timeout.start host).1 n b (s.timeout.start host).2 := by
  obtain ⟨ho, he, hn, hl⟩ := h
  simp [ChannelSource.read, checkRead_eq_ok_iff.2 hl, ho, he, Nat.ne_of_gt hn]

theorem read_at_once {s : ChannelSource} {n : Nat} (h : ¬ s.Waits n) (b : Buffer) :
    ∃ r, ∀ host, s.read n b host = ⟨r, s, b, host⟩ := by
  unfold ChannelSource.read
  by_cases hl : n ≤ maxRequestLength
  · rw [checkRead_eq_ok_iff.2 hl]
    by_cases ho : s.closed
    · exact ⟨.error .closed, fun _ => if_pos ho⟩
    · by_cases hn : n = 0
      · exact ⟨.ok (some 0), fun _ => (if_neg ho).trans (if_pos hn)⟩
      · by_cases he : s.ended
        · exact ⟨.ok none, fun _ => (if_neg ho).trans ((if_neg hn).trans (if_pos he))⟩
        · exact absurd ⟨by simpa using ho, by simpa using he, Nat.pos_of_ne_zero hn, hl⟩ h
  · rw [checkRead, if_pos (Nat.lt_of_not_le hl)]
    exact ⟨_, fun _ => rfl⟩

theorem punctualSource : PunctualSource ChannelSource Waits := by
  apply PunctualSource.of_ask poll read_of_waits read_at_once punctual_poll
  · intro s deadline n b host e host' hc
    rw [poll, hc]
  · intro s host
    show Quiet host.journal (s.close host).host ∧ (s.close host).host.disk = host.disk
    unfold ChannelSource.close
    split
    · exact ⟨Quiet.refl host, rfl⟩
    · exact ⟨Quiet.of_event rfl, rfl⟩

end ChannelSource

namespace FileSource

/-- The source has to ask for the size of its file, and perhaps for bytes of it. -/
def Waits (s : FileSource) (n : Nat) : Prop := s.closed = false ∧ 0 < n ∧ n ≤ maxRequestLength

/-- What the source does once the deadline of a read has started. -/
def ask (s : FileSource) (deadline : Deadline) (n : Nat) (b : Buffer) (host : Host) : ReadOutcome FileSource :=
  match deadline.check host with
  | (.error e, host) => ⟨.error e, s, b, host⟩
  | (.ok (), host) => s.serve deadline n b host

theorem read_of_waits {s : FileSource} {n : Nat} (h : s.Waits n) (b : Buffer) (host : Host) :
    s.read n b host = s.ask (s.timeout.start host).1 n b (s.timeout.start host).2 := by
  obtain ⟨ho, hn, hl⟩ := h
  simp only [FileSource.read, checkRead_eq_ok_iff.2 hl, ho, Nat.ne_of_gt hn, if_false, Bool.false_eq_true]
  rfl

theorem read_at_once {s : FileSource} {n : Nat} (h : ¬ s.Waits n) (b : Buffer) :
    ∃ r, ∀ host, s.read n b host = ⟨r, s, b, host⟩ := by
  unfold FileSource.read
  by_cases hl : n ≤ maxRequestLength
  · rw [checkRead_eq_ok_iff.2 hl]
    by_cases ho : s.closed
    · exact ⟨.error .closed, fun _ => if_pos ho⟩
    · by_cases hn : n = 0
      · exact ⟨.ok (some 0), fun _ => (if_neg ho).trans (if_pos hn)⟩
      · exact absurd ⟨by simpa using ho, Nat.pos_of_ne_zero hn, hl⟩ h
  · rw [checkRead, if_pos (Nat.lt_of_not_le hl)]
    exact ⟨_, fun _ => rfl⟩

theorem punctual_ask {base : List Entry} {s : FileSource} {deadline : Deadline} {n : Nat} {b : Buffer} {host : Host}
    (h : Punctual base host) : Punctual base (s.ask deadline n b host).host := by
  unfold ask
  split
  · rename_i hc
    exact h.check_error hc
  · rename_i host₁ hc
    have hchecked := h.check_ok hc
    obtain ⟨disk, -, ⟨kind, -, -, hserve⟩ | ⟨-, -, hserve⟩ | ⟨-, hserve⟩⟩ := s.serve_cases deadline n b host₁
    · rw [hserve]
      exact hchecked.punctual
    · rw [hserve]
      exact hchecked.punctual
    · rw [hserve]
      exact punctual_poll hchecked

theorem punctualSource : PunctualSource FileSource Waits := by
  apply PunctualSource.of_ask ask read_of_waits read_at_once punctual_ask
  · intro s deadline n b host e host' hc
    rw [ask, hc]
  · intro s host
    show Quiet host.journal (s.close host).host ∧ (s.close host).host.disk = host.disk
    unfold FileSource.close
    split
    · exact ⟨Quiet.refl host, rfl⟩
    · exact ⟨Quiet.of_event rfl, rfl⟩

end FileSource

namespace ChannelSink

theorem flushChannel_journal (s : ChannelSink) (host : Host) :
    (s.flushChannel host).host.journal = .transfer .channelFlush :: host.journal := by
  have hflush : (s.channel.flush host).2.2.journal = .transfer .channelFlush :: host.journal := rfl
  unfold flushChannel
  rcases hf : s.channel.flush host with ⟨_ | _, channel, host'⟩
  · rw [hf] at hflush
    exact hflush
  · rw [hf] at hflush
    exact hflush

theorem write_of_waits {s : ChannelSink} {n : Nat} {b : Buffer}
    (h : s.closed = false ∧ 0 < n ∧ checkWrite b.length n = .ok ()) (host : Host) :
    s.write n b host = s.deliver (s.timeout.start host).1 n b (s.timeout.start host).2 := by
  rw [ChannelSink.write, h.2.2]
  exact if_neg (Bool.not_eq_true _ ▸ h.1)

theorem write_at_once {s : ChannelSink} {n : Nat} {b : Buffer}
    (h : ¬ (s.closed = false ∧ 0 < n ∧ checkWrite b.length n = .ok ())) (host : Host) :
    ∃ r host', s.write n b host = ⟨r, s, b, host'⟩ ∧ host'.journal = host.journal ∧ host'.disk = host.disk := by
  unfold ChannelSink.write
  split
  · exact ⟨_, host, rfl, rfl, rfl⟩
  · rename_i hcheck
    split
    · exact ⟨_, host, rfl, rfl, rfl⟩
    · rename_i ho
      have hn : n = 0 := by
        apply Nat.eq_zero_of_not_pos
        intro hn
        exact h ⟨by simpa using ho, hn, hcheck⟩
      rw [deliver, dif_pos hn]
      exact ⟨_, _, rfl, rfl, rfl⟩

theorem punctualSink : PunctualSink ChannelSink (fun s => s.closed = false) := by
  apply PunctualSink.of_put deliver flushChannel write_of_waits write_at_once punctual_deliver
  · intro s deadline n b host e host' hn hc
    rw [deliver, dif_neg (Nat.ne_of_gt hn), hc]
  · intro s ho host
    show s.flush host = _
    rw [ChannelSink.flush, if_neg (Bool.not_eq_true _ ▸ ho)]
    rfl
  · intro s ho host
    exact ⟨_, if_pos (by simpa using ho)⟩
  · intro s host
    exact ⟨_, s.flushChannel_journal host⟩

end ChannelSink

namespace FileSink

theorem write_of_waits {s : FileSink} {n : Nat} {b : Buffer}
    (h : s.closed = false ∧ 0 < n ∧ checkWrite b.length n = .ok ()) (host : Host) :
    s.write n b host = s.deliver (s.timeout.start host).1 n b (s.timeout.start host).2 := by
  rw [FileSink.write, h.2.2]
  exact if_neg (Bool.not_eq_true _ ▸ h.1)

theorem write_at_once {s : FileSink} {n : Nat} {b : Buffer}
    (h : ¬ (s.closed = false ∧ 0 < n ∧ checkWrite b.length n = .ok ())) (host : Host) :
    ∃ r host', s.write n b host = ⟨r, s, b, host'⟩ ∧ host'.journal = host.journal ∧ host'.disk = host.disk := by
  unfold FileSink.write
  split
  · exact ⟨_, host, rfl, rfl, rfl⟩
  · rename_i hcheck
    split
    · exact ⟨_, host, rfl, rfl, rfl⟩
    · rename_i ho
      have hn : n = 0 := by
        apply Nat.eq_zero_of_not_pos
        intro hn
        exact h ⟨by simpa using ho, hn, hcheck⟩
      rw [deliver, dif_pos hn]
      exact ⟨_, _, rfl, rfl, rfl⟩

theorem deliver_of_late {s : FileSink} {deadline : Deadline} {n : Nat} {b : Buffer} {host : Host} {e : Error}
    {host' : Host} (hn : 0 < n) (hc : deadline.check host = (.error e, host')) :
    s.deliver deadline n b host = ⟨.error e, s, b, host'⟩ := by
  rw [deliver, dif_neg (Nat.ne_of_gt hn)]
  split
  · rename_i hc'
    cases hc'.symm.trans hc
    rfl
  · rename_i hc'
    cases hc'.symm.trans hc

theorem punctualSink : PunctualSink FileSink (fun s => s.closed = false) := by
  apply PunctualSink.of_put deliver store write_of_waits write_at_once punctual_deliver deliver_of_late
  · intro s ho host
    show s.flush host = _
    rw [FileSink.flush, if_neg (Bool.not_eq_true _ ▸ ho)]
    rfl
  · intro s ho host
    exact ⟨_, if_pos (by simpa using ho)⟩
  · intro s host
    exact ⟨_, (s.store_eq host).2.1⟩

end FileSink

/-- An open channel sink is closed with a flush that no check comes before, whatever its deadline. -/
theorem ChannelSink.journal_close {s : ChannelSink} (ho : s.closed = false) (host : Host) :
    (s.close host).host.journal = .transfer .channelFlush :: .event (.channelClosed .write) :: host.journal := by
  rw [close, if_neg (by simp [ho])]
  exact flushChannel_journal { s with closed := true } (host.report (.channelClosed .write))

theorem ChannelSink.punctual_close_iff (s : ChannelSink) (host : Host) :
    Punctual host.journal (s.close host).host ↔ s.closed = true := by
  constructor
  · intro h
    by_cases ho : s.closed
    · exact ho
    · -- before the flush there is only the event that the channel was closed
      have hj := journal_close (s := s) (by simpa using ho) host
      obtain ⟨entries, hentries, hall⟩ := h
      have heq : entries = [] ++ .transfer .channelFlush :: [.event (.channelClosed .write)] := by
        rw [hj] at hentries
        exact (List.append_left_inj host.journal).1 hentries.symm
      obtain ⟨between, earlier, hearlier, -⟩ := hall _ _ _ heq
      have hmem : Entry.withinDeadline ∈ [Entry.event (.channelClosed .write)] := by
        rw [hearlier]
        exact List.mem_append_right _ List.mem_cons_self
      cases List.mem_singleton.1 hmem
  · intro ho
    rw [close, if_pos ho]
    exact (Quiet.refl host).punctual

/-- Every transfer of every call comes after a check that was passed, and a call whose time is up transfers nothing,
changes nothing and fails if it had to wait, whatever the clock, the channel and the disk do; but a channel sink that is
closed while it is open flushes its channel, once, without a check. -/
theorem punctual_endpoints (s : FileSink) (t : ChannelSink) (host : Host) :
    (PunctualSource ChannelSource ChannelSource.Waits ∧ PunctualSource FileSource FileSource.Waits) ∧
    (PunctualSink ChannelSink (fun t => t.closed = false) ∧ PunctualSink FileSink (fun s => s.closed = false)) ∧
    (Quiet host.journal (s.close host).host ∧ (s.close host).host.disk = host.disk) ∧
    (Punctual host.journal (t.close host).host ↔ t.closed = true) ∧
    (t.closed = false →
      (t.close host).host.journal = .transfer .channelFlush :: .event (.channelClosed .write) :: host.journal) := by
  refine ⟨⟨ChannelSource.punctualSource, FileSource.punctualSource⟩,
    ⟨ChannelSink.punctualSink, FileSink.punctualSink⟩, ?_, t.punctual_close_iff host, ?_⟩
  · unfold FileSink.close
    split
    · exact ⟨Quiet.refl host, rfl⟩
    · exact ⟨Quiet.of_event rfl, rfl⟩
  · intro ho
    exact ChannelSink.journal_close ho host

/-- A file that can be read until the fifth nanosecond. -/
def FileSource.sampleExpiring : FileSource := ⟨.file ⟨.root, "log"⟩, 2, .expiringAt 5, false⟩

/-- In the seventh nanosecond it cannot. -/
theorem FileSource.read_sampleExpiring : sampleExpiring.timeout.Expired ⟨⟨7, []⟩, .empty, []⟩ ∧ sampleExpiring.Waits 3 ∧
    ∃ elapsed, (ByteSource.read sampleExpiring 3 .empty ⟨⟨7, []⟩, .empty, []⟩).result = .error (.timedOut elapsed) := by
  have hexpired : sampleExpiring.timeout.Expired ⟨⟨7, []⟩, .empty, []⟩ := ⟨5, rfl, by decide⟩
  have hwaits : sampleExpiring.Waits 3 := ⟨rfl, by decide, by decide⟩
  obtain ⟨⟨-, hfile⟩, -⟩ :=
    punctual_endpoints ⟨⟨.root, "log"⟩, 2, .none, false⟩ (.ofChannel (.ofScript [] [] []) .none) .start
  obtain ⟨-, hstopped⟩ := hfile.stop sampleExpiring 3 .empty ⟨⟨7, []⟩, .empty, []⟩ hexpired
  exact ⟨hexpired, hwaits, hstopped.failed hwaits⟩

/-- A sink whose calls have no time at all flushes its channel when it is closed, and succeeds. -/
theorem ChannelSink.close_expired :
    let s := ofChannel (.ofScript [] [] []) (.after .zero)
    s.timeout.Expired .start ∧ (s.close .start).result = .ok () ∧ (s.close .start).endpoint.channel.flushCount = 1 ∧
      ¬ Punctual Host.start.journal (s.close .start).host := by
  intro s
  refine ⟨⟨0, rfl, Nat.le_refl 0⟩, rfl, rfl, ?_⟩
  rw [punctual_close_iff]
  exact Bool.false_ne_true

end Conduit
