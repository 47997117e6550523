import Conduit.Proofs.Buffer.Representation
import Conduit.Proofs.Deadlines
import Conduit.Proofs.Farewell
import Conduit.Proofs.Serving

/-!
# What a read asks of a channel

A read of a channel source asks the channel again and again, each time when the deadline was found not to have passed
and for as many bytes as a window shows, until an answer is no interruption (`Asking`).  The answers tell what comes of
the read (`Concludes`): the last one alone may bring bytes, and what it brings is what the buffer gains (`Polled`).  If
there is none, or the last one is an interruption, the deadline was found to have passed.  Over a run of calls the
buffers gain, in order, what the channel has served, and once it has served no bytes it is not asked again
(`ChannelSource.given_in_run`).
-/

namespace Conduit

open Buffer (Call performAll performAllIn)

/-- The bytes that an answer of a channel brings. -/
def bytesOf : Except IoError Bytes → Bytes
  | .ok data => data
  | .error _ => []

/-- The channel was interrupted. -/
def IsInterruption (answer : Except IoError Bytes) : Prop := ∃ e, answer = .error e ∧ e.kind = .interrupted

theorem bytesOf_of_isInterruption {answer : Except IoError Bytes} (h : IsInterruption answer) :
    bytesOf answer = [] := by
  obtain ⟨e, rfl, -⟩ := h
  rfl

theorem flatMap_bytesOf_of_interrupted {answers : List (Except IoError Bytes)} (h : ∀ a ∈ answers, IsInterruption a) :
    answers.flatMap bytesOf = [] :=
  List.flatMap_eq_nil_iff.2 fun a ha => bytesOf_of_isInterruption (h a ha)

theorem not_mem_of_interrupted {answers : List (Except IoError Bytes)} (h : ∀ a ∈ answers, IsInterruption a)
    (data : Bytes) : .ok data ∉ answers := by
  intro hmem
  obtain ⟨e, he, -⟩ := h _ hmem
  cases he

/-- A channel is asked for `size` bytes, again and again, each time within the deadline, and gives these answers. -/
inductive Asking (deadline : Deadline) (size : Nat) :
    Channel → Host → List (Except IoError Bytes) → Channel → Host → Prop
  | nil {c : Channel} {host : Host} : Asking deadline size c host [] c host
  | cons {c c₁ c₂ : Channel} {host host₁ host₂ host₃ : Host} {answer : Except IoError Bytes}
      {answers : List (Except IoError Bytes)} (hcheck : deadline.check host = (.ok (), host₁))
      (hread : c.read size host₁ = (answer, c₁, host₂)) (hrest : Asking deadline size c₁ host₂ answers c₂ host₃) :
      Asking deadline size c host (answer :: answers) c₂ host₃

theorem Channel.offered_read (c : Channel) (n : Nat) (host : Host) :
    (c.read n host).2.1.offered = c.offered ++ [n] := by
  unfold read
  simp only
  split
  · rfl
  · split <;> rfl

namespace Asking

variable {deadline : Deadline} {size : Nat} {c c' : Channel} {host host' : Host} {answers : List (Except IoError Bytes)}

/-- Nothing else was asked of the channel. -/
theorem offered (h : Asking deadline size c host answers c' host') :
    c'.offered = c.offered ++ List.replicate answers.length size := by
  induction h with
  | nil => simp
  | @cons c c₁ _ _ host₁ _ _ answer answers hcheck hread hrest ih =>
    have hoffered := c.offered_read size host₁
    rw [hread] at hoffered
    rw [ih, hoffered, List.length_cons, List.replicate_succ, List.append_assoc, List.singleton_append]

/-- No answer brings more than was asked for. -/
theorem length_le (h : Asking deadline size c host answers c' host') :
    ∀ data, .ok data ∈ answers → data.length ≤ size := by
  induction h with
  | nil => intro data hmem; cases hmem
  | cons hcheck hread hrest ih =>
    intro data hmem
    rcases List.mem_cons.1 hmem with rfl | hmem
    · exact (Channel.length_read hread).1
    · exact ih data hmem

/-- A deadline that was found to have passed lets nothing be asked. -/
theorem eq_nil_of_check (h : Asking deadline size c host answers c' host') {e : Error} {host₁ : Host}
    (hcheck : deadline.check host = (.error e, host₁)) : answers = [] := by
  cases h with
  | nil => rfl
  | cons hok => cases hok.symm.trans hcheck

/-- Before the first answer no time passes. -/
theorem host_eq (h : Asking deadline size c host [] c' host') : host' = host := by
  cases h
  rfl

end Asking

namespace ChannelSource

/-- What the last answer of the channel makes of a read, at the time of this host: its result and the host that it
leaves.  Without an answer, or after an interruption, the deadline was found to have passed. -/
inductive Concludes (deadline : Deadline) (host : Host) :
    Option (Except IoError Bytes) → Except Error (Option Nat) → Host → Prop
  | served {data : Bytes} (hdata : data ≠ []) :
      Concludes deadline host (some (.ok data)) (.ok (some data.length)) host
  | ended : Concludes deadline host (some (.ok [])) (.ok none) host
  | failed {e : IoError} (hint : e.kind ≠ .interrupted) :
      Concludes deadline host (some (.error e)) (.error (.io e)) host
  | late {last : Option (Except IoError Bytes)} {elapsed : Duration} {host' : Host}
      (hlast : ∀ a, last = some a → IsInterruption a)
      (hcheck : deadline.check host = (.error (.timedOut elapsed), host')) :
      Concludes deadline host last (.error (.timedOut elapsed)) host'

/-- Without an answer it is the deadline that has ended the read. -/
theorem Concludes.late_of_none {deadline : Deadline} {host host' : Host} {r : Except Error (Option Nat)}
    (h : Concludes deadline host none r host') :
    ∃ elapsed, r = .error (.timedOut elapsed) ∧ deadline.check host = (.error (.timedOut elapsed), host') := by
  cases h with
  | late hlast hcheck => exact ⟨_, rfl, hcheck⟩

/-- What has come of asking the channel for at most `n` bytes. -/
structure Polled (s : ChannelSource) (deadline : Deadline) (n : Nat) (b : Buffer) (host : Host)
    (answers : List (Except IoError Bytes)) (o : ReadOutcome ChannelSource) : Prop where
  asking : ∃ host', Asking deadline (min n segmentSize) s.channel host answers o.source.channel host' ∧
    Concludes deadline host' answers.getLast? o.result o.host
  retried : ∀ a ∈ answers.dropLast, IsInterruption a
  filled : o.buffer = b.fill n (answers.flatMap bytesOf)
  ended : o.source.ended = true ↔ s.ended = true ∨ .ok [] ∈ answers
  closed : o.source.closed = s.closed

/-- One answer that is no interruption concludes a read. -/
private theorem Polled.once {s : ChannelSource} {deadline : Deadline} {n : Nat} {b : Buffer} {host host₁ host₂ : Host}
    {answer : Except IoError Bytes} {channel : Channel} (hcheck : deadline.check host = (.ok (), host₁))
    (hread : s.channel.read (b.window n).size host₁ = (answer, channel, host₂)) {r : Except Error (Option Nat)}
    (hr : Concludes deadline host₂ (some answer) r host₂) {ended : Bool}
    (hended : ended = true ↔ s.ended = true ∨ answer = .ok []) :
    Polled s deadline n b host [answer] ⟨r, { s with channel, ended }, b.fill n (bytesOf answer), host₂⟩ where
  asking := by
    rw [Buffer.size_window] at hread
    exact ⟨host₂, .cons hcheck hread .nil, hr⟩
  retried a ha := by cases ha
  filled := by rw [List.flatMap_singleton]
  ended := by rw [hended, List.mem_singleton, eq_comm (a := answer)]
  closed := rfl

/-- However the channel is asked, there are answers that account for the read. -/
theorem exists_polled (s : ChannelSource) (deadline : Deadline) (n : Nat) (b : Buffer) (host : Host) :
    ∃ answers, Polled s deadline n b host answers (s.poll deadline n b host) := by
  fun_induction poll s deadline n b host with
  | case1 s host e host' hcheck =>
    -- the deadline has passed
    obtain ⟨elapsed, rfl, -⟩ := Deadline.check_error hcheck
    have hlate : Concludes deadline host none (.error (.timedOut elapsed)) host' := .late (by simp) hcheck
    exact ⟨[], ⟨host, .nil, hlate⟩, fun a ha => (List.not_mem_nil ha).elim, (b.fill_nil n).symm, by simp, rfl⟩
  | case2 s host host₁ hcheck channel host₂ hread =>
    -- the channel serves no bytes
    have hended : true = true ↔ s.ended = true ∨ (.ok [] : Except IoError Bytes) = .ok [] := by simp
    have hpolled := Polled.once hcheck hread .ended hended
    rw [bytesOf, Buffer.fill_nil] at hpolled
    exact ⟨_, hpolled⟩
  | case3 s host host₁ hcheck data channel host₂ hread hdata =>
    exact ⟨_, Polled.once hcheck hread (.served hdata) (by simp [hdata])⟩
  | case4 s host host₁ hcheck e channel host₂ hread hint ih =>
    -- an interruption
    obtain ⟨answers, h⟩ := ih
    obtain ⟨host', hasking, hconcludes⟩ := h.asking
    rw [Buffer.size_window] at hread
    refine ⟨.error e :: answers, ⟨host', .cons hcheck hread hasking, ?_⟩, ?_, h.filled, ?_, h.closed⟩
    · rcases answers with _ | ⟨next, answers⟩
      · obtain ⟨elapsed, hres, hlate⟩ := hconcludes.late_of_none
        rw [hres]
        refine .late (fun a ha => ?_) hlate
        obtain rfl : .error e = a := Option.some.inj ha
        exact ⟨e, rfl, hint⟩
      · rw [List.getLast?_cons_cons]
        exact hconcludes
    · rcases answers with _ | ⟨next, answers⟩
      · exact fun a ha => (List.not_mem_nil ha).elim
      · intro a ha
        rcases List.mem_cons.1 ha with rfl | ha
        · exact ⟨e, rfl, hint⟩
        · exact h.retried a ha
    · rw [h.ended, List.mem_cons]
      simp
  | case5 s host host₁ hcheck e channel host₂ hread hint =>
    -- any other failure
    have hended : s.ended = true ↔ s.ended = true ∨ (.error e : Except IoError Bytes) = .ok [] := by simp
    have hpolled := Polled.once hcheck hread (.failed hint) hended
    rw [bytesOf, Buffer.fill_nil] at hpolled
    exact ⟨_, hpolled⟩

/-- What no answer is needed for: the request or the source is not as it should be, nothing is asked for, or the stream
has ended. -/
theorem read_of_not_waits {s : ChannelSource} {n : Nat} (h : ¬ s.Waits n) (b : Buffer) (host : Host) :
    ∃ r, s.read n b host = ⟨r, s, b, host⟩ ∧ (∀ e, r ≠ .error (.io e)) ∧ (∀ k, r = .ok (some k) → n = 0) ∧
      (r = .ok none → s.ended = true) := by
  unfold ChannelSource.read checkRead
  by_cases hl : maxRequestLength < n
  · exact ⟨_, by rw [if_pos hl], by simp, by simp, by simp⟩
  · by_cases hc : s.closed
    · exact ⟨_, by rw [if_neg hl]; exact if_pos hc, by simp, by simp, by simp⟩
    · by_cases hn : n = 0
      · exact ⟨_, by rw [if_neg hl]; exact (if_neg hc).trans (if_pos hn), by simp, fun _ _ => hn, by simp⟩
      · by_cases he : s.ended
        · exact ⟨_, by rw [if_neg hl]; exact (if_neg hc).trans ((if_neg hn).trans (if_pos he)), by simp, by simp,
            fun _ => he⟩
        · exact absurd ⟨by simpa using hc, by simpa using he, Nat.pos_of_ne_zero hn, Nat.le_of_not_lt hl⟩ h

theorem read_of_ended {s : ChannelSource} {n : Nat} (hc : s.closed = false) (hn : 0 < n) (he : s.ended = true)
    (b : Buffer) (host : Host) : s.read n b host = ⟨(checkRead n).map fun _ => none, s, b, host⟩ := by
  unfold ChannelSource.read
  rcases checkRead n with e | _
  · rfl
  · simp [hc, he, Nat.ne_of_gt hn, Except.map]

/-- What the channel still serves before its end, if that was not seen yet. -/
def unserved (s : ChannelSource) : Bytes := if s.ended then [] else s.channel.untilEnd

/-- What a read appends is taken off what the channel serves before its end. -/
theorem appended_of_read (s : ChannelSource) (n : Nat) (b : Buffer) (host : Host) :
    ∃ data, (s.read n b host).buffer.toList = b.toList ++ data ∧
      data ++ (s.read n b host).source.unserved = s.unserved := by
  by_cases hw : s.Waits n
  · have hs : s.Awaits none s.unserved := ⟨hw.1, fun h => absurd rfl h, rfl⟩
    have hkept := (lasting_awaits (by simp)).read hs hw.2.2.1 (by simp) b host
    rcases hkept with (⟨hx, -, hb, -, -, hend⟩ | ⟨k, -, -, -, -, hb, -, -, hrest⟩) | ⟨-, -, hb, -, -, hrest⟩
    · exact ⟨[], by rw [List.append_nil]; exact hb, by rw [hx]; exact hend.symm⟩
    · refine ⟨_, hb, ?_⟩
      have hrest : s.unserved.drop k = (s.read n b host).source.unserved := hrest
      rw [← hrest, List.take_append_drop]
    · refine ⟨[], ?_, hrest.symm⟩
      rw [List.append_nil]
      exact congrArg Buffer.toList hb
  · obtain ⟨r, hread, -⟩ := read_of_not_waits hw b host
    rw [hread]
    exact ⟨[], (List.append_nil _).symm, rfl⟩

namespace Polled

variable {s : ChannelSource} {deadline : Deadline} {n : Nat} {b : Buffer} {host : Host}
  {answers : List (Except IoError Bytes)} {o : ReadOutcome ChannelSource}

theorem length_le (h : Polled s deadline n b host answers o) :
    (answers.flatMap bytesOf).length ≤ min n segmentSize := by
  obtain ⟨host', hasking, -⟩ := h.asking
  rcases List.eq_nil_or_concat answers with rfl | ⟨before, last, rfl⟩
  · exact Nat.zero_le _
  · rw [List.concat_eq_append] at *
    have hbefore := h.retried
    rw [List.dropLast_concat] at hbefore
    rw [List.flatMap_append, flatMap_bytesOf_of_interrupted hbefore, List.nil_append, List.flatMap_singleton]
    rcases last with e | data
    · exact Nat.zero_le _
    · exact hasking.length_le data (by simp)

/-- The last answer and those before it, which are interruptions. -/
theorem cases (h : Polled s deadline n b host answers o) :
    (answers = [] ∧ ∃ elapsed, o.result = .error (.timedOut elapsed)) ∨
      ∃ before last host', answers = before ++ [last] ∧ (∀ a ∈ before, IsInterruption a) ∧
        Concludes deadline host' (some last) o.result o.host := by
  obtain ⟨host', -, hlast⟩ := h.asking
  rcases List.eq_nil_or_concat answers with rfl | ⟨before, last, rfl⟩
  · obtain ⟨elapsed, hres, -⟩ := hlast.late_of_none
    exact .inl ⟨rfl, elapsed, hres⟩
  · rw [List.concat_eq_append] at *
    have hbefore := h.retried
    rw [List.dropLast_concat] at hbefore
    rw [List.getLast?_concat] at hlast
    exact .inr ⟨before, last, host', rfl, hbefore, hlast⟩

theorem given (h : Polled s deadline n b host answers o) {k : Nat} (hk : o.result = .ok (some k)) :
    ∃ before data, answers = before ++ [.ok data] ∧ (∀ a ∈ before, IsInterruption a) ∧ data.length = k ∧ 0 < k ∧
      k ≤ min n segmentSize := by
  have hle := h.length_le
  rcases h.cases with ⟨-, elapsed, hres⟩ | ⟨before, last, host', rfl, hbefore, hlast⟩
  · cases hk.symm.trans hres
  · rw [List.flatMap_append, flatMap_bytesOf_of_interrupted hbefore, List.nil_append, List.flatMap_singleton] at hle
    rw [hk] at hlast
    cases hlast with
    | @served data hdata => exact ⟨before, data, rfl, hbefore, rfl, List.length_pos_iff.2 hdata, hle⟩

theorem kept (h : Polled s deadline n b host answers o) (hk : ∀ k, o.result ≠ .ok (some k)) : o.buffer = b := by
  rw [h.filled]
  rcases h.cases with ⟨rfl, -⟩ | ⟨before, last, host', rfl, hbefore, hlast⟩
  · exact b.fill_nil n
  · have hnothing : bytesOf last = [] := by
      generalize o.result = r at hk hlast
      cases hlast with
      | served => exact absurd rfl (hk _)
      | ended => rfl
      | failed => rfl
      | late hlast => exact bytesOf_of_isInterruption (hlast _ rfl)
    rw [List.flatMap_append, flatMap_bytesOf_of_interrupted hbefore, List.nil_append, List.flatMap_singleton, hnothing,
      Buffer.fill_nil]

theorem failed (h : Polled s deadline n b host answers o) {e : IoError} (he : o.result = .error (.io e)) :
    answers.getLast? = some (.error e) ∧ e.kind ≠ .interrupted := by
  rcases h.cases with ⟨-, elapsed, hres⟩ | ⟨before, last, host', rfl, -, hlast⟩
  · cases he.symm.trans hres
  · rw [he] at hlast
    cases hlast with
    | failed hint => exact ⟨List.getLast?_concat .., hint⟩

theorem none_iff (h : Polled s deadline n b host answers o) (hs : s.ended = false) :
    o.result = .ok none ↔ o.source.ended = true := by
  rw [h.ended, hs]
  simp only [Bool.false_eq_true, false_or]
  rcases h.cases with ⟨rfl, elapsed, hres⟩ | ⟨before, last, host', rfl, hbefore, hlast⟩
  · simp [hres]
  · have hmem := not_mem_of_interrupted hbefore []
    generalize o.result = r at hlast
    cases hlast with
    | served hdata => simp [hmem, Ne.symm hdata]
    | ended => simp
    | failed => simp [hmem]
    | late hlast =>
      obtain ⟨e, rfl, -⟩ := hlast _ rfl
      simp [hmem]

/-- No answer is asked for if the deadline has already passed, and only then. -/
theorem answers_eq_nil_iff (h : Polled s deadline n b host answers o) :
    answers = [] ↔ ∃ elapsed host', deadline.check host = (.error (.timedOut elapsed), host') := by
  obtain ⟨host', hasking, hlast⟩ := h.asking
  constructor
  · rintro rfl
    obtain rfl := hasking.host_eq
    obtain ⟨elapsed, -, hcheck⟩ := hlast.late_of_none
    exact ⟨elapsed, _, hcheck⟩
  · rintro ⟨elapsed, host₁, hcheck⟩
    exact hasking.eq_nil_of_check hcheck

end Polled

end ChannelSource

/-! ### In memory -/

/-- A writer of a window of `size` bytes that leaves the bytes of the answer in front, whatever it leaves behind them,
and reports what the channel has answered. -/
def Leaves (size : Nat) (answer : Except IoError Bytes)
    (write : (w : Window) → Vector UInt8 w.size × Except IoError Nat) :
    Prop :=
  ∀ w : Window, w.size = size →
    (write w).2 = answer.map List.length ∧ (write w).1.toList.take (bytesOf answer).length = bytesOf answer

private theorem writeWith_of_leaves {n : Nat} (hn : n ≠ 0) {answer : Except IoError Bytes}
    {write : (w : Window) → Vector UInt8 w.size × Except IoError Nat} (h : Leaves (min n segmentSize) answer write)
    (hle : (bytesOf answer).length ≤ min n segmentSize) (b : Buffer) :
    b.writeWith n (fun w => (write w).2.map ((write w).1, ·)) =
      .ok (answer.map List.length, b.fill n (bytesOf answer)) := by
  obtain ⟨hreport, hdata⟩ := h (b.window n) (b.size_window n)
  unfold Buffer.writeWith
  rw [if_neg hn]
  rcases answer with e | data
  · simp only [hreport, Except.map, bytesOf, Buffer.fill_nil]
  · simp only [hreport, Except.map, b.size_window, if_pos (show data.length ≤ min n segmentSize from hle),
      show List.take data.length _ = data from hdata, bytesOf]

private theorem performAll_of_leaves {n : Nat} (hn : n ≠ 0) {answers : List (Except IoError Bytes)}
    {writers : List ((w : Window) → Vector UInt8 w.size × Except IoError Nat)}
    (h : List.Forall₂ (Leaves (min n segmentSize)) answers writers)
    (hretried : ∀ a ∈ answers.dropLast, IsInterruption a)
    (hle : ∀ data, .ok data ∈ answers → data.length ≤ min n segmentSize) (b : Buffer) :
    performAll (writers.map (Call.writeWith () n)) (fun _ => b)
      = .ok (answers.map fun a => .count (a.map List.length), fun _ => b.fill n (answers.flatMap bytesOf)) := by
  induction h with
  | nil =>
    rw [List.flatMap_nil, Buffer.fill_nil]
    rfl
  | @cons answer write answers writers hleaves hrest ih =>
    have hanswer : (bytesOf answer).length ≤ min n segmentSize := by
      rcases answer with e | data
      · exact Nat.zero_le _
      · exact hle data (by simp)
    have hperform : (Call.writeWith () n write).perform (fun _ => b)
        = .ok (.count (answer.map List.length), fun _ => b.fill n (bytesOf answer)) := by
      rw [Call.perform, writeWith_of_leaves hn hleaves hanswer]
      rfl
    rw [List.map_cons, performAll, hperform]
    rcases answers with _ | ⟨next, answers⟩
    · cases hrest
      simp [performAll, Except.map]
    · have hint : IsInterruption answer := hretried answer List.mem_cons_self
      rw [List.flatMap_cons, bytesOf_of_isInterruption hint, Buffer.fill_nil, List.nil_append]
      have hmore := ih (fun a ha => hretried a (List.mem_cons_of_mem _ ha)) fun data hd =>
        hle data (List.mem_cons_of_mem _ hd)
      simp only [hmore]
      rfl

/-- Lending windows for the answers of a channel, one after the other, gives the buffer what they bring together. -/
private theorem performAllIn_of_leaves {n : Nat} (hn : n ≠ 0) {answers : List (Except IoError Bytes)}
    {writers : List ((w : Window) → Vector UInt8 w.size × Except IoError Nat)}
    (h : List.Forall₂ (Leaves (min n segmentSize)) answers writers)
    (hretried : ∀ a ∈ answers.dropLast, IsInterruption a)
    (hle : ∀ data, .ok data ∈ answers → data.length ≤ min n segmentSize)
    {q : BlockQueue} {b : Buffer} (hq : q.Represents b) :
    ∃ mem, performAllIn (writers.map (Call.writeWith () n)) (fun _ => q)
        = .ok (answers.map fun a => .count (a.map List.length), mem) ∧
      (mem ()).Represents (b.fill n (answers.flatMap bytesOf)) := by
  have hqueues (_ : Unit) : q.Represents b := hq
  have hsame := Buffer.sameOutcome_performAll (writers.map (Call.writeWith () n)) hqueues
  rw [performAll_of_leaves hn h hretried hle] at hsame
  generalize performAllIn (writers.map (Call.writeWith () n)) (fun _ => q) = r at hsame ⊢
  cases hsame with
  | @ok x y hxy =>
    obtain ⟨reports, mem⟩ := x
    obtain ⟨rfl, hmem⟩ := hxy
    exact ⟨mem, rfl, hmem ()⟩

/-- A read in a run of calls: the source it finds, what it is asked for, and what the channel answers. -/
structure ChannelRead where
  source : ChannelSource
  size : Nat
  buffer : Buffer
  host : Host
  answers : List (Except IoError Bytes)

namespace ChannelRead

def outcome (r : ChannelRead) : ReadOutcome ChannelSource := r.source.read r.size r.buffer r.host

/-- The bytes that the buffer has gained. -/
def gained (r : ChannelRead) : Bytes := r.outcome.buffer.toList.drop r.buffer.length

/-- The bytes that the channel has served. -/
def served (r : ChannelRead) : Bytes := r.answers.flatMap bytesOf

/-- The source is open, and is asked for bytes and not for too many. -/
def Proper (r : ChannelRead) : Prop := r.source.closed = false ∧ 0 < r.size ∧ r.size ≤ maxRequestLength

theorem waits_of_proper {r : ChannelRead} (h : r.Proper) (he : r.source.ended = false) : r.source.Waits r.size :=
  ⟨h.1, he, h.2.1, h.2.2⟩

/-- The answers account for the read. -/
structure Accounted (r : ChannelRead) : Prop where
  asking : ∃ host', Asking (r.source.timeout.start r.host).1 (min r.size segmentSize) r.source.channel
    (r.source.timeout.start r.host).2 r.answers r.outcome.source.channel host'
  /-- A proper read of a source that has not ended goes on until an answer is no interruption, or the deadline has
  passed. -/
  concluded : r.Proper → r.source.ended = false → ∃ host',
    Asking (r.source.timeout.start r.host).1 (min r.size segmentSize) r.source.channel
      (r.source.timeout.start r.host).2 r.answers r.outcome.source.channel host' ∧
    ChannelSource.Concludes (r.source.timeout.start r.host).1 host' r.answers.getLast? r.outcome.result r.outcome.host
  /-- It asks the channel, unless the deadline has already passed. -/
  unasked : r.Proper → r.source.ended = false → (r.answers = [] ↔ ∃ elapsed host',
    (r.source.timeout.start r.host).1.check (r.source.timeout.start r.host).2 = (.error (.timedOut elapsed), host'))
  appended : r.outcome.buffer.toList = r.buffer.toList ++ r.served
  /-- Bytes are given by one answer that is no interruption, the last one. -/
  given : ∀ k, r.outcome.result = .ok (some k) → 0 < r.size → ∃ before data, r.answers = before ++ [.ok data] ∧
    (∀ a ∈ before, IsInterruption a) ∧ data.length = k ∧ 0 < k ∧ k ≤ min r.size segmentSize
  /-- A read that gives nothing leaves the buffer as it was, with its segments. -/
  kept : (∀ k, r.outcome.result ≠ .ok (some k)) → r.outcome.buffer = r.buffer
  failed : ∀ e, r.outcome.result = .error (.io e) → r.answers.getLast? = some (.error e) ∧ e.kind ≠ .interrupted
  ending : r.outcome.source.ended = true ↔ r.source.ended = true ∨ .ok [] ∈ r.answers
  none_iff : r.Proper → (r.outcome.result = .ok none ↔ r.outcome.source.ended = true)
  silent : r.source.ended = true → r.answers = []
  /-- Reading straight into lent windows, whatever is left in them behind the bytes that are reported, comes to the
  same. -/
  inMemory : ∀ writers, List.Forall₂ (Leaves (min r.size segmentSize)) r.answers writers →
    ∀ q : BlockQueue, q.Represents r.buffer → ∃ mem, performAllIn (writers.map (Call.writeWith () r.size)) (fun _ => q)
      = .ok (r.answers.map fun a => .count (a.map List.length), mem) ∧ (mem ()).Represents r.outcome.buffer

theorem Accounted.gained_eq {r : ChannelRead} (h : r.Accounted) : r.gained = r.served := by
  rw [gained, h.appended, ← Buffer.length_toList, List.drop_left]

theorem flatMap_gained {reads : List ChannelRead} (h : ∀ r ∈ reads, r.Accounted) :
    reads.flatMap gained = reads.flatMap served := by
  induction reads with
  | nil => rfl
  | cons r reads ih =>
    obtain ⟨hr, hreads⟩ := List.forall_mem_cons.1 h
    rw [List.flatMap_cons, List.flatMap_cons, ih hreads, hr.gained_eq]

theorem gained_unserved (r : ChannelRead) : r.gained ++ r.outcome.source.unserved = r.source.unserved := by
  obtain ⟨data, hb, hdata⟩ := r.source.appended_of_read r.size r.buffer r.host
  rw [gained, outcome, hb, ← Buffer.length_toList, List.drop_left]
  exact hdata

theorem exists_accounted (s : ChannelSource) (n : Nat) (b : Buffer) (host : Host) :
    ∃ answers, Accounted ⟨s, n, b, host, answers⟩ := by
  by_cases hw : s.Waits n
  · have hread := ChannelSource.read_of_waits hw b host
    obtain ⟨answers, h⟩ := ChannelSource.exists_polled s (s.timeout.start host).1 n b (s.timeout.start host).2
    rw [← hread] at h
    obtain ⟨host', hasking, hlast⟩ := h.asking
    refine ⟨answers, ⟨host', hasking⟩, fun _ _ => ⟨host', hasking, hlast⟩, fun _ _ => h.answers_eq_nil_iff, ?_,
      fun k hk _ => h.given hk, h.kept, fun e he => h.failed he, h.ended, fun _ => h.none_iff hw.2.1,
      fun he => absurd (hw.2.1.symm.trans he) (by simp), ?_⟩
    · show (s.read n b host).buffer.toList = b.toList ++ answers.flatMap bytesOf
      rw [h.filled, Buffer.toList_fill, List.take_of_length_le h.length_le]
    · intro writers hwriters q hq
      have hmem := performAllIn_of_leaves (Nat.ne_of_gt hw.2.2.1) hwriters h.retried hasking.length_le hq
      rw [← h.filled] at hmem
      exact hmem
  · obtain ⟨r, hread, hio, hsome, hnone⟩ := ChannelSource.read_of_not_waits hw b host
    have houtcome : outcome ⟨s, n, b, host, []⟩ = ⟨r, s, b, host⟩ := hread
    refine ⟨[], ⟨(s.timeout.start host).2, ?_⟩, fun hr he => absurd (waits_of_proper hr he) hw,
      fun hr he => absurd (waits_of_proper hr he) hw, ?_, ?_, ?_, ?_, ?_, ?_, fun _ => rfl, ?_⟩
    · rw [houtcome]
      exact .nil
    · rw [houtcome]
      exact (List.append_nil _).symm
    · intro k hk hn
      rw [houtcome] at hk
      exact absurd (hsome k hk) (Nat.ne_of_gt hn)
    · intro _
      rw [houtcome]
    · intro e he
      rw [houtcome] at he
      exact absurd he (hio e)
    · rw [houtcome]
      simp
    · rintro ⟨hc, hn, hl⟩
      rw [houtcome]
      refine ⟨hnone, fun he => ?_⟩
      have hended := ChannelSource.read_of_ended hc hn he b host
      rw [checkRead_eq_ok_iff.2 hl] at hended
      exact congrArg ReadOutcome.result (hread.symm.trans hended)
    · intro writers hwriters q hq
      rw [houtcome]
      cases hwriters
      exact ⟨_, rfl, hq⟩

end ChannelRead

namespace ChannelSource

/-! ### Runs -/

/-- Calls of a source, one after the other, and the reads among them with what the channel answers. -/
inductive Run : ChannelSource → List (SourceCall × Host) → List ChannelRead → ChannelSource → Prop
  | nil {s : ChannelSource} : Run s [] [] s
  | read {s s' : ChannelSource} {n : Nat} {b : Buffer} {host : Host} {calls : List (SourceCall × Host)}
      {reads : List ChannelRead} (answers : List (Except IoError Bytes))
      (hrest : Run (SourceCall.perform (.read n b) s host).1 calls reads s') :
      Run s ((.read n b, host) :: calls) (⟨s, n, b, host, answers⟩ :: reads) s'
  | close {s s' : ChannelSource} {host : Host} {calls : List (SourceCall × Host)} {reads : List ChannelRead}
      (hrest : Run (SourceCall.perform .close s host).1 calls reads s') : Run s ((.close, host) :: calls) reads s'

theorem close_endpoint (s : ChannelSource) (host : Host) :
    (SourceCall.perform .close s host).1.channel = s.channel ∧
      (SourceCall.perform .close s host).1.ended = s.ended := by
  show (s.close host).endpoint.channel = _ ∧ (s.close host).endpoint.ended = _
  unfold ChannelSource.close
  split <;> exact ⟨rfl, rfl⟩

theorem exists_run (s : ChannelSource) (calls : List (SourceCall × Host)) :
    ∃ reads s', Run s calls reads s' ∧ ∀ r ∈ reads, r.Accounted := by
  induction calls generalizing s with
  | nil => exact ⟨[], s, .nil, fun r hr => (List.not_mem_nil hr).elim⟩
  | cons call calls ih =>
    obtain ⟨call, host⟩ := call
    obtain ⟨reads, s', hrun, hreads⟩ := ih (call.perform s host).1
    cases call with
    | read n b =>
      obtain ⟨answers, hr⟩ := ChannelRead.exists_accounted s n b host
      exact ⟨_, s', .read answers hrun, List.forall_mem_cons.2 ⟨hr, hreads⟩⟩
    | close => exact ⟨reads, s', .close hrun, hreads⟩

namespace Run

variable {s s' : ChannelSource} {calls : List (SourceCall × Host)} {reads : List ChannelRead}

theorem offered (h : Run s calls reads s') (hreads : ∀ r ∈ reads, r.Accounted) : s'.channel.offered =
    s.channel.offered ++ reads.flatMap fun r => List.replicate r.answers.length (min r.size segmentSize) := by
  induction h with
  | nil => simp
  | read answers hrest ih =>
    obtain ⟨hr, hreads⟩ := List.forall_mem_cons.1 hreads
    obtain ⟨host', hasking⟩ := hr.asking
    have hoffered := hasking.offered
    rw [ih hreads, List.flatMap_cons, ← List.append_assoc]
    exact congrArg (· ++ _) hoffered
  | @close s _ host _ _ hrest ih => rw [ih hreads, (close_endpoint s host).1]

theorem unserved (h : Run s calls reads s') :
    reads.flatMap ChannelRead.gained ++ s'.unserved = s.unserved := by
  induction h with
  | nil => rfl
  | @read s s' n b host _ _ answers hrest ih =>
    rw [List.flatMap_cons, List.append_assoc, ih]
    exact ChannelRead.gained_unserved ⟨s, n, b, host, answers⟩
  | @close s _ host _ _ hrest ih =>
    obtain ⟨hchannel, hended⟩ := close_endpoint s host
    rw [ih, ChannelSource.unserved, hchannel, hended, ChannelSource.unserved]

/-- After the channel was seen to have ended, every read finds that it has. -/
theorem silent (h : Run s calls reads s') (hreads : ∀ r ∈ reads, r.Accounted) (he : s.ended = true) :
    ∀ r ∈ reads, r.source.ended = true := by
  induction h with
  | nil => exact fun r hr => (List.not_mem_nil hr).elim
  | read answers hrest ih =>
    obtain ⟨hr, hreads⟩ := List.forall_mem_cons.1 hreads
    exact List.forall_mem_cons.2 ⟨he, ih hreads (hr.ending.2 (.inl he))⟩
  | @close s _ host _ _ hrest ih => exact ih hreads ((close_endpoint s host).2.trans he)

theorem latched (h : Run s calls reads s') (hreads : ∀ r ∈ reads, r.Accounted) :
    reads.Pairwise fun r r' => .ok [] ∈ r.answers → r'.source.ended = true := by
  induction h with
  | nil => exact .nil
  | read answers hrest ih =>
    obtain ⟨hr, hreads⟩ := List.forall_mem_cons.1 hreads
    exact .cons (fun r' hmem hend => hrest.silent hreads (hr.ending.2 (.inr hend)) r' hmem) (ih hreads)
  | close hrest ih => exact ih hreads

end Run

/-- Whatever a channel answers and however the time passes: over any calls of a source, into whatever buffers, the
answers of the channel account for every read.  Every time it is asked for as many bytes as were asked of the source, up
to the size of a segment.  What the buffers gain is, in order, what it serves, which is what comes before its end.  Once
it has served no bytes it is not asked again, and a read of the open source gives nothing. -/
theorem given_in_run (s : ChannelSource) (calls : List (SourceCall × Host)) : ∃ reads s', Run s calls reads s' ∧
    (∀ r ∈ reads, r.Accounted) ∧
    s'.channel.offered =
      s.channel.offered ++ reads.flatMap (fun r => List.replicate r.answers.length (min r.size segmentSize)) ∧
    reads.flatMap ChannelRead.gained = reads.flatMap ChannelRead.served ∧
    reads.flatMap ChannelRead.gained ++ s'.unserved = s.unserved ∧
    reads.Pairwise fun r r' => .ok [] ∈ r.answers → r'.answers = [] ∧
      (r'.source.closed = false → 0 < r'.size → r'.outcome.result = (checkRead r'.size).map fun _ => none) := by
  obtain ⟨reads, s', hrun, hreads⟩ := exists_run s calls
  refine ⟨reads, s', hrun, hreads, hrun.offered hreads, ChannelRead.flatMap_gained hreads, hrun.unserved, ?_⟩
  refine (hrun.latched hreads).imp_of_mem fun hr hr' hlatch hend => ?_
  have he := hlatch hend
  refine ⟨(hreads _ hr').silent he, fun hc hn => ?_⟩
  rw [ChannelRead.outcome, read_of_ended hc hn he]

end ChannelSource

end Conduit
