import Conduit.Channel.Sink

/-!
# What a write offers to a channel

A write to a channel sink is a sequence of offers, each made when the deadline was found not to have passed and each for
bytes at the front of those that are still owed (`Offering`).  It stops in one of three ways: all bytes were accepted,
the channel has failed, or the deadline was found to have passed (`Stops`).  Whatever the channel answers, and whenever
the deadline passes, what it has accepted and what the buffer still holds are what the buffer held before, and the write
succeeds exactly if all bytes were accepted (`ChannelSink.write_all_or_error`).
-/

namespace Conduit

/-- An offer to a channel with its answer: how many bytes, from the front, are accepted, or an error. -/
structure Offer where
  data : Bytes
  answer : Except IoError Nat
deriving DecidableEq, Repr

namespace Offer

/-- The bytes that are accepted. -/
def accepted (offer : Offer) : Bytes :=
  match offer.answer with
  | .ok count => offer.data.take count
  | .error _ => []

/-- The channel was interrupted. -/
def Interrupted (offer : Offer) : Prop := ∃ e, offer.answer = .error e ∧ e.kind = .interrupted

/-- The error that ends a write: nothing was accepted, or the channel has failed and was not only interrupted. -/
def failure? (offer : Offer) : Option IoError :=
  match offer.answer with
  | .ok count => if count = 0 then some (.nothingAccepted .channel) else none
  | .error e => if e.kind = .interrupted then none else some e

theorem accepted_of_failure? {offer : Offer} {e : IoError} (h : offer.failure? = some e) : offer.accepted = [] := by
  rcases ha : offer.answer with e' | count
  · rw [accepted, ha]
  · by_cases hzero : count = 0
    · simp [accepted, ha, hzero]
    · simp [failure?, ha, hzero] at h

theorem accepted_of_interrupted {offer : Offer} (h : offer.Interrupted) : offer.accepted = [] := by
  obtain ⟨e, ha, -⟩ := h
  rw [accepted, ha]

theorem failure?_of_interrupted {offer : Offer} (h : offer.Interrupted) : offer.failure? = none := by
  obtain ⟨e, ha, hk⟩ := h
  rw [failure?, ha]
  exact if_pos hk

theorem kind_of_failure? {offer : Offer} {e : IoError} (h : offer.failure? = some e) : e.kind ≠ .interrupted := by
  unfold failure? at h
  split at h
  · split at h
    · cases h
      decide
    · cases h
  · split at h
    · cases h
    · cases h
      assumption

/-- A write ends with this error if nothing was accepted, or if the channel itself has failed with it. -/
theorem failure?_eq_nothingAccepted_iff {offer : Offer} : offer.failure? = some (.nothingAccepted .channel) ↔
    offer.answer = .ok 0 ∨ offer.answer = .error (.nothingAccepted .channel) := by
  rcases ha : offer.answer with e | count
  · simp only [failure?, ha, Except.error.injEq, reduceCtorEq, false_or]
    constructor
    · intro h
      split at h
      · cases h
      · exact Option.some.inj h
    · rintro rfl
      rfl
  · simp [failure?, ha]

end Offer

/-- A channel is made these offers, one after the other.  Each is made within the deadline, is not empty and is for
bytes at the front of those that are still owed. -/
inductive Offering (deadline : Deadline) : (owed : Bytes) → Channel → Host → List Offer → Channel → Host → Prop
  | nil {owed : Bytes} {c : Channel} {host : Host} : Offering deadline owed c host [] c host
  | cons {owed : Bytes} {c c₁ c₂ : Channel} {host host₁ host₂ host₃ : Host} {offer : Offer} {offers : List Offer}
      (hcheck : deadline.check host = (.ok (), host₁)) (hwrite : c.write offer.data host₁ = (offer.answer, c₁, host₂))
      (hne : offer.data ≠ []) (howed : offer.data <+: owed)
      (hrest : Offering deadline (owed.drop offer.accepted.length) c₁ host₂ offers c₂ host₃) :
      Offering deadline owed c host (offer :: offers) c₂ host₃

/-- How a write of `n` bytes stops after these offers, at the time of this host: with which result, and leaving which
host. -/
inductive Stops (deadline : Deadline) (n : Nat) (offers : List Offer) (host : Host) : Except Error Unit → Host → Prop
  /-- All bytes were accepted. -/
  | all (h : (offers.flatMap Offer.accepted).length = n) : Stops deadline n offers host (.ok ()) host
  /-- The last offer has failed. -/
  | failed {offer : Offer} {e : IoError} (hlast : offers.getLast? = some offer) (hfail : offer.failure? = some e) :
      Stops deadline n offers host (.error (.io e)) host
  /-- Before another offer was made the deadline was found to have passed. -/
  | late {elapsed : Duration} {host' : Host} (hcheck : deadline.check host = (.error (.timedOut elapsed), host')) :
      Stops deadline n offers host (.error (.timedOut elapsed)) host'

theorem Channel.written_of_write {c c' : Channel} {offer : Offer} {host host' : Host}
    (h : c.write offer.data host = (offer.answer, c', host')) : c'.written = c.written ++ offer.accepted := by
  unfold Offer.accepted
  split <;> rename_i ha <;> rw [ha] at h
  · exact (length_write h).2.1
  · rw [(writes_write_error h).1, List.append_nil]

theorem Channel.offered_write (c : Channel) (data : Bytes) (host : Host) :
    (c.write data host).2.1.offered = c.offered ++ [data.length] := by
  simp only [write, accept]
  split <;> rfl

namespace Offering

variable {deadline : Deadline} {owed : Bytes} {c c' : Channel} {host host' : Host} {offers : List Offer}

/-- The channel has written what it has accepted. -/
theorem written (h : Offering deadline owed c host offers c' host') :
    c'.written = c.written ++ offers.flatMap Offer.accepted := by
  induction h with
  | nil => simp
  | cons hcheck hwrite hne howed hrest ih =>
    rw [ih, Channel.written_of_write hwrite, List.flatMap_cons, List.append_assoc]

/-- No other offers were made. -/
theorem offered (h : Offering deadline owed c host offers c' host') :
    c'.offered = c.offered ++ offers.map fun offer => offer.data.length := by
  induction h with
  | nil => simp
  | @cons _ c c₁ _ _ host₁ _ _ offer _ hcheck hwrite hne howed hrest ih =>
    have hoffered := c.offered_write offer.data host₁
    rw [hwrite] at hoffered
    rw [ih, hoffered, List.map_cons, List.append_assoc, List.singleton_append]

/-- A deadline that was found to have passed allows no offer. -/
theorem eq_nil_of_check (h : Offering deadline owed c host offers c' host') {e : Error} {host₁ : Host}
    (hcheck : deadline.check host = (.error e, host₁)) : offers = [] := by
  cases h with
  | nil => rfl
  | cons hok => cases hok.symm.trans hcheck

theorem eq_nil_of_owed (h : Offering deadline [] c host offers c' host') : offers = [] := by
  cases h with
  | nil => rfl
  | cons _ _ hne howed => exact absurd (List.prefix_nil.1 howed) hne

/-- Before the first offer no time passes. -/
theorem host_eq (h : Offering deadline owed c host [] c' host') : host' = host := by
  cases h
  rfl

end Offering

namespace Stops

variable {deadline : Deadline} {n : Nat} {offers : List Offer} {host host' : Host} {r : Except Error Unit}

/-- Offers that come before leave the way in which a write stops. -/
theorem cons {m : Nat} (h : Stops deadline m offers host r host') {offer : Offer}
    (hm : offer.accepted.length + m = n) : Stops deadline n (offer :: offers) host r host' := by
  cases h with
  | all hall => exact .all (by rw [List.flatMap_cons, List.length_append, hall, hm])
  | failed hlast hfail => exact .failed (by rw [List.getLast?_cons, hlast, Option.getD_some]) hfail
  | late hcheck => exact .late hcheck

theorem length_eq (h : Stops deadline n offers host (.ok ()) host') : (offers.flatMap Offer.accepted).length = n := by
  cases h
  assumption

/-- A write of some bytes that makes no offer has found the deadline to have passed. -/
theorem late_of_nil (h : Stops deadline n [] host r host') (hn : n ≠ 0) :
    ∃ elapsed, r = .error (.timedOut elapsed) ∧ deadline.check host = (.error (.timedOut elapsed), host') := by
  cases h with
  | all hall => exact absurd hall.symm hn
  | failed hlast => cases hlast
  | late hcheck => exact ⟨_, rfl, hcheck⟩

end Stops

namespace ChannelSink

/-- What has come of delivering `n` bytes of a buffer by these offers. -/
structure Delivered (s : ChannelSink) (deadline : Deadline) (n : Nat) (b : Buffer) (host : Host) (offers : List Offer)
    (o : WriteOutcome ChannelSink) : Prop where
  offering : ∃ host', Offering deadline (b.toList.take n) s.channel host offers o.sink.channel host' ∧
    Stops deadline n offers host' o.result o.host
  conserved : offers.flatMap Offer.accepted ++ o.buffer.toList = b.toList
  short : ∀ e, o.result = .error e → (offers.flatMap Offer.accepted).length < n
  surfaced : ∀ e, o.result = .error (.io e) ↔ ∃ offer ∈ offers, offer.failure? = some e
  retried : ∀ offer, offers.getLast? = some offer → offer.Interrupted → ∃ elapsed, o.result = .error (.timedOut elapsed)

variable {s : ChannelSink} {deadline : Deadline} {n : Nat} {b : Buffer} {host host₁ host₂ : Host} {channel : Channel}
  {offer : Offer}

/-- What is offered are bytes at the front of those that are owed, and not none. -/
private theorem offered_isPrefix (hn : n ≠ 0) (hb : n ≤ b.length) (hdata : offer.data = b.head.take n) :
    offer.data ≠ [] ∧ offer.data <+: b.toList.take n := by
  constructor
  · intro hnil
    have hhead : b.head = [] := (List.take_eq_nil_iff.1 (hdata ▸ hnil)).resolve_left hn
    have hzero : b.length = 0 := by rw [← Buffer.length_toList, Buffer.head_eq_nil_iff.1 hhead, List.length_nil]
    omega
  · rw [hdata, b.head_isPrefix, List.take_append]
    exact List.prefix_append ..

/-- Nothing is offered if nothing is to be delivered. -/
private theorem Delivered.nothing : Delivered s deadline 0 b host [] ⟨.ok (), s, b, host⟩ where
  offering := ⟨host, .nil, .all rfl⟩
  conserved := rfl
  short e h := by cases h
  surfaced e := by simp
  retried offer h := by cases h

/-- Nothing is offered after the deadline. -/
private theorem Delivered.late (hn : n ≠ 0) {elapsed : Duration}
    (hcheck : deadline.check host = (.error (.timedOut elapsed), host₁)) :
    Delivered s deadline n b host [] ⟨.error (.timedOut elapsed), s, b, host₁⟩ where
  offering := ⟨host, .nil, .late hcheck⟩
  conserved := rfl
  short _ _ := Nat.pos_of_ne_zero hn
  surfaced e := by simp
  retried offer h := by cases h

/-- The channel has failed, and so does the delivery. -/
private theorem Delivered.stop (hn : n ≠ 0) (hb : n ≤ b.length) (hdata : offer.data = b.head.take n)
    (hcheck : deadline.check host = (.ok (), host₁))
    (hwrite : s.channel.write offer.data host₁ = (offer.answer, channel, host₂)) {e : IoError}
    (hfail : offer.failure? = some e) :
    Delivered s deadline n b host [offer] ⟨.error (.io e), { s with channel }, b, host₂⟩ where
  offering := by
    obtain ⟨hne, howed⟩ := offered_isPrefix hn hb hdata
    exact ⟨host₂, .cons hcheck hwrite hne howed .nil, .failed rfl hfail⟩
  conserved := by simp [Offer.accepted_of_failure? hfail]
  short _ _ := by
    rw [List.flatMap_singleton, Offer.accepted_of_failure? hfail]
    exact Nat.pos_of_ne_zero hn
  surfaced _ := by simp [hfail]
  retried last hlast hint := by
    obtain rfl : offer = last := Option.some.inj hlast
    rw [Offer.failure?_of_interrupted hint] at hfail
    cases hfail

/-- After an offer that does not end it, the delivery goes on with what is owed then. -/
private theorem Delivered.cons (hn : n ≠ 0) (hb : n ≤ b.length) (hdata : offer.data = b.head.take n)
    (hcheck : deadline.check host = (.ok (), host₁))
    (hwrite : s.channel.write offer.data host₁ = (offer.answer, channel, host₂))
    (hfail : offer.failure? = none) {b' : Buffer} (hb' : offer.accepted ++ b'.toList = b.toList) {m : Nat}
    (hm : offer.accepted.length + m = n) {offers : List Offer} {o : WriteOutcome ChannelSink}
    (h : Delivered { s with channel } deadline m b' host₂ offers o) :
    Delivered s deadline n b host (offer :: offers) o where
  offering := by
    obtain ⟨hne, howed⟩ := offered_isPrefix hn hb hdata
    obtain ⟨host', hoffering, hstops⟩ := h.offering
    refine ⟨host', .cons hcheck hwrite hne howed ?_, hstops.cons hm⟩
    rw [← hb', ← hm, List.take_length_add_append, List.drop_left]
    exact hoffering
  conserved := by rw [List.flatMap_cons, List.append_assoc, h.conserved, hb']
  short e herr := by
    rw [List.flatMap_cons, List.length_append, ← hm]
    exact Nat.add_lt_add_left (h.short e herr) _
  surfaced e := by
    rw [h.surfaced]
    simp [hfail]
  retried last hlast hint := by
    cases offers with
    | nil =>
      -- what was owed before the interruption still is, so it was the deadline that has ended the delivery
      obtain rfl : offer = last := Option.some.inj hlast
      rw [Offer.accepted_of_interrupted hint, List.length_nil, Nat.zero_add] at hm
      obtain ⟨host', -, hstops⟩ := h.offering
      obtain ⟨elapsed, hres, -⟩ := hstops.late_of_nil (hm ▸ hn)
      exact ⟨elapsed, hres⟩
    | cons next offers =>
      rw [List.getLast?_cons_cons] at hlast
      exact h.retried last hlast hint

/-- What is not accepted stays in the buffer. -/
private theorem accepted_append_dropHead {count : Nat} (hcount : count ≤ (b.head.take n).length) :
    (b.head.take n).take count ++ (b.dropHead count).toList = b.toList := by
  rw [List.length_take] at hcount
  have hhead : count ≤ b.head.length := by omega
  have hfront : (b.head.take n).take count = b.toList.take count := by
    rw [List.take_take, Nat.min_eq_left (by omega), b.head_isPrefix, List.take_append_of_le_length hhead]
  rw [hfront, Buffer.toList_dropHead, Nat.min_eq_left hhead, List.take_append_drop]

/-- However a buffer is delivered, there are offers that account for it. -/
theorem exists_delivered (s : ChannelSink) (deadline : Deadline) {n : Nat} {b : Buffer} (hb : n ≤ b.length)
    (host : Host) : ∃ offers, Delivered s deadline n b host offers (s.deliver deadline n b host) := by
  fun_induction deliver s deadline n b host with
  | case1 s b host => exact ⟨[], .nothing⟩
  | case2 s n b host hn e host' hcheck =>
    -- the deadline has passed
    obtain ⟨elapsed, rfl, -⟩ := Deadline.check_error hcheck
    exact ⟨[], .late hn hcheck⟩
  | case3 s n b host hn host₁ hcheck channel host₂ hwrite =>
    -- the channel accepts nothing
    exact ⟨[⟨_, .ok 0⟩], Delivered.stop hn hb rfl hcheck hwrite rfl⟩
  | case4 s n b host hn host₁ hcheck count channel host₂ hwrite hpos ih =>
    -- some bytes are accepted, perhaps fewer than were offered
    obtain ⟨hcount, -, -⟩ := Channel.length_write hwrite
    have hlen : (Offer.accepted ⟨b.head.take n, .ok count⟩).length = count := List.length_take_of_le hcount
    have htake := List.length_take_le n b.head
    have hm : (Offer.accepted ⟨b.head.take n, .ok count⟩).length + (n - count) = n := by omega
    have hb' : n - count ≤ (b.dropHead count).length := by
      rw [Buffer.length_dropHead]
      omega
    have hfail : Offer.failure? ⟨b.head.take n, .ok count⟩ = none := if_neg hpos
    obtain ⟨offers, h⟩ := ih hb'
    exact ⟨_, Delivered.cons hn hb rfl hcheck hwrite hfail (accepted_append_dropHead hcount) hm h⟩
  | case5 s n b host hn host₁ hcheck e channel host₂ hwrite hint ih =>
    -- an interruption
    obtain ⟨offers, h⟩ := ih hb
    have hfail : Offer.failure? ⟨b.head.take n, .error e⟩ = none := if_pos hint
    exact ⟨_, Delivered.cons hn hb rfl hcheck hwrite hfail rfl (Nat.zero_add n) h⟩
  | case6 s n b host hn host₁ hcheck e channel host₂ hwrite hint =>
    -- any other failure
    have hfail : Offer.failure? ⟨b.head.take n, .error e⟩ = some e := if_neg hint
    exact ⟨[⟨_, .error e⟩], Delivered.stop hn hb rfl hcheck hwrite hfail⟩

/-- No offer is made if there is nothing to offer or the deadline has already passed, and only then. -/
theorem Delivered.offers_eq_nil_iff {offers : List Offer} {o : WriteOutcome ChannelSink}
    (h : Delivered s deadline n b host offers o) :
    offers = [] ↔ n = 0 ∨ ∃ elapsed host', deadline.check host = (.error (.timedOut elapsed), host') := by
  obtain ⟨host', hoffering, hstops⟩ := h.offering
  constructor
  · rintro rfl
    obtain rfl := hoffering.host_eq
    by_cases hn : n = 0
    · exact .inl hn
    · obtain ⟨elapsed, -, hcheck⟩ := hstops.late_of_nil hn
      exact .inr ⟨elapsed, _, hcheck⟩
  · rintro (rfl | ⟨elapsed, host₁, hcheck⟩)
    · exact hoffering.eq_nil_of_owed
    · exact hoffering.eq_nil_of_check hcheck

/-- A write for `n` bytes that makes these offers to the channel is all or error, and accounts for every byte. -/
structure AllOrError (s : ChannelSink) (n : Nat) (b : Buffer) (host : Host) (offers : List Offer) : Prop where
  offering : ∃ host', Offering (s.timeout.start host).1 (b.toList.take n) s.channel (s.timeout.start host).2 offers
    (s.write n b host).sink.channel host'
  /-- An admitted write goes on until all bytes were accepted, an offer has failed or the deadline has passed. -/
  stopped : n ≤ maxRequestLength → n ≤ b.length → s.closed = false → ∃ host',
    Offering (s.timeout.start host).1 (b.toList.take n) s.channel (s.timeout.start host).2 offers
      (s.write n b host).sink.channel host' ∧
    Stops (s.timeout.start host).1 n offers host' (s.write n b host).result (s.write n b host).host
  /-- An admitted write of some bytes makes an offer, unless the deadline has already passed. -/
  idle : n ≤ maxRequestLength → n ≤ b.length → s.closed = false → (offers = [] ↔ n = 0 ∨
    ∃ elapsed host', (s.timeout.start host).1.check (s.timeout.start host).2 = (.error (.timedOut elapsed), host'))
  /-- The channel was offered nothing else. -/
  offered : (s.write n b host).sink.channel.offered = s.channel.offered ++ offers.map fun offer => offer.data.length
  written : (s.write n b host).sink.channel.written = s.channel.written ++ offers.flatMap Offer.accepted
  conserved : offers.flatMap Offer.accepted ++ (s.write n b host).buffer.toList = b.toList
  all : (s.write n b host).result = .ok () → (offers.flatMap Offer.accepted).length = n
  /-- A request that is not valid, or is made of a closed sink, changes nothing. -/
  refused : maxRequestLength < n ∨ b.length < n ∨ s.closed = true → offers = [] ∧
    ∃ e, ((∃ fault, e = .invalidArgument fault) ∨ e = .closed) ∧ s.write n b host = ⟨.error e, s, b, host⟩
  /-- Any other failure comes before all bytes were accepted. -/
  failed : n ≤ maxRequestLength → n ≤ b.length → s.closed = false → ∀ e, (s.write n b host).result = .error e →
    (offers.flatMap Offer.accepted).length < n
  uninterrupted : ∀ e, (s.write n b host).result = .error (.io e) → e.kind ≠ .interrupted
  /-- After an interruption comes another offer, unless the deadline has passed. -/
  retried : ∀ offer, offers.getLast? = some offer → offer.Interrupted →
    ∃ elapsed, (s.write n b host).result = .error (.timedOut elapsed)
  /-- An error that says that nothing was accepted says so because of such an answer, or is that of the channel. -/
  nothingAccepted : (s.write n b host).result = .error (.io (.nothingAccepted .channel)) ↔
    ∃ offer ∈ offers, offer.answer = .ok 0 ∨ offer.answer = .error (.nothingAccepted .channel)

private theorem write_of_refused {s : ChannelSink} {n : Nat} {b : Buffer}
    (h : maxRequestLength < n ∨ b.length < n ∨ s.closed = true) (host : Host) :
    ∃ e, ((∃ fault, e = .invalidArgument fault) ∨ e = .closed) ∧ s.write n b host = ⟨.error e, s, b, host⟩ := by
  unfold write checkWrite
  by_cases hlong : maxRequestLength < n
  · exact ⟨_, .inl ⟨_, rfl⟩, by rw [if_pos hlong]⟩
  · by_cases hfew : b.length < n
    · exact ⟨_, .inl ⟨_, rfl⟩, by rw [if_neg hlong, if_pos hfew]⟩
    · have hclosed : s.closed = true := (h.resolve_left hlong).resolve_left hfew
      exact ⟨_, .inr rfl, by rw [if_neg hlong, if_neg hfew]; exact if_pos hclosed⟩

private theorem not_admitted {s : ChannelSink} {n : Nat} {b : Buffer}
    (h : maxRequestLength < n ∨ b.length < n ∨ s.closed = true) (hlong : n ≤ maxRequestLength) (hfew : n ≤ b.length)
    (hopen : s.closed = false) : False := by
  rcases h with h | h | h
  · exact Nat.not_lt.2 hlong h
  · exact Nat.not_lt.2 hfew h
  · cases hopen.symm.trans h

private theorem allOrError_of_refused {s : ChannelSink} {n : Nat} {b : Buffer} {host : Host} {e : Error}
    (hrefused : maxRequestLength < n ∨ b.length < n ∨ s.closed = true)
    (he : (∃ fault, e = .invalidArgument fault) ∨ e = .closed) (hwrite : s.write n b host = ⟨.error e, s, b, host⟩) :
    AllOrError s n b host [] where
  offering := ⟨(s.timeout.start host).2, hwrite ▸ .nil⟩
  stopped hlong hfew hopen := (not_admitted hrefused hlong hfew hopen).elim
  idle hlong hfew hopen := (not_admitted hrefused hlong hfew hopen).elim
  offered := by simp [hwrite]
  written := by simp [hwrite]
  conserved := by simp [hwrite]
  all := by simp [hwrite]
  refused _ := ⟨rfl, e, he, hwrite⟩
  failed hlong hfew hopen := (not_admitted hrefused hlong hfew hopen).elim
  uninterrupted _ h := by
    rw [hwrite] at h
    rcases he with ⟨fault, rfl⟩ | rfl <;> cases h
  retried _ h := by cases h
  nothingAccepted := by
    rw [hwrite]
    rcases he with ⟨fault, rfl⟩ | rfl <;> simp

private theorem allOrError_of_delivered {s : ChannelSink} {n : Nat} {b : Buffer} {host : Host} {offers : List Offer}
    (hvalid : ¬ (maxRequestLength < n ∨ b.length < n ∨ s.closed = true))
    (h : Delivered s (s.timeout.start host).1 n b (s.timeout.start host).2 offers (s.write n b host)) :
    AllOrError s n b host offers where
  offering := by
    obtain ⟨host', hoffering, -⟩ := h.offering
    exact ⟨host', hoffering⟩
  stopped _ _ _ := h.offering
  idle _ _ _ := h.offers_eq_nil_iff
  offered := by
    obtain ⟨host', hoffering, -⟩ := h.offering
    exact hoffering.offered
  written := by
    obtain ⟨host', hoffering, -⟩ := h.offering
    exact hoffering.written
  conserved := h.conserved
  all hok := by
    obtain ⟨host', -, hstops⟩ := h.offering
    exact (hok ▸ hstops).length_eq
  refused hrefused := absurd hrefused hvalid
  failed _ _ _ := h.short
  uninterrupted e herr := by
    obtain ⟨offer, -, hfail⟩ := (h.surfaced e).1 herr
    exact Offer.kind_of_failure? hfail
  retried := h.retried
  nothingAccepted := by
    rw [h.surfaced]
    simp only [Offer.failure?_eq_nothingAccepted_iff]

/-- Whatever the layout of the buffer, the answers of the channel and the course of time, a write is all or error. -/
theorem write_all_or_error (s : ChannelSink) (n : Nat) (b : Buffer) (host : Host) :
    ∃ offers, AllOrError s n b host offers := by
  by_cases hrefused : maxRequestLength < n ∨ b.length < n ∨ s.closed = true
  · obtain ⟨e, he, hwrite⟩ := write_of_refused hrefused host
    exact ⟨[], allOrError_of_refused hrefused he hwrite⟩
  · obtain ⟨hlong, hrest⟩ := not_or.1 hrefused
    obtain ⟨hfew, hopen⟩ := not_or.1 hrest
    have hwrite : s.write n b host = s.deliver (s.timeout.start host).1 n b (s.timeout.start host).2 := by
      unfold write
      rw [checkWrite_eq_ok_iff.2 ⟨Nat.le_of_not_lt hlong, Nat.le_of_not_lt hfew⟩]
      exact if_neg hopen
    obtain ⟨offers, h⟩ := exists_delivered s (s.timeout.start host).1 (Nat.le_of_not_lt hfew) (s.timeout.start host).2
    rw [← hwrite] at h
    exact ⟨offers, allOrError_of_delivered hrefused h⟩

/-- The rest of a short write is offered again, and once more after an interruption, until nothing is accepted. -/
example :
    let s := ofChannel (.ofScript []
      [⟨.zero, .ok (some 2)⟩, ⟨.zero, .error (.ofDisk .interrupted)⟩, ⟨.zero, .ok (some 0)⟩] []) .none
    let o := s.write 4 (.ofList [1, 2, 3, 4, 5]) .start
    (o.result, o.sink.channel.offered, o.sink.channel.written, o.buffer.toList) =
      (.error (.io (.nothingAccepted .channel)), [4, 2, 2], [1, 2], [3, 4, 5]) := by decide +kernel

end ChannelSink

end Conduit
