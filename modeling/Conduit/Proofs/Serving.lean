import Conduit.Channel.Source
import Conduit.Memory.Source

/-!
# What a source serves

A source serves a byte string if its reads give that string, in pieces of whatever length, and then nothing.  How long
the pieces are is left to the source, as long as none is empty; so `Serves` is the largest relation that its reads keep.
A source that may fail as well owes what it has not served yet: a failed read changes nothing about that (`Owes`).

A source in memory serves its contents (`MemorySource.serves`).  A channel owes what it serves up to its end
(`ChannelSource.owes_ofChannel`), and serves that if it brings something with each turn
(`ChannelSource.serves_ofChannel`).
-/

namespace Conduit

section

variable {σ : Type}

/-- What a read of at most `n` bytes leaves behind when `x` is still to be served: bytes from the front of `x`, or none
at the end. -/
def Served (R : σ → Bytes → Prop) (x : Bytes) (n : Nat) (b : Buffer) (o : ReadOutcome σ) : Prop :=
  (x = [] ∧ o.result = .ok none ∧ o.buffer.toList = b.toList ∧ R o.source []) ∨
    ∃ k, 0 < k ∧ k ≤ n ∧ k ≤ x.length ∧ o.result = .ok (some k) ∧ o.buffer.toList = b.toList ++ x.take k ∧
      R o.source (x.drop k)

theorem Served.mono {R R' : σ → Bytes → Prop} (hR : ∀ s x, R s x → R' s x) {x : Bytes} {n : Nat} {b : Buffer}
    {o : ReadOutcome σ} (h : Served R x n b o) : Served R' x n b o := by
  rcases h with ⟨hx, hr, hb, hs⟩ | ⟨k, hk, hn, hx, hr, hb, hs⟩
  · left
    exact ⟨hx, hr, hb, hR _ _ hs⟩
  · right
    exact ⟨k, hk, hn, hx, hr, hb, hR _ _ hs⟩

/-- What a read of at most `n` bytes leaves behind when `x` is owed: some of `x` is served, or, unless reads are
limited, the read has failed and all is as before. -/
def Kept (limit : Option Nat) (R : σ → Bytes → Prop) (x : Bytes) (n : Nat) (b : Buffer) (o : ReadOutcome σ) : Prop :=
  Served R x n b o ∨ (limit = none ∧ (∃ e, o.result = .error e) ∧ o.buffer = b ∧ R o.source x)

theorem Kept.mono {limit : Option Nat} {R R' : σ → Bytes → Prop} (hR : ∀ s x, R s x → R' s x) {x : Bytes} {n : Nat}
    {b : Buffer} {o : ReadOutcome σ} (h : Kept limit R x n b o) : Kept limit R' x n b o := by
  rcases h with h | ⟨hl, he, hb, hs⟩
  · exact .inl (h.mono hR)
  · exact .inr ⟨hl, he, hb, hR _ _ hs⟩

variable [ByteSource σ]

/-- Reads of at most `limit` bytes keep the relation between a source and what it is to serve, and there is always time
for them. -/
structure Serving (limit : Nat) (R : σ → Bytes → Prop) : Prop where
  read {s : σ} {x : Bytes} (h : R s x) {n : Nat} (hn : 0 < n) (hl : n ≤ limit) (b : Buffer) (host : Host) :
    Served R x n b (ByteSource.read s n b host)
  check {s : σ} {x : Bytes} (h : R s x) (host : Host) : ((ByteSource.timeout s).check host).1 = .ok ()

/-- The source is going to serve `x`, if no read is for more than `limit` bytes. -/
def Serves (limit : Nat) (s : σ) (x : Bytes) : Prop := ∃ R : σ → Bytes → Prop, Serving limit R ∧ R s x

theorem serving_serves (limit : Nat) : Serving limit (Serves limit : σ → Bytes → Prop) where
  read := by
    rintro s x ⟨R, hR, hs⟩ n hn hl b host
    apply (hR.read hs hn hl b host).mono
    intro s x hs
    exact ⟨R, hR, hs⟩
  check := by
    rintro s x ⟨R, hR, hs⟩ host
    exact hR.check hs host

/-- Reads keep the relation between a source and what it owes.  If they are limited, to so many bytes, there is always
time for them and they do not fail. -/
structure Lasting (limit : Option Nat) (R : σ → Bytes → Prop) : Prop where
  read {s : σ} {x : Bytes} (h : R s x) {n : Nat} (hn : 0 < n) (hl : ∀ l ∈ limit, n ≤ l) (b : Buffer) (host : Host) :
    Kept limit R x n b (ByteSource.read s n b host)
  check {s : σ} {x : Bytes} (h : R s x) (hl : limit ≠ none) (host : Host) :
    ((ByteSource.timeout s).check host).1 = .ok ()

/-- The source still has to serve `x`, however often it fails before it has done so. -/
def Owes (limit : Option Nat) (s : σ) (x : Bytes) : Prop := ∃ R : σ → Bytes → Prop, Lasting limit R ∧ R s x

theorem lasting_owes (limit : Option Nat) : Lasting limit (Owes limit : σ → Bytes → Prop) where
  read := by
    rintro s x ⟨R, hR, hs⟩ n hn hl b host
    apply (hR.read hs hn hl b host).mono
    intro s x hs
    exact ⟨R, hR, hs⟩
  check := by
    rintro s x ⟨R, hR, hs⟩ hl host
    exact hR.check hs hl host

/-- To serve is to owe without ever failing. -/
theorem owes_some_iff {limit : Nat} {s : σ} {x : Bytes} : Owes (some limit) s x ↔ Serves limit s x := by
  constructor
  · rintro ⟨R, hR, hs⟩
    refine ⟨R, ⟨?_, ?_⟩, hs⟩
    · intro s x hs n hn hle b host
      have hl : ∀ l ∈ some limit, n ≤ l := by simpa using hle
      exact (hR.read hs hn hl b host).resolve_right (by simp)
    · intro s x hs host
      exact hR.check hs (by simp) host
  · rintro ⟨R, hR, hs⟩
    refine ⟨R, ⟨?_, ?_⟩, hs⟩
    · intro s x hs n hn hl b host
      exact .inl (hR.read hs hn (hl _ rfl) b host)
    · intro s x hs _ host
      exact hR.check hs host

end

theorem Timeout.check_none (host : Host) : (Timeout.none.check host).1 = .ok () := rfl

theorem Serves.mono {σ : Type} [ByteSource σ] {limit limit' : Nat} (hl : limit' ≤ limit) {s : σ} {x : Bytes}
    (h : Serves limit s x) : Serves limit' s x := by
  obtain ⟨R, hR, hs⟩ := h
  refine ⟨R, ⟨?_, hR.check⟩, hs⟩
  intro s x hs n hn hle
  exact hR.read hs hn (Nat.le_trans hle hl)

/-- Serving from a buffer: as much as there is in front, and nothing only if nothing follows it either. -/
theorem served_of_buffer {τ : Type} {R : τ → Bytes → Prop} {out : Buffer} {z : Bytes} {f : Buffer → τ} {n : Nat}
    (hn : 0 < n) (hz : n ≤ out.length ∨ z = []) (hR : ∀ rest : Buffer, R (f rest) (rest.toList ++ z)) (b : Buffer)
    (host : Host) : Served R (out.toList ++ z) n b
      (if out.isEmpty then ⟨.ok none, f out, b, host⟩
      else ⟨.ok (some (min n out.length)), f (out.moveTo (min n out.length) b).2, (out.moveTo (min n out.length) b).1,
        host⟩) := by
  by_cases he : out.isEmpty
  · have hnil := Buffer.isEmpty_iff.1 he
    have hout : out.length = 0 := Buffer.length_eq_zero_iff.2 hnil
    have hz : z = [] := hz.resolve_left (by omega)
    have hs := hR out
    rw [if_pos he, hnil, hz]
    rw [hnil, hz] at hs
    exact .inl ⟨rfl, rfl, rfl, hs⟩
  · have hout : out.length ≠ 0 := fun h0 => he (Buffer.isEmpty_iff.2 (Buffer.length_eq_zero_iff.1 h0))
    have hle : min n out.length ≤ out.toList.length := by
      rw [Buffer.length_toList]
      exact Nat.min_le_right ..
    have hs := hR (out.moveTo (min n out.length) b).2
    rw [Buffer.toList_moveTo_snd, ← List.drop_append_of_le_length hle] at hs
    rw [if_neg he]
    refine .inr ⟨min n out.length, by omega, Nat.min_le_left .., ?_, rfl, ?_, hs⟩
    · rw [List.length_append]
      omega
    · rw [Buffer.toList_moveTo_fst, List.take_append_of_le_length hle]

/-! ### Innermost sources -/

namespace MemorySource

/-- A source in memory serves its contents, whatever its bound on one read. -/
theorem serves {s : MemorySource} (ho : s.closed = false) (ht : s.timeout = .none) :
    Serves maxRequestLength s s.contents.toList := by
  refine ⟨fun s x => s.contents.toList = x ∧ s.closed = false ∧ s.timeout = .none, ?_, rfl, ho, ht⟩
  constructor
  · rintro s x ⟨rfl, ho, ht⟩ n hn hl b host
    show Served _ _ _ _ (s.read n b host)
    by_cases he : s.contents.isEmpty
    · have hx := Buffer.isEmpty_iff.1 he
      simp only [read, checkRead_eq_ok_iff.2 hl, ho, Nat.ne_of_gt hn, he, if_false, if_true, Bool.false_eq_true]
      exact .inl ⟨hx, rfl, rfl, hx, rfl, ht⟩
    · have hpos : 0 < s.contents.length := by
        have := mt (fun h => Buffer.isEmpty_iff.2 (Buffer.length_eq_zero_iff.1 h)) he
        omega
      simp only [read, checkRead_eq_ok_iff.2 hl, ho, Nat.ne_of_gt hn, he, if_false, Bool.false_eq_true]
      refine .inr ⟨s.share n, share_pos hn hpos, (s.share_le n).1, ?_, rfl, Buffer.toList_moveTo_fst .., ?_, rfl, ht⟩
      · rw [Buffer.length_toList]
        exact (s.share_le n).2
      · exact Buffer.toList_moveTo_snd ..
  · rintro s x ⟨-, -, ht⟩ host
    show (s.timeout.check host).1 = .ok ()
    rw [ht, Timeout.check_none]

end MemorySource

/-- The turn brings bytes, or no more than an interruption. -/
def ReadTurn.Brings (turn : ReadTurn) : Prop :=
  match turn.served with
  | .ok data => data ≠ []
  | .error e => e.kind = .interrupted

/-- What the turn brings. -/
def ReadTurn.content (turn : ReadTurn) : Bytes :=
  match turn.served with
  | .ok data => data
  | .error _ => []

/-- All that is still to be read from a channel. -/
def Channel.toCome (c : Channel) : Bytes := c.held ++ c.reads.flatMap ReadTurn.content

/-- A channel that never has nothing to serve before its end. -/
def Channel.Brings (c : Channel) : Prop := c.pace ≠ some 0 ∧ ∀ turn ∈ c.reads, turn.Brings

/-- What the turns serve before the first one that serves no bytes. -/
def servedUntilEnd : List ReadTurn → Bytes
  | [] => []
  | turn :: turns =>
    match turn.served with
    | .ok [] => []
    | .ok data => data ++ servedUntilEnd turns
    | .error _ => servedUntilEnd turns

namespace Channel

/-- What the reads of a channel serve before the first one that serves no bytes. -/
def untilEnd (c : Channel) : Bytes := if c.pace = some 0 then [] else c.held ++ servedUntilEnd c.reads

theorem untilEnd_of_brings {c : Channel} (h : c.Brings) : c.untilEnd = c.toCome := by
  have hturns (turns : List ReadTurn) (ht : ∀ turn ∈ turns, turn.Brings) :
      servedUntilEnd turns = turns.flatMap ReadTurn.content := by
    induction turns with
    | nil => rfl
    | cons turn turns ih =>
      have hrest := ih fun turn h => ht turn (List.mem_cons_of_mem _ h)
      have hturn := ht turn List.mem_cons_self
      obtain ⟨pause, e | data⟩ := turn
      · exact hrest
      · rw [List.flatMap_cons, ← hrest]
        cases data with
        | nil => exact absurd rfl hturn
        | cons => rfl
  rw [untilEnd, if_neg h.1, toCome, hturns _ h.2]

/-- Serving from `data` takes what is served off the data and what the turns still serve, unless that is nothing. -/
private theorem serve_untilEnd (c : Channel) {n : Nat} (hn : 0 < n) (data : Bytes) : (c.serve n data).1.length ≤ n ∧
    if (c.serve n data).1 = [] then c.pace = some 0 ∨ data = []
    else (c.pace ≠ some 0 ∧ data ≠ []) ∧
      (c.serve n data).1 ++ (c.serve n data).2.untilEnd = data ++ servedUntilEnd c.reads := by
  have hle : c.bound n ≤ n := Nat.min_le_left ..
  refine ⟨?_, ?_⟩
  · show (data.take (c.bound n)).length ≤ n
    rw [List.length_take]
    omega
  · by_cases hp : c.pace = some 0
    · have hnil : (c.serve n data).1 = [] := by simp [serve, bound, hp]
      rw [if_pos hnil]
      exact .inl hp
    · have hpos : 0 < c.bound n := by
        rcases hpace : c.pace with _ | p
        · simp only [bound, hpace, Option.getD_none]
          omega
        · have : p ≠ 0 := by
            rintro rfl
            exact hp hpace
          simp only [bound, hpace, Option.getD_some]
          omega
      by_cases hd : data = []
      · rw [if_pos (by simp [serve, hd])]
        exact .inr hd
      · have hne : (c.serve n data).1 ≠ [] := by
          simp only [serve, ne_eq, List.take_eq_nil_iff, hd, or_false]
          omega
        rw [if_neg hne]
        refine ⟨⟨hp, hd⟩, ?_⟩
        simp only [serve, untilEnd, hp, if_false]
        rw [← List.append_assoc, List.take_append_drop]

/-- What one read serves is taken off what is served until the end; an error takes nothing off it. -/
theorem read_untilEnd {c c' : Channel} {n : Nat} {host host' : Host} {r : Except IoError Bytes} (hn : 0 < n)
    (h : c.read n host = (r, c', host')) :
    match r with
    | .ok data => data.length ≤ n ∧ if data = [] then c.untilEnd = [] else data ++ c'.untilEnd = c.untilEnd
    | .error _ => c'.untilEnd = c.untilEnd := by
  unfold read at h
  simp only at h
  split at h
  · rename_i hh
    cases h
    obtain ⟨hlen, hs⟩ := serve_untilEnd { c with offered := c.offered ++ [n] } hn c.held
    refine ⟨hlen, ?_⟩
    split at hs
    · rename_i hnil
      rw [if_pos hnil, untilEnd, if_pos (hs.resolve_right hh)]
    · rename_i hnil
      rw [if_neg hnil, hs.2, untilEnd, if_neg hs.1.1]
  · rename_i hh
    have hh : c.held = [] := by simpa using hh
    split at h
    · rename_i hr
      cases h
      have hend : c.untilEnd = [] := by simp [untilEnd, hh, show c.reads = [] from hr, servedUntilEnd]
      exact ⟨Nat.zero_le _, hend⟩
    · rename_i pause e reads hr
      cases h
      simp [untilEnd, hh, show c.reads = _ from hr, servedUntilEnd]
    · rename_i pause data reads hr
      cases h
      obtain ⟨hlen, hs⟩ := serve_untilEnd { c with offered := c.offered ++ [n], reads } hn data
      refine ⟨hlen, ?_⟩
      have hc : c.untilEnd = if c.pace = some 0 then [] else servedUntilEnd (⟨pause, .ok data⟩ :: reads) := by
        rw [untilEnd, hh, show c.reads = _ from hr, List.nil_append]
      split at hs
      · rename_i hnil
        rw [if_pos hnil, hc]
        rcases hs with hp | rfl
        · exact if_pos hp
        · simp [servedUntilEnd]
      · rename_i hnil
        obtain ⟨⟨hp, hd⟩, hs⟩ := hs
        rw [if_neg hnil, hs, hc, if_neg hp]
        cases data with
        | nil => exact absurd rfl hd
        | cons => rfl

/-- A channel that brings something with each turn goes on to do so, and only interruptions are errors of it. -/
theorem brings_read {c c' : Channel} {n : Nat} {host host' : Host} {r : Except IoError Bytes} (hc : c.Brings)
    (h : c.read n host = (r, c', host')) : c'.Brings ∧ ∀ e, r = .error e → e.kind = .interrupted := by
  obtain ⟨hp, ht⟩ := hc
  unfold read at h
  simp only [serve] at h
  split at h
  · cases h
    exact ⟨⟨hp, ht⟩, by simp⟩
  · split at h
    · cases h
      exact ⟨⟨hp, ht⟩, by simp⟩
    · rename_i pause e reads hr
      cases h
      have hturn := ht ⟨pause, .error e⟩ (by simp [hr])
      refine ⟨⟨hp, fun turn h => ht turn (by simp [hr, h])⟩, ?_⟩
      rintro _ ⟨⟩
      exact hturn
    · rename_i pause data reads hr
      cases h
      exact ⟨⟨hp, fun turn h => ht turn (by simp [hr, h])⟩, by simp⟩

end Channel

namespace ChannelSource

/-- What the source owes: what the channel serves until its end, if that was not seen yet.  With a limit on reads the
channel brings something with each turn, and there is always time. -/
def Awaits (limit : Option Nat) (s : ChannelSource) (x : Bytes) : Prop :=
  s.closed = false ∧ (limit ≠ none → s.timeout = .none ∧ s.channel.Brings) ∧
    x = if s.ended then [] else s.channel.untilEnd

theorem Awaits.poll {limit : Option Nat} {s : ChannelSource} {x : Bytes} (h : s.Awaits limit x)
    (he : s.ended = false) {deadline : Deadline} (hd : limit ≠ none → deadline.limit = none) {n : Nat} (hn : 0 < n)
    (b : Buffer) (host : Host) : Kept limit (Awaits limit) x n b (s.poll deadline n b host) := by
  have hw : 0 < (b.window n).size := by
    have : 0 < segmentSize := by decide
    rw [Buffer.size_window]
    omega
  fun_induction ChannelSource.poll s deadline n b host with
  | case1 s host e host' hc =>
    have hlimit : limit = none := Decidable.byContradiction fun hl => by simp [Deadline.check, hd hl] at hc
    exact .inr ⟨hlimit, ⟨e, rfl⟩, rfl, h⟩
  | case2 s host host' hc channel host'' hr =>
    obtain ⟨ho, hb, rfl⟩ := h
    have hx := (Channel.read_untilEnd hw hr).2
    rw [if_pos rfl] at hx
    have hb' : limit ≠ none → s.timeout = .none ∧ channel.Brings := fun hl =>
      ⟨(hb hl).1, (Channel.brings_read (hb hl).2 hr).1⟩
    refine .inl (.inl ⟨?_, rfl, rfl, ho, hb', rfl⟩)
    simp [hx]
  | case3 s host host' hc data channel host'' hr hdata =>
    obtain ⟨ho, hb, rfl⟩ := h
    obtain ⟨hlen, hx⟩ := Channel.read_untilEnd hw hr
    rw [if_neg hdata] at hx
    rw [Buffer.size_window] at hlen
    have hb' : limit ≠ none → s.timeout = .none ∧ channel.Brings := fun hl =>
      ⟨(hb hl).1, (Channel.brings_read (hb hl).2 hr).1⟩
    simp only [he, Bool.false_eq_true, if_false, ← hx]
    refine .inl (.inr ⟨data.length, List.length_pos_iff.2 hdata, by omega, by simp, rfl, ?_, ho, hb', ?_⟩)
    · rw [Buffer.toList_fill, List.take_left, List.take_of_length_le hlen]
    · simp
  | case4 s host host' hc e channel host'' hr hi ih =>
    -- an interruption leaves everything to be served
    obtain ⟨ho, hb, rfl⟩ := h
    have hx := Channel.read_untilEnd hw hr
    exact ih ⟨ho, fun hl => ⟨(hb hl).1, (Channel.brings_read (hb hl).2 hr).1⟩, by simp [he, hx]⟩ he
  | case5 s host host' hc e channel host'' hr hi =>
    obtain ⟨ho, hb, rfl⟩ := h
    have hx := Channel.read_untilEnd hw hr
    have hlimit : limit = none := Decidable.byContradiction fun hl =>
      hi ((Channel.brings_read (hb hl).2 hr).2 _ rfl)
    refine .inr ⟨hlimit, ⟨_, rfl⟩, rfl, ho, fun hl => absurd hlimit hl, ?_⟩
    simp [he, hx]

theorem lasting_awaits {limit : Option Nat} (hm : ∀ l ∈ limit, l ≤ maxRequestLength) :
    Lasting limit (Awaits limit) where
  read {s x} h {n} hn hl b host := by
    show Kept limit (Awaits limit) x n b (s.read n b host)
    unfold ChannelSource.read
    by_cases hle : n ≤ maxRequestLength
    · rw [checkRead_eq_ok_iff.2 hle]
      simp only
      rw [if_neg (by simp [h.1]), if_neg (Nat.ne_of_gt hn)]
      by_cases he : s.ended
      · rw [if_pos he]
        have hx : x = [] := by simpa [he] using h.2.2
        exact .inl (.inl ⟨hx, rfl, rfl, hx ▸ h⟩)
      · rw [if_neg he]
        refine h.poll (by simpa using he) ?_ hn b _
        intro hlimit
        rw [(h.2.1 hlimit).1]
        rfl
    · -- a read for too many bytes is refused
      have hlimit : limit = none := Option.eq_none_iff_forall_not_mem.2 fun l h =>
        hle (Nat.le_trans (hl l h) (hm l h))
      rw [checkRead, if_pos (Nat.lt_of_not_le hle)]
      exact .inr ⟨hlimit, ⟨_, rfl⟩, rfl, h⟩
  check {s x} h hl host := by
    show (s.timeout.check host).1 = .ok ()
    rw [(h.2.1 hl).1, Timeout.check_none]

/-- A source that reads from a channel owes what that serves before its end, whatever errors come between and whatever
the time. -/
theorem owes_ofChannel (channel : Channel) (timeout : Timeout) :
    Owes none (ofChannel channel timeout) channel.untilEnd :=
  ⟨Awaits none, lasting_awaits (by simp), rfl, fun h => absurd rfl h, rfl⟩

/-- A source that reads from a channel serves what its turns bring, in whatever pieces. -/
theorem serves_ofChannel {channel : Channel} (hc : channel.Brings) :
    Serves maxRequestLength (ofChannel channel .none) channel.toCome := by
  rw [← owes_some_iff, ← Channel.untilEnd_of_brings hc]
  exact ⟨Awaits _, lasting_awaits (by simp), rfl, fun _ => ⟨rfl, hc⟩, rfl⟩

end ChannelSource

end Conduit
