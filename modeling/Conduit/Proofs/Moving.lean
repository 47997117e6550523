import Conduit.Proofs.Metering
import Conduit.Proofs.Serving
import Conduit.Proofs.Watching
import Conduit.Transfer

/-!
# What whole-stream operations move

A source yields a byte string if its reads give that string, in whatever pieces, and then nothing, as long as none of
them fails.  Reading exactly so many bytes takes those off the front or finds that there are fewer, reading everything
takes all, and copying takes all and passes on each piece as it comes: a logged sink finds each piece, and nothing else,
in the buffer that it is written from.  The operations end because every piece has a byte at least (`moved_of_yields`).
-/

namespace Conduit

/-! ### Sources that yield -/

section

variable {σ : Type} [ByteSource σ] {limit : Nat} {fails : Prop} {s : σ} {x y : Bytes}

/-- Reads of at most `limit` bytes keep the relation between a source and what is still to come from it.  If the source
is one that `fails`, a read may do that too, and nothing is known from then on. -/
structure Yielding (limit : Nat) (fails : Prop) (R : σ → Bytes → Prop) : Prop where
  read {s : σ} {x : Bytes} (h : R s x) {n : Nat} (hn : 0 < n) (hl : n ≤ limit) (b : Buffer) (host : Host) :
    Served R x n b (ByteSource.read s n b host) ∨ (fails ∧ ∃ e, (ByteSource.read s n b host).result = .error e)

/-- The source is going to give `x` and then nothing, in pieces of any length, as long as it does not fail. -/
def Yields (limit : Nat) (fails : Prop) (s : σ) (x : Bytes) : Prop :=
  ∃ R : σ → Bytes → Prop, Yielding limit fails R ∧ R s x

/-- A source that serves a byte string yields it. -/
theorem Serves.yields (h : Serves limit s x) : Yields limit False s x := by
  obtain ⟨R, hR, hs⟩ := h
  exact ⟨R, ⟨fun hs _ hn hl b host => .inl (hR.read hs hn hl b host)⟩, hs⟩

/-- So does one that owes it, unless it fails. -/
theorem Owes.yields (h : Owes none s x) : Yields limit True s x := by
  obtain ⟨R, hR, hs⟩ := h
  refine ⟨R, ⟨?_⟩, hs⟩
  intro s x hs n hn _ b host
  rcases hR.read hs hn (by simp) b host with hserved | ⟨-, he, -⟩
  · exact .inl hserved
  · exact .inr ⟨trivial, he⟩

section

variable {s' : σ} {n : Nat} {b b' : Buffer} {host host' : Host}

/-- What one read of a source that yields `x` leaves behind. -/
private theorem Yields.read (h : Yields limit fails s x) (hn : 0 < n) (hl : n ≤ limit) (b : Buffer) (host : Host) :
    Served (Yields limit fails) x n b (ByteSource.read s n b host) ∨
      (fails ∧ ∃ e, (ByteSource.read s n b host).result = .error e) := by
  obtain ⟨R, hR, hs⟩ := h
  refine (hR.read hs hn hl b host).imp_left fun hserved => hserved.mono ?_
  intro s x hs
  exact ⟨R, hR, hs⟩

theorem Yields.ended (h : Yields limit fails s x) (hn : 0 < n) (hl : n ≤ limit)
    (hr : ByteSource.read s n b host = ⟨.ok none, s', b', host'⟩) :
    x = [] ∧ b'.toList = b.toList ∧ Yields limit fails s' [] := by
  have hread := h.read hn hl b host
  rw [hr] at hread
  rcases hread with (⟨hx, -, hb, hs⟩ | ⟨k, -, -, -, hk, -⟩) | ⟨-, e, he⟩
  · exact ⟨hx, hb, hs⟩
  · cases hk
  · cases he

theorem Yields.failed (h : Yields limit fails s x) (hn : 0 < n) (hl : n ≤ limit) {e : Error}
    (hr : ByteSource.read s n b host = ⟨.error e, s', b', host'⟩) : fails := by
  have hread := h.read hn hl b host
  rw [hr] at hread
  rcases hread with (⟨-, hnone, -⟩ | ⟨k, -, -, -, hk, -⟩) | ⟨hfails, -⟩
  · cases hnone
  · cases hk
  · exact hfails

theorem Yields.given (h : Yields limit fails s x) (hn : 0 < n) (hl : n ≤ limit) {k : Nat}
    (hr : ByteSource.read s n b host = ⟨.ok (some k), s', b', host'⟩) :
    (0 < k ∧ k ≤ n) ∧ ∃ piece rest, x = piece ++ rest ∧ piece.length = k ∧ b'.toList = b.toList ++ piece ∧
      Yields limit fails s' rest := by
  have hread := h.read hn hl b host
  rw [hr] at hread
  rcases hread with (⟨-, hnone, -⟩ | ⟨k', hpos, hkn, hkx, hk, hb, hs⟩) | ⟨-, e, he⟩
  · cases hnone
  · obtain rfl : k = k' := Option.some.inj (Except.ok.inj hk)
    have hlen : (x.take k).length = k := by rw [List.length_take, Nat.min_eq_left hkx]
    exact ⟨⟨hpos, hkn⟩, x.take k, x.drop k, (List.take_append_drop ..).symm, hlen, hb, hs⟩
  · cases he

end

/-- A source yields what one yields that does the same. -/
theorem Yields.of_hom {σ' : Type} [ByteSource σ'] {f : σ → σ'} (hf : SourceHom f) (h : Yields limit fails (f s) x) :
    Yields limit fails s x := by
  obtain ⟨R, hR, hs⟩ := h
  refine ⟨fun s x => R (f s) x, ⟨?_⟩, hs⟩
  intro s x hs n hn hl b host
  have hread := hR.read hs hn hl b host
  rw [hf.read] at hread
  exact hread

/-- What a source yields that does not fail is determined. -/
theorem Yields.unique (hl : 0 < limit) (hx : Yields limit False s x) (hy : Yields limit False s y) : x = y := by
  induction x generalizing s y with
  | nil =>
    rcases hr : ByteSource.read s 1 .empty .start with ⟨e | _ | k, s', b', host'⟩
    · exact (hx.failed Nat.zero_lt_one hl hr).elim
    · exact (hy.ended Nat.zero_lt_one hl hr).1.symm
    · obtain ⟨⟨hk, -⟩, piece, rest, hnil, rfl, -⟩ := hx.given Nat.zero_lt_one hl hr
      rw [(List.append_eq_nil_iff.1 hnil.symm).1] at hk
      exact absurd hk (Nat.lt_irrefl 0)
  | cons a x ih =>
    rcases hr : ByteSource.read s 1 .empty .start with ⟨e | _ | k, s', b', host'⟩
    · exact (hx.failed Nat.zero_lt_one hl hr).elim
    · cases (hx.ended Nat.zero_lt_one hl hr).1
    · -- both give the same first byte, and one source yields the rest of both
      obtain ⟨⟨hk, hk1⟩, piece, rest, hcat, hlen, hb, hs⟩ := hx.given Nat.zero_lt_one hl hr
      obtain ⟨-, piece', rest', rfl, -, hb', hs'⟩ := hy.given Nat.zero_lt_one hl hr
      obtain rfl : piece = piece' := List.append_cancel_left (hb.symm.trans hb')
      obtain ⟨c, rfl⟩ := List.length_eq_one_iff.1 (hlen.trans (Nat.le_antisymm hk1 hk))
      obtain ⟨rfl, rfl⟩ := List.cons.inj hcat
      rw [ih hs hs', List.singleton_append]

/-! ### Reading -/

/-- Reading exactly `n` bytes of `x` gives them and leaves what is behind them, or finds that there are fewer. -/
def TakesExactly (limit : Nat) (fails : Prop) (n : Nat) (x : Bytes) (o : StreamOutcome σ) : Prop :=
  (n ≤ x.length ∧ (∃ b, o.result = .ok b ∧ b.toList = x.take n) ∧ Yields limit fails o.source (x.drop n)) ∨
    (x.length < n ∧ o.result = .error (.io (.endedEarly x.length n)) ∧ Yields limit fails o.source []) ∨
    (fails ∧ ∃ e, o.result = .error e)

theorem readUpTo_of_yields (h : Yields limit fails s x) {n : Nat} {b : Buffer} (hb : b.length ≤ n)
    (hl : n - b.length ≤ limit) (host : Host) :
    TakesExactly limit fails n (b.toList ++ x) (readUpTo n s b host) := by
  fun_induction readUpTo n s b host generalizing x with
  | case1 s b host hlt e s' b' host' hr =>
    have hfails := h.failed (Nat.sub_pos_of_lt hlt) hl hr
    exact .inr (.inr ⟨hfails, e, rfl⟩)
  | case2 s b host hlt s' b' host' hr =>
    obtain ⟨rfl, hsame, hs⟩ := h.ended (Nat.sub_pos_of_lt hlt) hl hr
    have hlen : b'.length = b.toList.length := by rw [← Buffer.length_toList, hsame]
    rw [List.append_nil]
    refine .inr (.inl ⟨?_, ?_, hs⟩)
    · rw [Buffer.length_toList]
      exact hlt
    · rw [hlen]
  | case3 s b host hlt k s' b' host' hr ih =>
    obtain ⟨⟨-, hkn⟩, piece, rest, rfl, rfl, hgiven, hs⟩ := h.given (Nat.sub_pos_of_lt hlt) hl hr
    have hlen : b'.length = b.length + piece.length := by
      rw [← Buffer.length_toList, hgiven, List.length_append, Buffer.length_toList]
    have hrest := ih hs (by omega) (by omega)
    rw [hgiven, List.append_assoc] at hrest
    exact hrest
  | case4 s b host hge =>
    have hlen : b.toList.length = n := by
      rw [Buffer.length_toList]
      omega
    refine .inl ⟨?_, ⟨b, rfl, ?_⟩, ?_⟩
    · rw [List.length_append]
      omega
    · rw [← hlen, List.take_left]
    · rw [← hlen, List.drop_left]
      exact h

/-- Reading everything gives `x`, and then there is nothing more. -/
def TakesAll (limit : Nat) (fails : Prop) (x : Bytes) (o : StreamOutcome σ) : Prop :=
  ((∃ b, o.result = .ok b ∧ b.toList = x) ∧ Yields limit fails o.source []) ∨ (fails ∧ ∃ e, o.result = .error e)

theorem readRest_of_yields (hl : segmentSize ≤ limit) (h : Yields limit fails s x) {rounds : Nat}
    (hrounds : x.length < rounds) (b : Buffer) (host : Host) :
    ∃ o, readRest rounds s b host = some o ∧ TakesAll limit fails (b.toList ++ x) o := by
  -- every round but the last leaves less of `x`
  induction rounds generalizing s x b host with
  | zero => exact absurd hrounds (Nat.not_lt_zero _)
  | succ rounds ih =>
    have hsize : 0 < segmentSize := by decide
    rw [readRest]
    rcases hr : ByteSource.read s segmentSize b host with ⟨e | _ | k, s', b', host'⟩
    · exact ⟨_, rfl, .inr ⟨h.failed hsize hl hr, e, rfl⟩⟩
    · obtain ⟨rfl, hsame, hs⟩ := h.ended hsize hl hr
      refine ⟨_, rfl, .inl ⟨⟨b', rfl, ?_⟩, hs⟩⟩
      rw [hsame, List.append_nil]
    · obtain ⟨⟨hk, -⟩, piece, rest, rfl, rfl, hgiven, hs⟩ := h.given hsize hl hr
      rw [List.length_append] at hrounds
      obtain ⟨o, ho, hall⟩ := ih hs (by omega) b' host'
      rw [hgiven, List.append_assoc] at hall
      exact ⟨o, ho, hall⟩

end

/-! ### Logged sinks -/

/-- A write that was made to a sink: how many bytes it was for, what the buffer held before and after it, and what came
of it. -/
structure Push where
  size : Nat
  before : Bytes
  after : Bytes
  result : Except Error Unit

/-- A sink with the writes that were made to it, in order. -/
structure Logged (τ : Type) where
  sink : τ
  pushes : List Push

namespace Logged

variable {τ : Type}

/-- A sink that is logged from now on. -/
def start (sink : τ) : Logged τ := ⟨sink, []⟩

variable [ByteSink τ]

def write (t : Logged τ) (n : Nat) (b : Buffer) (host : Host) : WriteOutcome (Logged τ) :=
  let o := ByteSink.write t.sink n b host
  o.lift fun sink => ⟨sink, t.pushes ++ [⟨n, b.toList, o.buffer.toList, o.result⟩]⟩

instance : ByteSink (Logged τ) where
  write := write
  flush t host := (ByteSink.flush t.sink host).lift fun sink => { t with sink }
  close t host := (ByteSink.close t.sink host).lift fun sink => { t with sink }
  timeout t := ByteSink.timeout t.sink
  discard t host := ByteSink.discard t.sink host

/-- Without its log a logged sink is the one that is logged. -/
theorem hom_sink : SinkHom (sink : Logged τ → τ) :=
  ⟨fun _ _ _ _ => rfl, fun _ _ => rfl, fun _ _ => rfl, fun _ => rfl, fun _ _ => rfl⟩

theorem pushes_of_write {t t' : Logged τ} {n : Nat} {b b' : Buffer} {host host' : Host} {r : Except Error Unit}
    (h : ByteSink.write t n b host = ⟨r, t', b', host'⟩) : t'.pushes = t.pushes ++ [⟨n, b.toList, b'.toList, r⟩] := by
  have hlog : (ByteSink.write t n b host).sink.pushes = t.pushes ++
    [⟨n, b.toList, (ByteSink.write t n b host).buffer.toList, (ByteSink.write t n b host).result⟩] := rfl
  rw [h] at hlog
  exact hlog

theorem buffer_of_write [ExactSink τ] {t t' : Logged τ} {n : Nat} {b b' : Buffer} {host host' : Host}
    (h : ByteSink.write t n b host = ⟨.ok (), t', b', host'⟩) : b'.toList = b.toList.drop n := by
  have hok : (ByteSink.write t.sink n b host).result = .ok () := congrArg WriteOutcome.result h
  have hb := ExactSink.buffer_of_write_ok hok
  have hsame : (ByteSink.write t.sink n b host).buffer = b' := congrArg WriteOutcome.buffer h
  rw [hsame] at hb
  exact hb

end Logged

/-- A sink that takes bytes off the front of the buffer is exact. -/
theorem TakingSink.exact {τ : Type} [ByteSink τ] [TakingSink τ] : ExactSink τ where
  buffer_of_write_ok {t n b host} hok := by
    obtain ⟨k, -, hb, hall⟩ := TakingSink.write_takes t n b host
    rw [hb, hall hok]

/-! ### Copying -/

/-- The same outcome for a source and a sink that are parts of others. -/
def CopyOutcome.lift {σ σ' τ τ' : Type} (f : σ → σ') (g : τ → τ') (o : CopyOutcome σ τ) : CopyOutcome σ' τ' :=
  ⟨o.result, f o.source, g o.sink, o.host⟩

section

variable {σ σ' τ τ' : Type} [ByteSource σ] [ByteSource σ'] [ByteSink τ] [ByteSink τ'] {f : σ → σ'} {g : τ → τ'}

/-- Copying does the same from a source to a sink that do the same. -/
theorem copyRest_lift (hf : SourceHom f) (hg : SinkHom g) (rounds : Nat) (s : σ) (t : τ) (b : Buffer) (total : Nat)
    (host : Host) :
    copyRest rounds (f s) (g t) b total host = (copyRest rounds s t b total host).map (CopyOutcome.lift f g) := by
  induction rounds generalizing s t b total host with
  | zero => rfl
  | succ rounds ih =>
    rw [copyRest, copyRest, hf.read]
    rcases ByteSource.read s segmentSize b host with ⟨_ | _ | k, s', b', host'⟩
    · rfl
    · rfl
    · simp only [ReadOutcome.lift, hg.write]
      rcases ByteSink.write t k b' host' with ⟨_ | _, t', b'', host''⟩
      · rfl
      · exact ih ..

end

section

variable {σ τ : Type} [ByteSource σ] {limit : Nat} {fails : Prop} {x : Bytes}

/-- A read that has given a piece. -/
def Pull.ofPiece (piece : Bytes) : Pull := ⟨segmentSize, .ok (some piece.length)⟩

/-- A write of a piece, out of a buffer that holds that and then nothing. -/
def Push.ofPiece (piece : Bytes) : Push := ⟨piece.length, piece, [], .ok ()⟩

/-- From `s` to `t` these pieces of `x` were copied: each one was read and then written, and there is no more. -/
structure Copied (limit : Nat) (fails : Prop) (x : Bytes) (s : Watched σ) (t : Logged τ) (total : Nat)
    (o : CopyOutcome (Watched σ) (Logged τ)) (pieces : List Bytes) : Prop where
  flatten : pieces.flatten = x
  sizes : ∀ p ∈ pieces, 0 < p.length ∧ p.length ≤ segmentSize
  pulls : o.source.pulls = s.pulls ++ (pieces.map Pull.ofPiece ++ [⟨segmentSize, .ok none⟩])
  pushes : o.sink.pushes = t.pushes ++ pieces.map Push.ofPiece
  result : o.result = .ok (total + x.length)
  source : Yields limit fails o.source []

theorem Copied.nil {s : Watched σ} {t : Logged τ} {total : Nat} {o : CopyOutcome (Watched σ) (Logged τ)}
    (hpulls : o.source.pulls = s.pulls ++ [⟨segmentSize, .ok none⟩]) (hpushes : o.sink.pushes = t.pushes)
    (hresult : o.result = .ok total) (hs : Yields limit fails o.source []) : Copied limit fails [] s t total o [] where
  flatten := rfl
  sizes := by simp
  pulls := hpulls
  pushes := by rw [hpushes, List.map_nil, List.append_nil]
  result := hresult
  source := hs

/-- A piece, and those behind it. -/
theorem Copied.cons {s s' : Watched σ} {t t' : Logged τ} {total : Nat} {o : CopyOutcome (Watched σ) (Logged τ)}
    {piece : Bytes} {pieces : List Bytes} (h : Copied limit fails x s' t' (total + piece.length) o pieces)
    (hsize : 0 < piece.length ∧ piece.length ≤ segmentSize) (hpulls : s'.pulls = s.pulls ++ [.ofPiece piece])
    (hpushes : t'.pushes = t.pushes ++ [.ofPiece piece]) :
    Copied limit fails (piece ++ x) s t total o (piece :: pieces) where
  flatten := by rw [List.flatten_cons, h.flatten]
  sizes := List.forall_mem_cons.2 ⟨hsize, h.sizes⟩
  pulls := by rw [h.pulls, hpulls, List.map_cons, List.append_assoc, List.singleton_append, List.cons_append]
  pushes := by rw [h.pushes, hpushes, List.map_cons, List.append_assoc, List.singleton_append]
  result := by rw [h.result, List.length_append, Nat.add_assoc]
  source := h.source

/-- A write has failed, or a read of a source that may do so. -/
def StepFailed (fails : Prop) (e : Error) (o : CopyOutcome (Watched σ) (Logged τ)) : Prop :=
  (fails ∧ ∃ p ∈ o.source.pulls, p.result = .error e) ∨ ∃ p ∈ o.sink.pushes, p.result = .error e

variable [ByteSink τ]

theorem copyRest_of_yields [ExactSink τ] (hl : segmentSize ≤ limit) {s : Watched σ} (h : Yields limit fails s x)
    {rounds : Nat} (hrounds : x.length < rounds) (t : Logged τ) {b : Buffer} (hb : b.toList = []) (total : Nat)
    (host : Host) : ∃ o, copyRest rounds s t b total host = some o ∧
      ((∃ pieces, Copied limit fails x s t total o pieces) ∨ ∃ e, o.result = .error e ∧ StepFailed fails e o) := by
  -- every round starts with an empty buffer, so what a read gives is all that the write finds there
  induction rounds generalizing s t x b total host with
  | zero => exact absurd hrounds (Nat.not_lt_zero _)
  | succ rounds ih =>
    have hsize : 0 < segmentSize := by decide
    rw [copyRest]
    rcases hr : ByteSource.read s segmentSize b host with ⟨e | _ | k, s', b', host'⟩
    · have hfails := h.failed hsize hl hr
      refine ⟨_, rfl, .inr ⟨e, rfl, .inl ⟨hfails, ⟨segmentSize, .error e⟩, ?_, rfl⟩⟩⟩
      show _ ∈ s'.pulls
      rw [Watched.pulls_of_read hr]
      exact List.mem_append_right _ (List.mem_singleton.2 rfl)
    · obtain ⟨rfl, -, hs⟩ := h.ended hsize hl hr
      exact ⟨_, rfl, .inl ⟨[], .nil (Watched.pulls_of_read hr) rfl rfl hs⟩⟩
    · obtain ⟨⟨hk, hkn⟩, piece, rest, rfl, rfl, hgiven, hs⟩ := h.given hsize hl hr
      rw [hb, List.nil_append] at hgiven
      rw [List.length_append] at hrounds
      simp only
      rcases hw : ByteSink.write t piece.length b' host' with ⟨e | _, t', b'', host''⟩
      · refine ⟨_, rfl, .inr ⟨e, rfl, .inr ⟨⟨piece.length, b'.toList, b''.toList, .error e⟩, ?_, rfl⟩⟩⟩
        show _ ∈ t'.pushes
        rw [Logged.pushes_of_write hw]
        exact List.mem_append_right _ (List.mem_singleton.2 rfl)
      · have hleft : b''.toList = [] := by rw [Logged.buffer_of_write hw, hgiven, List.drop_length]
        have hpushes := Logged.pushes_of_write hw
        rw [hgiven, hleft] at hpushes
        obtain ⟨o, ho, ⟨pieces, hcopied⟩ | hfailed⟩ := ih hs (by omega) t' hleft (total + piece.length) host''
        · exact ⟨o, ho, .inl ⟨_, hcopied.cons ⟨hk, hkn⟩ (Watched.pulls_of_read hr) hpushes⟩⟩
        · exact ⟨o, ho, .inr hfailed⟩

/-- What the whole-stream operations make of a source that yields `x`; they read segments, and so many bytes must be
within its limit.
* Reading exactly `n` bytes gives the first `n` bytes of `x` and leaves the others to come, if there are as many, and
  else fails because the stream has ended.
* Reading everything gives `x`.
* Copying to an exact sink passes `x` on, piece by piece: what each read gives is what the buffer of the write behind it
  holds, and that is all the write is for.  Neither watching the source nor logging the sink makes a difference.
A round more than there are bytes is enough for the last two.  They can only fail where a read or a write fails. -/
theorem moved_of_yields [ExactSink τ] {s : σ} (h : Yields limit fails s x) (hl : segmentSize ≤ limit) (t : τ)
    (host : Host) :
    (∀ n ≤ limit, TakesExactly limit fails n x (readExactly s n host)) ∧
    (∃ o, (∀ rounds, x.length < rounds → readToEnd rounds s host = some o) ∧ TakesAll limit fails x o) ∧
    ∃ o, (∀ rounds, x.length < rounds → copyTo rounds (Watched.start s) (Logged.start t) host = some o ∧
        copyTo rounds s t host = some (o.lift Watched.source Logged.sink)) ∧
      ((∃ pieces, Copied limit fails x (Watched.start s) (Logged.start t) 0 o pieces) ∨
        ∃ e, o.result = .error e ∧ StepFailed fails e o) := by
  have hwatched : Yields limit fails (Watched.start s) x := .of_hom Watched.hom_source h
  refine ⟨?_, ?_, ?_⟩
  · intro n hn
    have hexactly := readUpTo_of_yields h (n := n) (b := .empty) (Nat.zero_le _) (Nat.le_trans (Nat.sub_le ..) hn) host
    rw [Buffer.toList_empty, List.nil_append] at hexactly
    exact hexactly
  · obtain ⟨o, ho, hall⟩ := readRest_of_yields hl h (Nat.lt_succ_self _) .empty host
    rw [Buffer.toList_empty, List.nil_append] at hall
    refine ⟨o, ?_, hall⟩
    intro rounds hrounds
    exact readToEnd_mono hrounds ho
  · obtain ⟨o, ho, hcopied⟩ := copyRest_of_yields hl hwatched (Nat.lt_succ_self _) (Logged.start t) Buffer.toList_empty
      0 host
    refine ⟨o, ?_, hcopied⟩
    intro rounds hrounds
    have hcopy : copyTo rounds (Watched.start s) (Logged.start t) host = some o := copyTo_mono hrounds ho
    refine ⟨hcopy, ?_⟩
    have hsame : copyTo rounds s t host =
        (copyTo rounds (Watched.start s) (Logged.start t) host).map (.lift Watched.source Logged.sink) :=
      copyRest_lift Watched.hom_source Logged.hom_sink rounds (Watched.start s) (Logged.start t) .empty 0 host
    rw [hsame, hcopy, Option.map_some]

end

/-- A source in memory that serves at most four bytes at once. -/
def sampleFours : MemorySource := { MemorySource.ofList [1, 2, 3, 4, 5, 6, 7, 8, 9] with bound := some ⟨4, by decide⟩ }

/-- Nine bytes are copied as two pieces of four bytes and one of one byte. -/
theorem moved_of_sampleFours : Yields maxRequestLength False sampleFours [1, 2, 3, 4, 5, 6, 7, 8, 9] ∧
    segmentSize ≤ maxRequestLength ∧
    ∃ o, copyTo 10 (Watched.start sampleFours) (Logged.start (MemorySink.empty .none)) .start = some o ∧
      Copied maxRequestLength False [1, 2, 3, 4, 5, 6, 7, 8, 9] (Watched.start sampleFours)
        (Logged.start (MemorySink.empty .none)) 0 o [[1, 2, 3, 4], [5, 6, 7, 8], [9]] := by
  have hyields : Yields maxRequestLength False sampleFours [1, 2, 3, 4, 5, 6, 7, 8, 9] := by
    have hserves : Serves maxRequestLength sampleFours sampleFours.contents.toList := MemorySource.serves rfl rfl
    have hcontents : sampleFours.contents.toList = [1, 2, 3, 4, 5, 6, 7, 8, 9] := Buffer.toList_ofList _
    rw [hcontents] at hserves
    exact hserves.yields
  have hlimit : segmentSize ≤ maxRequestLength := by decide
  refine ⟨hyields, hlimit, ?_⟩
  obtain ⟨-, -, o, ho, hcopied⟩ := moved_of_yields hyields hlimit (MemorySink.empty .none) .start
  have ho : copyTo 10 (Watched.start sampleFours) (Logged.start (MemorySink.empty .none)) .start = some o :=
    (ho 10 (by decide)).1
  have hbefore : (copyTo 10 (Watched.start sampleFours) (Logged.start (MemorySink.empty .none)) .start).map
      (fun o => (o.result, o.sink.pushes.map Push.before)) = some (.ok 9, [[1, 2, 3, 4], [5, 6, 7, 8], [9]]) := by
    decide +kernel
  rw [ho, Option.map_some, Option.some.injEq, Prod.mk.injEq] at hbefore
  refine ⟨o, ho, ?_⟩
  rcases hcopied with ⟨pieces, hcopied⟩ | ⟨e, he, -⟩
  · -- the pieces are what the writes found
    have hpieces : o.sink.pushes.map Push.before = pieces := by
      have hpushes : o.sink.pushes = pieces.map Push.ofPiece := hcopied.pushes
      have hpiece : Push.before ∘ Push.ofPiece = id := rfl
      rw [hpushes, List.map_map, hpiece, List.map_id]
    rw [← hbefore.2, hpieces]
    exact hcopied
  · rw [he] at hbefore
    cases hbefore.1

end Conduit
