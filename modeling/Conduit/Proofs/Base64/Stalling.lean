import Conduit.Proofs.Base64.Perishing
import Conduit.Proofs.Stalling

/-!
# A decoder over a source that stalls

A decoder lends its source the buffer in which symbols wait, so it keeps what a read has appended that ran out of time.
But it decodes only after a read that succeeds.  If the last symbols of the text have come with a failure, they are
still there at the end, and the text is taken for malformed (`Base64Source.accounting`).
-/

namespace Conduit

namespace Base64Source

open Base64

variable {σ : Type} [ByteSource σ] {t x given : Bytes} {s : Base64Source (Traced σ)} {n : Nat}

/-- What was given, what is decoded and what follows are `x`.  A quantum waits only if its last symbols came with a
failure, and if the last symbols came with one, they wait. -/
structure Intact (t x : Bytes) (s : Base64Source (Traced σ)) (given rest z : Bytes) : Prop where
  isOpen : s.closed = false
  sound : s.malformed = false
  left : s.inner.Left t rest
  whole : (s.encoded.toList ++ rest).length % quantumSize = 0
  decodes : s.engine.decode (Quantum.ofBytes (s.encoded.toList ++ rest)) = .ok z
  account : given ++ s.decoded.toList ++ z = x
  short : s.encoded.length < quantumSize ∨ Dangling s.inner.fetches
  waiting : Dangling s.inner.fetches → s.encoded.toList ≠ []
  ended : s.exhausted = true → s.encoded.toList = [] ∧ rest = []

/-- Nothing of `x` is lost so far. -/
def Keeps (t x : Bytes) (s : Base64Source (Traced σ)) (given : Bytes) : Prop :=
  ∃ rest z, s.Intact t x given rest z

/-- The text was taken for malformed because its last symbols came with a failure. -/
structure Cut (t x : Bytes) (s : Base64Source (Traced σ)) (given : Bytes) : Prop where
  isOpen : s.closed = false
  malformed : s.malformed = true
  dangling : Dangling s.inner.fetches
  whole : brought s.inner.fetches = t
  given : given <+: x

/-- What a read that failed has appended waits behind what has waited before. -/
private theorem waiting_of_failed {fetches : List Fetch} {encoded encoded' : Buffer} {y : Bytes} {e : Error}
    (hb : encoded'.toList = encoded.toList ++ y) (hshort : encoded.length < quantumSize ∨ Dangling fetches)
    (hwait : Dangling fetches → encoded.toList ≠ []) :
    (encoded'.length < quantumSize ∨ Dangling (fetches ++ [⟨y, .error e⟩])) ∧
      (Dangling (fetches ++ [⟨y, .error e⟩]) → encoded'.toList ≠ []) := by
  rw [dangling_concat, ← Buffer.length_toList, hb]
  by_cases hy : y = []
  · rw [if_pos hy, hy, List.append_nil, Buffer.length_toList]
    exact ⟨hshort, hwait⟩
  · rw [if_neg hy]
    exact ⟨.inr rfl, fun _ => List.append_ne_nil_of_right_ne_nil _ hy⟩

/-- The text has ended although symbols still wait: they are a whole number of quanta, and so their last have come with a
failure. -/
private theorem Intact.dangling {z : Bytes} (h : s.Intact t x given [] z) (hne : s.encoded.toList ≠ []) :
    Dangling s.inner.fetches ∧ brought s.inner.fetches = t ∧ given <+: x := by
  have hwhole := h.left.whole
  have hquanta := h.whole
  have hpos := List.length_pos_iff.2 hne
  rw [List.append_nil] at hwhole hquanta
  rw [Buffer.length_toList] at hquanta hpos
  have hmany : ¬ s.encoded.length < quantumSize := by
    simp only [quantumSize] at *
    omega
  refine ⟨h.short.resolve_left hmany, hwhole, s.decoded.toList ++ z, ?_⟩
  rw [← List.append_assoc, h.account]

/-- One step of filling: the read has failed and what it has appended waits, the text has ended, and what still waits
came with a failure, or more of it is decoded. -/
private theorem Keeps.pull (h : s.Keeps t x given) (he : s.exhausted = false) {m : Nat} (hm : 0 < m)
    (hle : m ≤ maxRequestLength) (host : Host) :
    let o := ByteSource.read s.inner m s.encoded host
    (∃ e, o.result = .error e ∧ e.retryable = true ∧
        { s with inner := o.source, encoded := o.buffer }.Keeps t x given) ∨
      (o.result = .ok none ∧ if o.buffer.isEmpty then
          { s with inner := o.source, encoded := o.buffer, exhausted := true }.Keeps t x given
        else Dangling o.source.fetches ∧ brought o.source.fetches = t ∧ given <+: x) ∨
      ∃ k out text, o.result = .ok (some k) ∧ decodeWhole s.engine o.buffer = (.ok out, text) ∧
        { s with inner := o.source, encoded := text, decoded := s.decoded.append out }.Keeps t x given := by
  obtain ⟨rest, z, h⟩ := h
  obtain ⟨y, rest', rfl, hb, hlog, hleft, hr⟩ := h.left.read hm hle s.encoded host
  generalize ByteSource.read s.inner m s.encoded host = o at *
  intro o
  have hended : s.exhausted = true → False := by simp [he]
  have hwhole := h.whole
  have hdecodes := h.decodes
  rw [← List.append_assoc, ← hb] at hwhole hdecodes
  rcases hr with ⟨e, hr, hretry⟩ | ⟨hr, hnil⟩ | ⟨k, hr, hne⟩
  · rw [hr] at hlog
    obtain ⟨hshort, hwait⟩ := waiting_of_failed (e := e) hb h.short h.waiting
    rw [← hlog] at hshort hwait
    exact .inl ⟨e, hr, hretry, rest', z, h.isOpen, h.sound, hleft, hwhole, hdecodes, h.account, hshort, hwait,
      fun hend => (hended hend).elim⟩
  · obtain ⟨rfl, rfl⟩ := List.append_eq_nil_iff.1 hnil
    rw [List.append_nil] at hb
    rw [hr] at hlog
    have hdangling : Dangling o.source.fetches ↔ Dangling s.inner.fetches := by
      rw [hlog, dangling_concat, if_pos rfl]
    have hshort : o.buffer.length < quantumSize ∨ Dangling o.source.fetches := by
      rw [← Buffer.length_toList, hb, Buffer.length_toList, hdangling]
      exact h.short
    have hwaiting : Dangling o.source.fetches → o.buffer.toList ≠ [] := by
      rw [hb, hdangling]
      exact h.waiting
    refine .inr (.inl ⟨hr, ?_⟩)
    split
    · rename_i hempty
      exact ⟨[], z, h.isOpen, h.sound, hleft, hwhole, hdecodes, h.account, hshort, hwaiting,
        fun _ => ⟨Buffer.isEmpty_iff.1 hempty, rfl⟩⟩
    · rename_i hempty
      have hend : { s with inner := o.source, encoded := o.buffer }.Intact t x given [] z :=
        ⟨h.isOpen, h.sound, hleft, hwhole, hdecodes, h.account, hshort, hwaiting, fun hend => (hended hend).elim⟩
      exact hend.dangling fun hnil => hempty (Buffer.isEmpty_iff.2 hnil)
  · rw [hr] at hlog
    have hdangling : ¬ Dangling o.source.fetches := by
      rw [hlog, dangling_concat, if_neg hne]
      exact Bool.false_ne_true
    obtain ⟨out, text, z', hw, hshort, hwhole', hdecodes', rfl⟩ := decodeWhole_eq hwhole hdecodes
    have haccount := h.account
    refine .inr (.inr ⟨k, out, text, hr, hw, rest', z', h.isOpen, h.sound, hleft, hwhole', hdecodes', ?_, .inl hshort,
      fun hd => absurd hd hdangling, fun hend => (hended hend).elim⟩)
    rw [Buffer.toList_append, ← haccount]
    simp only [List.append_assoc]

/-- How many reads of the text have failed. -/
def failures (s : Base64Source (Traced σ)) : Nat := s.inner.fetches.countP Fetch.failed

/-- Filling goes on until there is enough or the text has ended.  If it fails, a read of the text has failed and it may be
repeated, or the text was taken for malformed. -/
private theorem Keeps.fill (h : s.Keeps t x given) (n : Nat) (host : Host) :
    let o := s.fill n host
    s.failures ≤ o.endpoint.failures ∧
      ((o.result = .ok () ∧ o.endpoint.Keeps t x given ∧
          (n ≤ o.endpoint.decoded.length ∨ o.endpoint.exhausted = true)) ∨
        ∃ e, o.result = .error e ∧
          ((e.retryable = true ∧ s.failures < o.endpoint.failures ∧ o.endpoint.Keeps t x given) ∨
            (e.retryable = false ∧ o.endpoint.Cut t x given))) := by
  have hpull (s : Base64Source (Traced σ)) (host : Host) (h : s.Keeps t x given)
      (hlt : s.decoded.length < n ∧ s.exhausted = false) :=
    h.pull hlt.2 (request_pos (Nat.sub_pos_of_lt hlt.1)) (Nat.min_le_right ..) host
  fun_induction Base64Source.fill s n host with
  | case1 s host hlt e inner encoded host' hr =>
    have hp := hpull s host h hlt
    have hcount : inner.fetches.countP Fetch.failed = s.failures + 1 :=
      Traced.countP_of_read hr (v := true) fun _ => rfl
    simp only [hr] at hp
    rcases hp with ⟨e', he, hretry, hs⟩ | ⟨hk, -⟩ | ⟨k, out, text, hk, -⟩
    · obtain rfl := Except.error.inj he
      have hlt : s.failures < inner.fetches.countP Fetch.failed := Nat.le_of_eq hcount.symm
      exact ⟨Nat.le_of_lt hlt, .inr ⟨e, rfl, .inl ⟨hretry, hlt, hs⟩⟩⟩
    · cases hk
    · cases hk
  | case2 s host hlt inner encoded host' hr s' he =>
    have hp := hpull s host h hlt
    have hcount : inner.fetches.countP Fetch.failed = s.failures :=
      Traced.countP_of_read hr (v := false) fun _ => rfl
    simp only [hr, he, if_true] at hp
    rcases hp with ⟨e, hk, -⟩ | ⟨-, hs⟩ | ⟨k, out, text, hk, -⟩
    · cases hk
    · exact ⟨Nat.le_of_eq hcount.symm, .inl ⟨rfl, hs, .inr rfl⟩⟩
    · cases hk
  | case3 s host hlt inner encoded host' hr s' he =>
    have hp := hpull s host h hlt
    have hcount : inner.fetches.countP Fetch.failed = s.failures :=
      Traced.countP_of_read hr (v := false) fun _ => rfl
    obtain ⟨rest, z, h⟩ := h
    simp only [hr, he] at hp
    rcases hp with ⟨e, hk, -⟩ | ⟨-, hdangling, hwhole, hgiven⟩ | ⟨k, out, text, hk, -⟩
    · cases hk
    · exact ⟨Nat.le_of_eq hcount.symm, .inr ⟨_, rfl, .inr ⟨rfl, h.isOpen, rfl, hdangling, hwhole, hgiven⟩⟩⟩
    · cases hk
  | case4 s host hlt k inner encoded host' hr e rest hd =>
    have hp := hpull s host h hlt
    simp [hr, hd] at hp
  | case5 s host hlt k inner encoded host' hr bytes rest hd ih =>
    have hp := hpull s host h hlt
    have hcount : inner.fetches.countP Fetch.failed = s.failures :=
      Traced.countP_of_read hr (v := false) fun _ => rfl
    simp only [hr, hd] at hp
    rcases hp with ⟨e, hk, -⟩ | ⟨hk, -⟩ | ⟨k, out, text, -, hw, hs⟩
    · cases hk
    · cases hk
    · cases hw
      rw [← hcount]
      exact ih hs
  | case6 s host hge =>
    refine ⟨Nat.le_refl _, .inl ⟨rfl, h, ?_⟩⟩
    by_cases hl : s.decoded.length < n
    · exact .inr (by simpa [hl] using hge)
    · exact .inl (Nat.le_of_not_lt hl)

/-- Bytes of the front of what is decoded count as given once they are. -/
private theorem Keeps.give (h : s.Keeps t x given) {piece : Bytes} {decoded : Buffer}
    (hcat : piece ++ decoded.toList = s.decoded.toList) : { s with decoded }.Keeps t x (given ++ piece) := by
  obtain ⟨rest, z, h⟩ := h
  refine ⟨rest, z, h.isOpen, h.sound, h.left, h.whole, h.decodes, ?_, h.short, h.waiting, h.ended⟩
  have haccount := h.account
  rw [← hcat, ← List.append_assoc] at haccount
  exact haccount

/-- Nothing of `x` is lost so far, or the text was cut. -/
def KeepsOrCut (t x : Bytes) (s : Base64Source (Traced σ)) (given : Bytes) : Prop :=
  s.Keeps t x given ∨ s.Cut t x given

/-- What was given comes from the front of `x`. -/
theorem KeepsOrCut.given_isPrefix (h : s.KeepsOrCut t x given) : given <+: x := by
  rcases h with ⟨rest, z, h⟩ | h
  · rw [← h.account, List.append_assoc]
    exact List.prefix_append ..
  · exact h.given

/-- Once the source has ended, all of `x` was given, and the last symbols of the text have not come with a failure. -/
theorem KeepsOrCut.whole_of_spent (h : s.KeepsOrCut t x given) (hs : s.Spent) :
    given = x ∧ brought s.inner.fetches = t ∧ ¬ Dangling s.inner.fetches := by
  obtain ⟨-, hm, hexhausted, hnil⟩ := hs
  rcases h with ⟨rest, z, h⟩ | h
  · obtain ⟨hwait, rfl⟩ := h.ended hexhausted
    have hdecodes := h.decodes
    have haccount := h.account
    have hwhole := h.left.whole
    rw [hwait] at hdecodes
    obtain rfl : [] = z := Except.ok.inj hdecodes
    rw [hnil, List.append_nil, List.append_nil] at haccount
    rw [List.append_nil] at hwhole
    exact ⟨haccount, hwhole, fun hd => h.waiting hd hwait⟩
  · rw [h.malformed] at hm
    cases hm

/-- The text is taken for malformed only when all of it has come, its last symbols with a failure. -/
theorem KeepsOrCut.dangling_of_malformed (h : s.KeepsOrCut t x given) (hm : s.malformed = true) :
    Dangling s.inner.fetches ∧ brought s.inner.fetches = t := by
  rcases h with ⟨rest, z, h⟩ | h
  · rw [h.sound] at hm
    cases hm
  · exact ⟨h.dangling, h.whole⟩

/-- Reads that may be repeated lose nothing, and the text is taken for malformed only if its last symbols came with a
failure. -/
theorem accounting (t x : Bytes) : Accounting (KeepsOrCut t x : Base64Source (Traced σ) → Bytes → Prop) Spent
    (fun s => s.malformed = true) failures where
  read {s given} h {n} hn hl b host := by
    show ∃ piece, Accounted _ _ _ _ given s.failures (n, b, host) (s.read n b host) piece
    rcases h with h | h
    · obtain ⟨rest, z, hs⟩ := id h
      rw [read_of_ready hs.isOpen hs.sound hn hl]
      obtain ⟨hcount, hfill⟩ := h.fill n host
      rcases hf : s.fill n host with ⟨e | _, s', host'⟩
      · rw [hf] at hcount hfill
        rcases hfill with ⟨hok, -⟩ | ⟨e', herr, hs⟩
        · cases hok
        · obtain rfl := Except.error.inj herr
          refine ⟨[], accounted_of_error ?_ hcount ?_⟩
          · exact hs.imp (fun hs => hs.2.2) And.right
          · exact hs.imp (fun hs => ⟨hs.1, hs.2.1⟩) fun hs => ⟨hs.1, hs.2.malformed⟩
      · rw [hf] at hcount hfill
        rcases hfill with ⟨-, hs, hend⟩ | ⟨e, herr, -⟩
        · have hgive (piece : Bytes) (decoded : Buffer) (hcat : piece ++ decoded.toList = s'.decoded.toList) :
              { s' with decoded }.KeepsOrCut t x (given ++ piece) :=
            .inl (hs.give hcat)
          have hspent (hnil : s'.decoded.toList = []) : s'.Spent := by
            have hzero : ¬ n ≤ s'.decoded.length := by
              rw [Buffer.length_eq_zero_iff.2 hnil]
              omega
            obtain ⟨rest, z, hs⟩ := hs
            exact ⟨hs.isOpen, hs.sound, hend.resolve_left hzero, hnil⟩
          exact accounted_of_buffer (P := KeepsOrCut t x) (f := fun decoded => { s' with decoded }) hn hgive hspent
            (fun _ => hcount) host'
        · cases herr
    · rw [read_of_malformed h.isOpen h.malformed hl]
      exact ⟨[], accounted_of_error (.inr h) (Nat.le_refl _) (.inr ⟨rfl, h.malformed⟩)⟩
  ended {s given} h hs {n} hn hl b host := by
    show (s.read n b host).source.Spent
    rw [hs.read hn hl]
    exact hs
  spoilt {s given} h hs {n} hn hl b host := by
    show (s.read n b host).source.malformed = true
    rcases h with ⟨rest, z, h⟩ | h
    · rw [h.sound] at hs
      cases hs
    · rw [read_of_malformed h.isOpen hs hl]
      exact hs

end Base64Source

end Conduit
