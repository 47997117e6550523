import Conduit.Proofs.Cipher.Feeding
import Conduit.Proofs.Cipher.Perishing
import Conduit.Proofs.Stalling

/-!
# A cipher over a source that stalls

A source that reads through a cipher lends its inner source a fresh buffer for every read and drops it when the read
fails.  So the cipher is fed only what the reads have brought that did not fail (`CipherSource.accounting`).  What an
encryptor and a decryptor make of that is known (`CbcEncryptor.wholeOutput?_fed`, `CbcDecryptor.wholeOutput?_fed`).
-/

namespace Conduit

/-! ### Ciphers whose stream may end -/

section

variable {κ : Type} [ByteCipher κ]

/-- What the cipher makes of all of `x`, if its stream may end there. -/
def wholeOutput? (state : Bytes → κ) (output : Bytes → Bytes) (x : Bytes) : Option Bytes :=
  (ByteCipher.finalize (state x)).1.toOption.map (output x ++ ·)

/-- The cipher runs its course, and if its stream may not end, it may never do so. -/
structure Firm (state : Bytes → κ) (output : Bytes → Bytes) : Prop extends Course state output where
  blockSize (x : Bytes) : ByteCipher.blockSize (state x) ≤ maxRequestLength
  final {x : Bytes} {e : Error} {c : κ} (h : ByteCipher.finalize (state x) = (.error e, c)) : e.retryable = false

end

namespace CipherSource

variable {κ σ : Type} [ByteCipher κ] [ByteSource σ] {state : Bytes → κ} {output : Bytes → Bytes} {t given : Bytes}
  {s : CipherSource κ (Traced σ)}

/-- The cipher was fed what the reads have brought that did not fail, and what was given and what is held are its
output. -/
structure Running (state : Bytes → κ) (output : Bytes → Bytes) (t : Bytes) (s : CipherSource κ (Traced σ))
    (given rest : Bytes) : Prop where
  isOpen : s.closed = false
  sound : s.poisoned = false
  left : s.inner.Left t rest
  cipher : s.cipher = state (retained s.inner.fetches)
  account : given ++ s.output.toList = output (retained s.inner.fetches)

/-- The stream of the cipher has ended. -/
structure Done (state : Bytes → κ) (output : Bytes → Bytes) (t : Bytes) (s : CipherSource κ (Traced σ))
    (given : Bytes) : Prop where
  isOpen : s.closed = false
  sound : s.poisoned = false
  left : s.inner.Left t []
  ended : ByteCipher.isFinalized s.cipher = true
  account : wholeOutput? state output (retained s.inner.fetches) = some (given ++ s.output.toList)

/-- The stream of the cipher could not end. -/
structure Broken (state : Bytes → κ) (output : Bytes → Bytes) (t : Bytes) (s : CipherSource κ (Traced σ))
    (given : Bytes) : Prop where
  isOpen : s.closed = false
  poisoned : s.poisoned = true
  left : s.inner.Left t []
  account : wholeOutput? state output (retained s.inner.fetches) = none

/-- One of the three. -/
def Traces (state : Bytes → κ) (output : Bytes → Bytes) (t : Bytes) (s : CipherSource κ (Traced σ)) (given : Bytes) :
    Prop :=
  (∃ rest, s.Running state output t given rest) ∨ s.Done state output t given ∨ s.Broken state output t given

/-- The stream of the cipher ends, or it never can, unless the deadline is missed and nothing is done. -/
private theorem Running.finalize (hc : Firm state output) (h : s.Running state output t given []) (host : Host) :
    let o := s.finalize host
    (o.result = .ok () ∧ o.endpoint.Done state output t given) ∨
      ∃ e, o.result = .error e ∧ ((e.retryable = true ∧ o.endpoint.Running state output t given []) ∨
        (e.retryable = false ∧ o.endpoint.Broken state output t given)) := by
  unfold CipherSource.finalize
  rcases ht : (ByteSource.timeout s.inner).check host with ⟨e | _, host'⟩
  · obtain ⟨elapsed, rfl, -⟩ := Deadline.check_error ht
    exact .inr ⟨_, rfl, .inl ⟨rfl, h.isOpen, rfl, h.left, h.cipher, h.account⟩⟩
  · rcases hfin : ByteCipher.finalize s.cipher with ⟨e | last, cipher⟩
    · have hfin' := hfin
      rw [h.cipher] at hfin'
      have hpoisoned : (!e.retryable) = true := by simp [hc.final hfin']
      refine .inr ⟨e, rfl, .inr ⟨hc.final hfin', h.isOpen, hpoisoned, h.left, ?_⟩⟩
      show wholeOutput? state output (retained s.inner.fetches) = none
      rw [wholeOutput?, hfin']
      rfl
    · have hended := ByteCipher.isFinalized_finalize hfin
      have hfin' := hfin
      rw [h.cipher] at hfin'
      refine .inl ⟨rfl, h.isOpen, h.sound, h.left, hended, ?_⟩
      show wholeOutput? state output (retained s.inner.fetches) = some (given ++ (s.output.append last).toList)
      rw [wholeOutput?, hfin', Buffer.toList_append, ← List.append_assoc, h.account]
      rfl

omit [ByteCipher κ] in
/-- A read of the inner source that has failed or found the end: what it has appended is dropped. -/
private theorem Running.halted {rest rest' : Bytes} (h : s.Running state output t given rest) {inner : Traced σ}
    (hleft : inner.Left t rest') (hretained : retained inner.fetches = retained s.inner.fetches) :
    { s with inner }.Running state output t given rest' := by
  refine ⟨h.isOpen, h.sound, hleft, ?_, ?_⟩
  · show s.cipher = state (retained inner.fetches)
    rw [hretained, h.cipher]
  · show given ++ s.output.toList = output (retained inner.fetches)
    rw [hretained, h.account]

/-- One step of filling: the read has failed and what it has appended is lost, the inner source has ended, or the cipher
was fed more. -/
private theorem Running.pull (hc : Firm state output) {rest : Bytes} (h : s.Running state output t given rest) {m : Nat}
    (hm : 0 < m) (hle : m ≤ maxRequestLength) (host : Host) :
    let o := ByteSource.read s.inner m .empty host
    (∃ e, o.result = .error e ∧ e.retryable = true ∧
        ∃ rest, { s with inner := o.source }.Running state output t given rest) ∨
      (o.result = .ok none ∧ { s with inner := o.source }.Running state output t given []) ∨
      ∃ k out cipher, o.result = .ok (some k) ∧ ByteCipher.update s.cipher o.buffer.toList = (.ok out, cipher) ∧
        ∃ rest, { s with inner := o.source, cipher, output := s.output.append out }.Running state output t given
          rest := by
  obtain ⟨y, rest', hcat, hb, hlog, hleft, hr⟩ := h.left.read hm hle .empty host
  generalize ByteSource.read s.inner m .empty host = o at *
  intro o
  have hretained : retained o.source.fetches = retained s.inner.fetches ++ Fetch.retained ⟨y, o.result⟩ := by
    rw [hlog, retained_concat]
  rcases hr with ⟨e, hr, hretry⟩ | ⟨hr, rfl⟩ | ⟨k, hr, hne⟩
  · have hnone : Fetch.retained ⟨y, o.result⟩ = [] := by
      rw [hr]
      rfl
    rw [hnone, List.append_nil] at hretained
    exact .inl ⟨e, hr, hretry, rest', h.halted hleft hretained⟩
  · obtain ⟨rfl, rfl⟩ := List.append_eq_nil_iff.1 hcat
    have hnone : Fetch.retained ⟨[], o.result⟩ = [] := by
      rw [hr]
      rfl
    rw [hnone, List.append_nil] at hretained
    exact .inr (.inl ⟨hr, h.halted hleft hretained⟩)
  · have hall : Fetch.retained ⟨y, o.result⟩ = y := by
      rw [hr]
      rfl
    rw [hall] at hretained
    obtain ⟨out, hu, hout⟩ := hc.update (retained s.inner.fetches) y
    have hb : o.buffer.toList = y := hb
    rw [← h.cipher, ← hb] at hu
    refine .inr (.inr ⟨k, out, _, hr, hu, rest', h.isOpen, h.sound, hleft, ?_, ?_⟩)
    · show state (retained s.inner.fetches ++ o.buffer.toList) = state (retained o.source.fetches)
      rw [hretained, hb]
    · show given ++ (s.output.append out).toList = output (retained o.source.fetches)
      rw [hretained, hout, Buffer.toList_append, ← List.append_assoc, h.account]

/-- How many reads of the inner source have failed or found the end. -/
def halts (s : CipherSource κ (Traced σ)) : Nat := s.inner.fetches.countP Fetch.halted

/-- Filling goes on until there is enough or the stream of the cipher has ended.  If it fails, a read of the inner source
has failed or found the end, and it may be repeated, or the stream of the cipher can never end. -/
private theorem Running.fill (hc : Firm state output) {rest : Bytes} (h : s.Running state output t given rest) {n : Nat}
    (hn : n ≤ maxRequestLength) (host : Host) :
    let o := s.fill n host
    s.halts ≤ o.endpoint.halts ∧
      ((o.result = .ok () ∧ (((∃ rest, o.endpoint.Running state output t given rest) ∧
            n ≤ o.endpoint.output.length) ∨ o.endpoint.Done state output t given)) ∨
        ∃ e, o.result = .error e ∧
          ((e.retryable = true ∧ s.halts < o.endpoint.halts ∧
              ∃ rest, o.endpoint.Running state output t given rest) ∨
            (e.retryable = false ∧ o.endpoint.Broken state output t given))) := by
  have hpull (s : CipherSource κ (Traced σ)) (rest : Bytes) (host : Host) (h : s.Running state output t given rest)
      (hlt : s.output.length < n) := by
    have hsize : ByteCipher.blockSize s.cipher ≤ maxRequestLength := by
      rw [h.cipher]
      exact hc.blockSize _
    have hle : s.request (n - s.output.length) ≤ maxRequestLength :=
      Nat.max_le.2 ⟨Nat.le_trans (Nat.sub_le ..) hn, hsize⟩
    exact h.pull hc (s.request_pos (Nat.sub_pos_of_lt hlt)) hle host
  fun_induction CipherSource.fill s n host generalizing rest with
  | case1 s host hlt e inner b host' hr =>
    have hp := hpull s rest host h hlt.1
    have hcount : inner.fetches.countP Fetch.halted = s.halts + 1 :=
      Traced.countP_of_read hr (v := true) fun _ => rfl
    simp only [hr] at hp
    rcases hp with ⟨e', he, hretry, hs⟩ | ⟨hk, -⟩ | ⟨k, out, cipher, hk, -⟩
    · obtain rfl := Except.error.inj he
      have hlt : s.halts < inner.fetches.countP Fetch.halted := Nat.le_of_eq hcount.symm
      exact ⟨Nat.le_of_lt hlt, .inr ⟨e, rfl, .inl ⟨hretry, hlt, hs⟩⟩⟩
    · cases hk
    · cases hk
  | case2 s host hlt inner b host' hr =>
    have hp := hpull s rest host h hlt.1
    have hcount : inner.fetches.countP Fetch.halted = s.halts + 1 :=
      Traced.countP_of_read hr (v := true) fun _ => rfl
    have hlt' : s.halts < ({ s with inner }.finalize host').endpoint.halts := by
      show s.halts < ({ s with inner }.finalize host').endpoint.inner.fetches.countP Fetch.halted
      rw [inner_finalize]
      exact Nat.le_of_eq hcount.symm
    simp only [hr] at hp
    rcases hp with ⟨e, hk, -⟩ | ⟨-, hs⟩ | ⟨k, out, cipher, hk, -⟩
    · cases hk
    · refine ⟨Nat.le_of_lt hlt', ?_⟩
      rcases hs.finalize hc host' with ⟨hr, hs⟩ | ⟨e, hr, hs⟩
      · exact .inl ⟨hr, .inr hs⟩
      · refine .inr ⟨e, hr, hs.imp_left ?_⟩
        rintro ⟨hretry, hs⟩
        exact ⟨hretry, hlt', [], hs⟩
    · cases hk
  | case3 s host hlt k inner input host' hr e cipher hu =>
    have hp := hpull s rest host h hlt.1
    simp [hr, hu] at hp
  | case4 s host hlt k inner input host' hr out cipher hu ih =>
    have hp := hpull s rest host h hlt.1
    have hcount : inner.fetches.countP Fetch.halted = s.halts :=
      Traced.countP_of_read hr (v := false) fun _ => rfl
    simp only [hr, hu] at hp
    rcases hp with ⟨e, hk, -⟩ | ⟨hk, -⟩ | ⟨k, out, cipher, -, hw, rest', hs⟩
    · cases hk
    · cases hk
    · cases hw
      rw [← hcount]
      exact ih hs
  | case5 s host hge =>
    have hunended : ByteCipher.isFinalized s.cipher = false := by
      rw [h.cipher]
      exact hc.unended _
    refine ⟨Nat.le_refl _, .inl ⟨rfl, .inl ⟨⟨rest, h⟩, ?_⟩⟩⟩
    simpa [hunended] using hge

omit [ByteCipher κ] in
/-- Bytes of the front of the output count as given once they are. -/
private theorem Running.give {rest : Bytes} (h : s.Running state output t given rest) {piece : Bytes} {held : Buffer}
    (hcat : piece ++ held.toList = s.output.toList) :
    { s with output := held }.Running state output t (given ++ piece) rest := by
  refine ⟨h.isOpen, h.sound, h.left, h.cipher, ?_⟩
  rw [← h.account, ← hcat, List.append_assoc]

private theorem Done.give (h : s.Done state output t given) {piece : Bytes} {held : Buffer}
    (hcat : piece ++ held.toList = s.output.toList) :
    { s with output := held }.Done state output t (given ++ piece) := by
  refine ⟨h.isOpen, h.sound, h.left, h.ended, ?_⟩
  rw [List.append_assoc, hcat]
  exact h.account

/-- Once the source has ended, all of the stream has come, and the cipher was fed what the reads have brought that did not
fail. -/
theorem Traces.whole_of_spent (hc : Firm state output) (h : s.Traces state output t given) (hs : s.Spent) :
    brought s.inner.fetches = t ∧ wholeOutput? state output (retained s.inner.fetches) = some given := by
  obtain ⟨-, hp, hfin, hnil⟩ := hs
  rcases h with ⟨rest, h⟩ | h | h
  · have hunended := hc.unended (retained s.inner.fetches)
    rw [← h.cipher, hfin] at hunended
    cases hunended
  · have hwhole := h.left.whole
    have haccount := h.account
    rw [List.append_nil] at hwhole
    rw [hnil, List.append_nil] at haccount
    exact ⟨hwhole, haccount⟩
  · rw [h.poisoned] at hp
    cases hp

/-- If no bytes have come with a failure, the source is sound, and it has given a piece from the front of what the cipher
makes of the stream. -/
theorem Traces.given_isPrefix (hc : Firm state output) (h : s.Traces state output t given)
    (hall : retained s.inner.fetches = brought s.inner.fetches) {x : Bytes} (hx : wholeOutput? state output t = some x) :
    s.poisoned = false ∧ given <+: x := by
  -- at the end the cipher was fed the whole stream
  have hfed (hleft : s.inner.Left t []) : wholeOutput? state output (retained s.inner.fetches) = some x := by
    have hwhole := hleft.whole
    rw [List.append_nil, ← hall] at hwhole
    rw [hwhole, hx]
  rcases h with ⟨rest, h⟩ | h | h
  · have hwhole := h.left.whole
    rw [← hall] at hwhole
    obtain ⟨out, -, hout⟩ := hc.update (retained s.inner.fetches) rest
    obtain ⟨last, -, rfl⟩ := Option.map_eq_some_iff.1 hx
    rw [← hwhole, hout, ← h.account]
    simp only [List.append_assoc]
    exact ⟨h.sound, List.prefix_append ..⟩
  · have haccount := h.account
    rw [hfed h.left] at haccount
    rw [Option.some.inj haccount]
    exact ⟨h.sound, List.prefix_append ..⟩
  · have haccount := h.account
    rw [hfed h.left] at haccount
    cases haccount

/-- Reads that may be repeated lose what failed reads of the inner source have appended, and nothing else. -/
theorem accounting (hc : Firm state output) (t : Bytes) :
    Accounting (Traces state output t : CipherSource κ (Traced σ) → Bytes → Prop) Spent
      (fun s => s.poisoned = true) halts where
  read {s given} h {n} hn hl b host := by
    show ∃ piece, Accounted _ _ _ _ given s.halts (n, b, host) (s.read n b host) piece
    have hle : n ≤ maxRequestLength := Nat.le_of_lt hl
    rcases h with ⟨rest, h⟩ | h | h
    · rw [read_of_ready h.isOpen h.sound hn hle]
      obtain ⟨hcount, hfill⟩ := h.fill hc hle host
      rcases hf : s.fill n host with ⟨e | _, s', host'⟩
      · rw [hf] at hcount hfill
        rcases hfill with ⟨hok, -⟩ | ⟨e', herr, hs⟩
        · cases hok
        · obtain rfl := Except.error.inj herr
          refine ⟨[], accounted_of_error ?_ hcount ?_⟩
          · exact hs.imp (fun hs => hs.2.2) fun hs => .inr hs.2
          · exact hs.imp (fun hs => ⟨hs.1, hs.2.1⟩) fun hs => ⟨hs.1, hs.2.poisoned⟩
      · rw [hf] at hcount hfill
        rcases hfill with ⟨-, hs⟩ | ⟨e, herr, -⟩
        · have hgive (piece : Bytes) (held : Buffer) (hcat : piece ++ held.toList = s'.output.toList) :
              { s' with output := held }.Traces state output t (given ++ piece) := by
            rcases hs with ⟨⟨rest, hs⟩, -⟩ | hs
            · exact .inl ⟨rest, hs.give hcat⟩
            · exact .inr (.inl (hs.give hcat))
          have hspent (hnil : s'.output.toList = []) : s'.Spent := by
            rcases hs with ⟨-, hlen⟩ | hs
            · have hzero : s'.output.length = 0 := Buffer.length_eq_zero_iff.2 hnil
              have hlen : n ≤ s'.output.length := hlen
              omega
            · exact ⟨hs.isOpen, hs.sound, hs.ended, hnil⟩
          exact accounted_of_buffer (P := Traces state output t) (f := fun held => { s' with output := held }) hn hgive
            hspent (fun _ => hcount) host'
        · cases herr
    · rw [read_of_ready h.isOpen h.sound hn hle, CipherSource.fill, dif_neg (by simp [h.ended])]
      exact accounted_of_buffer (P := Traces state output t) (f := fun held => { s with output := held }) hn
        (fun piece held hcat => .inr (.inl (h.give hcat))) (fun hnil => ⟨h.isOpen, h.sound, h.ended, hnil⟩)
        (fun _ => Nat.le_refl _) host
    · rw [read_of_poisoned h.isOpen h.poisoned hle]
      exact ⟨[], accounted_of_error (.inr (.inr h)) (Nat.le_refl _) (.inr ⟨rfl, h.poisoned⟩)⟩
  ended {s given} h hs {n} hn hl b host := by
    show (s.read n b host).source.Spent
    rw [hs.read hn (Nat.le_of_lt hl)]
    exact hs
  spoilt {s given} h hs {n} hn hl b host := by
    show (s.read n b host).source.poisoned = true
    have ho : s.closed = false := by
      rcases h with ⟨rest, h⟩ | h | h
      · exact h.isOpen
      · exact h.isOpen
      · exact h.isOpen
    rw [read_of_poisoned ho hs (Nat.le_of_lt hl)]
    exact hs

end CipherSource

/-! ### Block ciphers -/

/-- Behind what a cipher has given for `x` comes the rest of what it turns that into. -/
theorem Course.wholeOutput?_eq {κ : Type} [ByteCipher κ] {state : Bytes → κ} {output : Bytes → Bytes}
    (hc : Course state output) (hnil : output [] = []) {x y : Bytes} (h : Turns (state []) x y) :
    wholeOutput? state output x = some y := by
  rw [← List.append_nil x] at h
  obtain ⟨out, y', c, hu, hturns, rfl, -⟩ := turning_turns.update h
  obtain ⟨out', hu', hout⟩ := hc.update [] x
  rw [hu'] at hu
  simp only [Prod.mk.injEq, Except.ok.injEq, List.nil_append] at hu hout
  obtain ⟨rfl, rfl⟩ := hu
  obtain ⟨c, hfin⟩ := turning_turns.finalize hturns
  rw [wholeOutput?, hfin, hout, hnil]
  rfl

theorem CbcEncryptor.firm (c : BlockCipher) (iv : Bytes) : Firm (fed c iv) fun x => (early c iv x).flatten where
  toCourse := course c iv
  blockSize _ := Nat.le_trans (Nat.le_of_lt c.blockSize_lt) (by decide)
  final {x e d} h := by
    obtain ⟨d', hfin, -⟩ := finalize_eq (c := fed c iv x) rfl (length_pending_fed c iv x)
    have h : (fed c iv x).finalize = (.error e, d) := h
    rw [hfin] at h
    cases h

theorem CbcEncryptor.early_nil (c : BlockCipher) (iv : Bytes) : (early c iv []).flatten = [] := by
  simp [early, firstBlocks, BlockCipher.encryptChain]

theorem CbcEncryptor.wholeOutput?_fed (c : BlockCipher) (iv x : Bytes) :
    wholeOutput? (fed c iv) (fun x => (early c iv x).flatten) x = some (c.encryptPadded iv x) := by
  have hturns : Turns (fed c iv []) x (c.encryptPadded iv x) := by
    rw [fed_nil]
    exact turns_new c iv x
  exact (course c iv).wholeOutput?_eq (early_nil c iv) hturns

theorem CbcDecryptor.firm (c : BlockCipher) (iv : Bytes) :
    Firm (fed c iv) fun x => (c.decryptChain iv (early c x)).flatten where
  toCourse := course c iv
  blockSize _ := Nat.le_trans (Nat.le_of_lt c.blockSize_lt) (by decide)
  final {x e d} h := by
    have hresult := result_finalize (d := fed c iv x) rfl (pending_fed_le c iv x)
    have h : (fed c iv x).finalize = (.error e, d) := h
    rw [h] at hresult
    split at hresult
    · cases hresult
    · rw [Except.error.inj hresult]
      rfl

theorem CbcDecryptor.early_nil (c : BlockCipher) (iv : Bytes) : (c.decryptChain iv (early c [])).flatten = [] := by
  simp [early, firstBlocks, BlockCipher.decryptChain]

theorem CbcDecryptor.wholeOutput?_fed (c : BlockCipher) (iv x : Bytes) :
    wholeOutput? (fed c iv) (fun x => (c.decryptChain iv (early c x)).flatten) x = c.decryptPadded? iv x := by
  have hresult := result_finalize (d := fed c iv x) rfl (pending_fed_le c iv x)
  rw [decryptPadded?_eq, wholeOutput?]
  show ((fed c iv x).finalize.1).toOption.map _ = _
  rw [hresult]
  rcases (fed c iv x).remaining? [] with _ | y
  · rfl
  · rfl

end Conduit
