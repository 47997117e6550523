import Conduit.Proofs.Contract
import Conduit.Proofs.Perishing
import Conduit.Proofs.Requests

/-!
# Reading a stream that is malformed for good through a cipher

A source whose cipher has failed refuses all reads.  If it was what it reads from that has found its stream malformed,
the source goes on, and so does its cipher, which never gives more than it has taken (`Flowing`): what can still be read
is no more than the output, what the cipher keeps back and what is still to come (`CipherSource.honest`).
-/

namespace Conduit

/-! ### Ciphers that go on -/

section

variable {κ κ' : Type} [ByteCipher κ] [ByteCipher κ']

/-- Until its stream has ended such a cipher takes all that comes.  It gives no more than it has taken; `kept` is what
it keeps back. -/
structure Flowing (size : Nat) (kept : κ → Nat) (P : κ → Prop) : Prop where
  blockSize {c : κ} (h : P c) : ByteCipher.blockSize c = size
  update {c : κ} (h : P c) (hf : ByteCipher.isFinalized c = false) (x : Bytes) :
    ∃ out c', ByteCipher.update c x = (.ok out, c') ∧ P c' ∧ ByteCipher.isFinalized c' = false ∧
      out.length + kept c' = kept c + x.length
  finalize {c : κ} (h : P c) : P (ByteCipher.finalize c).2

/-- What a cipher does, one that does the same does too. -/
theorem Flowing.map {f : κ → κ'} (hf : CipherHom f) {size : Nat} {kept : κ → Nat} {kept' : κ' → Nat} {P : κ → Prop}
    (hk : ∀ c, kept' (f c) = kept c) (h : Flowing size kept P) : Flowing size kept' (fun c' => ∃ c, P c ∧ c' = f c) where
  blockSize := by
    rintro _ ⟨c, hc, rfl⟩
    rw [hf.blockSize, h.blockSize hc]
  update := by
    rintro _ ⟨c, hc, rfl⟩ hfin x
    rw [hf.isFinalized] at hfin
    obtain ⟨out, c', hu, hc', hfin', hlen⟩ := h.update hc hfin x
    refine ⟨out, f c', ?_, ⟨c', hc', rfl⟩, ?_, ?_⟩
    · rw [hf.update, hu]
      rfl
    · rw [hf.isFinalized, hfin']
    · rw [hk, hk, hlen]
  finalize := by
    rintro _ ⟨c, hc, rfl⟩
    rw [hf.finalize]
    exact ⟨_, h.finalize hc, rfl⟩

end

theorem CbcEncryptor.flowing (b : BlockCipher) :
    Flowing b.blockSize (fun c : CbcEncryptor => c.pending.length) (fun c => c.cipher = b) where
  blockSize h := congrArg BlockCipher.blockSize h
  update {c} h hf x := by
    obtain ⟨out, c', hu, hf', -, -⟩ := update_eq hf x
    obtain ⟨hlen, -, hc⟩ := length_update hu
    exact ⟨out, c', hu, hc.trans h, hf', hlen⟩
  finalize {c} h := by
    show c.finalize.2.cipher = b
    unfold CbcEncryptor.finalize
    split
    · exact h
    · exact h

theorem CbcDecryptor.flowing (b : BlockCipher) :
    Flowing b.blockSize (fun c : CbcDecryptor => c.pending.length) (fun c => c.cipher = b) where
  blockSize h := congrArg BlockCipher.blockSize h
  update {c} h hf x := by
    obtain ⟨out, c', hu, hf', -, hc, -⟩ := update_eq hf x
    exact ⟨out, c', hu, hc.trans h, hf', (length_update hu).1⟩
  finalize {c} h := by
    show c.finalize.2.cipher = b
    unfold CbcDecryptor.finalize
    split
    · exact h
    · split
      · exact h
      · simp only
        split
        · exact h
        · exact h

namespace AnyCipher

/-- The cipher encrypts or decrypts, and is not a script. -/
def IsCbc : AnyCipher → Prop
  | encryptor _ => True
  | decryptor _ => True
  | scripted _ => False

/-- How many bytes the cipher keeps back. -/
def keptBack : AnyCipher → Nat
  | encryptor c => c.pending.length
  | decryptor c => c.pending.length
  | scripted _ => 0

theorem IsCbc.flowing {c : AnyCipher} (h : c.IsCbc) :
    ∃ P : AnyCipher → Prop, Flowing (ByteCipher.blockSize c) keptBack P ∧ P c := by
  cases c with
  | encryptor c => exact ⟨_, (CbcEncryptor.flowing c.cipher).map hom_encryptor (fun _ => rfl), c, rfl, rfl⟩
  | decryptor c => exact ⟨_, (CbcDecryptor.flowing c.cipher).map hom_decryptor (fun _ => rfl), c, rfl, rfl⟩
  | scripted c => exact absurd h id

end AnyCipher

/-! ### Reading on -/

namespace CipherSource

variable {κ σ : Type} [ByteCipher κ] [ByteSource σ] {limit limit' size : Nat} {kept : κ → Nat} {P : κ → Prop}

/-- The stream of what is read from is malformed for good; `w` bounds all that may still come. -/
private def Starving (limit' : Nat) (kept : κ → Nat) (P : κ → Prop) (w : Nat) (s : CipherSource κ σ) : Prop :=
  (s.closed = false ∧ s.poisoned = false ∧ ByteCipher.isFinalized s.cipher = false ∧ P s.cipher) ∧
    ∃ v, Perished limit' v s.inner ∧ s.output.length + kept s.cipher + v ≤ w

/-- The cipher has failed, or what is read from has found its stream malformed. -/
private def Failing (limit' : Nat) (kept : κ → Nat) (P : κ → Prop) (w : Nat) (s : CipherSource κ σ) : Prop :=
  (s.closed = false ∧ s.poisoned = true) ∨ s.Starving limit' kept P w

omit [ByteSource σ] in
theorem request_le (hP : Flowing size kept P) {s : CipherSource κ σ} (h : P s.cipher) {m n : Nat} (hm : m ≤ n) :
    s.request m ≤ max n size := by
  rw [request, hP.blockSize h]
  omega

omit [ByteSource σ] in
theorem request_pos (s : CipherSource κ σ) {m : Nat} (h : 0 < m) : 0 < s.request m :=
  Nat.lt_of_lt_of_le h (Nat.le_max_left ..)

/-- Filling ends with enough, or what is read from finds its stream malformed: the cipher does not fail. -/
private theorem Starving.fill (hP : Flowing size kept P) {w : Nat} {s : CipherSource κ σ}
    (h : s.Starving limit' kept P w) {n : Nat} (hr : max n size ≤ limit') (host : Host) :
    ((∃ fault, (s.fill n host).result = .error (.malformedStream fault)) ∨
      ((s.fill n host).result = .ok () ∧ n ≤ (s.fill n host).endpoint.output.length)) ∧
      (s.fill n host).endpoint.Starving limit' kept P w := by
  have hread (s : CipherSource κ σ) (host : Host) (hlt : s.output.length < n) (hc : P s.cipher) {v : Nat}
      (hv : Perished limit' v s.inner) :=
    have hle := Nat.le_trans (request_le hP hc (Nat.sub_le n s.output.length)) hr
    perishing_perished limit' hv (s.request_pos (Nat.sub_pos_of_lt hlt)) hle .empty host
  fun_induction CipherSource.fill s n host with
  | case1 s host hlt e inner b host' hread' =>
    obtain ⟨hflags, v, hv, hw⟩ := h
    have hp := hread s host hlt.1 hflags.2.2.2 hv
    simp only [hread'] at hp
    rcases hp with ⟨⟨⟨fault, he⟩, -⟩, hv⟩ | ⟨-, ⟨hok, -⟩, -⟩
    · exact ⟨.inl ⟨fault, congrArg Except.error (Except.error.inj he)⟩, hflags, v, hv, hw⟩
    · cases hok
  | case2 s host hlt inner b host' hread' =>
    obtain ⟨hflags, v, hv, hw⟩ := h
    have hle := Nat.le_trans (request_le hP hflags.2.2.2 (Nat.sub_le n s.output.length)) hr
    have hpos := s.request_pos (Nat.sub_pos_of_lt hlt.1)
    exact absurd (congrArg ReadOutcome.result hread') (hv.not_ended hpos hle .empty host)
  | case3 s host hlt k inner input host' hread' e cipher hu =>
    obtain ⟨⟨-, -, hfin, hc⟩, -⟩ := h
    obtain ⟨out, c', hu', -⟩ := hP.update hc hfin input.toList
    rw [hu] at hu'
    cases hu'
  | case4 s host hlt k inner input host' hread' out cipher hu ih =>
    obtain ⟨⟨ho, hp, hfin, hc⟩, v, hv, hw⟩ := h
    have hread := hread s host hlt.1 hc hv
    simp only [hread'] at hread
    rcases hread with ⟨⟨⟨fault, he⟩, -⟩, -⟩ | ⟨hle, ⟨-, piece, hlen, hpiece⟩, hv⟩
    · cases he
    · -- what comes from below moves to the cipher, and from there no more moves to the output
      obtain ⟨out', c', hu', hc', hfin', hsum⟩ := hP.update hc hfin input.toList
      obtain ⟨hout, rfl⟩ := Prod.mk.inj (hu.symm.trans hu')
      obtain rfl : out = out' := Except.ok.inj hout
      have hinput : input.toList.length = piece.length := by
        rw [show input.toList = piece from hpiece]
      refine ih ⟨⟨ho, hp, hfin', hc'⟩, _, hv, ?_⟩
      show (s.output.append out).length + kept cipher + (v - s.request (n - s.output.length)) ≤ w
      rw [Buffer.length_append]
      omega
  | case5 s host hge =>
    have hn : n ≤ s.output.length := by
      by_cases hlt : s.output.length < n
      · exact absurd ⟨hlt, h.1.2.2.1⟩ hge
      · exact Nat.le_of_not_lt hlt
    exact ⟨.inr ⟨rfl, hn⟩, h⟩

theorem read_of_poisoned {s : CipherSource κ σ} (ho : s.closed = false) (hp : s.poisoned = true) {n : Nat}
    (hl : n ≤ maxRequestLength) (b : Buffer) (host : Host) :
    s.read n b host = ⟨.error (.malformedStream .cipherFailed), s, b, host⟩ := by
  have ho : ¬ s.closed = true := by simp [ho]
  unfold CipherSource.read
  rw [checkRead_eq_ok_iff.2 hl]
  exact (if_neg ho).trans (if_pos hp)

/-- A read that has filled the source with enough gives all that was asked for. -/
private theorem read_of_enough {s s' : CipherSource κ σ} (ho : s.closed = false) (hp : s.poisoned = false) {n : Nat}
    (hn : 0 < n) (hl : n ≤ maxRequestLength) {host host' : Host} (hf : s.fill n host = ⟨.ok (), s', host'⟩)
    (henough : n ≤ s'.output.length) (b : Buffer) : s.read n b host =
      ⟨.ok (some n), { s' with output := (s'.output.moveTo n b).2 }, (s'.output.moveTo n b).1, host'⟩ := by
  have hne : ¬ s'.output.isEmpty := by
    rw [Buffer.isEmpty_iff, ← Buffer.length_eq_zero_iff]
    omega
  rw [read_of_ready ho hp hn hl, hf]
  simp only [if_neg hne, Nat.min_eq_left henough]

/-- What filling keeps and the output does not matter for, a read keeps. -/
theorem read_keeps {Q : CipherSource κ σ → Prop} (hQ : ∀ s output, Q s → Q { s with output }) {s : CipherSource κ σ}
    {n : Nat} {host : Host} (hs : Q s) (hfill : Q (s.fill n host).endpoint) (b : Buffer) :
    Q (s.read n b host).source := by
  by_cases hready : s.closed = false ∧ s.poisoned = false ∧ 0 < n ∧ n ≤ maxRequestLength
  · obtain ⟨ho, hp, hn, hl⟩ := hready
    rw [read_of_ready ho hp hn hl]
    rcases hf : s.fill n host with ⟨e | _, s', host'⟩
    · rw [hf] at hfill
      exact hfill
    · rw [hf] at hfill
      simp only
      split
      · exact hfill
      · exact hQ _ _ hfill
  · obtain ⟨r, hr, -⟩ := read_unready hready b host
    rw [hr]
    exact hs

private theorem perishing_failing (hP : Flowing size kept P) (hl : limit ≤ maxRequestLength)
    (hr : max limit size ≤ limit') : Perishing limit (Failing limit' kept P : Nat → CipherSource κ σ → Prop) := by
  intro w s h n hn hle b host
  show (Rejected b (s.read n b host) ∧ (s.read n b host).source.Failing limit' kept P w) ∨
    (n ≤ w ∧ Granted n b (s.read n b host) ∧ (s.read n b host).source.Failing limit' kept P (w - n))
  rcases h with ⟨ho, hp⟩ | h
  · rw [read_of_poisoned ho hp (by omega)]
    exact .inl ⟨⟨⟨_, rfl⟩, rfl⟩, .inl ⟨ho, hp⟩⟩
  · obtain ⟨hfill, hs⟩ := h.fill hP (n := n) (by omega) host
    rcases hf : s.fill n host with ⟨e | _, s', host'⟩
    · rw [hf] at hfill hs
      rw [read_of_ready h.1.1 h.1.2.1 hn (by omega), hf]
      rcases hfill with ⟨fault, he⟩ | ⟨hok, -⟩
      · exact .inl ⟨⟨⟨fault, congrArg Except.error (Except.error.inj he)⟩, rfl⟩, .inr hs⟩
      · cases hok
    · rw [hf] at hfill hs
      rcases hfill with ⟨fault, he⟩ | ⟨-, henough⟩
      · cases he
      · obtain ⟨hflags, v, hv, hw⟩ := hs
        have henough : n ≤ s'.output.length := henough
        have hw : s'.output.length + kept s'.cipher + v ≤ w := hw
        rw [read_of_enough h.1.1 h.1.2.1 hn (by omega) hf henough]
        refine .inr ⟨by omega, granted_of_moveTo henough .., .inr ⟨hflags, v, hv, ?_⟩⟩
        show (s'.output.moveTo n b).2.length + kept s'.cipher + v ≤ w - n
        rw [Buffer.length_moveTo_snd]
        omega

theorem closed_fill (s : CipherSource κ σ) (n : Nat) (host : Host) : (s.fill n host).endpoint.closed = s.closed := by
  have hfinalize (s : CipherSource κ σ) (host : Host) : (s.finalize host).endpoint.closed = s.closed := by
    unfold finalize fail
    split
    · rfl
    · split
      · rfl
      · rfl
  fun_induction CipherSource.fill s n host with
  | case1 => rfl
  | case2 s host hlt inner b host' hr => exact hfinalize { s with inner } host'
  | case3 => rfl
  | case4 s host hlt k inner input host' hr out cipher hu ih => exact ih
  | case5 => rfl

theorem closed_read (s : CipherSource κ σ) (n : Nat) (b : Buffer) (host : Host) :
    (s.read n b host).source.closed = s.closed := by
  apply read_keeps (Q := fun t => t.closed = s.closed)
  · intro t output ht
    exact ht
  · rfl
  · exact s.closed_fill n host

/-- Only an open source can find its stream malformed. -/
theorem open_of_malformed {s : CipherSource κ σ} {n : Nat} {b : Buffer} {host : Host} {fault : StreamFault}
    (h : (s.read n b host).result = .error (.malformedStream fault)) : s.closed = false := by
  by_cases ho : s.closed
  · by_cases hl : n ≤ maxRequestLength
    · simp [CipherSource.read, checkRead_eq_ok_iff.2 hl, ho] at h
    · simp [CipherSource.read, checkRead, Nat.lt_of_not_le hl] at h
  · simpa using ho

/-- What is there already is given without asking. -/
theorem granted_of_le {s : CipherSource κ σ} (ho : s.closed = false) (hp : s.poisoned = false) {n : Nat} (hn : 0 < n)
    (hl : n ≤ maxRequestLength) (hle : n ≤ s.output.length) (b : Buffer) (host : Host) :
    Granted n b (s.read n b host) := by
  have hfill : s.fill n host = ⟨.ok (), s, host⟩ := by
    rw [fill, dif_neg (by omega)]
  rw [read_of_enough ho hp hn hl hfill hle]
  exact granted_of_moveTo hle ..

theorem read_of_closed {s : CipherSource κ σ} (h : s.closed = true) {n : Nat} (hl : n ≤ maxRequestLength) (b : Buffer)
    (host : Host) : s.read n b host = ⟨.error .closed, s, b, host⟩ := by
  unfold CipherSource.read
  rw [checkRead_eq_ok_iff.2 hl]
  exact if_pos h

omit [ByteCipher κ] in
theorem closed_close (s : CipherSource κ σ) (host : Host) : (s.close host).endpoint.closed = true := by
  unfold CipherSource.close
  split
  · assumption
  · rfl

/-- What the source, its cipher and what it reads from hold, unless the cipher has failed. -/
def heldOver (kept : κ → Nat) (held : σ → Nat) (s : CipherSource κ σ) : Nat :=
  if s.poisoned then 0 else s.output.length + kept s.cipher + held s.inner

variable {held : σ → Nat} {T : σ → Prop}

/-- Ending the stream of the cipher fails because there is no time, or for good. -/
private theorem finalize_malformed {s : CipherSource κ σ} {host : Host} {fault : StreamFault}
    (hres : (s.finalize host).result = .error (.malformedStream fault)) :
    (s.finalize host).endpoint.closed = s.closed ∧ (s.finalize host).endpoint.poisoned = true := by
  unfold finalize at hres ⊢
  split at hres
  · rename_i e host' hcheck
    obtain ⟨elapsed, rfl, -⟩ := Deadline.check_error hcheck
    cases hres
  · split at hres
    · obtain rfl := Except.error.inj hres
      exact ⟨rfl, rfl⟩
    · cases hres

private theorem cipher_finalize (hP : Flowing size kept P) {s : CipherSource κ σ} (h : P s.cipher) (host : Host) :
    P (s.finalize host).endpoint.cipher := by
  have hfin := hP.finalize h
  unfold finalize
  split
  · exact h
  · split
    · rename_i hf
      rw [hf] at hfin
      exact hfin
    · rename_i hf
      rw [hf] at hfin
      exact hfin

/-- When filling finds the stream malformed, the cipher has failed, or what is read from is malformed for good. -/
private theorem fill_malformed (hP : Flowing size kept P) (hT : Honest limit' held T) {s : CipherSource κ σ}
    (h : P s.cipher ∧ T s.inner) (n : Nat) (host : Host) :
    (P (s.fill n host).endpoint.cipher ∧ T (s.fill n host).endpoint.inner) ∧
      (s.closed = false → s.poisoned = false → max n size ≤ limit' → ∀ fault,
        (s.fill n host).result = .error (.malformedStream fault) →
        (s.fill n host).endpoint.Failing limit' kept P ((s.fill n host).endpoint.heldOver kept held)) := by
  have hkept (s : CipherSource κ σ) (host : Host) (h : T s.inner) :=
    hT.kept h (s.request (n - s.output.length)) .empty host
  fun_induction CipherSource.fill s n host with
  | case1 s host hlt e inner b host' hr =>
    have hk := hkept s host h.2
    rw [hr] at hk
    refine ⟨⟨h.1, hk⟩, ?_⟩
    -- only here the failure comes from below, and this source is not marked
    intro ho hp hreq fault he
    have hle := Nat.le_trans (request_le hP h.1 (Nat.sub_le n s.output.length)) hreq
    have hpos := s.request_pos (Nat.sub_pos_of_lt hlt.1)
    have hres : (ByteSource.read s.inner (s.request (n - s.output.length)) .empty host).result =
        .error (.malformedStream fault) := by
      rw [hr]
      exact congrArg Except.error (Except.error.inj he)
    obtain ⟨-, hv⟩ := hT.perished h.2 hpos hle hres
    rw [hr] at hv
    refine .inr ⟨⟨ho, hp, hlt.2, h.1⟩, held inner, hv, ?_⟩
    simp [heldOver, hp]
  | case2 s host hlt inner b host' hr =>
    have hk := hkept s host h.2
    rw [hr] at hk
    refine ⟨⟨cipher_finalize hP (s := { s with inner }) h.1 host', ?_⟩, ?_⟩
    · rw [inner_finalize]
      exact hk
    · intro ho hp hreq fault hres
      obtain ⟨hclosed, hpoisoned⟩ := finalize_malformed hres
      exact .inl ⟨hclosed.trans ho, hpoisoned⟩
  | case3 s host hlt k inner input host' hr e cipher hu =>
    obtain ⟨out, c', hu', -⟩ := hP.update h.1 hlt.2 input.toList
    rw [hu] at hu'
    cases hu'
  | case4 s host hlt k inner input host' hr out cipher hu ih =>
    have hk := hkept s host h.2
    rw [hr] at hk
    obtain ⟨out', c', hu', hc', -⟩ := hP.update h.1 hlt.2 input.toList
    obtain ⟨-, rfl⟩ := Prod.mk.inj (hu.symm.trans hu')
    exact ih ⟨hc', hk⟩
  | case5 s host hge => exact ⟨h, fun _ _ _ fault hres => by cases hres⟩

/-- A source that reads through a cipher from an honest source is honest. -/
theorem honest (hP : Flowing size kept P) (hT : Honest limit' held T) (hl : limit ≤ maxRequestLength)
    (hr : max limit size ≤ limit') :
    Honest limit (heldOver kept held) (fun s : CipherSource κ σ => P s.cipher ∧ T s.inner) where
  kept {s} h n b host := by
    show P (s.read n b host).source.cipher ∧ T (s.read n b host).source.inner
    apply read_keeps (Q := fun t => P t.cipher ∧ T t.inner)
    · intro t output ht
      exact ht
    · exact h
    · exact (fill_malformed hP hT h n host).1
  perished {s} h {n} hn hle {b host fault} hres := by
    have hres : (s.read n b host).result = .error (.malformedStream fault) := hres
    show (s.read n b host).buffer = b ∧
      Perished limit ((s.read n b host).source.heldOver kept held) (s.read n b host).source
    have hmax : n ≤ maxRequestLength := by omega
    have hbuf := (s.obeys n b host).failed _ hres
    refine ⟨hbuf, Failing limit' kept P, perishing_failing hP hl hr, ?_⟩
    have ho := open_of_malformed hres
    by_cases hp : s.poisoned
    · rw [read_of_poisoned ho hp hmax]
      exact .inl ⟨ho, hp⟩
    · have hp : s.poisoned = false := by simpa using hp
      obtain ⟨-, hfail⟩ := fill_malformed hP hT h n host
      rw [read_of_ready ho hp hn hmax] at hres ⊢
      rcases hf : s.fill n host with ⟨e | _, s', host'⟩
      · rw [hf] at hfail hres
        exact hfail ho hp (by omega) fault (congrArg Except.error (Except.error.inj hres))
      · rw [hf] at hres
        simp only at hres
        split at hres
        · cases hres
        · cases hres

end CipherSource

end Conduit
