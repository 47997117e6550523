import Conduit.Cipher.Source
import Conduit.Proofs.Cipher.Turning
import Conduit.Proofs.Serving

/-!
# What a source serves through a cipher

Over a source that serves `t`, a cipher that turns `t` into `x` serves `x`; so a decrypting source over one that serves
a ciphertext serves what was encrypted (`serves_new`).  A read of the inner source that fails, and a deadline that is
missed when the stream of the cipher is to end, change neither the output nor the state of the cipher, so nothing is
lost (`owes_new`).
-/

namespace Conduit

namespace CipherSource

variable {κ σ : Type} [ByteCipher κ] [ByteSource σ]

/-- The output so far and what the cipher is still to give for what the inner source owes are `x`. -/
def Passes (limit : Option Nat) (s : CipherSource κ σ) (x : Bytes) : Prop :=
  s.closed = false ∧ s.poisoned = false ∧ ((ByteCipher.isFinalized s.cipher = true ∧ s.output.toList = x ∧
      ∃ t, Owes limit s.inner t) ∨
    (∀ l ∈ limit, ByteCipher.blockSize s.cipher ≤ l) ∧ ∃ t y, Owes limit s.inner t ∧ Turns s.cipher t y ∧
      s.output.toList ++ y = x)

theorem Passes.timely {limit : Option Nat} {s : CipherSource κ σ} {x : Bytes} (h : s.Passes limit x) :
    ∃ t, Owes limit s.inner t := by
  obtain ⟨-, -, ⟨-, -, h⟩ | ⟨-, t, y, h, -⟩⟩ := h
  · exact h
  · exact ⟨t, h⟩

/-- The stream of the cipher ends with the rest of its output, unless the deadline is missed and nothing is done. -/
private theorem finalize_of_turns {limit : Option Nat} {s : CipherSource κ σ} {y : Bytes} (ho : s.closed = false)
    (hp : s.poisoned = false) (hl : ∀ l ∈ limit, ByteCipher.blockSize s.cipher ≤ l) (hs : Owes limit s.inner [])
    (hy : Turns s.cipher [] y) (host : Host) :
    (s.finalize host).endpoint.Passes limit (s.output.toList ++ y) ∧
      (((s.finalize host).result = .ok () ∧ ByteCipher.isFinalized (s.finalize host).endpoint.cipher = true) ∨
        limit = none ∧ ∃ e, (s.finalize host).result = .error e) := by
  obtain ⟨cipher, hfin⟩ := turning_turns.finalize hy
  have hend := ByteCipher.isFinalized_finalize hfin
  unfold finalize
  rcases ht : (ByteSource.timeout s.inner).check host with ⟨e | _, host'⟩
  · have hlimit : limit = none := Decidable.byContradiction fun hl => by
      have := (lasting_owes limit).check hs hl host
      simp [ht] at this
    obtain ⟨elapsed, rfl, -⟩ := Deadline.check_error ht
    exact ⟨⟨ho, rfl, .inr ⟨hl, [], y, hs, hy, rfl⟩⟩, .inr ⟨hlimit, _, rfl⟩⟩
  · simp only [hfin]
    exact ⟨⟨ho, hp, .inl ⟨hend, Buffer.toList_append .., [], hs⟩⟩, .inl ⟨trivial, hend⟩⟩

/-- One step of filling: the read has failed and nothing was lost, the inner source has ended and so does the stream of
the cipher, or more has gone through the cipher. -/
private theorem Passes.pull {limit : Option Nat} {s : CipherSource κ σ} {x : Bytes} (h : s.Passes limit x)
    (hf : ByteCipher.isFinalized s.cipher = false) {m : Nat} (hm : 0 < m) (hl : ∀ l ∈ limit, m ≤ l) (host : Host) :
    let o := ByteSource.read s.inner m .empty host
    (limit = none ∧ (∃ e, o.result = .error e) ∧ { s with inner := o.source }.Passes limit x) ∨
      (o.result = .ok none ∧ ∃ y, Owes limit o.source [] ∧ Turns s.cipher [] y ∧ s.output.toList ++ y = x) ∨
      ∃ k out cipher, o.result = .ok (some k) ∧ ByteCipher.update s.cipher o.buffer.toList = (.ok out, cipher) ∧
        { s with inner := o.source, cipher, output := s.output.append out }.Passes limit x := by
  obtain ⟨ho, hp, ⟨hfin, -⟩ | ⟨hsize, t, y, hs, hy, rfl⟩⟩ := h
  · rw [hf] at hfin
    cases hfin
  · rcases (lasting_owes limit).read hs hm hl .empty host with
      (⟨rfl, hr, -, hs'⟩ | ⟨k, -, -, hk, hr, hb, hs'⟩) | ⟨hlimit, herr, -, hs'⟩
    · exact .inr (.inl ⟨hr, y, hs', hy, rfl⟩)
    · rw [Buffer.toList_empty, List.nil_append] at hb
      rw [← List.take_append_drop k t] at hy
      obtain ⟨out, y', cipher, hu, hy', rfl, hsame⟩ := turning_turns.update hy
      rw [← hb] at hu
      refine .inr (.inr ⟨k, out, cipher, hr, hu, ho, hp, .inr ⟨?_, t.drop k, y', hs', hy', ?_⟩⟩)
      · show ∀ l ∈ limit, ByteCipher.blockSize cipher ≤ l
        rwa [hsame]
      · rw [Buffer.toList_append, List.append_assoc]
    · exact .inl ⟨hlimit, herr, ho, hp, .inr ⟨hsize, t, y, hs', hy, rfl⟩⟩

/-- Filling goes on until there is enough or the stream has ended, unless it fails, and loses nothing. -/
theorem Passes.fill {limit : Option Nat} {s : CipherSource κ σ} {x : Bytes} (h : s.Passes limit x) {n : Nat}
    (hn : ∀ l ∈ limit, n ≤ l) (host : Host) : (s.fill n host).endpoint.Passes limit x ∧
      (((s.fill n host).result = .ok () ∧ (n ≤ (s.fill n host).endpoint.output.length ∨
          ByteCipher.isFinalized (s.fill n host).endpoint.cipher = true)) ∨
        limit = none ∧ ∃ e, (s.fill n host).result = .error e) := by
  have hsize (s : CipherSource κ σ) (h : s.Passes limit x) (hf : ByteCipher.isFinalized s.cipher = false) :
      ∀ l ∈ limit, ByteCipher.blockSize s.cipher ≤ l := by
    obtain ⟨-, -, ⟨hfin, -⟩ | ⟨hsize, -⟩⟩ := h
    · rw [hf] at hfin
      cases hfin
    · exact hsize
  have hpull (s : CipherSource κ σ) (host : Host) (h : s.Passes limit x)
      (hlt : s.output.length < n ∧ ByteCipher.isFinalized s.cipher = false) := by
    have hpos : 0 < s.request (n - s.output.length) := by
      simp only [request]
      omega
    have hle : ∀ l ∈ limit, s.request (n - s.output.length) ≤ l := by
      intro l hl
      exact Nat.max_le.2 ⟨Nat.le_trans (Nat.sub_le ..) (hn l hl), hsize s h hlt.2 l hl⟩
    exact h.pull hlt.2 hpos hle host
  fun_induction CipherSource.fill s n host with
  | case1 s host hlt e inner b host' hr =>
    have hp := hpull s host h hlt
    simp only [hr] at hp
    rcases hp with ⟨hlimit, -, hs⟩ | ⟨hk, -⟩ | ⟨k, out, cipher, hk, -⟩
    · exact ⟨hs, .inr ⟨hlimit, e, rfl⟩⟩
    · cases hk
    · cases hk
  | case2 s host hlt inner b host' hr =>
    have hp := hpull s host h hlt
    simp only [hr] at hp
    rcases hp with ⟨-, ⟨e, hk⟩, -⟩ | ⟨-, y, hs, hy, rfl⟩ | ⟨k, out, cipher, hk, -⟩
    · cases hk
    · obtain ⟨hs', hend⟩ := finalize_of_turns (s := { s with inner }) h.1 h.2.1 (hsize s h hlt.2) hs hy host'
      exact ⟨hs', hend.imp_left (And.imp_right Or.inr)⟩
    · cases hk
  | case3 s host hlt k inner input host' hr e cipher hu =>
    have hp := hpull s host h hlt
    simp [hr, hu] at hp
  | case4 s host hlt k inner input host' hr out cipher hu ih =>
    have hp := hpull s host h hlt
    simp only [hr, hu] at hp
    rcases hp with ⟨-, ⟨e, hk⟩, -⟩ | ⟨hk, -⟩ | ⟨k, out, cipher, -, hw, hs⟩
    · cases hk
    · cases hk
    · cases hw
      exact ih hs
  | case5 s host hge =>
    refine ⟨h, .inl ⟨rfl, ?_⟩⟩
    by_cases hl : s.output.length < n
    · have hfin : ByteCipher.isFinalized s.cipher = true := by simpa [hl] using hge
      exact .inr hfin
    · exact .inl (Nat.le_of_not_lt hl)

/-- An open source that has not failed fills up and gives what there is then. -/
theorem read_of_ready {s : CipherSource κ σ} (ho : s.closed = false) (hp : s.poisoned = false) {n : Nat} (hn : 0 < n)
    (hl : n ≤ maxRequestLength) (b : Buffer) (host : Host) : s.read n b host =
      match s.fill n host with
      | ⟨.error e, s, host⟩ => ⟨.error e, s, b, host⟩
      | ⟨.ok (), s, host⟩ =>
        if s.output.isEmpty then ⟨.ok none, s, b, host⟩
        else
          let count := min n s.output.length
          let (b, output) := s.output.moveTo count b
          ⟨.ok (some count), { s with output }, b, host⟩ := by
  have ho' : ¬ s.closed = true := by simp [ho]
  have hp' : ¬ s.poisoned = true := by simp [hp]
  unfold CipherSource.read
  rw [checkRead_eq_ok_iff.2 hl]
  exact (if_neg ho').trans ((if_neg hp').trans (if_neg (Nat.ne_of_gt hn)))

private theorem Passes.read {limit : Option Nat} {s : CipherSource κ σ} {x : Bytes} (h : s.Passes limit x) {n : Nat}
    (hn : 0 < n) (hl : ∀ l ∈ limit, n ≤ l) (hm : limit ≠ none → n ≤ maxRequestLength) (b : Buffer) (host : Host) :
    Kept limit (Passes limit) x n b (s.read n b host) := by
  by_cases hle : n ≤ maxRequestLength
  · rw [read_of_ready h.1 h.2.1 hn hle]
    obtain ⟨hs, hend⟩ := h.fill hl host
    rcases hf : s.fill n host with ⟨e | _, s', host'⟩
    · rw [hf] at hs hend
      rcases hend with ⟨hok, -⟩ | ⟨hlimit, -⟩
      · cases hok
      · exact .inr ⟨hlimit, ⟨e, rfl⟩, rfl, hs⟩
    · rw [hf] at hs hend
      rcases hend with ⟨-, hend⟩ | ⟨-, e, herr⟩
      · obtain ⟨ho, hp, ⟨hfin, rfl, hs⟩ | ⟨hsize, t, y, hs, hy, rfl⟩⟩ := hs
        · rw [← List.append_nil s'.output.toList]
          exact .inl (served_of_buffer (R := Passes limit) (f := fun output => { s' with output }) hn (.inr rfl)
            (fun rest => ⟨ho, hp, .inl ⟨hfin, (List.append_nil _).symm, hs⟩⟩) b host')
        · -- the source stopped filling because there is enough, not because the stream has ended
          have henough : n ≤ s'.output.length := hend.resolve_right (by simp [turning_turns.unended hy])
          exact .inl (served_of_buffer (R := Passes limit) (f := fun output => { s' with output }) hn (.inl henough)
            (fun rest => ⟨ho, hp, .inr ⟨hsize, t, y, hs, hy, rfl⟩⟩) b host')
      · cases herr
  · -- a read for too many bytes is refused
    have hlimit : limit = none := Decidable.byContradiction fun h => hle (hm h)
    unfold CipherSource.read
    rw [checkRead, if_pos (Nat.lt_of_not_le hle)]
    exact .inr ⟨hlimit, ⟨_, rfl⟩, rfl, h⟩

/-- Over a source that owes `t`, a cipher that turns `t` into `x` owes `x`. -/
theorem owes_new {limit : Option Nat} {inner : σ} {c : κ} {t x : Bytes}
    (h : Owes (limit.map (max · (ByteCipher.blockSize c))) inner t) (hc : Turns c t x)
    (hl : ∀ l ∈ limit, l ≤ maxRequestLength) : Owes limit (CipherSource.new inner c) x := by
  have hsize : ∀ l ∈ limit.map (max · (ByteCipher.blockSize c)), ByteCipher.blockSize c ≤ l := by
    intro l hmem
    obtain ⟨m, -, rfl⟩ := Option.map_eq_some_iff.1 hmem
    exact Nat.le_max_right ..
  refine ⟨Passes (limit.map (max · (ByteCipher.blockSize c))), ⟨?_, ?_⟩, rfl, rfl, .inr ⟨hsize, t, x, h, hc, rfl⟩⟩
  · intro s x hs n hn hle b host
    have hreach : ∀ l ∈ limit.map (max · (ByteCipher.blockSize c)), n ≤ l := by
      intro l hmem
      obtain ⟨m, hm, rfl⟩ := Option.map_eq_some_iff.1 hmem
      exact Nat.le_trans (hle m hm) (Nat.le_max_left ..)
    have hm : limit.map (max · (ByteCipher.blockSize c)) ≠ none → n ≤ maxRequestLength := by
      intro hsome
      obtain ⟨m, hm⟩ := Option.ne_none_iff_exists'.1 (mt Option.map_eq_none_iff.2 hsome)
      exact Nat.le_trans (hle m hm) (hl m hm)
    rcases hs.read hn hreach hm b host with hserved | ⟨hlimit, hrest⟩
    · exact .inl hserved
    · exact .inr ⟨Option.map_eq_none_iff.1 hlimit, hrest⟩
  · intro s x hs hsome host
    obtain ⟨t, hs⟩ := hs.timely
    exact (lasting_owes _).check hs (by simpa using hsome) host

/-- A source that decrypts what another one serves, the encryption of `x`, serves `x`. -/
theorem serves_new {limit : Nat} {inner : σ} {c : BlockCipher} {iv x : Bytes} (hc : c.Decrypts)
    (h : Serves (max limit c.blockSize) inner (c.encryptPadded iv x)) (hl : limit ≤ maxRequestLength) :
    Serves limit (CipherSource.new inner (CbcDecryptor.new c iv)) x := by
  have hturns := CbcDecryptor.turns_new (BlockCipher.decryptPadded?_encryptPadded hc iv x)
  exact owes_some_iff.1 (owes_new (owes_some_iff.2 h) hturns (by simpa using hl))

end CipherSource

end Conduit
