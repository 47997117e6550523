import Conduit.Proofs.Base64.OnDemand
import Conduit.Proofs.Cipher.Chaining
import Conduit.Proofs.Cipher.Serving
import Conduit.Stack.Source

/-!
# The contract of sources

What `ByteSource.read` promises is little, and a layer that is put on a source has to promise it again.  `Obeys` says
all of it about one read: a read for no bytes does nothing, a read that succeeds gives at least one byte and at most as
many as were asked for behind what the buffer holds, or finds the end, a read that fails leaves the buffer alone, and
the end is final (`Silent`), although a channel may well have more to serve behind it.

A layer promises more than what it wraps.  It reads on until it has all that is asked for, so a read that gives less has
found the end, and after that it does not ask what it wraps again.  That needs nothing of the wrapped source; hence the
contract holds in every stack, in every state (`SourceOver.obeys_of_read`).  The end is the one of the wrapped source:
a layer is told of the end (`SourceOver.Told`) in no other way than by reading what it wraps until that reports it
(`Drained`).
-/

namespace Conduit

section

variable {σ : Type} [ByteSource σ]

/-- However often it is read, at most `bound` bytes at once, the source only tells at once that the stream has ended. -/
def Silent (bound : Nat) (s : σ) : Prop :=
  ∀ reads : List (Nat × Buffer × Host), ∀ r ∈ reads.zip (readMany reads s).1, 0 < r.1.1 → r.1.1 ≤ bound →
    r.2.result = .ok none ∧ r.2.buffer = r.1.2.1 ∧ r.2.host = r.1.2.2

/-- Reads of the source, each of which gives something until one finds the end, take it from here to there. -/
inductive Drained : σ → Host → σ → Prop
  | ended {s s' : σ} {n : Nat} {b b' : Buffer} {host host' : Host}
      (hread : ByteSource.read s n b host = ⟨.ok none, s', b', host'⟩) : Drained s host s'
  | given {s s₁ s' : σ} {n k : Nat} {b b' : Buffer} {host host₁ : Host}
      (hread : ByteSource.read s n b host = ⟨.ok (some k), s₁, b', host₁⟩) (hrest : Drained s₁ host₁ s') :
      Drained s host s'

/-- What a read of the source `s` for `n` bytes into `b` may leave behind.  If the source reads `whole`, it gives less
than what is asked for only at the end, and after it was told of the end. -/
structure Obeys (bound : Nat) (whole : Prop) (told : σ → Prop) (s : σ) (n : Nat) (b : Buffer) (host : Host)
    (o : ReadOutcome σ) : Prop where
  nothing : n = 0 → ∀ r, o.result = .ok r → o = ⟨.ok (some 0), s, b, host⟩
  ended : 0 < n → o.result = .ok none → o.buffer = b ∧ Silent bound o.source ∧ (whole → told o.source)
  given : 0 < n → ∀ k, o.result = .ok (some k) →
    (0 < k ∧ k ≤ n) ∧ (∃ piece, piece.length = k ∧ o.buffer.toList = b.toList ++ piece) ∧
      (whole → k < n → Silent bound o.source ∧ told o.source)
  failed : ∀ e, o.result = .error e → o.buffer = b

theorem Obeys.mono {bound : Nat} {whole whole' : Prop} (hw : whole' → whole) {told told' : σ → Prop}
    (ht : whole' → ∀ s, told s → told' s) {s : σ} {n : Nat} {b : Buffer} {host : Host} {o : ReadOutcome σ}
    (h : Obeys bound whole told s n b host o) : Obeys bound whole' told' s n b host o := by
  refine ⟨h.nothing, ?_, ?_, h.failed⟩
  · intro hn hnone
    obtain ⟨hb, hsilent, htold⟩ := h.ended hn hnone
    exact ⟨hb, hsilent, fun hwhole => ht hwhole _ (htold (hw hwhole))⟩
  · intro hn k hk
    obtain ⟨hle, hpiece, hend⟩ := h.given hn k hk
    exact ⟨hle, hpiece, fun hwhole hlt => (hend (hw hwhole) hlt).imp_right (ht hwhole _)⟩

/-- A source is silent if all its reads keep some property and those for at least one byte find the end. -/
theorem silent_of_kept {bound : Nat} {P : σ → Prop}
    (hkept : ∀ s n b host, P s → P (ByteSource.read s n b host).source)
    (hend : ∀ s n b host, P s → 0 < n → n ≤ bound → ByteSource.read s n b host =
      ⟨.ok none, (ByteSource.read s n b host).source, b, host⟩) {s : σ} (hs : P s) : Silent bound s := by
  intro reads
  induction reads generalizing s with
  | nil =>
    intro r hr
    exact (List.not_mem_nil hr).elim
  | cons r reads ih =>
    obtain ⟨n, b, host⟩ := r
    intro r hr hpos hle
    rcases List.mem_cons.1 hr with rfl | hr
    · have h := hend s n b host hs hpos hle
      show (ByteSource.read s n b host).result = _ ∧ (ByteSource.read s n b host).buffer = b ∧
        (ByteSource.read s n b host).host = host
      rw [h]
      exact ⟨rfl, rfl, rfl⟩
    · exact ih (hkept s n b host hs) r hr hpos hle

/-- A read that is refused, or that is for no bytes, obeys the contract because it leaves everything as it is. -/
theorem obeys_of_unchanged {bound : Nat} {whole : Prop} {told : σ → Prop} {s : σ} {n : Nat} (b : Buffer) (host : Host)
    {r : Except Error (Option Nat)} (h : (n = 0 ∧ r = .ok (some 0)) ∨ ∃ e, r = .error e) :
    Obeys bound whole told s n b host ⟨r, s, b, host⟩ := by
  constructor
  · intro hn r' hr
    rcases h with ⟨-, rfl⟩ | ⟨e, rfl⟩
    · rfl
    · cases hr
  · intro hn hr
    rcases h with ⟨rfl, -⟩ | ⟨e, rfl⟩
    · exact absurd hn (Nat.lt_irrefl 0)
    · cases hr
  · intro hn k hr
    rcases h with ⟨rfl, -⟩ | ⟨e, rfl⟩
    · exact absurd hn (Nat.lt_irrefl 0)
    · cases hr
  · intro e he
    rfl

/-- A read that fails obeys the contract if it leaves the buffer alone. -/
theorem obeys_of_error {bound : Nat} {whole : Prop} {told : σ → Prop} {s s' : σ} {n : Nat} (b : Buffer)
    (host host' : Host) (e : Error) : Obeys bound whole told s n b host ⟨.error e, s', b, host'⟩ := by
  constructor
  · intro hn r hr
    cases hr
  · intro hn hr
    cases hr
  · intro hn k hr
    cases hr
  · intro e' he
    rfl

/-- A read that has found the end obeys the contract if it leaves the buffer alone and the source silent. -/
theorem obeys_of_none {bound : Nat} {whole : Prop} {told : σ → Prop} {s s' : σ} {n : Nat} (hn : 0 < n)
    (hs : Silent bound s') (ht : whole → told s') (b : Buffer) (host host' : Host) :
    Obeys bound whole told s n b host ⟨.ok none, s', b, host'⟩ := by
  constructor
  · intro h0
    exact absurd h0 (Nat.ne_of_gt hn)
  · intro _ _
    exact ⟨rfl, hs, ht⟩
  · intro _ k hk
    cases hk
  · intro e he
    cases he

/-- A read that gives a piece obeys the contract if the piece is not empty and not too long and, where reads are whole,
a short one is the last. -/
theorem obeys_of_some {bound : Nat} {whole : Prop} {told : σ → Prop} {s s' : σ} {n : Nat} {b b' : Buffer}
    {piece : Bytes} (hpos : 0 < piece.length) (hle : piece.length ≤ n) (hb : b'.toList = b.toList ++ piece)
    (hend : whole → piece.length < n → Silent bound s' ∧ told s') (host host' : Host) :
    Obeys bound whole told s n b host ⟨.ok (some piece.length), s', b', host'⟩ := by
  constructor
  · intro h0
    omega
  · intro _ hr
    cases hr
  · intro _ k hk
    obtain rfl : piece.length = k := Option.some.inj (Except.ok.inj hk)
    exact ⟨⟨hpos, hle⟩, ⟨piece, rfl, hb⟩, hend⟩
  · intro e he
    cases he

/-- Giving from the front of what is there obeys the contract, if there is enough or what is left behind was told of the
end and is silent as soon as nothing is there any more. -/
theorem obeys_of_buffer {bound : Nat} {told : σ → Prop} {s : σ} {n : Nat} (hn : 0 < n) {out : Buffer} {f : Buffer → σ}
    (hend : n ≤ out.length ∨ ∀ rest : Buffer, rest.toList = [] → Silent bound (f rest) ∧ told (f rest)) (b : Buffer)
    (host host' : Host) :
    Obeys bound True told s n b host
      (if out.isEmpty then ⟨.ok none, f out, b, host'⟩
      else ⟨.ok (some (min n out.length)), f (out.moveTo (min n out.length) b).2, (out.moveTo (min n out.length) b).1,
        host'⟩) := by
  by_cases he : out.isEmpty
  · have hnil := Buffer.isEmpty_iff.1 he
    have hout : out.length = 0 := Buffer.length_eq_zero_iff.2 hnil
    rw [if_pos he]
    obtain ⟨hsilent, htold⟩ := hend.resolve_left (by omega) out hnil
    exact obeys_of_none hn hsilent (fun _ => htold) b host host'
  · have hout : out.length ≠ 0 := fun h0 => he (Buffer.isEmpty_iff.2 (Buffer.length_eq_zero_iff.1 h0))
    have hlen : (out.toList.take (min n out.length)).length = min n out.length := by
      rw [List.length_take, Buffer.length_toList]
      omega
    rw [if_neg he, ← hlen]
    apply obeys_of_some
    · omega
    · omega
    · rw [hlen]
      exact Buffer.toList_moveTo_fst ..
    · intro _ hlt
      have hall : (out.toList.take (min n out.length)).length = out.toList.length := by
        rw [Buffer.length_toList]
        omega
      refine hend.resolve_left (by omega) _ ?_
      rw [Buffer.toList_moveTo_snd, hall, List.drop_length]

end

/-! ### Ciphers -/

/-- Updates leave the stream of a cipher as open as it was, so that nothing but finalizing ends it. -/
def ByteCipher.EndsByFinalize (κ : Type) [ByteCipher κ] : Prop :=
  ∀ (c : κ) (x : Bytes), isFinalized (update c x).2 = isFinalized c

/-- The ciphers there are end by being finalized. -/
theorem AnyCipher.endsByFinalize : ByteCipher.EndsByFinalize AnyCipher := by
  intro c x
  cases c with
  | encryptor c => exact OneShotCipher.isFinalized_update c x
  | decryptor c => exact OneShotCipher.isFinalized_update c x
  | scripted c => rfl

/-! ### Layers -/

namespace Base64Source

variable {σ : Type} [ByteSource σ]

/-- A source that is closed or has failed answers every request at once, and any other one those that are too long or
for no bytes. -/
theorem read_unready {s : Base64Source σ} {n : Nat}
    (h : ¬ (s.closed = false ∧ s.malformed = false ∧ 0 < n ∧ n < maxRequestLength)) (b : Buffer) (host : Host) :
    ∃ r, s.read n b host = ⟨r, s, b, host⟩ ∧ ((n = 0 ∧ r = .ok (some 0)) ∨ ∃ e, r = .error e) := by
  unfold Base64Source.read
  by_cases hl : maxRequestLength ≤ n
  · exact ⟨_, if_pos hl, .inr ⟨_, rfl⟩⟩
  · by_cases ho : s.closed
    · exact ⟨.error .closed, by rw [if_neg hl, if_pos ho], .inr ⟨_, rfl⟩⟩
    · by_cases hm : s.malformed
      · exact ⟨_, by rw [if_neg hl, if_neg ho, if_pos hm], .inr ⟨_, rfl⟩⟩
      · have hn : n = 0 := by
          have ho : s.closed = false := by simpa using ho
          have hm : s.malformed = false := by simpa using hm
          have hpos : ¬ 0 < n := fun hpos => h ⟨ho, hm, hpos, Nat.not_le.1 hl⟩
          omega
        exact ⟨.ok (some 0), by rw [if_neg hl, if_neg ho, if_neg hm, if_pos hn], .inl ⟨hn, rfl⟩⟩

/-- A read does nothing at all, or fills the source and takes from what is decoded. -/
theorem read_or_fill (s : Base64Source σ) (n : Nat) (b : Buffer) (host : Host) :
    (∃ r, s.read n b host = ⟨r, s, b, host⟩) ∨ ∃ decoded,
      (s.read n b host).source = { (s.fill n host).endpoint with decoded } ∧
        (s.read n b host).host = (s.fill n host).host := by
  by_cases hready : s.closed = false ∧ s.malformed = false ∧ 0 < n ∧ n < maxRequestLength
  · obtain ⟨ho, hm, hn, hl⟩ := hready
    right
    rw [read_of_ready ho hm hn hl]
    rcases s.fill n host with ⟨_ | _, s', host'⟩
    · exact ⟨_, rfl, rfl⟩
    · simp only
      split
      · exact ⟨_, rfl, rfl⟩
      · exact ⟨_, rfl, rfl⟩
  · obtain ⟨r, hr, -⟩ := read_unready hready b host
    exact .inl ⟨r, hr⟩

/-- Filling ends with enough or with the end of the text, and neither closes the source nor marks it. -/
theorem fill_of_ok {s : Base64Source σ} {n : Nat} {host : Host} (h : (s.fill n host).result = .ok ()) :
    (n ≤ (s.fill n host).endpoint.decoded.length ∨ (s.fill n host).endpoint.exhausted = true) ∧
      (s.fill n host).endpoint.closed = s.closed ∧ (s.fill n host).endpoint.malformed = s.malformed := by
  fun_induction Base64Source.fill s n host with
  | case1 => cases h
  | case2 s host hlt inner encoded host' hr s' he => exact ⟨.inr rfl, rfl, rfl⟩
  | case3 => cases h
  | case4 => cases h
  | case5 s host hlt k inner encoded host' hr bytes rest hd ih => exact ih h
  | case6 s host hge =>
    refine ⟨?_, rfl, rfl⟩
    by_cases hlt : s.decoded.length < n
    · right
      simpa [hlt] using hge
    · exact .inl (Nat.le_of_not_lt hlt)

/-- The text has ended and all of it was given. -/
def Spent (s : Base64Source σ) : Prop :=
  s.closed = false ∧ s.malformed = false ∧ s.exhausted = true ∧ s.decoded.toList = []

theorem Spent.read {s : Base64Source σ} (h : s.Spent) {n : Nat} (hn : 0 < n) (hl : n < maxRequestLength) (b : Buffer)
    (host : Host) : s.read n b host = ⟨.ok none, s, b, host⟩ := by
  obtain ⟨ho, hm, hx, hd⟩ := h
  have hfill : s.fill n host = ⟨.ok (), s, host⟩ := by
    rw [fill, dif_neg (by simp [hx])]
  rw [read_of_ready ho hm hn hl, hfill]
  exact if_pos (Buffer.isEmpty_iff.2 hd)

theorem Spent.silent {s : Base64Source σ} (h : s.Spent) : Silent (maxRequestLength - 1) s := by
  have hpos : 0 < maxRequestLength := by decide
  refine silent_of_kept (P := Spent) ?_ ?_ h
  · intro s n b host hs
    show (s.read n b host).source.Spent
    by_cases hready : s.closed = false ∧ s.malformed = false ∧ 0 < n ∧ n < maxRequestLength
    · rw [hs.read hready.2.2.1 hready.2.2.2]
      exact hs
    · obtain ⟨r, hr, -⟩ := read_unready hready b host
      rw [hr]
      exact hs
  · intro s n b host hs hn hl
    show s.read n b host = ⟨.ok none, (s.read n b host).source, b, host⟩
    rw [hs.read hn (by omega)]

/-- A decoder obeys the contract, and gives less than what is asked for only at the end, whatever it reads from. -/
theorem obeys (s : Base64Source σ) (n : Nat) (b : Buffer) (host : Host) :
    Obeys (maxRequestLength - 1) True (fun s' => s'.exhausted = true) s n b host (s.read n b host) := by
  by_cases hready : s.closed = false ∧ s.malformed = false ∧ 0 < n ∧ n < maxRequestLength
  · obtain ⟨ho, hm, hn, hl⟩ := hready
    rw [read_of_ready ho hm hn hl]
    have hok (h : (s.fill n host).result = .ok ()) := fill_of_ok h
    rcases hf : s.fill n host with ⟨e | _, s', host'⟩
    · exact obeys_of_error b host host' e
    · rw [hf] at hok
      obtain ⟨hend, ho', hm'⟩ := hok rfl
      refine obeys_of_buffer (f := fun decoded => { s' with decoded }) hn ?_ b host host'
      refine hend.imp_right ?_
      intro hx rest hrest
      exact ⟨Spent.silent ⟨ho'.trans ho, hm'.trans hm, hx, hrest⟩, hx⟩
  · obtain ⟨r, hr, h⟩ := read_unready hready b host
    rw [hr]
    exact obeys_of_unchanged b host h

/-- A decoder takes its text to have ended when what it reads from has reported its end. -/
private theorem drained_of_fill {s : Base64Source σ} {n : Nat} {host : Host} (hs : s.exhausted = false)
    (h : (s.fill n host).endpoint.exhausted = true) : Drained s.inner host (s.fill n host).endpoint.inner := by
  fun_induction Base64Source.fill s n host with
  | case1 s => cases hs.symm.trans h
  | case2 s host hlt inner encoded host' hr s' he => exact .ended hr
  | case3 s host hlt inner encoded host' hr s' he => exact .ended hr
  | case4 s => cases hs.symm.trans h
  | case5 s host hlt k inner encoded host' hr bytes rest hd ih => exact .given hr (ih hs h)
  | case6 s => cases hs.symm.trans h

theorem drained_of_read {s : Base64Source σ} {n : Nat} {b : Buffer} {host : Host} (hs : s.exhausted = false)
    (h : (s.read n b host).source.exhausted = true) : Drained s.inner host (s.read n b host).source.inner := by
  rcases s.read_or_fill n b host with ⟨r, hr⟩ | ⟨decoded, hr, -⟩
  · rw [hr] at h
    cases hs.symm.trans h
  · rw [hr] at h ⊢
    exact drained_of_fill hs h

end Base64Source

namespace CipherSource

variable {κ σ : Type} [ByteCipher κ] [ByteSource σ]

@[inherit_doc Base64Source.read_unready]
theorem read_unready {s : CipherSource κ σ} {n : Nat}
    (h : ¬ (s.closed = false ∧ s.poisoned = false ∧ 0 < n ∧ n ≤ maxRequestLength)) (b : Buffer) (host : Host) :
    ∃ r, s.read n b host = ⟨r, s, b, host⟩ ∧ ((n = 0 ∧ r = .ok (some 0)) ∨ ∃ e, r = .error e) := by
  unfold CipherSource.read
  by_cases hl : n ≤ maxRequestLength
  · rw [checkRead_eq_ok_iff.2 hl]
    by_cases ho : s.closed
    · exact ⟨.error .closed, if_pos ho, .inr ⟨_, rfl⟩⟩
    · by_cases hp : s.poisoned
      · exact ⟨_, (if_neg ho).trans (if_pos hp), .inr ⟨_, rfl⟩⟩
      · have hn : n = 0 := by
          have ho : s.closed = false := by simpa using ho
          have hp : s.poisoned = false := by simpa using hp
          have hpos : ¬ 0 < n := fun hpos => h ⟨ho, hp, hpos, hl⟩
          omega
        exact ⟨.ok (some 0), (if_neg ho).trans ((if_neg hp).trans (if_pos hn)), .inl ⟨hn, rfl⟩⟩
  · rw [checkRead, if_pos (Nat.lt_of_not_le hl)]
    exact ⟨_, rfl, .inr ⟨_, rfl⟩⟩

/-- A read does nothing at all, or fills the source and takes from the output. -/
theorem read_or_fill (s : CipherSource κ σ) (n : Nat) (b : Buffer) (host : Host) :
    (∃ r, s.read n b host = ⟨r, s, b, host⟩) ∨ ∃ output,
      (s.read n b host).source = { (s.fill n host).endpoint with output } ∧
        (s.read n b host).host = (s.fill n host).host := by
  by_cases hready : s.closed = false ∧ s.poisoned = false ∧ 0 < n ∧ n ≤ maxRequestLength
  · obtain ⟨ho, hp, hn, hl⟩ := hready
    right
    rw [read_of_ready ho hp hn hl]
    rcases s.fill n host with ⟨_ | _, s', host'⟩
    · exact ⟨_, rfl, rfl⟩
    · simp only
      split
      · exact ⟨_, rfl, rfl⟩
      · exact ⟨_, rfl, rfl⟩
  · obtain ⟨r, hr, -⟩ := read_unready hready b host
    exact .inl ⟨r, hr⟩

private theorem finalize_of_ok {s : CipherSource κ σ} {host : Host} (h : (s.finalize host).result = .ok ()) :
    ByteCipher.isFinalized (s.finalize host).endpoint.cipher = true ∧ (s.finalize host).endpoint.closed = s.closed ∧
      (s.finalize host).endpoint.poisoned = s.poisoned := by
  unfold finalize at h ⊢
  split at h
  · cases h
  · split at h
    · cases h
    · rename_i hfin
      exact ⟨ByteCipher.isFinalized_finalize hfin, rfl, rfl⟩

/-- Filling ends with enough or with the end of the stream of the cipher, and neither closes the source nor marks it. -/
theorem fill_of_ok {s : CipherSource κ σ} {n : Nat} {host : Host} (h : (s.fill n host).result = .ok ()) :
    (n ≤ (s.fill n host).endpoint.output.length ∨ ByteCipher.isFinalized (s.fill n host).endpoint.cipher = true) ∧
      (s.fill n host).endpoint.closed = s.closed ∧ (s.fill n host).endpoint.poisoned = s.poisoned := by
  fun_induction CipherSource.fill s n host with
  | case1 => cases h
  | case2 s host hlt inner b host' hr =>
    obtain ⟨hfin, ho, hp⟩ := finalize_of_ok h
    exact ⟨.inr hfin, ho, hp⟩
  | case3 => cases h
  | case4 s host hlt k inner input host' hr out cipher hu ih => exact ih h
  | case5 s host hge =>
    refine ⟨?_, rfl, rfl⟩
    by_cases hlt : s.output.length < n
    · right
      simpa [hlt] using hge
    · exact .inl (Nat.le_of_not_lt hlt)

/-- The stream of the cipher has ended and all of it was given. -/
def Spent (s : CipherSource κ σ) : Prop :=
  s.closed = false ∧ s.poisoned = false ∧ ByteCipher.isFinalized s.cipher = true ∧ s.output.toList = []

theorem Spent.read {s : CipherSource κ σ} (h : s.Spent) {n : Nat} (hn : 0 < n) (hl : n ≤ maxRequestLength) (b : Buffer)
    (host : Host) : s.read n b host = ⟨.ok none, s, b, host⟩ := by
  obtain ⟨ho, hp, hx, hd⟩ := h
  have hfill : s.fill n host = ⟨.ok (), s, host⟩ := by
    rw [fill, dif_neg (by simp [hx])]
  rw [read_of_ready ho hp hn hl, hfill]
  exact if_pos (Buffer.isEmpty_iff.2 hd)

theorem Spent.silent {s : CipherSource κ σ} (h : s.Spent) : Silent maxRequestLength s := by
  refine silent_of_kept (P := Spent) ?_ ?_ h
  · intro s n b host hs
    show (s.read n b host).source.Spent
    by_cases hready : s.closed = false ∧ s.poisoned = false ∧ 0 < n ∧ n ≤ maxRequestLength
    · rw [hs.read hready.2.2.1 hready.2.2.2]
      exact hs
    · obtain ⟨r, hr, -⟩ := read_unready hready b host
      rw [hr]
      exact hs
  · intro s n b host hs hn hl
    show s.read n b host = ⟨.ok none, (s.read n b host).source, b, host⟩
    rw [hs.read hn hl]

/-- A source that reads through a cipher obeys the contract, and gives less than what is asked for only at the end,
whatever it reads from. -/
theorem obeys (s : CipherSource κ σ) (n : Nat) (b : Buffer) (host : Host) :
    Obeys maxRequestLength True (fun s' => ByteCipher.isFinalized s'.cipher = true) s n b host (s.read n b host) := by
  by_cases hready : s.closed = false ∧ s.poisoned = false ∧ 0 < n ∧ n ≤ maxRequestLength
  · obtain ⟨ho, hp, hn, hl⟩ := hready
    rw [read_of_ready ho hp hn hl]
    have hok (h : (s.fill n host).result = .ok ()) := fill_of_ok h
    rcases hf : s.fill n host with ⟨e | _, s', host'⟩
    · exact obeys_of_error b host host' e
    · rw [hf] at hok
      obtain ⟨hend, ho', hp'⟩ := hok rfl
      refine obeys_of_buffer (f := fun output => { s' with output }) hn ?_ b host host'
      refine hend.imp_right ?_
      intro hx rest hrest
      exact ⟨Spent.silent ⟨ho'.trans ho, hp'.trans hp, hx, hrest⟩, hx⟩
  · obtain ⟨r, hr, h⟩ := read_unready hready b host
    rw [hr]
    exact obeys_of_unchanged b host h

/-- A cipher is finalized when what the source reads from has reported its end. -/
private theorem drained_of_fill (hκ : ByteCipher.EndsByFinalize κ) {s : CipherSource κ σ} {n : Nat} {host : Host}
    (hs : ByteCipher.isFinalized s.cipher = false)
    (h : ByteCipher.isFinalized (s.fill n host).endpoint.cipher = true) :
    Drained s.inner host (s.fill n host).endpoint.inner := by
  fun_induction CipherSource.fill s n host with
  | case1 s => cases hs.symm.trans h
  | case2 s host hlt inner b host' hr =>
    rw [inner_finalize]
    exact .ended hr
  | case3 s host hlt k inner input host' hr e cipher hu =>
    have hcipher := hκ s.cipher input.toList
    rw [hu] at hcipher
    cases (hcipher.trans hs).symm.trans h
  | case4 s host hlt k inner input host' hr out cipher hu ih =>
    have hcipher := hκ s.cipher input.toList
    rw [hu] at hcipher
    exact .given hr (ih (hcipher.trans hs) h)
  | case5 s => cases hs.symm.trans h

theorem drained_of_read (hκ : ByteCipher.EndsByFinalize κ) {s : CipherSource κ σ} {n : Nat} {b : Buffer} {host : Host}
    (hs : ByteCipher.isFinalized s.cipher = false)
    (h : ByteCipher.isFinalized (s.read n b host).source.cipher = true) :
    Drained s.inner host (s.read n b host).source.inner := by
  rcases s.read_or_fill n b host with ⟨r, hr⟩ | ⟨output, hr, -⟩
  · rw [hr] at h
    cases hs.symm.trans h
  · rw [hr] at h ⊢
    exact drained_of_fill hκ hs h

end CipherSource

/-! ### Innermost sources -/

namespace ChannelSource

/-- The channel has served no bytes once. -/
private theorem silent_of_ended {s : ChannelSource} (ho : s.closed = false) (he : s.ended = true) :
    Silent maxRequestLength s := by
  have hread (s : ChannelSource) (ho : s.closed = false) (he : s.ended = true) (n : Nat) (b : Buffer) (host : Host) :
      ∃ r, s.read n b host = ⟨r, s, b, host⟩ ∧ (0 < n → n ≤ maxRequestLength → r = .ok none) := by
    unfold ChannelSource.read
    by_cases hl : n ≤ maxRequestLength
    · rw [checkRead_eq_ok_iff.2 hl]
      by_cases hn : n = 0
      · exact ⟨.ok (some 0), by simp [ho, hn], fun hpos => absurd hn (Nat.ne_of_gt hpos)⟩
      · exact ⟨.ok none, by simp [ho, hn, he], fun _ _ => rfl⟩
    · rw [checkRead, if_pos (Nat.lt_of_not_le hl)]
      exact ⟨_, rfl, fun _ hle => absurd hle hl⟩
  refine silent_of_kept (P := fun s : ChannelSource => s.closed = false ∧ s.ended = true) ?_ ?_ ⟨ho, he⟩
  · rintro s n b host ⟨ho, he⟩
    obtain ⟨r, hr, -⟩ := hread s ho he n b host
    show (s.read n b host).source.closed = false ∧ (s.read n b host).source.ended = true
    rw [hr]
    exact ⟨ho, he⟩
  · rintro s n b host ⟨ho, he⟩ hn hl
    obtain ⟨r, hr, hend⟩ := hread s ho he n b host
    show s.read n b host = ⟨.ok none, (s.read n b host).source, b, host⟩
    rw [hr, hend hn hl]

private theorem obeys_poll {s t : ChannelSource} (ho : s.closed = false) {deadline : Deadline} {n : Nat} (hn : 0 < n)
    (b : Buffer) (host host' : Host) :
    Obeys maxRequestLength False (fun _ => False) t n b host' (s.poll deadline n b host) := by
  fun_induction ChannelSource.poll s deadline n b host with
  | case1 s host e host'' hc => exact obeys_of_error b host' host'' e
  | case2 s host host'' hc channel host''' hr =>
    exact obeys_of_none hn (silent_of_ended (s := { s with channel, ended := true }) ho rfl) False.elim b host' host'''
  | case3 s host host'' hc data channel host''' hr hd =>
    have hlen := (Channel.length_read hr).1
    rw [Buffer.size_window] at hlen
    refine obeys_of_some (List.length_pos_iff.2 hd) (by omega) ?_ False.elim host' host'''
    rw [Buffer.toList_fill, List.take_of_length_le hlen]
  | case4 s host host'' hc e channel host''' hr hi ih => exact ih ho
  | case5 s host host'' hc e channel host''' hr hi => exact obeys_of_error b host' host''' _

/-- A channel source obeys the contract; that it reads the channel no more after the end is why. -/
theorem obeys (s : ChannelSource) (n : Nat) (b : Buffer) (host : Host) :
    Obeys maxRequestLength False (fun _ => False) s n b host (s.read n b host) := by
  unfold ChannelSource.read
  split
  · exact obeys_of_unchanged b host (.inr ⟨_, rfl⟩)
  · split
    · exact obeys_of_unchanged b host (.inr ⟨_, rfl⟩)
    · rename_i ho
      have ho : s.closed = false := by simpa using ho
      split
      · rename_i hn
        exact obeys_of_unchanged b host (.inl ⟨hn, rfl⟩)
      · rename_i hn
        split
        · rename_i he
          exact obeys_of_none (Nat.pos_of_ne_zero hn) (silent_of_ended ho he) False.elim b host host
        · exact obeys_poll ho (Nat.pos_of_ne_zero hn) b _ host

/-- A channel that has served no bytes once is not asked again, although it has more. -/
example : (readMany [(2, .empty, .start), (2, .empty, .start)]
    (ofChannel (.ofScript [⟨.zero, .ok []⟩, ⟨.zero, .ok [1]⟩] [] []) .none)).1.map (fun o => o.result.toOption) =
      [some none, some none] := by decide +kernel

end ChannelSource

namespace MemorySource

private theorem silent_of_empty {s : MemorySource} (ho : s.closed = false) (he : s.contents.isEmpty) :
    Silent maxRequestLength s := by
  have hread (s : MemorySource) (ho : s.closed = false) (he : s.contents.isEmpty) (n : Nat) (b : Buffer) (host : Host) :
      ∃ r reads, s.read n b host = ⟨r, { s with reads }, b, host⟩ ∧ (0 < n → n ≤ maxRequestLength → r = .ok none) := by
    unfold MemorySource.read
    by_cases hl : n ≤ maxRequestLength
    · rw [checkRead_eq_ok_iff.2 hl]
      by_cases hn : n = 0
      · exact ⟨.ok (some 0), s.reads, by rw [if_neg (by simp [ho]), if_pos hn], fun hpos => absurd hn (Nat.ne_of_gt hpos)⟩
      · exact ⟨.ok none, s.reads + 1, by simp [ho, hn, he], fun _ _ => rfl⟩
    · rw [checkRead, if_pos (Nat.lt_of_not_le hl)]
      exact ⟨_, s.reads, rfl, fun _ hle => absurd hle hl⟩
  refine silent_of_kept (P := fun s : MemorySource => s.closed = false ∧ s.contents.isEmpty) ?_ ?_ ⟨ho, he⟩
  · rintro s n b host ⟨ho, he⟩
    obtain ⟨r, reads, hr, -⟩ := hread s ho he n b host
    show (s.read n b host).source.closed = false ∧ (s.read n b host).source.contents.isEmpty
    rw [hr]
    exact ⟨ho, he⟩
  · rintro s n b host ⟨ho, he⟩ hn hl
    obtain ⟨r, reads, hr, hend⟩ := hread s ho he n b host
    show s.read n b host = ⟨.ok none, (s.read n b host).source, b, host⟩
    rw [hr, hend hn hl]

/-- A source in memory obeys the contract. -/
theorem obeys (s : MemorySource) (n : Nat) (b : Buffer) (host : Host) :
    Obeys maxRequestLength False (fun _ => False) s n b host (s.read n b host) := by
  unfold MemorySource.read
  split
  · exact obeys_of_unchanged b host (.inr ⟨_, rfl⟩)
  · split
    · exact obeys_of_unchanged b host (.inr ⟨_, rfl⟩)
    · rename_i ho
      have ho : s.closed = false := by simpa using ho
      split
      · rename_i hn
        exact obeys_of_unchanged b host (.inl ⟨hn, rfl⟩)
      · rename_i hn
        split
        · rename_i he
          have hs := silent_of_empty (s := { s with reads := s.reads + 1 }) ho he
          exact obeys_of_none (Nat.pos_of_ne_zero hn) hs False.elim b host host
        · rename_i he
          have hpos : 0 < s.contents.length := by
            have := mt (fun h => Buffer.isEmpty_iff.2 (Buffer.length_eq_zero_iff.1 h)) he
            omega
          have hshare := share_pos (Nat.pos_of_ne_zero hn) hpos
          have hlen : (s.contents.toList.take (s.share n)).length = s.share n := by
            rw [List.length_take, Buffer.length_toList]
            exact Nat.min_eq_left (s.share_le n).2
          have hle := (s.share_le n).1
          have hb := Buffer.toList_moveTo_fst s.contents (s.share n) b
          have h : Obeys maxRequestLength False (fun _ => False) s n b host
              ⟨.ok (some (s.contents.toList.take (s.share n)).length),
                { s with contents := (s.contents.moveTo (s.share n) b).2, reads := s.reads + 1 },
                (s.contents.moveTo (s.share n) b).1, host⟩ :=
            obeys_of_some (by omega) (by omega) hb False.elim host host
          rwa [hlen] at h

end MemorySource

/-! ### Stacks -/

namespace SourceOver

variable {κ : Type} [ByteCipher κ]

/-- The longest request that the outermost layer of a stack admits. -/
def longest : List Layer → Nat
  | .base64 :: _ => maxRequestLength - 1
  | _ => maxRequestLength

/-- The outermost layer was told of the end of what it wraps; a source without layers wraps nothing. -/
def Told {ℓ : Type} : (layers : List Layer) → SourceOver κ ℓ layers → Prop
  | [], _ => True
  | .base64 :: _, s => Base64Source.exhausted s = true
  | .cipher :: _, s => ByteCipher.isFinalized (CipherSource.cipher s) = true

/-- What the outermost layer wraps. -/
def inner {ℓ : Type} {layers : List Layer} : (layer : Layer) → SourceOver κ ℓ (layer :: layers) → SourceOver κ ℓ layers
  | .base64, s => Base64Source.inner s
  | .cipher, s => CipherSource.inner s

private theorem obeys_of_layer {ℓ : Type} [ByteSource ℓ] {layers : List Layer} (hne : layers ≠ [])
    (s : SourceOver κ ℓ layers) (n : Nat) (b : Buffer) (host : Host) :
    Obeys (longest layers) True (Told layers) s n b host (ByteSource.read s n b host) := by
  cases layers with
  | nil => exact absurd rfl hne
  | cons layer layers =>
    cases layer with
    | base64 => exact Base64Source.obeys (σ := SourceOver κ ℓ layers) s n b host
    | cipher => exact CipherSource.obeys (κ := κ) (σ := SourceOver κ ℓ layers) s n b host

private theorem drained_of_read {ℓ : Type} [ByteSource ℓ] {layer : Layer} {layers : List Layer}
    (hκ : layer = .cipher → ByteCipher.EndsByFinalize κ) {s : SourceOver κ ℓ (layer :: layers)}
    (hs : ¬ Told (layer :: layers) s) {n : Nat} {b : Buffer} {host : Host}
    (h : Told (layer :: layers) (ByteSource.read s n b host).source) :
    Drained (inner layer s) host (inner layer (ByteSource.read s n b host).source) := by
  cases layer with
  | base64 => exact Base64Source.drained_of_read (σ := SourceOver κ ℓ layers) (eq_false_of_ne_true hs) h
  | cipher =>
    exact CipherSource.drained_of_read (κ := κ) (σ := SourceOver κ ℓ layers) (hκ rfl) (eq_false_of_ne_true hs) h

/-- A layer that is told of the end in a run of reads is told in one of them, in which what it wraps reports the end. -/
private theorem drained_of_readMany {ℓ : Type} [ByteSource ℓ] {layer : Layer} {layers : List Layer}
    (hκ : layer = .cipher → ByteCipher.EndsByFinalize κ) {s : SourceOver κ ℓ (layer :: layers)}
    {reads : List (Nat × Buffer × Host)} (hs : ¬ Told (layer :: layers) s)
    (h : Told (layer :: layers) (readMany reads s).2) :
    ∃ before r after, reads = before ++ r :: after ∧
      Drained (inner layer (readMany before s).2) r.2.2 (inner layer (readMany (before ++ [r]) s).2) := by
  induction reads generalizing s with
  | nil => exact absurd h hs
  | cons r reads ih =>
    obtain ⟨n, b, host⟩ := r
    by_cases hread : Told (layer :: layers) (ByteSource.read s n b host).source
    · exact ⟨[], (n, b, host), reads, rfl, drained_of_read hκ hs hread⟩
    · obtain ⟨before, r, after, rfl, hdrained⟩ := ih hread h
      exact ⟨(n, b, host) :: before, r, after, rfl, hdrained⟩

/-- Every read of every stack over a channel or over memory obeys the contract, whatever state the stack is in, and if
there is a layer it gives less than what is asked for only at the end of the stream, after the outermost layer was told
of it.  Over any run of reads a layer is told of the end only by what it wraps, whose reads give something until one
reports it, provided that its cipher ends by being finalized, as the ciphers there are do. -/
theorem obeys_of_read (layers : List Layer) :
    (∀ (s : SourceOver κ ChannelSource layers) (n : Nat) (b : Buffer) (host : Host),
      Obeys (longest layers) (layers ≠ []) (Told layers) s n b host (ByteSource.read s n b host)) ∧
    (∀ (s : SourceOver κ MemorySource layers) (n : Nat) (b : Buffer) (host : Host),
      Obeys (longest layers) (layers ≠ []) (Told layers) s n b host (ByteSource.read s n b host)) ∧
    (∀ (ℓ : Type) [ByteSource ℓ] (layer : Layer), (layer = .cipher → ByteCipher.EndsByFinalize κ) →
      ∀ (s : SourceOver κ ℓ (layer :: layers)) (reads : List (Nat × Buffer × Host)), ¬ Told (layer :: layers) s →
      Told (layer :: layers) (readMany reads s).2 →
      ∃ before r after, reads = before ++ r :: after ∧
        Drained (inner layer (readMany before s).2) r.2.2 (inner layer (readMany (before ++ [r]) s).2)) := by
  refine ⟨?_, ?_, fun ℓ _ layer hκ s reads hs h => drained_of_readMany hκ hs h⟩
  · intro s n b host
    by_cases hne : layers = []
    · subst hne
      exact (ChannelSource.obeys s n b host).mono (by simp) (by simp)
    · exact (obeys_of_layer hne s n b host).mono (fun _ => trivial) (fun _ _ => id)
  · intro s n b host
    by_cases hne : layers = []
    · subst hne
      exact (MemorySource.obeys s n b host).mono (by simp) (by simp)
    · exact (obeys_of_layer hne s n b host).mono (fun _ => trivial) (fun _ _ => id)

end SourceOver

end Conduit
