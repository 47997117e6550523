import Conduit.Proofs.Resuming

/-!
# Requests that are refused

Every layer of a stack of sources asks the one below it for as much as it may need, and every layer refuses requests
that are too long.  `Passable` says that no layer is asked for more than it admits when so many bytes are read; then no
read of so many bytes is refused, whatever was read before (`SourceOver.admits_of_passable`).  What the layers ask for
never overflows and never exceeds the limit on requests.  But a decoder of text admits only requests below the limit,
and one above it may ask for just as much: such a read is refused although the outermost layer admits it
(`SourceOver.refused_of_not_passable`).
-/

namespace Conduit

/-- The error says that the request cannot be served. -/
def Error.IsRefusal : Error → Prop
  | .invalidArgument _ => True
  | _ => False

/-- The call was refused because of its arguments. -/
def Refused {α : Type} : Except Error α → Prop
  | .error e => e.IsRefusal
  | .ok _ => False

/-! ### Sources and ciphers that do not refuse -/

section

variable {σ κ : Type} [ByteSource σ] [ByteCipher κ]

/-- Reads lead from such sources to such sources, and those of at most `limit` bytes are not refused. -/
structure Admitting (limit : Nat) (P : σ → Prop) : Prop where
  admitted {s : σ} (h : P s) {n : Nat} (hn : n ≤ limit) (b : Buffer) (host : Host) :
    ¬ Refused (ByteSource.read s n b host).result
  kept {s : σ} (h : P s) (n : Nat) (b : Buffer) (host : Host) : P (ByteSource.read s n b host).source

/-- No read of at most `limit` bytes is going to be refused, whatever is read before it. -/
def Admits (limit : Nat) (s : σ) : Prop := ∃ P : σ → Prop, Admitting limit P ∧ P s

theorem admitting_admits (limit : Nat) : Admitting limit (Admits limit : σ → Prop) where
  admitted := by
    rintro s ⟨P, hP, hs⟩ n hn b host
    exact hP.admitted hs hn b host
  kept := by
    rintro s ⟨P, hP, hs⟩ n b host
    exact ⟨P, hP, hP.kept hs n b host⟩

theorem Admits.mono {s : σ} {limit limit' : Nat} (hl : limit' ≤ limit) (h : Admits limit s) : Admits limit' s := by
  obtain ⟨P, hP, hs⟩ := h
  exact ⟨P, ⟨fun h _ hn => hP.admitted h (Nat.le_trans hn hl), hP.kept⟩, hs⟩

/-- The steps of a cipher are not refused and do not change what it asks for. -/
structure Steady (size : Nat) (P : κ → Prop) : Prop where
  blockSize {c : κ} (h : P c) : ByteCipher.blockSize c = size
  update {c : κ} (h : P c) (x : Bytes) : ¬ Refused (ByteCipher.update c x).1 ∧ P (ByteCipher.update c x).2
  finalize {c : κ} (h : P c) : ¬ Refused (ByteCipher.finalize c).1 ∧ P (ByteCipher.finalize c).2

/-- The cipher is never going to refuse anything, and always asks for the same number of bytes. -/
def KeepsSteady (c : κ) : Prop := ∃ P : κ → Prop, Steady (ByteCipher.blockSize c) P ∧ P c

end

theorem CbcEncryptor.keepsSteady (c : CbcEncryptor) : KeepsSteady c := by
  refine ⟨fun c' => c'.cipher = c.cipher, ⟨?_, ?_, ?_⟩, rfl⟩
  · intro c' h
    exact congrArg BlockCipher.blockSize h
  · intro c' h x
    show ¬ Refused (c'.update x).1 ∧ (c'.update x).2.cipher = c.cipher
    unfold CbcEncryptor.update
    split
    · exact ⟨id, h⟩
    · exact ⟨id, h⟩
  · intro c' h
    show ¬ Refused c'.finalize.1 ∧ c'.finalize.2.cipher = c.cipher
    unfold CbcEncryptor.finalize
    split
    · exact ⟨id, h⟩
    · exact ⟨id, h⟩

theorem CbcDecryptor.keepsSteady (c : CbcDecryptor) : KeepsSteady c := by
  refine ⟨fun c' => c'.cipher = c.cipher, ⟨?_, ?_, ?_⟩, rfl⟩
  · intro c' h
    exact congrArg BlockCipher.blockSize h
  · intro c' h x
    show ¬ Refused (c'.update x).1 ∧ (c'.update x).2.cipher = c.cipher
    unfold CbcDecryptor.update
    split
    · exact ⟨id, h⟩
    · exact ⟨id, h⟩
  · intro c' h
    show ¬ Refused c'.finalize.1 ∧ c'.finalize.2.cipher = c.cipher
    unfold CbcDecryptor.finalize
    split
    · exact ⟨id, h⟩
    · split
      · exact ⟨id, h⟩
      · simp only
        split
        · exact ⟨id, h⟩
        · exact ⟨id, h⟩

/-- A cipher that does the same as one that does not refuse anything does not refuse anything. -/
theorem KeepsSteady.map {κ κ' : Type} [ByteCipher κ] [ByteCipher κ'] {f : κ → κ'} (hf : CipherHom f) {c : κ}
    (h : KeepsSteady c) : KeepsSteady (f c) := by
  obtain ⟨P, hP, hc⟩ := h
  rw [KeepsSteady, hf.blockSize]
  refine ⟨fun c' => ∃ c, P c ∧ c' = f c, ⟨?_, ?_, ?_⟩, c, hc, rfl⟩
  · rintro _ ⟨c', h, rfl⟩
    rw [hf.blockSize, hP.blockSize h]
  · rintro _ ⟨c', h, rfl⟩ x
    rw [hf.update]
    exact ⟨(hP.update h x).1, _, (hP.update h x).2, rfl⟩
  · rintro _ ⟨c', h, rfl⟩
    rw [hf.finalize]
    exact ⟨(hP.finalize h).1, _, (hP.finalize h).2, rfl⟩

/-! ### Innermost sources -/

theorem not_isRefusal_of_check {deadline : Deadline} {host host' : Host} {e : Error}
    (h : deadline.check host = (.error e, host')) : ¬ e.IsRefusal := by
  obtain ⟨elapsed, rfl, -⟩ := Deadline.check_error h
  exact id

theorem MemorySource.admits (s : MemorySource) : Admits maxRequestLength s := by
  refine ⟨fun _ => True, ⟨?_, fun _ _ _ _ => trivial⟩, trivial⟩
  intro s _ n hn b host
  show ¬ Refused (s.read n b host).result
  unfold MemorySource.read
  rw [checkRead_eq_ok_iff.2 hn]
  simp only
  split
  · exact id
  · split
    · exact id
    · split
      · exact id
      · exact id

theorem ChannelSource.admits (s : ChannelSource) : Admits maxRequestLength s := by
  have hpoll (s : ChannelSource) (deadline : Deadline) (n : Nat) (b : Buffer) (host : Host) :
      ¬ Refused (s.poll deadline n b host).result := by
    fun_induction ChannelSource.poll s deadline n b host with
    | case1 s host e host' hc => exact not_isRefusal_of_check hc
    | case2 => exact id
    | case3 => exact id
    | case4 => assumption
    | case5 => exact id
  refine ⟨fun _ => True, ⟨?_, fun _ _ _ _ => trivial⟩, trivial⟩
  intro s _ n hn b host
  show ¬ Refused (s.read n b host).result
  unfold ChannelSource.read
  rw [checkRead_eq_ok_iff.2 hn]
  simp only
  split
  · exact id
  · split
    · exact id
    · split
      · exact id
      · exact hpoll _ _ _ _ _

theorem FileSource.admits (s : FileSource) : Admits maxRequestLength s := by
  have hpoll (s : FileSource) (deadline : Deadline) (n : Nat) (b : Buffer) (host : Host) :
      ¬ Refused (s.poll deadline n b host).result := by
    fun_induction FileSource.poll s deadline n b host with
    | case1 => exact id
    | case2 => exact id
    | case3 host e disk hr hi e' host' hc => exact not_isRefusal_of_check hc
    | case4 => assumption
    | case5 => exact id
  refine ⟨fun _ => True, ⟨?_, fun _ _ _ _ => trivial⟩, trivial⟩
  intro s _ n hn b host
  show ¬ Refused (s.read n b host).result
  unfold FileSource.read
  rw [checkRead_eq_ok_iff.2 hn]
  simp only
  split
  · exact id
  · split
    · exact id
    · split
      · rename_i hc
        exact not_isRefusal_of_check hc
      · rename_i host₁ _
        obtain ⟨disk, -, ⟨kind, -, -, hserve⟩ | ⟨-, -, hserve⟩ | ⟨-, hserve⟩⟩ :=
          s.serve_cases (s.timeout.start host).1 n b host₁
        · rw [hserve]
          exact id
        · rw [hserve]
          exact id
        · rw [hserve]
          exact hpoll _ _ _ _ _

/-! ### Layers -/

namespace Base64Source

variable {σ : Type} [ByteSource σ] {limit limit' : Nat}

theorem request_le_request {m n : Nat} (h : m ≤ n) : request m ≤ request n := by
  have : (m + Base64.groupSize - 1) / Base64.groupSize ≤ (n + Base64.groupSize - 1) / Base64.groupSize :=
    Nat.div_le_div_right (by omega)
  simp only [request, Base64.quantumSize]
  omega

private theorem fill_admits {s : Base64Source σ} (h : Admits limit' s.inner) (n : Nat) (host : Host) :
    (request n ≤ limit' → ¬ Refused (s.fill n host).result) ∧ Admits limit' (s.fill n host).endpoint.inner := by
  have hread (s : Base64Source σ) (host : Host) (h : Admits limit' s.inner) (hn : request n ≤ limit') :=
    have hle := Nat.le_trans (request_le_request (Nat.sub_le n s.decoded.length)) hn
    (admitting_admits limit').admitted h hle s.encoded host
  have hkept (s : Base64Source σ) (host : Host) (h : Admits limit' s.inner) :=
    (admitting_admits limit').kept h (request (n - s.decoded.length)) s.encoded host
  fun_induction Base64Source.fill s n host with
  | case1 s host hlt e inner encoded host' hr =>
    have hp := hread s host h
    have hk := hkept s host h
    rw [hr] at hp hk
    exact ⟨hp, hk⟩
  | case2 s host hlt inner encoded host' hr s' he =>
    have hk := hkept s host h
    rw [hr] at hk
    exact ⟨fun _ => id, hk⟩
  | case3 s host hlt inner encoded host' hr s' he =>
    have hk := hkept s host h
    rw [hr] at hk
    exact ⟨fun _ => id, hk⟩
  | case4 s host hlt k inner encoded host' hr e rest hd =>
    have hk := hkept s host h
    rw [hr] at hk
    exact ⟨fun _ => id, hk⟩
  | case5 s host hlt k inner encoded host' hr bytes rest hd ih =>
    have hk := hkept s host h
    rw [hr] at hk
    exact ih hk
  | case6 s host hge => exact ⟨fun _ => id, h⟩

/-- A read fills the source up, or answers at once and leaves everything as it is. -/
private theorem read_cases (s : Base64Source σ) (n : Nat) (b : Buffer) (host : Host) :
    (s.closed = false ∧ s.malformed = false ∧ 0 < n ∧ n < maxRequestLength) ∨
      ∃ r, s.read n b host = ⟨r, s, b, host⟩ ∧ (n < maxRequestLength → ¬ Refused r) := by
  unfold Base64Source.read
  by_cases hl : maxRequestLength ≤ n
  · exact .inr ⟨_, if_pos hl, fun hlt => absurd hl (Nat.not_le.2 hlt)⟩
  · by_cases ho : s.closed
    · exact .inr ⟨.error .closed, by rw [if_neg hl, if_pos ho], fun _ => id⟩
    · by_cases hm : s.malformed
      · exact .inr ⟨_, by rw [if_neg hl, if_neg ho, if_pos hm], fun _ => id⟩
      · by_cases hn : n = 0
        · exact .inr ⟨.ok (some 0), by rw [if_neg hl, if_neg ho, if_neg hm, if_pos hn], fun _ => id⟩
        · exact .inl ⟨by simpa using ho, by simpa using hm, Nat.pos_of_ne_zero hn, Nat.not_le.1 hl⟩

/-- A decoder admits requests below the limit for which it does not ask for more than what it decodes admits. -/
theorem admits {s : Base64Source σ} (h : Admits limit' s.inner) (hl : limit < maxRequestLength)
    (hr : request limit ≤ limit') : Admits limit s := by
  have hread (s : Base64Source σ) (h : Admits limit' s.inner) (n : Nat) (b : Buffer) (host : Host) :
      (n ≤ limit → ¬ Refused (s.read n b host).result) ∧ Admits limit' (s.read n b host).source.inner := by
    rcases read_cases s n b host with ⟨ho, hm, hn, hlt⟩ | ⟨r, hread, hnot⟩
    · obtain ⟨hfill, hkept⟩ := fill_admits h n host
      rw [read_of_ready ho hm hn hlt]
      rcases hf : s.fill n host with ⟨e | _, s', host'⟩
      · rw [hf] at hfill hkept
        exact ⟨fun hle => hfill (Nat.le_trans (request_le_request hle) hr), hkept⟩
      · rw [hf] at hkept
        simp only
        split
        · exact ⟨fun _ => id, hkept⟩
        · exact ⟨fun _ => id, hkept⟩
    · rw [hread]
      exact ⟨fun hle => hnot (Nat.lt_of_le_of_lt hle hl), h⟩
  exact ⟨fun s => Admits limit' s.inner, ⟨fun h n hn b host => (hread _ h n b host).1 hn,
    fun h n b host => (hread _ h n b host).2⟩, h⟩

/-- If the first read fails, so does the whole one. -/
theorem read_of_error {s : Base64Source σ} (ho : s.closed = false) (hm : s.malformed = false) {n : Nat} (hn : 0 < n)
    (hl : n < maxRequestLength) (hlt : s.decoded.length < n ∧ s.exhausted = false) {host : Host} {e : Error}
    (h : (ByteSource.read s.inner (request (n - s.decoded.length)) s.encoded host).result = .error e) (b : Buffer) :
    (s.read n b host).result = .error e := by
  have hfill : (s.fill n host).result = .error e := by
    rw [fill, dif_pos hlt]
    split
    · rename_i hr
      rw [hr] at h
      exact congrArg Except.error (Except.error.inj h)
    · rename_i hr
      rw [hr] at h
      cases h
    · rename_i hr
      rw [hr] at h
      cases h
  rw [read_of_ready ho hm hn hl]
  split
  · rename_i hf
    rw [hf] at hfill
    exact congrArg Except.error (Except.error.inj hfill)
  · rename_i hf
    rw [hf] at hfill
    cases hfill

end Base64Source

namespace CipherSource

variable {κ σ : Type} [ByteCipher κ] [ByteSource σ] {limit limit' size : Nat}

/-- What is read through does not refuse what the cipher asks for. -/
private def Accepts (limit' size : Nat) (P : κ → Prop) (s : CipherSource κ σ) : Prop :=
  Steady size P ∧ P s.cipher ∧ Admits limit' s.inner

private theorem Accepts.finalize {P : κ → Prop} {s : CipherSource κ σ} (h : s.Accepts limit' size P) (host : Host) :
    ¬ Refused (s.finalize host).result ∧ (s.finalize host).endpoint.Accepts limit' size P := by
  obtain ⟨hP, hc, hs⟩ := h
  have hfin := hP.finalize hc
  unfold CipherSource.finalize
  split
  · rename_i hcheck
    exact ⟨not_isRefusal_of_check hcheck, hP, hc, hs⟩
  · split
    · rename_i hf
      rw [hf] at hfin
      exact ⟨hfin.1, hP, hfin.2, hs⟩
    · rename_i hf
      rw [hf] at hfin
      exact ⟨id, hP, hfin.2, hs⟩

private theorem Accepts.fill {P : κ → Prop} {s : CipherSource κ σ} (h : s.Accepts limit' size P) (n : Nat)
    (host : Host) : (max n size ≤ limit' → ¬ Refused (s.fill n host).result) ∧
      (s.fill n host).endpoint.Accepts limit' size P := by
  have hread (s : CipherSource κ σ) (host : Host) (h : s.Accepts limit' size P) (hn : max n size ≤ limit') :=
    have hle : s.request (n - s.output.length) ≤ limit' := by
      rw [request, h.1.blockSize h.2.1]
      omega
    (admitting_admits limit').admitted h.2.2 hle .empty host
  have hkept (s : CipherSource κ σ) (host : Host) (h : s.Accepts limit' size P) :=
    (admitting_admits limit').kept h.2.2 (s.request (n - s.output.length)) .empty host
  fun_induction CipherSource.fill s n host with
  | case1 s host hlt e inner b host' hr =>
    have hp := hread s host h
    have hk := hkept s host h
    rw [hr] at hp hk
    exact ⟨hp, h.1, h.2.1, hk⟩
  | case2 s host hlt inner b host' hr =>
    have hk := hkept s host h
    rw [hr] at hk
    have hfin := Accepts.finalize (s := { s with inner }) ⟨h.1, h.2.1, hk⟩ host'
    exact ⟨fun _ => hfin.1, hfin.2⟩
  | case3 s host hlt k inner input host' hr e cipher hu =>
    have hk := hkept s host h
    have hc := h.1.update h.2.1 input.toList
    rw [hr] at hk
    rw [hu] at hc
    exact ⟨fun _ => hc.1, h.1, hc.2, hk⟩
  | case4 s host hlt k inner input host' hr out cipher hu ih =>
    have hk := hkept s host h
    have hc := h.1.update h.2.1 input.toList
    rw [hr] at hk
    rw [hu] at hc
    exact ih ⟨h.1, hc.2, hk⟩
  | case5 s host hge => exact ⟨fun _ => id, h⟩

@[inherit_doc Base64Source.read_cases]
private theorem read_cases (s : CipherSource κ σ) (n : Nat) (b : Buffer) (host : Host) :
    (s.closed = false ∧ s.poisoned = false ∧ 0 < n ∧ n ≤ maxRequestLength) ∨
      ∃ r, s.read n b host = ⟨r, s, b, host⟩ ∧ (n ≤ maxRequestLength → ¬ Refused r) := by
  unfold CipherSource.read
  by_cases hl : n ≤ maxRequestLength
  · rw [checkRead_eq_ok_iff.2 hl]
    by_cases ho : s.closed
    · exact .inr ⟨.error .closed, if_pos ho, fun _ => id⟩
    · by_cases hp : s.poisoned
      · exact .inr ⟨_, (if_neg ho).trans (if_pos hp), fun _ => id⟩
      · by_cases hn : n = 0
        · exact .inr ⟨.ok (some 0), (if_neg ho).trans ((if_neg hp).trans (if_pos hn)), fun _ => id⟩
        · exact .inl ⟨by simpa using ho, by simpa using hp, Nat.pos_of_ne_zero hn, hl⟩
  · rw [checkRead, if_pos (Nat.lt_of_not_le hl)]
    exact .inr ⟨_, rfl, fun hle => absurd hle hl⟩

/-- A source that reads through a cipher admits requests up to the limit for which it does not ask for more than what it
reads from admits. -/
theorem admits {s : CipherSource κ σ} (hc : KeepsSteady s.cipher) (h : Admits limit' s.inner)
    (hl : limit ≤ maxRequestLength) (hr : s.request limit ≤ limit') : Admits limit s := by
  obtain ⟨P, hP, hc⟩ := hc
  have hread (s' : CipherSource κ σ) (h : s'.Accepts limit' (ByteCipher.blockSize s.cipher) P) (n : Nat) (b : Buffer)
      (host : Host) : (n ≤ limit → ¬ Refused (s'.read n b host).result) ∧
        (s'.read n b host).source.Accepts limit' (ByteCipher.blockSize s.cipher) P := by
    rcases read_cases s' n b host with ⟨ho, hp, hn, hle⟩ | ⟨r, hread, hnot⟩
    · obtain ⟨hfill, hkept⟩ := h.fill n host
      rw [read_of_ready ho hp hn hle]
      rcases hf : s'.fill n host with ⟨e | _, s'', host'⟩
      · rw [hf] at hfill hkept
        exact ⟨fun hle => hfill (by rw [request] at hr; omega), hkept⟩
      · rw [hf] at hkept
        simp only
        split
        · exact ⟨fun _ => id, hkept⟩
        · exact ⟨fun _ => id, hkept⟩
    · rw [hread]
      exact ⟨fun hle => hnot (Nat.le_trans hle hl), h⟩
  exact ⟨Accepts limit' _ P, ⟨fun h n hn b host => (hread _ h n b host).1 hn,
    fun h n b host => (hread _ h n b host).2⟩, hP, hc, h⟩

/-- If the first read fails, so does the whole one. -/
theorem read_of_error {s : CipherSource κ σ} (ho : s.closed = false) (hp : s.poisoned = false) {n : Nat} (hn : 0 < n)
    (hl : n ≤ maxRequestLength) (hlt : s.output.length < n ∧ ByteCipher.isFinalized s.cipher = false) {host : Host}
    {e : Error} (h : (ByteSource.read s.inner (s.request (n - s.output.length)) .empty host).result = .error e)
    (b : Buffer) : (s.read n b host).result = .error e := by
  have hfill : (s.fill n host).result = .error e := by
    rw [fill, dif_pos hlt]
    split
    · rename_i hr
      rw [hr] at h
      exact congrArg Except.error (Except.error.inj h)
    · rename_i hr
      rw [hr] at h
      cases h
    · rename_i hr
      rw [hr] at h
      cases h
  rw [read_of_ready ho hp hn hl]
  split
  · rename_i hf
    rw [hf] at hfill
    exact congrArg Except.error (Except.error.inj hfill)
  · rename_i hf
    rw [hf] at hfill
    cases hfill

end CipherSource

/-! ### Stacks -/

namespace SourceOver

variable {κ ℓ : Type} [ByteCipher κ]

/-- How many bytes each layer and the innermost source are asked for, at most, when `n` are read. -/
def asked : (layers : List Layer) → SourceOver κ ℓ layers → Nat → List Nat
  | [], _, n => [n]
  | .base64 :: layers, s, n => n :: asked layers (Base64Source.inner s) (Base64Source.request n)
  | .cipher :: layers, s, n => n :: asked layers (CipherSource.inner s) (CipherSource.request s n)

/-- No layer is asked for more than it admits when `n` bytes are read. -/
def Passable : (layers : List Layer) → SourceOver κ ℓ layers → Nat → Prop
  | [], _, n => n ≤ maxRequestLength
  | .base64 :: layers, s, n =>
    n < maxRequestLength ∧ Passable layers (Base64Source.inner s) (Base64Source.request n)
  | .cipher :: layers, s, n =>
    n ≤ maxRequestLength ∧ Passable layers (CipherSource.inner s) (CipherSource.request s n)

/-- Every layer is open, has not failed and has to ask for whatever it is asked for. -/
def Idle : (layers : List Layer) → SourceOver κ ℓ layers → Prop
  | [], _ => True
  | .base64 :: layers, (s : Base64Source (SourceOver κ ℓ layers)) =>
    (s.closed = false ∧ s.malformed = false ∧ s.exhausted = false ∧ s.decoded.length = 0) ∧ Idle layers s.inner
  | .cipher :: layers, (s : CipherSource κ (SourceOver κ ℓ layers)) =>
    (s.closed = false ∧ s.poisoned = false ∧ ByteCipher.isFinalized s.cipher = false ∧ s.output.length = 0) ∧
      Idle layers s.inner

variable [ByteSource ℓ]

/-- The innermost source refuses only what exceeds the limit, the ciphers refuse nothing and ask for less. -/
def Sound : (layers : List Layer) → SourceOver κ ℓ layers → Prop
  | [], s => Admits (σ := ℓ) maxRequestLength s
  | .base64 :: layers, s => Sound layers (Base64Source.inner s)
  | .cipher :: layers, (s : CipherSource κ (SourceOver κ ℓ layers)) =>
    (KeepsSteady s.cipher ∧ ByteCipher.blockSize s.cipher ≤ maxRequestLength) ∧ Sound layers s.inner

/-- Requests are scaled up, but cannot outgrow the limit, and with it the numbers that a machine can hold. -/
theorem le_of_mem_asked {layers : List Layer} {s : SourceOver κ ℓ layers} (h : Sound layers s) {n : Nat}
    (hn : n ≤ maxRequestLength) : ∀ m ∈ asked layers s n, m ≤ maxRequestLength := by
  induction layers generalizing n with
  | nil =>
    intro m hm
    rw [List.mem_singleton.1 hm]
    exact hn
  | cons layer layers ih =>
    intro m hm
    cases layer with
    | base64 =>
      rcases List.mem_cons.1 hm with rfl | hm
      · exact hn
      · exact ih (s := Base64Source.inner s) h (Nat.min_le_right ..) m hm
    | cipher =>
      rcases List.mem_cons.1 hm with rfl | hm
      · exact hn
      · exact ih (s := CipherSource.inner s) h.2 (Nat.max_le.2 ⟨hn, h.1.2⟩) m hm

theorem scaled_lt {m : Nat} (hm : m ≤ maxRequestLength) :
    (m + Base64.groupSize - 1) / Base64.groupSize * Base64.quantumSize < UInt64.size := by
  have hlimit : maxRequestLength = (UInt64.size - 1) / 4 := rfl
  have hsize : UInt64.size = 18446744073709551616 := rfl
  simp only [Base64.groupSize, Base64.quantumSize]
  omega

/-- If no layer is asked for more than it admits, no read is refused. -/
theorem admits_of_passable {layers : List Layer} {s : SourceOver κ ℓ layers} (h : Sound layers s) {n : Nat}
    (hn : Passable layers s n) : Admits n s := by
  induction layers generalizing n with
  | nil => exact Admits.mono hn h
  | cons layer layers ih =>
    cases layer with
    | base64 => exact Base64Source.admits (ih (s := Base64Source.inner s) h hn.2) hn.1 (Nat.le_refl _)
    | cipher => exact CipherSource.admits h.1.1 (ih (s := CipherSource.inner s) h.2 hn.2) hn.1 (Nat.le_refl _)

/-- If some layer is asked for more than it admits, that is a decoder which is asked for as much as the limit, and the
read is refused. -/
theorem refused_of_not_passable {layers : List Layer} {s : SourceOver κ ℓ layers} (h : Sound layers s)
    (hi : Idle layers s) {n : Nat} (hpos : 0 < n) (hle : n ≤ maxRequestLength) (hn : ¬ Passable layers s n) (b : Buffer)
    (host : Host) :
    (ByteSource.read s n b host).result = .error (.invalidArgument (.notBelowLimit maxRequestLength)) := by
  induction layers generalizing n b with
  | nil => exact absurd hle hn
  | cons layer layers ih =>
    cases layer with
    | base64 =>
      obtain ⟨⟨ho, hm, he, hd⟩, hi⟩ := hi
      by_cases hlt : n < maxRequestLength
      · have hinner := ih (s := Base64Source.inner s) h hi (Base64Source.request_pos hpos) (Nat.min_le_right ..)
          (fun hp => hn ⟨hlt, hp⟩) (Base64Source.encoded s)
        exact Base64Source.read_of_error ho hm hpos hlt ⟨by omega, he⟩ (by rwa [hd, Nat.sub_zero]) b
      · obtain rfl : n = maxRequestLength := by omega
        exact congrArg ReadOutcome.result (if_pos (Nat.le_refl _))
    | cipher =>
      obtain ⟨⟨ho, hp, hf, hd⟩, hi⟩ := hi
      have hreq : CipherSource.request (σ := SourceOver κ ℓ layers) s n ≤ maxRequestLength := Nat.max_le.2 ⟨hle, h.1.2⟩
      have hreq_pos : 0 < CipherSource.request (σ := SourceOver κ ℓ layers) s n :=
        Nat.lt_of_lt_of_le hpos (Nat.le_max_left ..)
      have hinner := ih (s := CipherSource.inner s) h.2 hi hreq_pos hreq (fun hp => hn ⟨hle, hp⟩) .empty
      exact CipherSource.read_of_error ho hp hpos hle ⟨by omega, hf⟩ (by rwa [hd, Nat.sub_zero]) b

/-- No layer asks for more than the limit, and no request that is scaled up overflows.  A read of at most so many bytes
is never refused, whatever is read before it, if no layer is asked for more than it admits.  Otherwise, when nothing is
there to be given without asking, it is refused by a decoder that is asked for as much as the limit. -/
theorem requests_of_read {layers : List Layer} {s : SourceOver κ ℓ layers} (h : Sound layers s) {n : Nat}
    (hn : n ≤ maxRequestLength) :
    (∀ m ∈ asked layers s n, m ≤ maxRequestLength ∧
      (m + Base64.groupSize - 1) / Base64.groupSize * Base64.quantumSize < UInt64.size) ∧
    (Passable layers s n → Admits n s) ∧
    (0 < n → Idle layers s → ¬ Passable layers s n → ∀ (b : Buffer) (host : Host),
      (ByteSource.read s n b host).result = .error (.invalidArgument (.notBelowLimit maxRequestLength))) := by
  refine ⟨?_, admits_of_passable h, ?_⟩
  · intro m hm
    have hle := le_of_mem_asked h hn m hm
    exact ⟨hle, scaled_lt hle⟩
  · intro hpos hi hnot b host
    exact refused_of_not_passable h hi hpos hn hnot b host

end SourceOver

namespace Stage

variable {ℓ : Type}

theorem sound_source [ByteSource ℓ] {leaf : ℓ} (h : Admits maxRequestLength leaf) (stages : List Stage) :
    SourceOver.Sound _ (source leaf stages) := by
  have hsize (c : BlockCipher) : c.blockSize ≤ maxRequestLength := by
    have hlt := c.blockSize_lt
    have hlimit : 256 ≤ maxRequestLength := by decide
    omega
  induction stages with
  | nil => exact h
  | cons stage stages ih =>
    cases stage with
    | text e => exact ih
    | encryption c iv =>
      exact ⟨⟨(CbcEncryptor.keepsSteady _).map AnyCipher.hom_encryptor, hsize c⟩, ih⟩
    | decryption c iv =>
      exact ⟨⟨(CbcDecryptor.keepsSteady _).map AnyCipher.hom_decryptor, hsize c⟩, ih⟩

theorem idle_source (leaf : ℓ) (stages : List Stage) : SourceOver.Idle _ (source leaf stages) := by
  induction stages with
  | nil => trivial
  | cons stage stages ih =>
    cases stage with
    | text e => exact ⟨⟨rfl, rfl, rfl, rfl⟩, ih⟩
    | encryption c iv => exact ⟨⟨rfl, rfl, rfl, rfl⟩, ih⟩
    | decryption c iv => exact ⟨⟨rfl, rfl, rfl, rfl⟩, ih⟩

end Stage

namespace SourceOver

/-- Text of text, in memory. -/
def textOfText : SourceOver AnyCipher MemorySource [.base64, .base64] :=
  Stage.source (MemorySource.ofList []) [.text .standard, .text .standard]

theorem not_passable_textOfText : ¬ Passable _ textOfText (maxRequestLength - 1) := by
  have hreq : ¬ Base64Source.request (maxRequestLength - 1) < maxRequestLength := by decide
  exact fun h => hreq h.2.1

/-- Seven bytes can be read from text of text in any state, but the most that its outer decoder admits cannot be asked
for. -/
theorem requests_textOfText : Sound _ textOfText ∧ 7 ≤ maxRequestLength ∧ maxRequestLength - 1 ≤ maxRequestLength ∧
    Admits 7 textOfText ∧ (ByteSource.read textOfText (maxRequestLength - 1) .empty .start).result =
      .error (.invalidArgument (.notBelowLimit maxRequestLength)) := by
  have hs : Sound _ textOfText := Stage.sound_source (MemorySource.admits _) [.text .standard, .text .standard]
  have h₁ : 7 ≤ maxRequestLength := by decide
  have h₂ : maxRequestLength - 1 ≤ maxRequestLength := Nat.sub_le ..
  have hp : Passable _ textOfText 7 := by
    refine ⟨?_, ?_, ?_⟩
    · decide
    · decide
    · show Base64Source.request (Base64Source.request 7) ≤ maxRequestLength
      decide
  have hi : Idle _ textOfText := Stage.idle_source (MemorySource.ofList []) [.text .standard, .text .standard]
  obtain ⟨-, hadmits, -⟩ := requests_of_read hs h₁
  obtain ⟨-, -, hrefused⟩ := requests_of_read hs h₂
  exact ⟨hs, h₁, h₂, hadmits hp, hrefused (by decide) hi not_passable_textOfText .empty .start⟩

/-- The outer decoder admits one byte less than the limit, and asks the inner one for as many as the limit, which that
refuses; so does a cipher that is asked for as many as the limit. -/
theorem refused_textOfText : (maxRequestLength - 1 < maxRequestLength ∧
    (ByteSource.read textOfText (maxRequestLength - 1) .empty .start).result =
      .error (.invalidArgument (.notBelowLimit maxRequestLength))) ∧
    (checkRead maxRequestLength = .ok () ∧
      (ByteSource.read (CipherSource.new (Base64Source.new (MemorySource.ofList []) .standard)
        (CbcDecryptor.new (.masking [7, 1, 8] (by decide)) [1, 2, 3])) maxRequestLength .empty .start).result =
        .error (.invalidArgument (.notBelowLimit maxRequestLength))) := by
  decide +kernel

end SourceOver

end Conduit
