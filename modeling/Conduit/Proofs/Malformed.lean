import Conduit.Proofs.Base64.Perishing
import Conduit.Proofs.Cipher.Perishing

/-!
# Malformed streams

A layer that has found its stream malformed refuses all reads from then on.  A layer above it passes that on, but does
not remember it: what it holds from before it still gives away, once a read is small enough to be served from that.
So after a read that has found the stream malformed a stack may still give bytes, but no more than its layers hold, and
each read gives all it was asked for or finds the stream malformed again (`SourceOver.reads_after_malformed`).  It gives
none if the outermost layer found it malformed itself, or nothing is held.
-/

namespace Conduit

namespace SourceOver

variable {ℓ : Type}

/-- What the layers of a stack hold above the first one, from outside, that has found its stream malformed itself. -/
def held : (layers : List Layer) → SourceOver AnyCipher ℓ layers → Nat
  | [], _ => 0
  | .base64 :: layers, s => Base64Source.heldOver (held layers) s
  | .cipher :: layers, s => CipherSource.heldOver AnyCipher.keptBack (held layers) s

/-- What the outermost layer can give without asking, unless it has found its stream malformed itself. -/
def ready : (layers : List Layer) → SourceOver AnyCipher ℓ layers → Nat
  | [], _ => 0
  | .base64 :: _, s => if Base64Source.malformed s then 0 else (Base64Source.decoded s).length
  | .cipher :: _, s => if CipherSource.poisoned s then 0 else (CipherSource.output s).length

variable [ByteSource ℓ]

/-- The innermost source is malformed for good if it ever finds itself malformed, and all ciphers are real. -/
def Genuine : (layers : List Layer) → SourceOver AnyCipher ℓ layers → Prop
  | [], s => ∃ T : ℓ → Prop, Honest maxRequestLength (fun _ => 0) T ∧ T s
  | .base64 :: layers, s => Genuine layers (Base64Source.inner s)
  | .cipher :: layers, (s : CipherSource AnyCipher (SourceOver AnyCipher ℓ layers)) =>
    s.cipher.IsCbc ∧ Genuine layers s.inner

/-- A genuine stack is honest about reads that pass through it. -/
theorem honest_of_genuine {layers : List Layer} {s : SourceOver AnyCipher ℓ layers} (h : Genuine layers s) {limit : Nat}
    (hl : Passable layers s limit) :
    ∃ T : SourceOver AnyCipher ℓ layers → Prop, Honest limit (held layers) T ∧ T s := by
  induction layers generalizing limit with
  | nil =>
    obtain ⟨T, hT, hs⟩ := h
    exact ⟨T, hT.mono hl, hs⟩
  | cons layer layers ih =>
    cases layer with
    | base64 =>
      obtain ⟨T, hT, hs⟩ := ih (s := Base64Source.inner s) h hl.2
      exact ⟨_, Base64Source.honest hT hl.1 (Nat.le_refl _), hs⟩
    | cipher =>
      obtain ⟨T, hT, hs⟩ := ih (s := CipherSource.inner s) h.2 hl.2
      obtain ⟨P, hP, hc⟩ := h.1.flowing
      exact ⟨_, CipherSource.honest hP hT hl.1 (Nat.le_refl _), hc, hs⟩

/-- An open stack gives at once what its outermost layer has ready. -/
private theorem granted_of_ready {layers : List Layer} {s : SourceOver AnyCipher ℓ layers} {n : Nat} {b : Buffer}
    {host : Host} {fault : StreamFault} (h : (ByteSource.read s n b host).result = .error (.malformedStream fault))
    {limit : Nat} (hl : Passable layers s limit) {m : Nat} (hm : 0 < m) (hml : m ≤ limit)
    (hready : m ≤ ready layers (ByteSource.read s n b host).source) (b' : Buffer) (host' : Host) :
    Granted m b' (ByteSource.read (ByteSource.read s n b host).source m b' host') := by
  cases layers with
  | nil => exact absurd hready (Nat.not_le.2 hm)
  | cons layer layers =>
    cases layer with
    | base64 =>
      have ho := (Base64Source.closed_read (σ := SourceOver AnyCipher ℓ layers) s n b host).trans
        (Base64Source.open_of_malformed h)
      simp only [ready] at hready
      split at hready
      · omega
      · rename_i hmal
        exact Base64Source.granted_of_le ho (eq_false_of_ne_true hmal) hm (Nat.lt_of_le_of_lt hml hl.1) hready b' host'
    | cipher =>
      have ho := (CipherSource.closed_read (κ := AnyCipher) (σ := SourceOver AnyCipher ℓ layers) s n b host).trans
        (CipherSource.open_of_malformed h)
      simp only [ready] at hready
      split at hready
      · omega
      · rename_i hpoisoned
        exact CipherSource.granted_of_le ho (eq_false_of_ne_true hpoisoned) hm (Nat.le_trans hml hl.1) hready b' host'

/-- A stack that was closed reports just that. -/
private theorem read_of_closed {layers : List Layer} (hne : layers ≠ []) (s : SourceOver AnyCipher ℓ layers)
    {t : SourceOver AnyCipher ℓ layers} {limit : Nat} (hl : Passable layers t limit) (host : Host) {m : Nat}
    (hm : m ≤ limit) (b : Buffer) (host' : Host) : ByteSource.read (ByteSource.close s host).endpoint m b host' =
      ⟨.error .closed, (ByteSource.close s host).endpoint, b, host'⟩ := by
  cases layers with
  | nil => exact absurd rfl hne
  | cons layer layers =>
    cases layer with
    | base64 =>
      have hclosed := Base64Source.closed_close (σ := SourceOver AnyCipher ℓ layers) s host
      exact Base64Source.read_of_closed hclosed (Nat.lt_of_le_of_lt hm hl.1) b host'
    | cipher =>
      have hclosed := CipherSource.closed_close (κ := AnyCipher) (σ := SourceOver AnyCipher ℓ layers) s host
      exact CipherSource.read_of_closed hclosed (Nat.le_trans hm hl.1) b host'

/-- Once a read has found the stream malformed, every later read does so too or gives all that it was asked for, and
what is given is no more than the layers above the one that has found it malformed first hold: nothing, if that is the
outermost one.  What the outermost layer has ready it does give.  After the stack was closed nothing is given. -/
theorem reads_after_malformed {layers : List Layer} (hne : layers ≠ []) {s : SourceOver AnyCipher ℓ layers}
    (hs : Genuine layers s) {limit : Nat} (hl : Passable layers s limit) {n : Nat} (hn : 0 < n) (hle : n ≤ limit)
    {b : Buffer} {host : Host} {fault : StreamFault}
    (h : (ByteSource.read s n b host).result = .error (.malformedStream fault))
    {reads : List (Nat × Buffer × Host)} (hr : ∀ r ∈ reads, 0 < r.1 ∧ r.1 ≤ limit) :
    let o := ByteSource.read s n b host
    let run := readMany reads o.source
    o.buffer = b ∧
    (∀ r ∈ reads.zip run.1, Rejected r.1.2.1 r.2 ∨ (0 < held layers o.source ∧ Granted r.1.1 r.1.2.1 r.2)) ∧
    (run.1.map given).sum ≤ held layers o.source ∧
    (∀ m b host, 0 < m → m ≤ limit → m ≤ ready layers o.source → Granted m b (ByteSource.read o.source m b host)) ∧
    ∀ host, let closed := (ByteSource.close run.2 host).endpoint
      ∀ m b host, m ≤ limit → ByteSource.read closed m b host = ⟨.error .closed, closed, b, host⟩ := by
  intro o run
  obtain ⟨T, hT, hTs⟩ := honest_of_genuine hs hl
  obtain ⟨hbuf, hperished⟩ := hT.perished hTs hn hle h
  obtain ⟨hall, hsum⟩ := readMany_of_perished hperished hr
  refine ⟨hbuf, hall, hsum, ?_, ?_⟩
  · intro m b' host' hm hml hready
    exact granted_of_ready h hl hm hml hready b' host'
  · intro host' closed m b' host'' hm
    exact read_of_closed hne run.2 hl host' hm b' host''

/-- Text of text: behind the text of one byte stands no text at all. -/
def brokenTextOfText : SourceOver AnyCipher MemorySource [.base64, .base64] :=
  Stage.source (MemorySource.ofList [87, 86, 69, 57, 80, 81, 61, 61, 33, 33, 33, 33]) [.text .standard, .text .standard]

/-- The inner text is found malformed, and at most one byte is given after that. -/
theorem reads_brokenTextOfText : Genuine _ brokenTextOfText ∧ Passable _ brokenTextOfText 7 ∧
    (ByteSource.read brokenTextOfText 2 .empty .start).result =
      .error (.malformedStream (.invalidBase64 (.symbol 33 0))) ∧
    ((readMany [(4, .empty, .start), (1, .empty, .start), (1, .empty, .start)]
      (ByteSource.read brokenTextOfText 2 .empty .start).source).1.map given).sum ≤ 1 := by
  have hs : Genuine _ brokenTextOfText := by
    refine ⟨_, honest_of_not_malformed ?_, trivial⟩
    exact MemorySource.not_malformed
  have hl : Passable _ brokenTextOfText 7 := by
    refine ⟨by decide, by decide, ?_⟩
    show Base64Source.request (Base64Source.request 7) ≤ maxRequestLength
    decide
  have hfault : (ByteSource.read brokenTextOfText 2 .empty .start).result =
      .error (.malformedStream (.invalidBase64 (.symbol 33 0))) := by decide +kernel
  have hheld : held _ (ByteSource.read brokenTextOfText 2 .empty .start).source = 1 := by decide +kernel
  have hreads : ∀ r ∈ [(4, Buffer.empty, Host.start), (1, .empty, .start), (1, .empty, .start)], 0 < r.1 ∧ r.1 ≤ 7 := by
    simp
  obtain ⟨-, -, hsum, -⟩ := reads_after_malformed (by simp) hs hl (by decide) (by decide) hfault hreads
  rw [hheld] at hsum
  exact ⟨hs, hl, hfault, hsum⟩

/-- A read for two bytes finds the inner text malformed, and then one for one byte gives that byte: the outer decoder
does not remember what the inner one has reported. -/
theorem given_after_malformed :
    let o := ByteSource.read brokenTextOfText 2 .empty .start
    (∃ fault, o.result = .error (.malformedStream fault)) ∧
      (ByteSource.read o.source 1 .empty .start).result = .ok (some 1) ∧
      (ByteSource.read o.source 1 .empty .start).buffer.toList = [97] := by
  have hfault : (ByteSource.read brokenTextOfText 2 .empty .start).result =
      .error (.malformedStream (.invalidBase64 (.symbol 33 0))) := by decide +kernel
  refine ⟨⟨_, hfault⟩, ?_, ?_⟩
  · decide +kernel
  · decide +kernel

end SourceOver

end Conduit
