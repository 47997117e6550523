import Mathlib.Data.List.Forall2
import Conduit.Proofs.Base64.OnDemand
import Conduit.Proofs.Cipher.Serving
import Conduit.Stack.Source

/-!
# Reading on after failures

A stack of decoders and ciphers over a channel loses no byte when reads fail, wherever in the stack that happens and for
whatever reason: an interruption, an error of the channel or a missed deadline.  If the reads are simply repeated, those
that succeed give the bytes of the whole stream in order, each of them once (`readMany_of_channel`).
-/

namespace Conduit

/-! ### Runs of reads -/

section

variable {σ : Type}

/-- What a read for so many bytes into a buffer shows: it has appended `piece`, or it has ended or failed and appended
nothing. -/
def Gave (r : (Nat × Buffer × Host) × ReadOutcome σ) (piece : Bytes) : Prop :=
  match r.2.result with
  | .ok (some k) => piece.length = k ∧ 0 < k ∧ k ≤ r.1.1 ∧ r.2.buffer.toList = r.1.2.1.toList ++ piece
  | .ok none => piece = [] ∧ r.2.buffer.toList = r.1.2.1.toList
  | .error _ => piece = [] ∧ r.2.buffer = r.1.2.1

variable [ByteSource σ]

/-- Reads of a source that owes `x` give pieces of it, and a read that finds the end finds that all of it was given. -/
theorem readMany_of_owes {s : σ} {x : Bytes} (h : Owes none s x) {reads : List (Nat × Buffer × Host)}
    (hr : ∀ r ∈ reads, 0 < r.1) : ∃ (pieces : List Bytes) (rest : Bytes),
      List.Forall₂ Gave (reads.zip (readMany reads s).1) pieces ∧ pieces.flatten ++ rest = x ∧
      ((∃ o ∈ (readMany reads s).1, o.result = .ok none) → rest = []) := by
  induction reads generalizing s x with
  | nil => exact ⟨[], x, .nil, rfl, by simp [readMany]⟩
  | cons r reads ih =>
    obtain ⟨n, b, host⟩ := r
    have hn : 0 < n := hr _ List.mem_cons_self
    have hrest : ∀ r ∈ reads, 0 < r.1 := by
      intro r hm
      exact hr r (List.mem_cons_of_mem _ hm)
    simp only [readMany, List.zip_cons_cons]
    rcases (lasting_owes none).read h hn (by simp) b host with
      (⟨rfl, hres, hb, hs⟩ | ⟨k, hk, hkn, hkx, hres, hb, hs⟩) | ⟨-, ⟨e, herr⟩, hb, hs⟩
    · -- the end: nothing is owed any more
      obtain ⟨pieces, rest, hgave, hcat, -⟩ := ih hs hrest
      refine ⟨[] :: pieces, rest, .cons ?_ hgave, hcat, fun _ => (List.append_eq_nil_iff.1 hcat).2⟩
      simp only [Gave, hres]
      exact ⟨trivial, hb⟩
    · obtain ⟨pieces, rest, hgave, hcat, hend⟩ := ih hs hrest
      refine ⟨x.take k :: pieces, rest, .cons ?_ hgave, ?_, ?_⟩
      · simp only [Gave, hres]
        exact ⟨by rw [List.length_take, Nat.min_eq_left hkx], hk, hkn, hb⟩
      · rw [List.flatten_cons, List.append_assoc, hcat, List.take_append_drop]
      · rintro ⟨o, ho, hnone⟩
        rcases List.mem_cons.1 ho with rfl | ho
        · rw [hres] at hnone
          cases hnone
        · exact hend ⟨o, ho, hnone⟩
    · obtain ⟨pieces, rest, hgave, hcat, hend⟩ := ih hs hrest
      refine ⟨[] :: pieces, rest, .cons ?_ hgave, hcat, ?_⟩
      · simp only [Gave, herr]
        exact ⟨trivial, hb⟩
      · rintro ⟨o, ho, hnone⟩
        rcases List.mem_cons.1 ho with rfl | ho
        · rw [herr] at hnone
          cases hnone
        · exact hend ⟨o, ho, hnone⟩

end

/-! ### Stacks -/

/-- What a layer of a stack of sources does to the stream below it. -/
inductive Stage where
  | text (e : Base64.Engine)
  | encryption (c : BlockCipher) (iv : Bytes)
  | decryption (c : BlockCipher) (iv : Bytes)

namespace Stage

/-- What the layer makes of a whole stream, if that is well-formed for it. -/
def image? : Stage → Bytes → Option Bytes
  | text e, t => if t.length % Base64.quantumSize = 0 then (e.decode (Base64.Quantum.ofBytes t)).toOption else none
  | encryption c iv, t => some (c.encryptPadded iv t)
  | decryption c iv, t => c.decryptPadded? iv t

/-- What a stack makes of a whole stream, if that is well-formed for it; the outermost layer comes first. -/
def imageAll? : List Stage → Bytes → Option Bytes
  | [], t => some t
  | stage :: stages, t => (imageAll? stages t).bind stage.image?

/-- The kind of the layer. -/
def layer : Stage → Layer
  | text _ => .base64
  | encryption _ _ => .cipher
  | decryption _ _ => .cipher

variable {ℓ : Type}

/-- A fresh stack of sources. -/
def source (leaf : ℓ) : (stages : List Stage) → SourceOver AnyCipher ℓ (stages.map layer)
  | [] => leaf
  | text e :: stages => Base64Source.new (source leaf stages) e
  | encryption c iv :: stages => CipherSource.new (source leaf stages) (.encryptor (.new c iv))
  | decryption c iv :: stages => CipherSource.new (source leaf stages) (.decryptor (.new c iv))

/-- Over a source that owes a stream, the stack owes what it makes of that. -/
theorem owes_source [ByteSource ℓ] {leaf : ℓ} {t : Bytes} (h : Owes none leaf t) {stages : List Stage} {x : Bytes}
    (hx : imageAll? stages t = some x) : Owes none (source leaf stages) x := by
  induction stages generalizing x with
  | nil =>
    obtain rfl : t = x := Option.some.inj hx
    exact h
  | cons stage stages ih =>
    obtain ⟨y, hy, hx⟩ := Option.bind_eq_some_iff.1 hx
    have hinner := ih hy
    cases stage with
    | text e =>
      by_cases hmod : y.length % Base64.quantumSize = 0
      · rcases hd : e.decode (Base64.Quantum.ofBytes y) with _ | z
        · simp [image?, hmod, hd, Except.toOption] at hx
        · obtain rfl : z = x := by simpa [image?, hmod, hd, Except.toOption] using hx
          exact Base64Source.owes_new hinner hmod hd (by simp)
      · simp [image?, hmod] at hx
    | encryption c iv =>
      obtain rfl : c.encryptPadded iv y = x := Option.some.inj hx
      exact CipherSource.owes_new hinner ((CbcEncryptor.turns_new c iv y).map AnyCipher.hom_encryptor) (by simp)
    | decryption c iv =>
      exact CipherSource.owes_new hinner ((CbcDecryptor.turns_new hx).map AnyCipher.hom_decryptor) (by simp)

end Stage

open Stage

/-- Reads through a stack over a channel, of any sizes and at any times, give pieces of what the stack makes of all that
the channel serves before its end, whatever fails between them, and all of it once a read has found the end; a read that
fails appends nothing. -/
theorem readMany_of_channel {stages : List Stage} {channel : Channel} {x : Bytes}
    (hx : imageAll? stages channel.untilEnd = some x) (timeout : Timeout) {reads : List (Nat × Buffer × Host)}
    (hr : ∀ r ∈ reads, 0 < r.1) : ∃ pieces : List Bytes,
      List.Forall₂ Gave
        (reads.zip (readMany reads (source (ChannelSource.ofChannel channel timeout) stages)).1) pieces ∧
      pieces.flatten <+: x ∧
      ((∃ o ∈ (readMany reads (source (ChannelSource.ofChannel channel timeout) stages)).1, o.result = .ok none) →
        pieces.flatten = x) := by
  obtain ⟨pieces, rest, hgave, hcat, hend⟩ :=
    readMany_of_owes (owes_source (ChannelSource.owes_ofChannel channel timeout) hx) hr
  refine ⟨pieces, hgave, ⟨rest, hcat⟩, ?_⟩
  intro hnone
  rw [← hcat, hend hnone, List.append_nil]

/-- Text of one encrypted block is decrypted. -/
def troubledStages : List Stage := [.decryption (.masking [7, 1, 8] (by decide)) [1, 2, 3], .text .standard]

/-- The text of a block in two pieces, with an interruption and an error between them, and bytes behind the end. -/
def troubledChannel : Channel := .ofScript
  [⟨⟨0⟩, .ok [68, 66]⟩, ⟨⟨0⟩, .error (.ofDisk .interrupted)⟩, ⟨⟨0⟩, .error (.ofDisk .brokenPipe)⟩, ⟨⟨0⟩, .ok [99, 75]⟩,
    ⟨⟨0⟩, .ok []⟩, ⟨⟨0⟩, .ok [65]⟩] [] []

/-- A read of one byte on a clock that jumps forward. -/
def readOn (delays : List Nat) : Nat × Buffer × Host := (1, .empty, { Host.start with clock := ⟨0, delays⟩ })

/-- The second read misses the deadline of the channel, the third one that before the end of the cipher. -/
def troubledReads : List (Nat × Buffer × Host) :=
  [readOn [], readOn [0, 10], readOn [0, 0, 0, 0, 0, 10], readOn [], readOn [], readOn []]

/-- Three reads fail, each for another reason, and the two bytes come after them. -/
theorem readMany_troubledChannel : imageAll? troubledStages troubledChannel.untilEnd = some [10, 20] ∧
    (∀ r ∈ troubledReads, 0 < r.1) ∧ ∃ pieces : List Bytes,
      List.Forall₂ Gave (troubledReads.zip
        (readMany troubledReads
          (source (ChannelSource.ofChannel troubledChannel (.after ⟨10⟩)) troubledStages)).1) pieces ∧
      pieces.flatten = [10, 20] := by
  have hx : imageAll? troubledStages troubledChannel.untilEnd = some [10, 20] := by decide +kernel
  have hr : ∀ r ∈ troubledReads, 0 < r.1 := by decide
  have hnone : ∃ o ∈ (readMany troubledReads
      (source (ChannelSource.ofChannel troubledChannel (.after ⟨10⟩)) troubledStages)).1, o.result = .ok none := by
    decide +kernel
  obtain ⟨pieces, hgave, -, hend⟩ := readMany_of_channel hx (.after ⟨10⟩) hr
  exact ⟨hx, hr, pieces, hgave, hend hnone⟩

end Conduit
