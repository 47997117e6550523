import Conduit.Proofs.Base64.Stalling
import Conduit.Proofs.Cipher.Stalling

/-!
# What is left of a stream when reads stall

Reads that run out of time are simply repeated.  Through a decoder that gives all of the stream, unless its last bytes
have come with a failure, and through a cipher only if no bytes have (`given_of_grants`, `lost_to_stalls`).
-/

namespace Conduit

/-! ### Repeated reads -/

/-- What reads through a decoder give of `x`, the bytes of the text `t`, if the reads of the text have brought `fetches`:
pieces from the front, and all of it once one has found the end.  A read fails for good only when the whole text has
come, its last symbols with a failure, and then none finds the end.  As many reads are repeated as reads of the text have
failed, or fewer. -/
def GivesText {τ : Type} (t x : Bytes) (reads : List (Nat × Buffer × Host)) (outcomes : List (ReadOutcome τ))
    (fetches : List Fetch) : Prop :=
  ∃ pieces : List Bytes, List.Forall₂ Gave (reads.zip outcomes) pieces ∧ pieces.flatten <+: x ∧
    ((∃ o ∈ outcomes, o.result = .ok none) → pieces.flatten = x ∧ brought fetches = t ∧ ¬ Dangling fetches) ∧
    (∀ o ∈ outcomes, ∀ e, o.result = .error e → e.retryable = true ∨ (Dangling fetches ∧ brought fetches = t)) ∧
    outcomes.countP ReadOutcome.repeatable ≤ fetches.countP Fetch.failed

/-- What reads through a cipher, which makes `x` of the stream `t`, give if the reads of that stream have brought
`fetches`: once one has found the end, what the cipher makes of the bytes that did not come with a failure, and that is
`x` exactly if these are all.  If none have come with a failure so far, pieces from the front of `x` are given and no read
fails for good.  As many reads are repeated as reads of the stream have failed or have found its end, or fewer. -/
def GivesRetained {τ : Type} (f : Bytes → Option Bytes) (t x : Bytes) (reads : List (Nat × Buffer × Host))
    (outcomes : List (ReadOutcome τ)) (fetches : List Fetch) : Prop :=
  ∃ pieces : List Bytes, List.Forall₂ Gave (reads.zip outcomes) pieces ∧
    ((∃ o ∈ outcomes, o.result = .ok none) → brought fetches = t ∧ f (retained fetches) = some pieces.flatten ∧
      (pieces.flatten = x ↔ retained fetches = t)) ∧
    (retained fetches = brought fetches → pieces.flatten <+: x ∧
      ∀ o ∈ outcomes, ∀ e, o.result = .error e → e.retryable = true) ∧
    outcomes.countP ReadOutcome.repeatable ≤ fetches.countP Fetch.halted

section

variable {σ τ : Type} {t x : Bytes} {reads : List (Nat × Buffer × Host)} {outcomes : List (ReadOutcome σ)}
  {fetches : List Fetch}

private theorem forall₂_gave_lift (g : σ → τ) {pieces : List Bytes} (h : List.Forall₂ Gave (reads.zip outcomes) pieces) :
    List.Forall₂ Gave (reads.zip (outcomes.map (ReadOutcome.lift g))) pieces := by
  rw [List.zip_map_right, List.forall₂_map_left_iff]
  exact h

/-- What reads give does not depend on what their source is a part of. -/
theorem GivesText.lift (g : σ → τ) (h : GivesText t x reads outcomes fetches) :
    GivesText t x reads (outcomes.map (ReadOutcome.lift g)) fetches := by
  obtain ⟨pieces, hgave, hpre, hend, herr, hcount⟩ := h
  refine ⟨pieces, forall₂_gave_lift g hgave, hpre, ?_, List.forall_mem_map.2 herr, by rwa [List.countP_map]⟩
  rintro ⟨_, hmem, hr⟩
  obtain ⟨o, ho, rfl⟩ := List.mem_map.1 hmem
  exact hend ⟨o, ho, hr⟩

@[inherit_doc GivesText.lift]
theorem GivesRetained.lift {f : Bytes → Option Bytes} (g : σ → τ) (h : GivesRetained f t x reads outcomes fetches) :
    GivesRetained f t x reads (outcomes.map (ReadOutcome.lift g)) fetches := by
  obtain ⟨pieces, hgave, hend, hall, hcount⟩ := h
  refine ⟨pieces, forall₂_gave_lift g hgave, ?_, fun h => ⟨(hall h).1, List.forall_mem_map.2 (hall h).2⟩,
    by rwa [List.countP_map]⟩
  rintro ⟨_, hmem, hr⟩
  obtain ⟨o, ho, rfl⟩ := List.mem_map.1 hmem
  exact hend ⟨o, ho, hr⟩

end

section

variable {σ : Type} [ByteSource σ] {inner : σ} {t : Bytes} {reads : List (Nat × Buffer × Host)}

theorem Base64Source.givesText (h : Grants inner t) (hr : ∀ r ∈ reads, 0 < r.1 ∧ r.1 < maxRequestLength)
    {e : Base64.Engine} {x : Bytes} (ht : t.length % Base64.quantumSize = 0)
    (hx : e.decode (Base64.Quantum.ofBytes t) = .ok x) :
    GivesText t x reads (readMany reads (Base64Source.new inner e)).1
      (readMany reads (Base64Source.new (Traced.start inner) e)).2.inner.fetches := by
  -- the source is traced: that changes nothing in what its reads give
  have hsame := (hom_mapInner Traced.hom_source).readMany reads (Base64Source.new (Traced.start inner) e)
  rw [show (readMany reads (Base64Source.new inner e)).1 = _ from congrArg Prod.fst hsame]
  apply GivesText.lift
  have hnew : (Base64Source.new (Traced.start inner) e).KeepsOrCut t x [] :=
    .inl ⟨t, x, rfl, rfl, Traced.left_start h, ht, hx, rfl, .inl (Nat.zero_lt_succ _),
      fun hd => absurd hd not_dangling_nil, fun hend => by cases hend⟩
  have hzero : (Base64Source.new (Traced.start inner) e).failures = 0 := rfl
  obtain ⟨pieces, hgave, hfinal, hend, herr, hcount⟩ := readMany_of_accounting (accounting t x) hnew hr
  rw [List.nil_append] at hfinal
  rw [hzero, Nat.zero_add] at hcount
  exact ⟨pieces, hgave, hfinal.given_isPrefix, fun hnone => hfinal.whole_of_spent (hend hnone),
    fun o ho err he => (herr o ho err he).imp_right hfinal.dangling_of_malformed, hcount⟩

theorem CipherSource.givesRetained {κ : Type} [ByteCipher κ] {state : Bytes → κ} {output : Bytes → Bytes}
    (hc : Firm state output) (hnil : output [] = []) {f : Bytes → Option Bytes}
    (hf : ∀ u, wholeOutput? state output u = f u) (h : Grants inner t)
    (hr : ∀ r ∈ reads, 0 < r.1 ∧ r.1 < maxRequestLength) {x : Bytes} (hx : f t = some x)
    (hinj : ∀ u, f u = some x → u = t) :
    GivesRetained f t x reads (readMany reads (CipherSource.new inner (state []))).1
      (readMany reads (CipherSource.new (Traced.start inner) (state []))).2.inner.fetches := by
  have hsame := (hom_mapInner Traced.hom_source).readMany reads (CipherSource.new (Traced.start inner) (state []))
  rw [show (readMany reads (CipherSource.new inner (state []))).1 = _ from congrArg Prod.fst hsame]
  apply GivesRetained.lift
  have hnew : (CipherSource.new (Traced.start inner) (state [])).Traces state output t [] :=
    .inl ⟨t, rfl, rfl, Traced.left_start h, rfl, hnil.symm⟩
  have hzero : (CipherSource.new (Traced.start inner) (state [])).halts = 0 := rfl
  obtain ⟨pieces, hgave, hfinal, hend, herr, hcount⟩ := readMany_of_accounting (accounting hc t) hnew hr
  rw [List.nil_append] at hfinal
  rw [hzero, Nat.zero_add] at hcount
  refine ⟨pieces, hgave, fun hnone => ?_, fun hall => ?_, hcount⟩
  · obtain ⟨hwhole, haccount⟩ := hfinal.whole_of_spent hc (hend hnone)
    rw [hf] at haccount
    refine ⟨hwhole, haccount, ?_, ?_⟩
    · intro hx'
      rw [hx'] at haccount
      exact hinj _ haccount
    · intro hall
      rw [hall, hx] at haccount
      exact (Option.some.inj haccount).symm
  · rw [← hf] at hx
    obtain ⟨hsound, hpre⟩ := hfinal.given_isPrefix hc hall hx
    refine ⟨hpre, fun o ho e he => (herr o ho e he).resolve_right ?_⟩
    rw [hsound]
    exact Bool.false_ne_true

end

/-- The same reads are made, over and over, of a decoder, an encryptor and a decryptor over a source that keeps to the
contract, be it that its reads append some bytes and then run out of time.  The decoder loses nothing, but it takes the
text for malformed if the last symbols have come with a failure.  The ciphers lose what has come with a failure. -/
theorem given_of_grants {σ : Type} [ByteSource σ] {inner : σ} {t : Bytes} (h : Grants inner t)
    {reads : List (Nat × Buffer × Host)} (hr : ∀ r ∈ reads, 0 < r.1 ∧ r.1 < maxRequestLength) :
    (∀ (e : Base64.Engine) (x : Bytes), t.length % Base64.quantumSize = 0 →
        e.decode (Base64.Quantum.ofBytes t) = .ok x →
      GivesText t x reads (readMany reads (Base64Source.new inner e)).1
        (readMany reads (Base64Source.new (Traced.start inner) e)).2.inner.fetches) ∧
    (∀ (c : BlockCipher) (iv : Bytes), c.Invertible →
      GivesRetained (fun u => some (c.encryptPadded iv u)) t (c.encryptPadded iv t) reads
        (readMany reads (CipherSource.new inner (CbcEncryptor.new c iv))).1
        (readMany reads (CipherSource.new (Traced.start inner) (CbcEncryptor.new c iv))).2.inner.fetches) ∧
    (∀ (c : BlockCipher) (iv x : Bytes), c.Invertible → c.decryptPadded? iv t = some x →
      GivesRetained (c.decryptPadded? iv) t x reads
        (readMany reads (CipherSource.new inner (CbcDecryptor.new c iv))).1
        (readMany reads (CipherSource.new (Traced.start inner) (CbcDecryptor.new c iv))).2.inner.fetches) := by
  refine ⟨fun e x ht hx => Base64Source.givesText h hr ht hx, ?_, ?_⟩
  · intro c iv hc
    have hinj (u : Bytes) (hu : some (c.encryptPadded iv u) = some (c.encryptPadded iv t)) : u = t := by
      have hdec := BlockCipher.decryptPadded?_encryptPadded (fun x hx => (hc x hx).1) iv
      have hdecu := hdec u
      rw [Option.some.inj hu, hdec t] at hdecu
      exact (Option.some.inj hdecu).symm
    rw [← CbcEncryptor.fed_nil]
    exact CipherSource.givesRetained (CbcEncryptor.firm c iv) (CbcEncryptor.early_nil c iv)
      (CbcEncryptor.wholeOutput?_fed c iv) h hr rfl hinj
  · intro c iv x hc hx
    have hinj (u : Bytes) (hu : c.decryptPadded? iv u = some x) : u = t := by
      rw [(BlockCipher.decryptPadded?_eq_some_iff hc).1 hu, ← (BlockCipher.decryptPadded?_eq_some_iff hc).1 hx]
    rw [← CbcDecryptor.fed_nil]
    exact CipherSource.givesRetained (CbcDecryptor.firm c iv) (CbcDecryptor.early_nil c iv)
      (CbcDecryptor.wholeOutput?_fed c iv) h hr hx hinj

/-! ### Runs of four reads -/

/-- The text of three bytes.  The read that comes to the middle stalls, or the one that comes to the end, or neither. -/
def halves (middle last : Bool) : StallingSource := .ofPortions [⟨[81, 85], middle⟩, ⟨[74, 68], last⟩]

theorem grants_halves (middle last : Bool) : Grants (halves middle last) [81, 85, 74, 68] :=
  StallingSource.grants (by simp)

def fourReads : List (Nat × Buffer × Host) := List.replicate 4 (8, .empty, .start)

def halvesCipher : BlockCipher := .masking [4, 16] (by decide)

/-- Through a decoder. -/
def decodedHalves (middle last : Bool) : Base64Source StallingSource := .new (halves middle last) .standard

/-- Through an encryptor. -/
def encryptedHalves (middle last : Bool) : CipherSource CbcEncryptor StallingSource :=
  .new (halves middle last) (.new halvesCipher [1, 85])

/-- Through a decryptor. -/
def decryptedHalves (middle last : Bool) : CipherSource CbcDecryptor StallingSource :=
  .new (halves middle last) (.new halvesCipher [1, 85])

/-- A stall in the middle costs the decoder nothing, and the cipher the first half. -/
theorem given_of_halves : Grants (halves true false) [81, 85, 74, 68] ∧
    (∀ r ∈ fourReads, 0 < r.1 ∧ r.1 < maxRequestLength) ∧ halvesCipher.Invertible ∧
    (∃ pieces, List.Forall₂ Gave (fourReads.zip (readMany fourReads (decodedHalves true false)).1) pieces ∧
      pieces.flatten = [65, 66, 67]) ∧
    (∃ pieces, List.Forall₂ Gave (fourReads.zip (readMany fourReads (encryptedHalves true false)).1) pieces ∧
      pieces.flatten = halvesCipher.encryptPadded [1, 85] [74, 68]) ∧
    (∃ pieces, List.Forall₂ Gave (fourReads.zip (readMany fourReads (decryptedHalves true false)).1) pieces ∧
      halvesCipher.decryptPadded? [1, 85] [74, 68] = some pieces.flatten) := by
  have hr : ∀ r ∈ fourReads, 0 < r.1 ∧ r.1 < maxRequestLength := by decide
  have hc : halvesCipher.Invertible := BlockCipher.invertible_masking _
  obtain ⟨htext, henc, hdec⟩ := given_of_grants (grants_halves true false) hr
  refine ⟨grants_halves true false, hr, hc, ?_, ?_, ?_⟩
  · have hx : Base64.Engine.standard.decode (Base64.Quantum.ofBytes [81, 85, 74, 68]) = .ok [65, 66, 67] := by
      decide +kernel
    obtain ⟨pieces, hgave, -, hend, -⟩ := htext .standard [65, 66, 67] rfl hx
    have hnone : ∃ o ∈ (readMany fourReads (decodedHalves true false)).1, o.result = .ok none := by decide +kernel
    exact ⟨pieces, hgave, (hend hnone).1⟩
  · obtain ⟨pieces, hgave, hend, -⟩ := henc halvesCipher [1, 85] hc
    have hnone : ∃ o ∈ (readMany fourReads (encryptedHalves true false)).1, o.result = .ok none := by decide +kernel
    have hretained : retained (readMany fourReads (CipherSource.new (Traced.start (halves true false))
        (CbcEncryptor.new halvesCipher [1, 85]))).2.inner.fetches = [74, 68] := by decide +kernel
    obtain ⟨-, hmade, -⟩ := hend hnone
    rw [hretained] at hmade
    exact ⟨pieces, hgave, (Option.some.inj hmade).symm⟩
  · obtain ⟨pieces, hgave, hend, -⟩ := hdec halvesCipher [1, 85] [84, 16, 31] hc (by decide +kernel)
    have hnone : ∃ o ∈ (readMany fourReads (decryptedHalves true false)).1, o.result = .ok none := by decide +kernel
    have hretained : retained (readMany fourReads (CipherSource.new (Traced.start (halves true false))
        (CbcDecryptor.new halvesCipher [1, 85]))).2.inner.fetches = [74, 68] := by decide +kernel
    obtain ⟨-, hmade, -⟩ := hend hnone
    rw [hretained] at hmade
    exact ⟨pieces, hgave, hmade⟩

/-- What the four reads append. -/
def appended {σ : Type} [ByteSource σ] (s : σ) : List Bytes := (readMany fourReads s).1.map fun o => o.buffer.toList

/-- Which errors the four reads find. -/
def errors {σ : Type} [ByteSource σ] (s : σ) : List (Option Error) :=
  (readMany fourReads s).1.map fun o =>
    match o.result with
    | .error e => some e
    | .ok _ => none

/-- Without a stall all is given.  With one in the middle the encryption is that of the second half, and with one at the
end the text is malformed. -/
theorem lost_to_stalls :
    (Grants (halves false false) [81, 85, 74, 68] ∧ Grants (halves true false) [81, 85, 74, 68] ∧
      Grants (halves false true) [81, 85, 74, 68]) ∧
    (errors (encryptedHalves false false) = [none, none, none, none] ∧
      (appended (encryptedHalves false false)).flatten = halvesCipher.encryptPadded [1, 85] [81, 85, 74, 68]) ∧
    (errors (encryptedHalves true false) = [some (.timedOut .zero), none, none, none] ∧
      (appended (encryptedHalves true false)).flatten = halvesCipher.encryptPadded [1, 85] [74, 68]) ∧
    halvesCipher.encryptPadded [1, 85] [74, 68] ≠ halvesCipher.encryptPadded [1, 85] [81, 85, 74, 68] ∧
    (errors (decodedHalves false false) = [none, none, none, none] ∧
      (appended (decodedHalves false false)).flatten = [65, 66, 67]) ∧
    errors (decodedHalves false true) = [some (.timedOut .zero), some (.malformedStream (.trailingSymbols 4)),
      some (.malformedStream .alreadyMalformed), some (.malformedStream .alreadyMalformed)] := by
  refine ⟨⟨grants_halves .., grants_halves .., grants_halves ..⟩, ⟨?_, ?_⟩, ⟨?_, ?_⟩, ?_, ⟨?_, ?_⟩, ?_⟩
  all_goals decide +kernel

end Conduit
