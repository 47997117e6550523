import Conduit.Proofs.Base64.Serving
import Conduit.Proofs.Cipher.Serving
import Conduit.Proofs.Sending
import Conduit.Stack.Source

/-!
# Reading back what was sent

What was sent through a stack of sinks is read back through the stack of sources that mirrors it, whatever the sizes of
the writes, of the pieces in which the innermost source serves what was stored, and of the reads
(`readEach_of_deliver`).
-/

namespace Conduit

/-! ### Mirrored stacks -/

namespace Coding

/-- What was coded can be decoded. -/
def Reversible : Coding → Prop
  | .base64 e _ => e.readsPadding
  | .encryption c _ => c.Decrypts

/-- How much is asked for at most, one layer below, when so many bytes are to be read. -/
def reach : Coding → Nat → Nat
  | .base64 _ _, n => Base64Source.reach n
  | .encryption c _, n => max n c.blockSize

/-- How much is asked for at most below all layers. -/
def reachAll (codings : List Coding) (n : Nat) : Nat := codings.foldl (fun n c => c.reach n) n

theorem le_reachAll (codings : List Coding) (n : Nat) : n ≤ reachAll codings n := by
  induction codings generalizing n with
  | nil => exact Nat.le_refl _
  | cons c codings ih =>
    have hc : n ≤ c.reach n := by
      cases c with
      | base64 e segmented =>
        simp only [reach, Base64Source.reach, Base64.groupSize, Base64.quantumSize]
        omega
      | encryption c iv => exact Nat.le_max_left ..
    exact Nat.le_trans hc (ih _)

variable {ℓ : Type}

/-- A fresh stack of sources that undo the codings. -/
def source (leaf : ℓ) : (codings : List Coding) → SourceOver CbcDecryptor ℓ (codings.map layer)
  | [] => leaf
  | .base64 e _ :: codings => Base64Source.new (source leaf codings) e
  | .encryption c iv :: codings => CipherSource.new (source leaf codings) (CbcDecryptor.new c iv)

theorem flatten_of_segments {segmented : Bool} {x : Bytes} {segments : List Bytes}
    (h : Base64Sink.Segments segmented x segments) : segments.flatten = x := by
  cases segmented with
  | true => exact h
  | false =>
    obtain rfl : segments = [x] := h
    simp

/-- Over a source that serves a coding of `x`, the stack serves `x`. -/
theorem serves_source [ByteSource ℓ] {codings : List Coding} (hr : ∀ c ∈ codings, c.Reversible) {limit : Nat}
    (hl : reachAll codings limit < maxRequestLength) {leaf : ℓ} {x t : Bytes} (hc : Codes codings x t)
    (h : Serves (reachAll codings limit) leaf t) : Serves limit (source leaf codings) x := by
  induction codings generalizing limit x with
  | nil =>
    obtain rfl : t = x := hc
    exact h
  | cons c codings ih =>
    have hlt := Nat.lt_of_le_of_lt (le_reachAll (c :: codings) limit) hl
    have hrest : ∀ c ∈ codings, c.Reversible := by
      intro c hc
      exact hr c (List.mem_cons_of_mem _ hc)
    cases c with
    | base64 e segmented =>
      have he : e.readsPadding := hr _ List.mem_cons_self
      obtain ⟨segments, hs, hc⟩ := hc
      obtain rfl := flatten_of_segments hs
      exact Base64Source.serves_new (ih hrest hl hc h) (e.length_flatMap_encode he segments)
        (Base64.Engine.decode_flatMap_encode he segments) hlt
    | encryption c iv =>
      have hdec : c.Decrypts := hr _ List.mem_cons_self
      exact CipherSource.serves_new hdec (ih hrest hl hc h) (Nat.le_of_lt hlt)

end Coding

/-! ### Runs -/

/-- Reads, one after the other, into the same buffer: their results and what the buffer holds then. -/
def readEach {σ : Type} [ByteSource σ] : (reads : List (Nat × Host)) → σ → Buffer →
    List (Except Error (Option Nat)) × Buffer
  | [], _, b => ([], b)
  | (n, host) :: reads, s, b =>
    let o := ByteSource.read s n b host
    let rest := readEach reads o.source o.buffer
    (o.result :: rest.1, rest.2)

section

variable {σ : Type} [ByteSource σ] {limit : Nat}

private theorem readEach_of_ended {s : σ} (h : Serves limit s []) {reads : List (Nat × Host)}
    (hr : ∀ r ∈ reads, 0 < r.1 ∧ r.1 ≤ limit) (b : Buffer) :
    (readEach reads s b).1 = List.replicate reads.length (.ok none) ∧ (readEach reads s b).2.toList = b.toList := by
  induction reads generalizing s b with
  | nil => exact ⟨rfl, rfl⟩
  | cons r reads ih =>
    obtain ⟨hn, hl⟩ := hr r List.mem_cons_self
    rcases (serving_serves limit).read h hn hl b r.2 with ⟨-, hres, hb, hs⟩ | ⟨k, hk, -, hx, -⟩
    · obtain ⟨h₁, h₂⟩ := ih hs (fun r hm => hr r (List.mem_cons_of_mem _ hm)) (ByteSource.read s r.1 b r.2).buffer
      refine ⟨?_, h₂.trans hb⟩
      show _ :: (readEach reads _ _).1 = _
      rw [h₁, hres, List.length_cons, List.replicate_succ]
    · exact absurd hx (Nat.not_le.2 hk)

/-- Reads of a source that serves `x` give pieces of `x`, one with each read, and when all is given none. -/
theorem readEach_of_serves {s : σ} {x : Bytes} (h : Serves limit s x) {reads : List (Nat × Host)}
    (hr : ∀ r ∈ reads, 0 < r.1 ∧ r.1 ≤ limit) (b : Buffer) :
    ∃ (pieces : List Bytes) (ends : Nat) (rest : Bytes),
      (readEach reads s b).1 = pieces.map (fun p => .ok (some p.length)) ++ List.replicate ends (.ok none) ∧
      (∀ p ∈ pieces.zip reads, 0 < p.1.length ∧ p.1.length ≤ p.2.1) ∧
      (readEach reads s b).2.toList = b.toList ++ pieces.flatten ∧ pieces.flatten ++ rest = x ∧
      (ends ≠ 0 ∨ x.length ≤ reads.length → rest = []) := by
  induction reads generalizing s x b with
  | nil =>
    refine ⟨[], 0, x, rfl, by simp, by simp [readEach], rfl, ?_⟩
    intro h
    exact List.length_eq_zero_iff.1 (Nat.le_zero.1 (h.resolve_left (by simp)))
  | cons r reads ih =>
    obtain ⟨hn, hl⟩ := hr r List.mem_cons_self
    have hrest : ∀ r ∈ reads, 0 < r.1 ∧ r.1 ≤ limit := by
      intro r hm
      exact hr r (List.mem_cons_of_mem _ hm)
    rcases (serving_serves limit).read h hn hl b r.2 with ⟨rfl, hres, hb, hs⟩ | ⟨k, hk, hkn, hkx, hres, hb, hs⟩
    · -- nothing is left, so this read and all others give none
      obtain ⟨h₁, h₂⟩ := readEach_of_ended h hr b
      exact ⟨[], reads.length + 1, [], h₁, by simp, by simpa using h₂, rfl, fun _ => rfl⟩
    · obtain ⟨pieces, ends, rest, h₁, h₂, h₃, h₄, h₅⟩ := ih hs hrest (ByteSource.read s r.1 b r.2).buffer
      have hlen : (x.take k).length = k := by rw [List.length_take, Nat.min_eq_left hkx]
      refine ⟨x.take k :: pieces, ends, rest, ?_, ?_, ?_, ?_, ?_⟩
      · show _ :: (readEach reads _ _).1 = _
        rw [h₁, hres, List.map_cons, hlen, List.cons_append]
      · intro p hp
        rcases List.mem_cons.1 hp with rfl | hp
        · rw [hlen]
          exact ⟨hk, hkn⟩
        · exact h₂ p hp
      · rw [List.flatten_cons, ← List.append_assoc, ← hb]
        exact h₃
      · rw [List.flatten_cons, List.append_assoc, h₄, List.take_append_drop]
      · -- the read has given at least one byte
        intro h
        apply h₅
        rw [List.length_cons] at h
        rw [List.length_drop]
        omega

end

/-! ### Round trip -/

open Coding ReceivingSink

/-- The payload of a run of a stack is what the mirrored stack reads from a source that serves what was stored: a piece
of it with each read, in order, and none exactly when all was read; as many reads as it has bytes are enough. -/
theorem readEach_of_deliver {codings : List Coding} (hc : ∀ c ∈ codings, c.Reversible) {limit : Nat}
    (hl : reachAll codings limit < maxRequestLength) {ℓ ℓ' : Type} [ByteSink ℓ] [ReceivingSink ℓ] [ByteSource ℓ']
    {store : ℓ} (hstore : received store = []) {writes : List (Buffer × List Host)} {closes : List Host}
    {s' : SinkOver CbcEncryptor ℓ (codings.map layer)} (hd : deliver writes closes (sink store codings) = some s')
    {leaf : ℓ'} (hs : Serves (reachAll codings limit) leaf (received (SinkOver.leaf _ s')))
    {reads : List (Nat × Host)} (hr : ∀ r ∈ reads, 0 < r.1 ∧ r.1 ≤ limit) (b : Buffer) :
    ∃ (pieces : List Bytes) (ends : Nat) (rest : Bytes),
      (readEach reads (source leaf codings) b).1 =
        pieces.map (fun p => .ok (some p.length)) ++ List.replicate ends (.ok none) ∧
      (∀ p ∈ pieces.zip reads, 0 < p.1.length ∧ p.1.length ≤ p.2.1) ∧
      (readEach reads (source leaf codings) b).2.toList = b.toList ++ pieces.flatten ∧
      pieces.flatten ++ rest = payload writes ∧
      (ends ≠ 0 ∨ (payload writes).length ≤ reads.length → rest = []) := by
  obtain ⟨t, ht, hstored⟩ := codes_of_deliver hd
  rw [hstored, hstore, List.nil_append] at hs
  exact readEach_of_serves (serves_source hc hl ht hs) hr b

/-- Two layers of text around a cipher, the inner one with a segment for each write. -/
def sampleLayers : List Coding :=
  [.base64 .urlSafe false, .encryption (.masking [7, 1, 9] (by decide)) [1, 2, 3], .base64 .standard true]

def sampleParts : List (Buffer × List Host) := [(.ofList [251, 239], [.start]), (.ofList [190, 0, 1], [.start])]

/-- What is stored in memory. -/
def sampleStored : Option (SinkOver CbcEncryptor MemorySink (sampleLayers.map layer)) :=
  deliver sampleParts [.start] (sink (MemorySink.empty .none) sampleLayers)

/-- A source that serves `data`, at most five bytes with a read. -/
def sampleSource (data : Bytes) : MemorySource := ⟨.ofList data, some ⟨5, by decide⟩, .none, 0, false⟩

theorem reversible_sampleLayers : ∀ c ∈ sampleLayers, c.Reversible := by
  intro c hc
  simp only [sampleLayers, List.mem_cons, List.not_mem_nil, or_false] at hc
  rcases hc with rfl | rfl | rfl
  · show Base64.Engine.urlSafe.readsPadding = true
    rfl
  · exact fun x hx => (BlockCipher.invertible_masking _ x hx).1
  · show Base64.Engine.standard.readsPadding = true
    rfl

/-- Five reads of two bytes give the payload of five bytes back. -/
theorem readEach_of_sampleStored : (∀ c ∈ sampleLayers, c.Reversible) ∧ reachAll sampleLayers 2 < maxRequestLength ∧
    ∃ s', sampleStored = some s' ∧
      (readEach (List.replicate 5 (2, .start)) (source (sampleSource (received (SinkOver.leaf _ s'))) sampleLayers)
        .empty).2.toList = payload sampleParts := by
  have hlimit : reachAll sampleLayers 2 < maxRequestLength := by decide
  have hrun : sampleStored.isSome := by decide +kernel
  obtain ⟨s', hs⟩ := Option.isSome_iff_exists.1 hrun
  have hserves := (MemorySource.serves (s := sampleSource (received (SinkOver.leaf _ s'))) rfl rfl).mono
    (Nat.le_of_lt hlimit)
  rw [sampleSource, Buffer.toList_ofList] at hserves
  have hreads : ∀ r ∈ List.replicate 5 (2, Host.start), 0 < r.1 ∧ r.1 ≤ 2 := by decide
  obtain ⟨pieces, ends, rest, -, -, hb, hpayload, hall⟩ :=
    readEach_of_deliver reversible_sampleLayers hlimit rfl hs hserves hreads .empty
  obtain rfl : rest = [] := hall (.inr (by decide +kernel))
  refine ⟨reversible_sampleLayers, hlimit, s', hs, ?_⟩
  rw [sampleSource, hb, ← hpayload, List.append_nil, Buffer.toList_empty, List.nil_append]

end Conduit
