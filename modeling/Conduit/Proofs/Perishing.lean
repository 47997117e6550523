import Conduit.Memory.Source
import Conduit.Proofs.Base64.OnDemand

/-!
# Streams that are malformed for good

A source whose stream is malformed may still hold bytes from before.  `Perished` says that it has nothing else to give:
every read finds the stream malformed, or gives all that it was asked for out of so many bytes.  What can be read is
used up by that, so `Perished` is the largest property of a source and a number of bytes that its reads keep
(`readMany_of_perished`).  A source is `Honest` if finding its stream malformed always means that.
-/

namespace Conduit

section

variable {σ : Type}

/-- The read has found the stream malformed and appended nothing. -/
def Rejected (b : Buffer) (o : ReadOutcome σ) : Prop :=
  (∃ fault, o.result = .error (.malformedStream fault)) ∧ o.buffer = b

/-- The read has appended all `n` bytes that were asked for. -/
def Granted (n : Nat) (b : Buffer) (o : ReadOutcome σ) : Prop :=
  o.result = .ok (some n) ∧ ∃ piece, piece.length = n ∧ o.buffer.toList = b.toList ++ piece

/-- How many bytes the read has appended. -/
def given (o : ReadOutcome σ) : Nat :=
  match o.result with
  | .ok (some k) => k
  | _ => 0

theorem Rejected.given_eq {b : Buffer} {o : ReadOutcome σ} (h : Rejected b o) : given o = 0 := by
  obtain ⟨⟨fault, hr⟩, -⟩ := h
  simp only [given, hr]

/-- Moving bytes that are there grants them. -/
theorem granted_of_moveTo {n : Nat} {source : Buffer} (h : n ≤ source.length) (s : σ) (b : Buffer) (host : Host) :
    Granted n b ⟨.ok (some n), s, (source.moveTo n b).1, host⟩ := by
  refine ⟨rfl, source.toList.take n, ?_, Buffer.toList_moveTo_fst ..⟩
  rw [List.length_take, Buffer.length_toList]
  exact Nat.min_eq_left h

theorem Granted.given_eq {n : Nat} {b : Buffer} {o : ReadOutcome σ} (h : Granted n b o) : given o = n := by
  simp only [given, h.1]

variable [ByteSource σ]

/-- Reads of at most `limit` bytes from such sources are rejected, or granted and paid for from `w` bytes. -/
def Perishing (limit : Nat) (P : Nat → σ → Prop) : Prop :=
  ∀ {w : Nat} {s : σ}, P w s → ∀ {n : Nat}, 0 < n → n ≤ limit → ∀ (b : Buffer) (host : Host),
    let o := ByteSource.read s n b host
    (Rejected b o ∧ P w o.source) ∨ (n ≤ w ∧ Granted n b o ∧ P (w - n) o.source)

/-- The stream of the source is malformed for good, and at most `w` bytes of it are still to come. -/
def Perished (limit w : Nat) (s : σ) : Prop := ∃ P : Nat → σ → Prop, Perishing limit P ∧ P w s

theorem perishing_perished (limit : Nat) : Perishing limit (Perished limit : Nat → σ → Prop) := by
  rintro w s ⟨P, hP, hs⟩ n hn hl b host
  rcases hP hs hn hl b host with ⟨hr, hs⟩ | ⟨hw, hg, hs⟩
  · exact .inl ⟨hr, P, hP, hs⟩
  · exact .inr ⟨hw, hg, P, hP, hs⟩

/-- Such a source does not end. -/
theorem Perished.not_ended {limit w : Nat} {s : σ} (h : Perished limit w s) {n : Nat} (hn : 0 < n) (hl : n ≤ limit)
    (b : Buffer) (host : Host) : (ByteSource.read s n b host).result ≠ .ok none := by
  intro hr
  rcases perishing_perished limit h hn hl b host with ⟨⟨⟨fault, he⟩, -⟩, -⟩ | ⟨-, ⟨hok, -⟩, -⟩
  · cases hr.symm.trans he
  · cases hr.symm.trans hok

theorem Perished.mono {limit limit' w : Nat} (hl : limit' ≤ limit) {s : σ} (h : Perished limit w s) :
    Perished limit' w s := by
  obtain ⟨P, hP, hs⟩ := h
  exact ⟨P, fun h _ hn hle => hP h hn (Nat.le_trans hle hl), hs⟩

/-- However often it is read, the source gives at most `w` bytes, and every read that gives any gives all. -/
theorem readMany_of_perished {limit w : Nat} {s : σ} (h : Perished limit w s) {reads : List (Nat × Buffer × Host)}
    (hr : ∀ r ∈ reads, 0 < r.1 ∧ r.1 ≤ limit) :
    (∀ r ∈ reads.zip (readMany reads s).1, Rejected r.1.2.1 r.2 ∨ (0 < w ∧ Granted r.1.1 r.1.2.1 r.2)) ∧
      ((readMany reads s).1.map given).sum ≤ w := by
  induction reads generalizing s w with
  | nil => exact ⟨fun r hr => (List.not_mem_nil hr).elim, Nat.zero_le w⟩
  | cons r reads ih =>
    obtain ⟨n, b, host⟩ := r
    obtain ⟨hn, hl⟩ := hr _ List.mem_cons_self
    have hrest : ∀ r ∈ reads, 0 < r.1 ∧ r.1 ≤ limit := by
      intro r hm
      exact hr r (List.mem_cons_of_mem _ hm)
    simp only [readMany, List.zip_cons_cons, List.map_cons, List.sum_cons]
    have hn : 0 < n := hn
    have hl : n ≤ limit := hl
    rcases perishing_perished limit h hn hl b host with ⟨hread, hs⟩ | ⟨hw, hread, hs⟩
    · -- rejected, and the other reads are still bounded by `w`
      obtain ⟨hall, hsum⟩ := ih hs hrest
      refine ⟨?_, by rw [hread.given_eq]; omega⟩
      intro r hm
      rcases List.mem_cons.1 hm with rfl | hm
      · exact .inl hread
      · exact hall r hm
    · -- granted, and `n` bytes fewer are left for the other reads
      obtain ⟨hall, hsum⟩ := ih hs hrest
      refine ⟨?_, by rw [hread.given_eq]; omega⟩
      intro r hm
      rcases List.mem_cons.1 hm with rfl | hm
      · exact .inr ⟨by omega, hread⟩
      · exact (hall r hm).imp_right (And.imp_left (by omega))

/-- Reads lead from such sources to such sources.  When one of at most `limit` bytes finds the stream malformed, it
appends nothing and the stream is malformed for good, but for what the source still holds. -/
structure Honest (limit : Nat) (held : σ → Nat) (T : σ → Prop) : Prop where
  kept {s : σ} (h : T s) (n : Nat) (b : Buffer) (host : Host) : T (ByteSource.read s n b host).source
  perished {s : σ} (h : T s) {n : Nat} (hn : 0 < n) (hl : n ≤ limit) {b : Buffer} {host : Host} {fault : StreamFault}
    (hr : (ByteSource.read s n b host).result = .error (.malformedStream fault)) :
    (ByteSource.read s n b host).buffer = b ∧
      Perished limit (held (ByteSource.read s n b host).source) (ByteSource.read s n b host).source

theorem Honest.mono {limit limit' : Nat} (hl : limit' ≤ limit) {held : σ → Nat} {T : σ → Prop}
    (h : Honest limit held T) : Honest limit' held T where
  kept := h.kept
  perished hs _ hn hle _ _ _ hr :=
    ⟨(h.perished hs hn (Nat.le_trans hle hl) hr).1, (h.perished hs hn (Nat.le_trans hle hl) hr).2.mono hl⟩

/-- A source that never finds its stream malformed itself, like a channel, a file or memory, is honest. -/
theorem honest_of_not_malformed {limit : Nat}
    (h : ∀ (s : σ) (n : Nat) (b : Buffer) (host : Host) (fault : StreamFault),
      (ByteSource.read s n b host).result ≠ .error (.malformedStream fault)) :
    Honest limit (fun _ : σ => 0) (fun _ => True) where
  kept _ _ _ _ := trivial
  perished {s} _ {n} _ _ {b host fault} hr := absurd hr (h s n b host fault)

end

namespace MemorySource

theorem not_malformed (s : MemorySource) (n : Nat) (b : Buffer) (host : Host) (fault : StreamFault) :
    (ByteSource.read s n b host).result ≠ .error (.malformedStream fault) := by
  show (s.read n b host).result ≠ .error (.malformedStream fault)
  intro h
  unfold MemorySource.read at h
  by_cases hl : n ≤ maxRequestLength
  · rw [checkRead_eq_ok_iff.2 hl] at h
    simp only at h
    split at h
    · cases h
    · split at h
      · cases h
      · split at h
        · cases h
        · cases h
  · rw [checkRead, if_pos (Nat.lt_of_not_le hl)] at h
    cases h

end MemorySource

end Conduit
