import Conduit.Proofs.Base64.OnDemand
import Conduit.Transfer

/-!
# The texts that can be read

An engine that reads the padding it writes, and lets no bits be set that count for nothing, reads exactly what it can
write: a text is read as `x` if and only if it consists of the texts of segments whose bytes are `x`, one after the
other (`reads_iff`).  So it is with a text that is read to its end from a source (`readToEnd_of_serves`).
-/

namespace Conduit

namespace Base64

theorem Quantum.flatMap_bytes_ofBytes {t : Bytes} (h : t.length % quantumSize = 0) :
    (ofBytes t).flatMap bytes = t := by
  fun_induction ofBytes t with
  | case1 a b c d rest ih =>
    have hr : rest.length % quantumSize = 0 := by
      simp only [List.length_cons, quantumSize] at *
      omega
    rw [List.flatMap_cons, ih hr]
    rfl
  | case2 l hl =>
    rcases l with _ | ⟨a, _ | ⟨b, _ | ⟨c, _ | ⟨d, l⟩⟩⟩⟩
    · rfl
    · simp [quantumSize] at h
    · simp [quantumSize] at h
    · simp [quantumSize] at h
    · exact (hl _ _ _ _ _ rfl).elim

namespace Engine

variable {e : Engine}

/-! ### From bytes to text and back -/

private theorem toNat_ofNat {n : Nat} (h : n < 256) : (UInt8.ofNat n).toNat = n := by
  rw [UInt8.toNat_ofNat']
  exact Nat.mod_eq_of_lt h

/-- The symbols for the bytes with the bits of four numbers are those of the numbers. -/
private theorem quantum_join (v₀ v₁ v₂ v₃ : Fin 64) {x y z : UInt8} (h : join v₀ v₁ v₂ v₃ = [x, y, z]) :
    e.quantum x y z = [v₀, v₁, v₂, v₃].map e.alphabet.symbol := by
  simp only [join, List.cons.injEq, and_true] at h
  obtain ⟨rfl, rfl, rfl⟩ := h
  have hx : (UInt8.ofNat (v₀ * 4 + v₁ / 16)).toNat = v₀ * 4 + v₁ / 16 := toNat_ofNat (by omega)
  have hy : (UInt8.ofNat (v₁ % 16 * 16 + v₂ / 4)).toNat = v₁ % 16 * 16 + v₂ / 4 := toNat_ofNat (by omega)
  have hz : (UInt8.ofNat (v₂ % 4 * 64 + v₃)).toNat = v₂ % 4 * 64 + v₃ := toNat_ofNat (by omega)
  have h₀ : (v₀ * 4 + v₁ / 16 : Nat) / 4 = v₀ := by omega
  have h₁ : (v₀ * 4 + v₁ / 16 : Nat) % 4 * 16 + (v₁ % 16 * 16 + v₂ / 4 : Nat) / 16 = v₁ := by omega
  have h₂ : (v₁ % 16 * 16 + v₂ / 4 : Nat) % 16 * 4 + (v₂ % 4 * 64 + v₃ : Nat) / 64 = v₂ := by omega
  have h₃ : (v₂ % 4 * 64 + v₃ : Nat) % 64 = v₃ := by omega
  simp only [quantum, hx, hy, hz, h₀, h₁, h₂, h₃, List.map_cons, List.map_nil, Fin.ofNat_val_eq_self]

/-- A quantum that can be read is the text of what it is read as. -/
theorem encode_of_decodeLast (hp : e.pads) (ht : e.trailingBits = false) {o : Nat} {q : Quantum} {out : Bytes}
    (h : e.decodeLast o q = .ok out) : e.encode out = q.bytes := by
  obtain ⟨v₀, v₁, ha, hb, ⟨hc, hd, hbits, rfl⟩ | ⟨v₂, hc, hd, hbits, rfl⟩ | ⟨v₂, v₃, hc, hd, rfl⟩⟩ := decodeLast_cases h
  · have hj : join v₀ v₁ (0 : Fin 64) (0 : Fin 64) = [UInt8.ofNat (v₀ * 4 + v₁ / 16), 0, 0] := by
      simp [join, hbits ht]
    have hq := quantum_join (e := e) v₀ v₁ 0 0 hj
    show (e.quantum _ 0 0).take 2 ++ e.filler 2 = q.bytes
    rw [hq, filler, if_pos hp, Quantum.bytes, ← ha, ← hb, hc, hd]
    rfl
  · have hj : join v₀ v₁ v₂ (0 : Fin 64) =
        [UInt8.ofNat (v₀ * 4 + v₁ / 16), UInt8.ofNat (v₁ % 16 * 16 + v₂ / 4), 0] := by
      simp [join, hbits ht]
    have hq := quantum_join (e := e) v₀ v₁ v₂ 0 hj
    show (e.quantum _ _ 0).take 3 ++ e.filler 1 = q.bytes
    rw [hq, filler, if_pos hp, Quantum.bytes, ← ha, ← hb, ← hc, hd]
    rfl
  · have hq := quantum_join (e := e) v₀ v₁ v₂ v₃ rfl
    show e.quantum _ _ _ ++ e.encode [] = q.bytes
    rw [hq, Quantum.bytes, ← ha, ← hb, ← hc, ← hd]
    rfl

/-- A text is read as these bytes: it consists of whole quanta that give them. -/
def Reads (e : Engine) (t x : Bytes) : Prop :=
  t.length % quantumSize = 0 ∧ e.decode (Quantum.ofBytes t) = .ok x

private theorem segments_of_decode (hp : e.pads) (ht : e.trailingBits = false) {qs : List Quantum} {x : Bytes}
    (h : e.decode qs = .ok x) :
    ∃ segments : List Bytes, qs.flatMap Quantum.bytes = segments.flatMap e.encode ∧ x = segments.flatten := by
  induction qs generalizing x with
  | nil =>
    obtain rfl : [] = x := Except.ok.inj h
    exact ⟨[], rfl, rfl⟩
  | cons q qs ih =>
    obtain ⟨out, rest, hq, hqs, rfl⟩ := decode_cons.1 h
    obtain ⟨segments, htext, rfl⟩ := ih hqs
    refine ⟨out :: segments, ?_, rfl⟩
    rw [List.flatMap_cons, List.flatMap_cons, htext, encode_of_decodeLast hp ht hq]

/-- A text can be read exactly if it consists of the texts of segments, and then as the bytes of these. -/
theorem reads_iff (he : e.readsPadding) (ht : e.trailingBits = false) {t x : Bytes} :
    e.Reads t x ↔ ∃ segments : List Bytes, t = segments.flatMap e.encode ∧ x = segments.flatten := by
  constructor
  · rintro ⟨hmod, hd⟩
    obtain ⟨segments, htext, rfl⟩ := segments_of_decode (pads_of_readsPadding he) ht hd
    refine ⟨segments, ?_, rfl⟩
    rw [← htext, Quantum.flatMap_bytes_ofBytes hmod]
  · rintro ⟨segments, rfl, rfl⟩
    exact ⟨length_flatMap_encode he segments, decode_flatMap_encode he segments⟩

/-! ### Reading a text to its end -/

/-- A read of a text that can be read shows bytes of it, or its end. -/
theorem reading_of_reads {t y : Bytes} (h : e.Reads t y) {before n k : Nat} (hn : 0 < n)
    (hk : e.Needs (Quantum.ofBytes t) (before + n) k) :
    e.reading t before n k = if y.length ≤ before then .ended else .bytes ((y.drop before).take n) := by
  obtain ⟨hmod, hd⟩ := h
  rw [← List.take_length (l := Quantum.ofBytes t)] at hd
  obtain ⟨x, z, hx, rfl, hz⟩ := decode_take_of_le hd hk.le_length
  have hcut : before + n ≤ x.length ∨ z = [] := by
    rcases Nat.lt_or_ge x.length (before + n) with hlt | hge
    · right
      rw [hk.enough x hx hlt, Nat.sub_self, Nat.mul_zero, Nat.le_zero_eq] at hz
      exact List.length_eq_zero_iff.1 hz
    · exact .inl hge
  unfold reading
  rw [hx]
  simp only
  rw [if_neg (by simp [hmod])]
  rcases hcut with hge | rfl
  · rw [if_neg (by omega), if_neg (by rw [List.length_append]; omega), List.drop_append_of_le_length (by omega),
      List.take_append_of_le_length (by rw [List.length_drop]; omega)]
  · rw [List.append_nil]

/-- If a read shows the end of a text, the text can be read. -/
theorem reads_of_reading_ended {t : Bytes} {before n k : Nat} (hn : 0 < n)
    (hk : e.Needs (Quantum.ofBytes t) (before + n) k) (h : e.reading t before n k = .ended) :
    ∃ y, e.Reads t y ∧ y.length ≤ before := by
  unfold reading at h
  split at h
  · cases h
  · rename_i x hx
    split at h
    · cases h
    · rename_i hmod
      split at h
      · rename_i hle
        have hlt : x.length < before + n := by omega
        refine ⟨x, ⟨?_, ?_⟩, hle⟩
        · by_contra hne
          exact hmod ⟨hlt, hne⟩
        · rw [hk.enough x hx hlt, List.take_length] at hx
          exact hx
      · cases h

/-- As long as reads show bytes, fewer were asked for than the quanta can give. -/
theorem lt_of_reading_bytes {t z : Bytes} {before n k : Nat} (hk : e.Needs (Quantum.ofBytes t) (before + n) k)
    (h : e.reading t before n k = .bytes z) : before < groupSize * (Quantum.ofBytes t).length := by
  unfold reading at h
  split at h
  · cases h
  · rename_i x hx
    split at h
    · cases h
    · split at h
      · cases h
      · rename_i hlt
        have hlen := length_decode_le hx
        have hle := hk.le_length
        rw [List.length_take, Nat.min_eq_left hle] at hlen
        have hmul := Nat.mul_le_mul_left groupSize hle
        omega

end Engine

end Base64

namespace Base64Source

open Base64

variable {σ : Type} [ByteSource σ] {e : Engine} {t : Bytes}

/-- Reading the rest of a text gives the bytes behind those that were asked for, or finds that it cannot be read. -/
theorem Follows.readRest {rounds given k : Nat} {x : Bytes} {s : Base64Source σ} (h : s.Follows e t given given k x)
    (hr : groupSize * (Quantum.ofBytes t).length - given < rounds) (b : Buffer) (host : Host) :
    ∃ o, readRest rounds s b host = some o ∧
      ((∃ y, e.Reads t y ∧ ∃ b', o.result = .ok b' ∧ b'.toList = b.toList ++ y.drop given) ∨
        (¬ ∃ y, e.Reads t y) ∧ ∃ fault, o.result = .error (.malformedStream fault)) := by
  induction rounds generalizing s given k x b host with
  | zero => omega
  | succ rounds ih =>
    have hn : 0 < segmentSize := by decide
    obtain ⟨k', hk', hshown, hstate⟩ := h.read hn (by decide) b host
    have hreads {y : Bytes} (hy : e.Reads t y) := Engine.reading_of_reads hy hn hk'
    rw [Conduit.readRest]
    rcases hout : ByteSource.read s segmentSize b host with ⟨result, s', b', host'⟩
    replace hout : s.read segmentSize b host = ⟨result, s', b', host'⟩ := hout
    rw [hout] at hshown hstate
    cases hreading : e.reading t given segmentSize k' with
    | malformed =>
      rw [hreading] at hshown hreads
      obtain ⟨⟨fault, hres⟩, -⟩ := hshown
      obtain rfl : result = _ := hres
      refine ⟨_, rfl, .inr ⟨?_, fault, rfl⟩⟩
      rintro ⟨y, hy⟩
      have := hreads hy
      split at this
      · cases this
      · cases this
    | ended =>
      obtain ⟨y, hy, hle⟩ := Engine.reads_of_reading_ended hn hk' hreading
      rw [hreading] at hshown
      obtain ⟨hres, hb⟩ := hshown
      obtain rfl : result = _ := hres
      obtain rfl : b' = b := hb
      exact ⟨_, rfl, .inl ⟨y, hy, b', rfl, by rw [List.drop_eq_nil_of_le hle, List.append_nil]⟩⟩
    | bytes z =>
      have hlt := Engine.lt_of_reading_bytes hk' hreading
      rw [hreading] at hshown hreads
      obtain ⟨hres, hb⟩ := hshown
      obtain rfl : result = _ := hres
      rcases hstate with ⟨-, x', hs⟩ | ⟨⟨err, herr⟩, -⟩
      · obtain ⟨o, ho, hcases⟩ := ih hs (by omega) b' host'
        refine ⟨o, ho, hcases.imp_left ?_⟩
        rintro ⟨y, hy, b'', hok, hb''⟩
        refine ⟨y, hy, b'', hok, ?_⟩
        have hz := hreads hy
        split at hz
        · cases hz
        · obtain rfl := Reading.bytes.inj hz
          replace hb : b'.toList = b.toList ++ (y.drop given).take segmentSize := hb
          rw [hb'', hb, List.append_assoc, ← List.drop_drop, List.take_append_drop]
      · cases herr

end Base64Source

open Base64 Base64Source

/-- Reading a text to its end succeeds exactly if it consists of the texts of segments, whatever pieces it comes in, and
gives their bytes; any other text is found to be malformed.  No more reads are needed than the text has bytes, and one
for its end. -/
theorem readToEnd_of_serves {e : Engine} (he : e.readsPadding) (ht : e.trailingBits = false) {σ : Type} [ByteSource σ]
    {inner : σ} {t : Bytes} (h : Serves maxRequestLength inner t) (host : Host) :
    ∃ o, (∀ rounds, t.length < rounds → readToEnd rounds (Base64Source.new inner e) host = some o) ∧
      ((∃ b, o.result = .ok b) ↔ ∃ segments : List Bytes, t = segments.flatMap e.encode) ∧
      (∀ segments : List Bytes, t = segments.flatMap e.encode →
        ∃ b, o.result = .ok b ∧ b.toList = segments.flatten) ∧
      ((¬ ∃ segments : List Bytes, t = segments.flatMap e.encode) →
        ∃ fault, o.result = .error (.malformedStream fault)) := by
  have hbound : groupSize * (Quantum.ofBytes t).length - 0 < t.length + 1 := by
    rw [Quantum.length_ofBytes]
    simp only [groupSize, quantumSize]
    omega
  obtain ⟨o, ho, hcases⟩ := (follows_new h e).readRest hbound .empty host
  have hreads (segments : List Bytes) (h : t = segments.flatMap e.encode) : e.Reads t segments.flatten :=
    (Engine.reads_iff he ht).2 ⟨segments, h, rfl⟩
  refine ⟨o, fun rounds hr => readToEnd_mono hr ho, ?_⟩
  rcases hcases with ⟨y, hy, b, hok, hb⟩ | ⟨hno, fault, herr⟩
  · obtain ⟨segments, htext, -⟩ := (Engine.reads_iff he ht).1 hy
    refine ⟨iff_of_true ⟨b, hok⟩ ⟨segments, htext⟩, ?_, fun hne => absurd ⟨segments, htext⟩ hne⟩
    intro segments htext
    obtain rfl : y = segments.flatten := Except.ok.inj (hy.2.symm.trans (hreads segments htext).2)
    exact ⟨b, hok, by simpa using hb⟩
  · have hnot : ¬ ∃ segments : List Bytes, t = segments.flatMap e.encode := by
      rintro ⟨segments, htext⟩
      exact hno ⟨_, hreads segments htext⟩
    refine ⟨iff_of_false ?_ hnot, fun segments htext => absurd ⟨segments, htext⟩ hnot, fun _ => ⟨fault, herr⟩⟩
    rintro ⟨b, hok⟩
    rw [herr] at hok
    cases hok

/-- A source that serves `data`, three bytes with a read. -/
def sourceOfThrees (data : Bytes) : MemorySource := ⟨.ofList data, some ⟨3, by decide⟩, .none, 0, false⟩

/-- Two padded segments. -/
def paddedTwice : Bytes := [89, 81, 61, 61, 89, 109, 77, 61]

/-- A padded quantum with a bit set that counts for nothing. -/
def paddedLoosely : Bytes := [89, 82, 61, 61]

/-- The segments are read one after the other; the loose quantum is no text of anything. -/
theorem readToEnd_padded :
    (Engine.standard.readsPadding ∧ Engine.standard.trailingBits = false ∧
      ∃ o b, readToEnd 9 (Base64Source.new (sourceOfThrees paddedTwice) .standard) .start = some o ∧
        o.result = .ok b ∧ b.toList = [97, 98, 99]) ∧
    (Engine.urlSafe.readsPadding ∧ Engine.urlSafe.trailingBits = false ∧
      ∃ o fault, readToEnd 5 (Base64Source.new (sourceOfThrees paddedLoosely) .urlSafe) .start = some o ∧
        o.result = .error (.malformedStream fault)) := by
  have hserves (data : Bytes) : Serves maxRequestLength (sourceOfThrees data) data := by
    have h := MemorySource.serves (s := sourceOfThrees data) rfl rfl
    rwa [sourceOfThrees, Buffer.toList_ofList] at h
  refine ⟨⟨rfl, rfl, ?_⟩, ⟨rfl, rfl, ?_⟩⟩
  · obtain ⟨o, ho, -, hall, -⟩ := readToEnd_of_serves (e := .standard) rfl rfl (hserves paddedTwice) .start
    obtain ⟨b, hb, hlist⟩ := hall [[97], [98, 99]] rfl
    exact ⟨o, b, ho 9 (by decide), hb, hlist⟩
  · obtain ⟨o, ho, -, -, hno⟩ := readToEnd_of_serves (e := .urlSafe) rfl rfl (hserves paddedLoosely) .start
    obtain ⟨fault, hf⟩ := hno (by
      rintro ⟨segments, hs⟩
      have hread := (Engine.reads_iff (e := .urlSafe) rfl rfl).2 ⟨segments, hs, rfl⟩
      cases hread.2)
    exact ⟨o, fault, ho 5 (by decide), hf⟩

end Conduit
