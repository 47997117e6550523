import Conduit.Base64.Source
import Conduit.Proofs.Base64.Decoding
import Conduit.Proofs.Serving

/-!
# What a Base64 source serves

A decoder over a source that serves a text serves the bytes of which it is the text (`serves_new`), wherever the source
cuts the text: between two reads fewer than four of its bytes wait to be decoded.  A read of the source that fails
changes neither these nor the bytes that are decoded, so nothing is lost (`owes_new`).
-/

namespace Conduit

namespace Base64Source

open Base64

variable {σ : Type} [ByteSource σ]

/-- The text to ask for, at most, so that `n` bytes can be read. -/
def reach (n : Nat) : Nat := (n + 2) / groupSize * quantumSize

theorem request_le_reach (n m : Nat) : request (n - m) ≤ reach n := by
  have : (n - m + groupSize - 1) / groupSize ≤ (n + 2) / groupSize := Nat.div_le_div_right (by simp [groupSize])
  simp only [reach, request, quantumSize] at *
  omega

/-- The bytes decoded so far and those of the text that is still to be read are `x`. -/
def Decodes (limit : Option Nat) (s : Base64Source σ) (x : Bytes) : Prop :=
  s.closed = false ∧ s.malformed = false ∧ s.encoded.length < quantumSize ∧ ∃ t z, Owes limit s.inner t ∧
    (s.encoded.toList ++ t).length % quantumSize = 0 ∧
      s.engine.decode (Quantum.ofBytes (s.encoded.toList ++ t)) = .ok z ∧ s.decoded.toList ++ z = x ∧
        (s.exhausted = true → z = [])

/-- The whole quanta in front of a text that can be read are read, and the rest can be read after them. -/
theorem decodeWhole_eq {e : Engine} {text : Buffer} {t z : Bytes}
    (hm : (text.toList ++ t).length % quantumSize = 0)
    (hd : e.decode (Quantum.ofBytes (text.toList ++ t)) = .ok z) :
    ∃ out rest z', decodeWhole e text = (.ok out, rest) ∧ rest.length < quantumSize ∧
      (rest.toList ++ t).length % quantumSize = 0 ∧ e.decode (Quantum.ofBytes (rest.toList ++ t)) = .ok z' ∧
        out ++ z' = z := by
  have hcut := Nat.div_add_mod' text.length quantumSize
  have haligned : (text.take (text.length / quantumSize * quantumSize)).length % quantumSize = 0 := by
    rw [Buffer.length_take, Nat.min_eq_left (Nat.div_mul_le_self ..), Nat.mul_mod_left]
  have hsplit : text.toList ++ t = text.take (text.length / quantumSize * quantumSize) ++
      ((text.drop (text.length / quantumSize * quantumSize)).toList ++ t) := by
    rw [Buffer.toList_drop, Buffer.take, ← List.append_assoc, List.take_append_drop]
  rw [hsplit, Quantum.ofBytes_append haligned] at hd
  obtain ⟨out, z', hout, hz, rfl⟩ := Engine.decode_append.1 hd
  refine ⟨out, _, z', by rw [decodeWhole, hout], ?_, ?_, hz, rfl⟩
  · rw [Buffer.length_drop]
    simp only [quantumSize] at *
    omega
  · rw [hsplit, List.length_append, Nat.add_mod, haligned] at hm
    simpa using hm

/-- One step of filling: the read has failed and nothing was lost, the text has ended between quanta, or more of it was
read and can be decoded. -/
private theorem Decodes.pull {limit : Option Nat} {s : Base64Source σ} {x : Bytes} (h : s.Decodes limit x)
    (he : s.exhausted = false) {m : Nat} (hm : 0 < m) (hl : ∀ l ∈ limit, m ≤ l) (host : Host) :
    let o := ByteSource.read s.inner m s.encoded host
    (limit = none ∧ (∃ e, o.result = .error e) ∧
        { s with inner := o.source, encoded := o.buffer }.Decodes limit x) ∨
      (o.result = .ok none ∧ o.buffer.isEmpty = true ∧
        { s with inner := o.source, encoded := o.buffer, exhausted := true }.Decodes limit x) ∨
      ∃ k out rest, o.result = .ok (some k) ∧ decodeWhole s.engine o.buffer = (.ok out, rest) ∧
        { s with inner := o.source, encoded := rest, decoded := s.decoded.append out }.Decodes limit x := by
  obtain ⟨ho, hf, hlen, t, z, hs, hmod, hd, rfl, -⟩ := h
  rcases (lasting_owes limit).read hs hm hl s.encoded host with
    (⟨rfl, hr, hb, hs'⟩ | ⟨k, -, -, hk, hr, hb, hs'⟩) | ⟨hlimit, herr, hb, hs'⟩
  · -- fewer than four bytes, and a whole number of quanta
    have hnil : s.encoded.toList = [] := by
      rw [List.append_nil, Buffer.length_toList] at hmod
      rw [← Buffer.length_eq_zero_iff]
      simp only [quantumSize] at *
      omega
    rw [hnil] at hb hd
    obtain rfl : [] = z := Except.ok.inj hd
    refine .inr (.inl ⟨hr, Buffer.isEmpty_iff.2 hb, ho, hf, ?_, [], [], hs', ?_, ?_, rfl, fun _ => rfl⟩)
    · rw [← Buffer.length_toList, hb]
      decide
    · rw [hb]
      rfl
    · rw [hb]
      rfl
  · have htext : s.encoded.toList ++ t = (ByteSource.read s.inner m s.encoded host).buffer.toList ++ t.drop k := by
      rw [hb, List.append_assoc, List.take_append_drop]
    rw [htext] at hmod hd
    obtain ⟨out, rest, z', hw, hrest, hmod', hd', rfl⟩ := decodeWhole_eq hmod hd
    refine .inr (.inr ⟨k, out, rest, hr, hw, ho, hf, hrest, t.drop k, z', hs', hmod', hd', ?_, fun h => ?_⟩)
    · rw [Buffer.toList_append, List.append_assoc]
    · rw [he] at h
      cases h
  · refine .inl ⟨hlimit, herr, ho, hf, ?_, t, z, hs', ?_, ?_, rfl, fun h => ?_⟩
    · rwa [hb]
    · rwa [hb]
    · rwa [hb]
    · rw [he] at h
      cases h

/-- Filling goes on until there is enough or the text has ended, unless it fails, and loses nothing. -/
theorem Decodes.fill {limit : Option Nat} {s : Base64Source σ} {x : Bytes} (h : s.Decodes limit x) {n : Nat}
    (hreq : ∀ l ∈ limit, reach n ≤ l) (host : Host) : (s.fill n host).endpoint.Decodes limit x ∧
      (((s.fill n host).result = .ok () ∧
          (n ≤ (s.fill n host).endpoint.decoded.length ∨ (s.fill n host).endpoint.exhausted = true)) ∨
        limit = none ∧ ∃ e, (s.fill n host).result = .error e) := by
  have hpull (s : Base64Source σ) (host : Host) (h : s.Decodes limit x)
      (hlt : s.decoded.length < n ∧ s.exhausted = false) :=
    h.pull hlt.2 (request_pos (Nat.sub_pos_of_lt hlt.1))
      (fun l hl => Nat.le_trans (request_le_reach ..) (hreq l hl)) host
  fun_induction Base64Source.fill s n host with
  | case1 s host hlt e inner encoded host' hr =>
    have hp := hpull s host h hlt
    simp only [hr] at hp
    rcases hp with ⟨hlimit, -, hs⟩ | ⟨hk, -⟩ | ⟨k, out, rest, hk, -⟩
    · exact ⟨hs, .inr ⟨hlimit, e, rfl⟩⟩
    · cases hk
    · cases hk
  | case2 s host hlt inner encoded host' hr s' he =>
    have hp := hpull s host h hlt
    simp only [hr] at hp
    rcases hp with ⟨-, ⟨e, hk⟩, -⟩ | ⟨-, -, hs⟩ | ⟨k, out, rest, hk, -⟩
    · cases hk
    · exact ⟨hs, .inl ⟨rfl, .inr rfl⟩⟩
    · cases hk
  | case3 s host hlt inner encoded host' hr s' he =>
    have hp := hpull s host h hlt
    simp only [hr] at hp
    rcases hp with ⟨-, ⟨e, hk⟩, -⟩ | ⟨-, he', -⟩ | ⟨k, out, rest, hk, -⟩
    · cases hk
    · exact absurd he' he
    · cases hk
  | case4 s host hlt k inner encoded host' hr e rest hd =>
    have hp := hpull s host h hlt
    simp [hr, hd] at hp
  | case5 s host hlt k inner encoded host' hr bytes rest hd ih =>
    have hp := hpull s host h hlt
    simp only [hr, hd] at hp
    rcases hp with ⟨-, ⟨e, hk⟩, -⟩ | ⟨hk, -⟩ | ⟨k, out, rest, -, hw, hs⟩
    · cases hk
    · cases hk
    · cases hw
      exact ih hs
  | case6 s host hge =>
    refine ⟨h, .inl ⟨rfl, ?_⟩⟩
    by_cases hl : s.decoded.length < n
    · exact .inr (by simpa [hl] using hge)
    · exact .inl (Nat.le_of_not_lt hl)

/-- An open source that has not failed fills up and gives what there is then. -/
theorem read_of_ready {s : Base64Source σ} (ho : s.closed = false) (hm : s.malformed = false) {n : Nat} (hn : 0 < n)
    (hl : n < maxRequestLength) (b : Buffer) (host : Host) : s.read n b host =
      match s.fill n host with
      | ⟨.error e, s, host⟩ => ⟨.error e, s, b, host⟩
      | ⟨.ok (), s, host⟩ =>
        if s.decoded.isEmpty then ⟨.ok none, s, b, host⟩
        else
          let count := min n s.decoded.length
          let (b, decoded) := s.decoded.moveTo count b
          ⟨.ok (some count), { s with decoded }, b, host⟩ := by
  have ho' : ¬ s.closed = true := by simp [ho]
  have hm' : ¬ s.malformed = true := by simp [hm]
  exact (if_neg (Nat.not_le.2 hl)).trans ((if_neg ho').trans ((if_neg hm').trans (if_neg (Nat.ne_of_gt hn))))

private theorem Decodes.read {limit : Option Nat} {s : Base64Source σ} {x : Bytes} (h : s.Decodes limit x) {n : Nat}
    (hn : 0 < n) (hl : ∀ l ∈ limit, reach n ≤ l) (hm : limit ≠ none → n < maxRequestLength) (b : Buffer) (host : Host) :
    Kept limit (Decodes limit) x n b (s.read n b host) := by
  by_cases hlt : maxRequestLength ≤ n
  · -- a read for too many bytes is refused
    have hlimit : limit = none := Decidable.byContradiction fun h => Nat.not_le.2 (hm h) hlt
    unfold Base64Source.read
    rw [if_pos hlt]
    exact .inr ⟨hlimit, ⟨_, rfl⟩, rfl, h⟩
  · rw [read_of_ready h.1 h.2.1 hn (Nat.not_le.1 hlt)]
    obtain ⟨hs, hend⟩ := h.fill hl host
    rcases hf : s.fill n host with ⟨e | _, s', host'⟩
    · rw [hf] at hs hend
      rcases hend with ⟨hok, -⟩ | ⟨hlimit, -⟩
      · cases hok
      · exact .inr ⟨hlimit, ⟨e, rfl⟩, rfl, hs⟩
    · rw [hf] at hs hend
      rcases hend with ⟨-, hend⟩ | ⟨-, e, herr⟩
      · obtain ⟨ho, hf, hlen, t, z, hs, hmod, hd, rfl, hz⟩ := hs
        exact .inl (served_of_buffer (R := Decodes limit) (f := fun decoded => { s' with decoded }) hn
          (hend.imp_right hz) (fun rest => ⟨ho, hf, hlen, t, z, hs, hmod, hd, rfl, hz⟩) b host')
      · cases herr

/-- A decoder over a source that owes a text owes the bytes of which it is the text. -/
theorem owes_new {limit : Option Nat} {inner : σ} {e : Engine} {t x : Bytes} (h : Owes (limit.map reach) inner t)
    (ht : t.length % quantumSize = 0) (hx : e.decode (Quantum.ofBytes t) = .ok x)
    (hl : ∀ l ∈ limit, l < maxRequestLength) : Owes limit (Base64Source.new inner e) x := by
  refine ⟨Decodes (limit.map reach), ⟨?_, ?_⟩, rfl, rfl, ?_, t, x, h, ht, hx, rfl, fun he => by cases he⟩
  · intro s x hs n hn hle b host
    have hreach : ∀ l ∈ limit.map reach, reach n ≤ l := by
      intro l hmem
      obtain ⟨m, hm, rfl⟩ := Option.map_eq_some_iff.1 hmem
      have := hle m hm
      exact Nat.mul_le_mul_right _ (Nat.div_le_div_right (by omega))
    have hm : limit.map reach ≠ none → n < maxRequestLength := by
      intro hsome
      obtain ⟨m, hm⟩ := Option.ne_none_iff_exists'.1 (mt Option.map_eq_none_iff.2 hsome)
      exact Nat.lt_of_le_of_lt (hle m hm) (hl m hm)
    rcases hs.read hn hreach hm b host with hserved | ⟨hlimit, hrest⟩
    · exact .inl hserved
    · exact .inr ⟨Option.map_eq_none_iff.1 hlimit, hrest⟩
  · rintro s x ⟨-, -, -, t, z, hs, -⟩ hsome host
    exact (lasting_owes _).check hs (by simpa using hsome) host
  · exact Nat.zero_lt_succ _

/-- A decoder over a source that serves a text serves the bytes of which it is the text. -/
theorem serves_new {limit : Nat} {inner : σ} {e : Engine} {t x : Bytes} (h : Serves (reach limit) inner t)
    (ht : t.length % quantumSize = 0) (hx : e.decode (Quantum.ofBytes t) = .ok x) (hl : limit < maxRequestLength) :
    Serves limit (Base64Source.new inner e) x :=
  owes_some_iff.1 (owes_new (owes_some_iff.2 h) ht hx (by simpa using hl))

end Base64Source

end Conduit
