import Conduit.Base64.Source

/-!
# Reading texts back

Whether a text can be read, and as what, does not depend on where it is cut between quanta (`decode_append`): each
quantum is read as if it were the last of its segment.  So the texts of any number of segments, written back to back,
are read as the bytes of all of them (`decode_flatMap_encode`), if they are padded and padding is accepted.
-/

namespace Conduit.Base64

/-! ### Quantum by quantum -/

private theorem toOption_bind {ε α β : Type} (x : Except ε α) (f : α → Except ε β) :
    (x >>= f).toOption = x.toOption.bind fun a => (f a).toOption := by
  cases x <;> rfl

private theorem toOption_eq_some {ε α : Type} {x : Except ε α} {a : α} : x.toOption = some a ↔ x = .ok a := by
  cases x <;> simp [Except.toOption]

namespace Engine

variable {e : Engine}

private theorem toOption_number (o : Nat) (b : UInt8) :
    (e.number o b).toOption = (e.alphabet.value? b).map Fin.val := by
  unfold number
  split <;> rename_i h <;> simp [h, Except.toOption]

private theorem toOption_acceptPadded (bytes : Bytes) (last : UInt8) (o o' bits : Nat) :
    (e.acceptPadded bytes last o bits).toOption = (e.acceptPadded bytes last o' bits).toOption := by
  unfold acceptPadded
  split
  · rfl
  · split <;> rfl

private theorem toOption_decodeLast (o : Nat) (q : Quantum) :
    (e.decodeLast o q).toOption = (e.decodeLast 0 q).toOption := by
  simp only [decodeLast, toOption_bind, toOption_number]
  congr 1
  funext v₀
  congr 1
  funext v₁
  split
  · split
    · exact toOption_acceptPadded ..
    · rfl
  · simp only [toOption_bind, toOption_number]
    congr 1
    funext v₂
    split
    · exact toOption_acceptPadded ..
    · simp only [toOption_bind, toOption_number]

private theorem toOption_decodeInner {q : Quantum} (hq : q.isPadded = false) (o : Nat) :
    (e.decodeInner o q).toOption = (e.decodeLast 0 q).toOption := by
  have hp : q.c ≠ pad ∧ q.d ≠ pad := by
    simp only [Quantum.isPadded, Quantum.bytes, List.mem_cons, List.not_mem_nil, or_false, decide_eq_false_iff_not,
      not_or] at hq
    exact ⟨fun h => hq.2.2.1 h.symm, fun h => hq.2.2.2 h.symm⟩
  simp only [decodeInner, decodeLast, hp, if_false, toOption_bind, toOption_number]

private theorem toOption_decodeSegment (o : Nat) (qs : List Quantum) :
    (e.decodeSegment o qs).toOption = (e.decodeSegment 0 qs).toOption := by
  induction qs generalizing o with
  | nil => rfl
  | cons q qs ih =>
    cases qs with
    | nil => exact toOption_decodeLast o q
    | cons r qs =>
      have hq : (e.decodeInner o q).toOption = (e.decodeInner 0 q).toOption := by
        simp only [decodeInner, toOption_bind, toOption_number]
      simp only [decodeSegment, toOption_bind, hq, ih (o + quantumSize), ih (0 + quantumSize)]

private theorem ne_nil_of_mem_segments {qs s : List Quantum} (h : s ∈ Quantum.segments qs) : s ≠ [] := by
  fun_induction Quantum.segments qs with
  | case1 => cases h
  | case2 q qs _ ih =>
    rcases List.mem_cons.1 h with rfl | h
    · exact List.cons_ne_nil _ _
    · exact ih h
  | case3 q =>
    rw [List.mem_singleton.1 h]
    exact List.cons_ne_nil _ _
  | case4 q qs _ s' rest hs ih =>
    rcases List.mem_cons.1 h with rfl | h
    · exact List.cons_ne_nil _ _
    · exact ih (by rw [hs]; exact List.mem_cons_of_mem _ h)

private theorem toOption_decode_cons (q : Quantum) (qs : List Quantum) :
    (e.decode (q :: qs)).toOption =
      (e.decodeLast 0 q).toOption.bind fun out => (e.decode qs).toOption.map (out ++ ·) := by
  rw [decode, decode, Quantum.segments]
  cases hq : q.isPadded with
  | true =>
    -- the quantum is a segment of its own
    simp only [if_true, decodeSegments, decodeSegment, toOption_bind]
    congr 1
    funext out
    cases e.decodeSegments (Quantum.segments qs) <;> rfl
  | false =>
    rcases hs : Quantum.segments qs with _ | ⟨s, rest⟩
    · simp only [if_false, Bool.false_eq_true, decodeSegments, decodeSegment, toOption_bind]
      rfl
    · -- the quantum joins the segment behind it, where it is not the last one
      obtain ⟨r, s, rfl⟩ := List.exists_cons_of_ne_nil (ne_nil_of_mem_segments (hs ▸ List.mem_cons_self : s ∈ _))
      simp only [if_false, Bool.false_eq_true, decodeSegments, decodeSegment, toOption_bind, toOption_decodeInner hq,
        toOption_decodeSegment (0 + quantumSize)]
      cases e.decodeLast 0 q <;> cases e.decodeSegment 0 (r :: s) <;> cases e.decodeSegments rest <;>
        simp [Except.toOption, pure, Except.pure]

/-- A list of quanta can be read exactly if its first quantum and the rest can. -/
theorem decode_cons {q : Quantum} {qs : List Quantum} {x : Bytes} :
    e.decode (q :: qs) = .ok x ↔ ∃ out rest, e.decodeLast 0 q = .ok out ∧ e.decode qs = .ok rest ∧ x = out ++ rest := by
  rw [← toOption_eq_some, toOption_decode_cons, Option.bind_eq_some_iff]
  constructor
  · rintro ⟨out, h₁, h₂⟩
    obtain ⟨rest, h₃, rfl⟩ := Option.map_eq_some_iff.1 h₂
    exact ⟨out, rest, toOption_eq_some.1 h₁, toOption_eq_some.1 h₃, rfl⟩
  · rintro ⟨out, rest, h₁, h₂, rfl⟩
    exact ⟨out, toOption_eq_some.2 h₁, Option.map_eq_some_iff.2 ⟨rest, toOption_eq_some.2 h₂, rfl⟩⟩

/-- Reading goes on behind any quantum as it would begin there. -/
theorem decode_append {ps qs : List Quantum} {x : Bytes} :
    e.decode (ps ++ qs) = .ok x ↔ ∃ out rest, e.decode ps = .ok out ∧ e.decode qs = .ok rest ∧ x = out ++ rest := by
  induction ps generalizing x with
  | nil =>
    constructor
    · intro h
      exact ⟨[], x, rfl, h, rfl⟩
    · rintro ⟨out, rest, h₁, h₂, rfl⟩
      obtain rfl : [] = out := Except.ok.inj h₁
      exact h₂
  | cons p ps ih =>
    rw [List.cons_append, decode_cons]
    constructor
    · rintro ⟨out, _, h₁, h, rfl⟩
      obtain ⟨more, rest, h₂, h₃, rfl⟩ := ih.1 h
      exact ⟨out ++ more, rest, decode_cons.2 ⟨out, more, h₁, h₂, rfl⟩, h₃, (List.append_assoc ..).symm⟩
    · rintro ⟨_, rest, h, h₃, rfl⟩
      obtain ⟨out, more, h₁, h₂, rfl⟩ := decode_cons.1 h
      exact ⟨out, more ++ rest, h₁, ih.2 ⟨more, rest, h₂, h₃, rfl⟩, List.append_assoc ..⟩

/-! ### What can be read -/

private theorem number_eq_ok {o : Nat} {b : UInt8} {v : Nat} (h : e.number o b = .ok v) :
    ∃ w : Fin 64, e.alphabet.symbol w = b ∧ w.val = v := by
  unfold number at h
  split at h
  · rename_i w hw
    exact ⟨w, Alphabet.symbol_of_value? hw, Except.ok.inj h⟩
  · cases h

private theorem acceptPadded_eq_ok {bytes out : Bytes} {last : UInt8} {o bits : Nat}
    (h : e.acceptPadded bytes last o bits = .ok out) : out = bytes ∧ (e.trailingBits = false → bits = 0) := by
  refine ⟨eq_of_acceptPadded h, fun ht => ?_⟩
  unfold acceptPadded at h
  split at h
  · cases h
  · split at h
    · cases h
    · rename_i hb
      simpa [ht] using hb

/-- A quantum that can be read has two symbols, three or four, and pads in the other places. -/
theorem decodeLast_cases {o : Nat} {q : Quantum} {out : Bytes} (h : e.decodeLast o q = .ok out) :
    ∃ v₀ v₁ : Fin 64, e.alphabet.symbol v₀ = q.a ∧ e.alphabet.symbol v₁ = q.b ∧
      ((q.c = pad ∧ q.d = pad ∧ (e.trailingBits = false → v₁.val % 16 = 0) ∧ out = (join v₀ v₁ 0 0).take 1) ∨
      (∃ v₂ : Fin 64, e.alphabet.symbol v₂ = q.c ∧ q.d = pad ∧ (e.trailingBits = false → v₂.val % 4 = 0) ∧
        out = (join v₀ v₁ v₂ 0).take 2) ∨
      ∃ v₂ v₃ : Fin 64, e.alphabet.symbol v₂ = q.c ∧ e.alphabet.symbol v₃ = q.d ∧ out = join v₀ v₁ v₂ v₃) := by
  obtain ⟨_, h₀, h⟩ := bind_eq_ok h
  obtain ⟨_, h₁, h⟩ := bind_eq_ok h
  obtain ⟨v₀, hv₀, rfl⟩ := number_eq_ok h₀
  obtain ⟨v₁, hv₁, rfl⟩ := number_eq_ok h₁
  refine ⟨v₀, v₁, hv₀, hv₁, ?_⟩
  split at h
  · rename_i hc
    split at h
    · rename_i hd
      obtain ⟨rfl, hb⟩ := acceptPadded_eq_ok h
      exact .inl ⟨hc, hd, hb, rfl⟩
    · cases h
  · obtain ⟨_, h₂, h⟩ := bind_eq_ok h
    obtain ⟨v₂, hv₂, rfl⟩ := number_eq_ok h₂
    split at h
    · rename_i hd
      obtain ⟨rfl, hb⟩ := acceptPadded_eq_ok h
      exact .inr (.inl ⟨v₂, hv₂, hd, hb, rfl⟩)
    · obtain ⟨_, h₃, h⟩ := bind_eq_ok h
      obtain ⟨v₃, hv₃, rfl⟩ := number_eq_ok h₃
      exact .inr (.inr ⟨v₂, v₃, hv₂, hv₃, (Except.ok.inj h).symm⟩)

private theorem length_decodeLast_le {o : Nat} {q : Quantum} {out : Bytes} (h : e.decodeLast o q = .ok out) :
    out.length ≤ groupSize := by
  obtain ⟨v₀, v₁, -, -, ⟨-, -, -, rfl⟩ | ⟨v₂, -, -, -, rfl⟩ | ⟨v₂, v₃, -, -, rfl⟩⟩ := decodeLast_cases h
  · simp [join, groupSize]
  · simp [join, groupSize]
  · simp [join, groupSize]

/-- No quantum gives more than a whole group of bytes. -/
theorem length_decode_le {qs : List Quantum} {x : Bytes} (h : e.decode qs = .ok x) :
    x.length ≤ groupSize * qs.length := by
  induction qs generalizing x with
  | nil =>
    obtain rfl : [] = x := Except.ok.inj h
    exact Nat.zero_le _
  | cons q qs ih =>
    obtain ⟨out, rest, hq, hqs, rfl⟩ := decode_cons.1 h
    have h₁ := length_decodeLast_le hq
    have h₂ := ih hqs
    rw [List.length_append, List.length_cons, Nat.mul_succ]
    omega

/-! ### Texts -/

/-- The engine reads the padding that it writes. -/
def readsPadding (e : Engine) : Bool := e.pads && e.padding != .absent

theorem pads_of_readsPadding {e : Engine} (he : e.readsPadding) : e.pads := by
  simp only [readsPadding, Bool.and_eq_true] at he
  exact he.1

theorem length_encode_of_pads (hp : e.pads) (x : Bytes) : (e.encode x).length % quantumSize = 0 := by
  rw [length_encode, encodedLength, hp, if_pos rfl]
  split <;> simp [quantumSize]

end Engine

theorem Quantum.ofBytes_append {l : Bytes} (hl : l.length % quantumSize = 0) (r : Bytes) :
    ofBytes (l ++ r) = ofBytes l ++ ofBytes r := by
  fun_induction ofBytes l with
  | case1 a b c d rest ih =>
    have hr : rest.length % quantumSize = 0 := by
      simp only [List.length_cons, quantumSize] at *
      omega
    rw [List.cons_append, List.cons_append, List.cons_append, List.cons_append, ofBytes, ih hr, List.cons_append]
  | case2 l h =>
    have hnil : l = [] := by
      rcases l with _ | ⟨a, _ | ⟨b, _ | ⟨c, _ | ⟨d, l⟩⟩⟩⟩
      · rfl
      · simp [quantumSize] at hl
      · simp [quantumSize] at hl
      · simp [quantumSize] at hl
      · exact (h _ _ _ _ _ rfl).elim
    rw [hnil]
    rfl

namespace Engine

variable {e : Engine}

private theorem number_symbol (o v : Nat) (hv : v < 64) :
    e.number o (e.alphabet.symbol (Fin.ofNat 64 v)) = .ok v := by
  rw [number, e.alphabet.value?_symbol]
  simp [Nat.mod_eq_of_lt hv]

private theorem join_quantum (x y z : UInt8) :
    join (x.toNat / 4) (x.toNat % 4 * 16 + y.toNat / 16) (y.toNat % 16 * 4 + z.toNat / 64) (z.toNat % 64) =
      [x, y, z] := by
  have hx : x.toNat / 4 * 4 + (x.toNat % 4 * 16 + y.toNat / 16) / 16 = x.toNat := by
    have := y.toNat_lt
    omega
  have hy : (x.toNat % 4 * 16 + y.toNat / 16) % 16 * 16 + (y.toNat % 16 * 4 + z.toNat / 64) / 4 = y.toNat := by
    have := y.toNat_lt
    have := z.toNat_lt
    omega
  have hz : (y.toNat % 16 * 4 + z.toNat / 64) % 4 * 64 + z.toNat % 64 = z.toNat := by
    have := z.toNat_lt
    omega
  rw [join, hx, hy, hz, UInt8.ofNat_toNat, UInt8.ofNat_toNat, UInt8.ofNat_toNat]

private theorem acceptPadded_zero (he : e.padding ≠ .absent) (bytes : Bytes) (last : UInt8) (o : Nat) :
    e.acceptPadded bytes last o 0 = .ok bytes := by
  simp [acceptPadded, he]

/-- The text of a string is read as that string. -/
theorem decode_encode (he : e.readsPadding) (x : Bytes) : e.decode (Quantum.ofBytes (e.encode x)) = .ok x := by
  simp only [readsPadding, Bool.and_eq_true, bne_iff_ne] at he
  have hne (v : Nat) : e.alphabet.symbol (Fin.ofNat 64 v) ≠ pad := e.alphabet.symbol_ne_pad _
  have hfst (x : UInt8) : x.toNat / 4 < 64 := by have := x.toNat_lt; omega
  have hsnd (x y : UInt8) : x.toNat % 4 * 16 + y.toNat / 16 < 64 := by have := y.toNat_lt; omega
  have htrd (y z : UInt8) : y.toNat % 16 * 4 + z.toNat / 64 < 64 := by have := z.toNat_lt; omega
  have hfth (z : UInt8) : z.toNat % 64 < 64 := Nat.mod_lt _ (by decide)
  fun_induction encode e x with
  | case1 x y z rest ih =>
    refine decode_cons.2 ⟨[x, y, z], rest, ?_, ih, rfl⟩
    rw [← join_quantum x y z]
    simp only [decodeLast, number_symbol, hfst, hsnd, htrd, hfth, hne, if_false, bind, Except.bind, pure, Except.pure]
  | case2 x y =>
    have hbits : (y.toNat % 16 * 4 + (0 : UInt8).toNat / 64) % 4 = 0 := by
      show (y.toNat % 16 * 4 + 0) % 4 = 0
      omega
    have hjoin := congrArg (List.take 2) (join_quantum x y 0)
    simp only [filler, he.1, if_true]
    refine decode_cons.2 ⟨[x, y], [], ?_, rfl, rfl⟩
    simp only [decodeLast, number_symbol, hfst, hsnd, htrd, hne, hbits, acceptPadded_zero he.2, if_false, if_true, bind,
      Except.bind]
    exact congrArg Except.ok hjoin
  | case3 x =>
    have hbits : (x.toNat % 4 * 16 + (0 : UInt8).toNat / 16) % 16 = 0 := by
      show (x.toNat % 4 * 16 + 0) % 16 = 0
      omega
    have hjoin := congrArg (List.take 1) (join_quantum x 0 0)
    simp only [filler, he.1, if_true]
    refine decode_cons.2 ⟨[x], [], ?_, rfl, rfl⟩
    simp only [decodeLast, number_symbol, hfst, hsnd, hbits, acceptPadded_zero he.2, if_true, bind, Except.bind]
    exact congrArg Except.ok hjoin
  | case4 => rfl

theorem length_flatMap_encode (he : e.readsPadding) (segments : List Bytes) :
    (segments.flatMap e.encode).length % quantumSize = 0 := by
  induction segments with
  | nil => rfl
  | cons x segments ih =>
    rw [List.flatMap_cons, List.length_append, Nat.add_mod, ih, length_encode_of_pads (pads_of_readsPadding he),
      Nat.zero_add, Nat.zero_mod]

/-- The texts of segments, one behind the other, are read as the bytes of all of them. -/
theorem decode_flatMap_encode (he : e.readsPadding) (segments : List Bytes) :
    e.decode (Quantum.ofBytes (segments.flatMap e.encode)) = .ok segments.flatten := by
  induction segments with
  | nil => rfl
  | cons x segments ih =>
    rw [List.flatMap_cons, Quantum.ofBytes_append (length_encode_of_pads (pads_of_readsPadding he) x),
      List.flatten_cons]
    exact decode_append.2 ⟨x, segments.flatten, decode_encode he x, ih, rfl⟩

end Engine

end Conduit.Base64
