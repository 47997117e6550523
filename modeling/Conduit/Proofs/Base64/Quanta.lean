import Conduit.Proofs.Base64.Language

/-!
# Decoding whole quanta

A text of whole quanta is scanned from the front.  A quantum with a pad in it ends a segment, which is handed to the
engine at once, as is what is left behind the last pad; only when all of them are decoded are their bytes put into the
buffer (`decodeQuanta`).  This is how a source reads its text (`decodeQuanta_eq`, `fill_eq_decodeQuanta`).

How many quanta the engine gets at once does not matter: a text is decoded exactly if both parts are that it is cut
into between quanta, or if each of its quanta is, and as the bytes of the parts, one behind the other
(`decodeQuanta_append`).
-/

namespace Conduit

namespace Base64

/-! ### Segments and quanta -/

namespace Quantum

@[simp] theorem length_flatMap_bytes (qs : List Quantum) : (qs.flatMap bytes).length = qs.length * quantumSize := by
  induction qs with
  | nil => rfl
  | cons q qs ih =>
    rw [List.flatMap_cons, List.length_append, ih, List.length_cons, Nat.succ_mul, Nat.add_comm]
    rfl

@[simp] theorem ofBytes_flatMap_bytes (qs : List Quantum) : ofBytes (qs.flatMap bytes) = qs := by
  induction qs with
  | nil => rfl
  | cons q qs ih =>
    show q :: ofBytes (qs.flatMap bytes) = q :: qs
    rw [ih]

theorem take_flatMap_bytes (ps qs : List Quantum) :
    ((ps ++ qs).flatMap bytes).take (ps.length * quantumSize) = ps.flatMap bytes := by
  rw [List.flatMap_append, ← length_flatMap_bytes, List.take_left]

theorem drop_flatMap_bytes (ps qs : List Quantum) :
    ((ps ++ qs).flatMap bytes).drop (ps.length * quantumSize) = qs.flatMap bytes := by
  rw [List.flatMap_append, ← length_flatMap_bytes, List.drop_left]

theorem chunks_flatMap_bytes (qs : List Quantum) : chunks quantumSize (qs.flatMap bytes) = qs.map bytes := by
  induction qs with
  | nil => exact chunks_nil _
  | cons q qs ih =>
    have hone : chunks quantumSize q.bytes = [q.bytes] := by
      have hne : q.bytes ≠ [] := List.cons_ne_nil _ _
      rw [chunks_of_ne_nil (by decide) hne]
      simp [bytes, quantumSize]
    have hlength : q.bytes.length = 1 * quantumSize := rfl
    rw [List.flatMap_cons, chunks_append (by decide) _ _ hlength, hone, ih, List.map_cons, List.singleton_append]

theorem exists_flatMap_bytes {t : Bytes} (ht : t.length % quantumSize = 0) : ∃ qs : List Quantum, t = qs.flatMap bytes :=
  ⟨ofBytes t, (flatMap_bytes_ofBytes ht).symm⟩

theorem length_mod_of_mem_chunks {t c : Bytes} (ht : t.length % quantumSize = 0) (hc : c ∈ chunks quantumSize t) :
    c.length % quantumSize = 0 := by
  obtain ⟨qs, rfl⟩ := exists_flatMap_bytes ht
  rw [chunks_flatMap_bytes] at hc
  obtain ⟨q, -, rfl⟩ := List.mem_map.1 hc
  exact Nat.mod_self quantumSize

/-- The quanta up to the first padded one are a segment. -/
theorem segments_append_cons {held : List Quantum} (h : ∀ q ∈ held, q.isPadded = false) {q : Quantum}
    (hq : q.isPadded) (qs : List Quantum) : segments (held ++ q :: qs) = (held ++ [q]) :: segments qs := by
  induction held with
  | nil => rw [List.nil_append, segments, if_pos hq, List.nil_append]
  | cons p held ih =>
    obtain ⟨hp, hheld⟩ := List.forall_mem_cons.1 h
    rw [List.cons_append, segments, if_neg (by simp [hp]), ih hheld, List.cons_append]

/-- Quanta without pads are one segment. -/
theorem segments_of_unpadded {held : List Quantum} (h : ∀ q ∈ held, q.isPadded = false) (hne : held ≠ []) :
    segments held = [held] := by
  induction held with
  | nil => exact absurd rfl hne
  | cons p held ih =>
    obtain ⟨hp, hheld⟩ := List.forall_mem_cons.1 h
    rw [segments, if_neg (by simp [hp])]
    rcases held with _ | ⟨r, held⟩
    · rfl
    · rw [ih hheld (List.cons_ne_nil _ _)]

end Quantum

namespace Engine

variable {e : Engine}

/-! ### Scanning a text -/

/-- Decodes a segment behind what is decoded already; nothing is asked of the engine for an empty one. -/
def decodeBehind (e : Engine) (segment decoded : Bytes) : Except DecodeError Bytes :=
  if segment = [] then .ok decoded
  else do
    let bytes ← e.decodeSegment 0 (Quantum.ofBytes segment)
    return decoded ++ bytes

/-- Goes through the quanta of `encoded` from `index` on and decodes each segment that one of them ends, the first of
which begins at `start`; then the segment that none ends. -/
def decodeScan (e : Engine) (encoded : Bytes) : List Quantum → Nat → Nat → Bytes → Except DecodeError Bytes
  | [], _, start, decoded => e.decodeBehind (encoded.drop start) decoded
  | q :: qs, index, start, decoded =>
    if q.isPadded then do
      let stop := (index + 1) * quantumSize
      let decoded ← e.decodeBehind ((encoded.take stop).drop start) decoded
      e.decodeScan encoded qs (index + 1) stop decoded
    else e.decodeScan encoded qs (index + 1) start decoded

/-- Decodes a text of whole quanta and appends its bytes to `output`. -/
def decodeQuanta (e : Engine) (encoded : Bytes) (output : Buffer) : Except DecodeError Unit × Buffer :=
  match e.decodeScan encoded (Quantum.ofBytes encoded) 0 0 [] with
  | .error err => (.error err, output)
  | .ok decoded => (.ok (), output.append decoded)

theorem decodeBehind_flatMap (qs : List Quantum) (decoded : Bytes) :
    e.decodeBehind (qs.flatMap Quantum.bytes) decoded = (e.decodeSegment 0 qs).map (decoded ++ ·) := by
  unfold decodeBehind
  split
  · rename_i hnil
    obtain rfl : qs = [] := by rw [← Quantum.ofBytes_flatMap_bytes qs, hnil]; rfl
    simp [decodeSegment, Except.map]
  · rw [Quantum.ofBytes_flatMap_bytes]
    rfl

/-- The scan, when the quanta in `done` are decoded and those in `held` have no pads: what is decoded in the end is
what was decoded before and, behind it, what the engine reads in the quanta from `held` on. -/
theorem decodeScan_eq (done held : List Quantum) (h : ∀ q ∈ held, q.isPadded = false) (qs : List Quantum)
    {encoded : Bytes} (hencoded : encoded = (done ++ held ++ qs).flatMap Quantum.bytes)
    (decoded : Bytes) :
    e.decodeScan encoded qs (done ++ held).length (done.length * quantumSize) decoded =
      (e.decode (held ++ qs)).map (decoded ++ ·) := by
  induction qs generalizing done held decoded with
  | nil =>
    -- what is held is the last segment
    rw [decodeScan, hencoded, List.append_nil, Quantum.drop_flatMap_bytes, decodeBehind_flatMap, List.append_nil,
      decode]
    rcases held with _ | ⟨q, held⟩
    · rfl
    · rw [Quantum.segments_of_unpadded h (List.cons_ne_nil _ _)]
      simp only [decodeSegments]
      cases e.decodeSegment 0 (q :: held) <;> simp [Except.map, bind, Except.bind, pure, Except.pure]
  | cons q qs ih =>
    have hlength : (done ++ (held ++ [q])).length = (done ++ held).length + 1 := by simp [Nat.add_assoc]
    have hencoded' : encoded = (done ++ (held ++ [q]) ++ qs).flatMap Quantum.bytes := by
      simpa using hencoded
    rw [decodeScan]
    cases hq : q.isPadded with
    | true =>
      -- `held` and the padded quantum are a segment; nothing is held behind it
      have hslice : (encoded.take (((done ++ held).length + 1) * quantumSize)).drop (done.length * quantumSize) =
          (held ++ [q]).flatMap Quantum.bytes := by
        rw [← hlength, hencoded', Quantum.take_flatMap_bytes, Quantum.drop_flatMap_bytes]
      have hrest := ih (done ++ (held ++ [q])) [] (by simp) (by rwa [List.append_nil])
      rw [List.append_nil, hlength] at hrest
      simp only [if_true, hslice, decodeBehind_flatMap]
      rw [decode, Quantum.segments_append_cons h hq, decodeSegments]
      cases e.decodeSegment 0 (held ++ [q]) with
      | error err => rfl
      | ok bytes =>
        refine (hrest (decoded ++ bytes)).trans ?_
        rw [List.nil_append, decode]
        cases e.decodeSegments (Quantum.segments qs) <;> simp [Except.map, bind, Except.bind, pure, Except.pure]
    | false =>
      have hheld : ∀ p ∈ held ++ [q], p.isPadded = false := by
        intro p hp
        rcases List.mem_append.1 hp with hp | hp
        · exact h p hp
        · rwa [List.mem_singleton.1 hp]
      have := ih done (held ++ [q]) hheld hencoded' decoded
      rw [hlength] at this
      rw [if_neg (by simp), this, List.append_assoc, List.singleton_append]

/-- What is put into the buffer is what the engine reads in the quanta of the text. -/
theorem decodeQuanta_eq {t : Bytes} (ht : t.length % quantumSize = 0) (output : Buffer) :
    e.decodeQuanta t output =
      match e.decode (Quantum.ofBytes t) with
      | .error err => (.error err, output)
      | .ok x => (.ok (), output.append x) := by
  have hscan := decodeScan_eq (e := e) [] [] (by simp) (Quantum.ofBytes t) (Quantum.flatMap_bytes_ofBytes ht).symm []
  rw [decodeQuanta]
  replace hscan : e.decodeScan t (Quantum.ofBytes t) 0 0 [] = (e.decode (Quantum.ofBytes t)).map ([] ++ ·) := by
    simpa using hscan
  rw [hscan]
  cases e.decode (Quantum.ofBytes t) <;> rfl

/-! ### Cutting a text -/

/-- Decoding the text puts these bytes behind those that are in the buffer. -/
def Puts (e : Engine) (t x : Bytes) : Prop := ∀ output, e.decodeQuanta t output = (.ok (), output.append x)

theorem Reads.puts {t x : Bytes} (h : e.Reads t x) : e.Puts t x := by
  intro output
  rw [decodeQuanta_eq h.1, h.2]

/-- Either the text can be read and its bytes are put into the buffer, or the buffer is left alone. -/
theorem decodeQuanta_cases {t : Bytes} (ht : t.length % quantumSize = 0) (output : Buffer) :
    ((e.decodeQuanta t output).1 = .ok () ∧ ∃ x, e.Reads t x) ∨
      ((e.decodeQuanta t output).1 ≠ .ok () ∧ (e.decodeQuanta t output).2 = output ∧ ¬ ∃ x, e.Reads t x) := by
  rw [decodeQuanta_eq ht]
  cases hd : e.decode (Quantum.ofBytes t) with
  | ok x => exact .inl ⟨rfl, x, ht, hd⟩
  | error err =>
    refine .inr ⟨by simp, rfl, ?_⟩
    rintro ⟨x, hx⟩
    cases hd.symm.trans hx.2

theorem decodeQuanta_ok_iff {t : Bytes} (ht : t.length % quantumSize = 0) (output : Buffer) :
    (e.decodeQuanta t output).1 = .ok () ↔ ∃ x, e.Reads t x := by
  rcases decodeQuanta_cases (e := e) ht output with ⟨hok, hx⟩ | ⟨hne, -, hx⟩
  · exact iff_of_true hok hx
  · exact iff_of_false hne hx

theorem reads_append_iff {a b : Bytes} (ha : a.length % quantumSize = 0) (hb : b.length % quantumSize = 0) {z : Bytes} :
    e.Reads (a ++ b) z ↔ ∃ x y, e.Reads a x ∧ e.Reads b y ∧ z = x ++ y := by
  have hab : (a ++ b).length % quantumSize = 0 := by rw [List.length_append, Nat.add_mod, ha, hb]; rfl
  unfold Reads
  rw [Quantum.ofBytes_append ha, decode_append]
  simp only [ha, hb, hab, true_and]

theorem reads_flatMap_bytes {qs : List Quantum} {x : Bytes} :
    e.Reads (qs.flatMap Quantum.bytes) x ↔ e.decode qs = .ok x := by
  rw [Reads, Quantum.length_flatMap_bytes, Nat.mul_mod_left, Quantum.ofBytes_flatMap_bytes, eq_self, true_and]

theorem reads_bytes {q : Quantum} {x : Bytes} : e.Reads q.bytes x ↔ e.decode [q] = .ok x := by
  rw [← reads_flatMap_bytes, List.flatMap_singleton]

/-- Quanta can be read together exactly if each can be read alone. -/
theorem decode_ok_iff {qs : List Quantum} :
    (∃ z, e.decode qs = .ok z) ↔ ∀ q ∈ qs, ∃ x, e.decode [q] = .ok x := by
  induction qs with
  | nil => exact iff_of_true ⟨[], rfl⟩ (by simp)
  | cons q qs ih =>
    rw [List.forall_mem_cons, ← ih]
    constructor
    · rintro ⟨z, hz⟩
      obtain ⟨x, y, hx, hy, -⟩ := decode_append.1 (show e.decode ([q] ++ qs) = .ok z from hz)
      exact ⟨⟨x, hx⟩, y, hy⟩
    · rintro ⟨⟨x, hx⟩, y, hy⟩
      exact ⟨x ++ y, decode_append.2 ⟨x, y, hx, hy, rfl⟩⟩

theorem decode_flatMap {qs : List Quantum} {part : Quantum → Bytes} (h : ∀ q ∈ qs, e.decode [q] = .ok (part q)) :
    e.decode qs = .ok (qs.flatMap part) := by
  induction qs with
  | nil => rfl
  | cons q qs ih =>
    obtain ⟨hq, hqs⟩ := List.forall_mem_cons.1 h
    exact decode_append.2 ⟨part q, qs.flatMap part, hq, ih hqs, rfl⟩

/-- A text of whole quanta can be read exactly if each of them can. -/
theorem reads_iff_forall_chunks {t : Bytes} (ht : t.length % quantumSize = 0) :
    (∃ z, e.Reads t z) ↔ ∀ c ∈ chunks quantumSize t, ∃ x, e.Reads c x := by
  obtain ⟨qs, rfl⟩ := Quantum.exists_flatMap_bytes ht
  rw [Quantum.chunks_flatMap_bytes, List.forall_mem_map]
  simp only [reads_flatMap_bytes, reads_bytes]
  exact decode_ok_iff

/-- The bytes of a text are those of its quanta, one behind the other. -/
theorem Reads.exists_parts {t z : Bytes} (h : e.Reads t z) :
    ∃ part : Bytes → Bytes, (∀ c ∈ chunks quantumSize t, e.Reads c (part c)) ∧
      (chunks quantumSize t).flatMap part = z := by
  obtain ⟨qs, rfl⟩ := Quantum.exists_flatMap_bytes h.1
  have hall : ∀ q ∈ qs, ∃ x, e.decode [q] = .ok x := decode_ok_iff.1 ⟨z, reads_flatMap_bytes.1 h⟩
  let part (t : Bytes) : Bytes := (e.decode (Quantum.ofBytes t)).toOption.getD []
  have hpart : ∀ q ∈ qs, e.decode [q] = .ok (part q.bytes) := by
    intro q hq
    obtain ⟨x, hx⟩ := hall q hq
    show e.decode [q] = .ok ((e.decode [q]).toOption.getD [])
    rw [hx]
    rfl
  refine ⟨part, ?_, ?_⟩
  · rw [Quantum.chunks_flatMap_bytes, List.forall_mem_map]
    exact fun q hq => reads_bytes.2 (hpart q hq)
  · rw [Quantum.chunks_flatMap_bytes, List.flatMap_map]
    exact Except.ok.inj ((decode_flatMap hpart).symm.trans (reads_flatMap_bytes.1 h))

/-- A text that is cut between quanta is decoded exactly if both parts are, or if every quantum is by itself, and then
as the bytes of the parts, one behind the other.  If it is not decoded, nothing is put into the buffer. -/
theorem decodeQuanta_append (e : Engine) {a b : Bytes} (ha : a.length % quantumSize = 0)
    (hb : b.length % quantumSize = 0) (output : Buffer) :
    ((e.decodeQuanta (a ++ b) output).1 = .ok () ↔
      (e.decodeQuanta a output).1 = .ok () ∧ (e.decodeQuanta b output).1 = .ok ()) ∧
    ((e.decodeQuanta (a ++ b) output).1 = .ok () ↔
      ∀ c ∈ chunks quantumSize (a ++ b), (e.decodeQuanta c output).1 = .ok ()) ∧
    ((e.decodeQuanta (a ++ b) output).1 = .ok () → ∃ x y, ∃ part : Bytes → Bytes,
      e.Puts a x ∧ e.Puts b y ∧ e.Puts (a ++ b) (x ++ y) ∧
      (∀ c ∈ chunks quantumSize (a ++ b), e.Puts c (part c)) ∧
      (chunks quantumSize (a ++ b)).flatMap part = x ++ y) ∧
    ((e.decodeQuanta (a ++ b) output).1 ≠ .ok () → (e.decodeQuanta (a ++ b) output).2 = output) := by
  have hab : (a ++ b).length % quantumSize = 0 := by rw [List.length_append, Nat.add_mod, ha, hb]; rfl
  refine ⟨?_, ?_, fun hok => ?_, fun hne => ?_⟩
  · rw [decodeQuanta_ok_iff hab, decodeQuanta_ok_iff ha, decodeQuanta_ok_iff hb]
    constructor
    · rintro ⟨z, hz⟩
      obtain ⟨x, y, hx, hy, -⟩ := (reads_append_iff ha hb).1 hz
      exact ⟨⟨x, hx⟩, y, hy⟩
    · rintro ⟨⟨x, hx⟩, y, hy⟩
      exact ⟨x ++ y, (reads_append_iff ha hb).2 ⟨x, y, hx, hy, rfl⟩⟩
  · rw [decodeQuanta_ok_iff hab, reads_iff_forall_chunks hab]
    refine forall₂_congr fun c hc => ?_
    rw [decodeQuanta_ok_iff (Quantum.length_mod_of_mem_chunks hab hc)]
  · obtain ⟨z, hz⟩ := (decodeQuanta_ok_iff hab output).1 hok
    obtain ⟨x, y, hx, hy, rfl⟩ := (reads_append_iff ha hb).1 hz
    obtain ⟨part, hpart, hjoin⟩ := hz.exists_parts
    exact ⟨x, y, part, hx.puts, hy.puts, hz.puts, fun c hc => (hpart c hc).puts, hjoin⟩
  · rcases decodeQuanta_cases (e := e) hab output with ⟨hok, -⟩ | ⟨-, hsame, -⟩
    · exact absurd hok hne
    · exact hsame

/-- Two padded segments are decoded twice over; with a loose quantum behind them, nothing is. -/
theorem decodeQuanta_append_paddedTwice :
    (paddedTwice.length % quantumSize = 0 ∧ paddedLoosely.length % quantumSize = 0) ∧
      (∃ x y, x ++ y = [97, 98, 99, 97, 98, 99] ∧ standard.Puts paddedTwice x ∧ standard.Puts paddedTwice y ∧
        standard.Puts (paddedTwice ++ paddedTwice) (x ++ y)) ∧
      ∀ output, (standard.decodeQuanta (paddedTwice ++ paddedLoosely) output).1 ≠ .ok () ∧
        (standard.decodeQuanta (paddedTwice ++ paddedLoosely) output).2 = output := by
  refine ⟨⟨rfl, rfl⟩, ?_, fun output => ?_⟩
  · have hreads : standard.Reads (paddedTwice ++ paddedTwice) [97, 98, 99, 97, 98, 99] := ⟨rfl, rfl⟩
    obtain ⟨-, -, hbytes, -⟩ := decodeQuanta_append standard (a := paddedTwice) (b := paddedTwice) rfl rfl .empty
    obtain ⟨x, y, -, hx, hy, hxy, -, -⟩ := hbytes (congrArg Prod.fst (hreads.puts .empty))
    refine ⟨x, y, ?_, hx, hy, hxy⟩
    have hsame := congrArg (fun r => r.2.toList) ((hxy .empty).symm.trans (hreads.puts .empty))
    simpa using hsame
  · obtain ⟨hboth, -, -, hnone⟩ :=
      decodeQuanta_append standard (a := paddedTwice) (b := paddedLoosely) rfl rfl output
    have hne : (standard.decodeQuanta (paddedTwice ++ paddedLoosely) output).1 ≠ .ok () := by
      intro h
      cases (hboth.1 h).2
    exact ⟨hne, hnone hne⟩

end Engine

end Base64

/-! ### The quanta that a source decodes -/

namespace Base64Source

open Base64

/-- When a read has given a source something and it needs more, the whole quanta are decoded into its decoded bytes. -/
theorem fill_eq_decodeQuanta {σ : Type} [ByteSource σ] {s : Base64Source σ} {n : Nat}
    (h : s.decoded.length < n ∧ s.exhausted = false) {host host' : Host} {k : Nat} {inner : σ} {encoded : Buffer}
    (hr : ByteSource.read s.inner (request (n - s.decoded.length)) s.encoded host =
      ⟨.ok (some k), inner, encoded, host'⟩) :
    s.fill n host =
      let aligned := encoded.length / quantumSize * quantumSize
      match s.engine.decodeQuanta (encoded.take aligned) s.decoded with
      | (.error err, decoded) =>
        { s with inner, encoded := encoded.drop aligned, decoded }.fail (.invalidBase64 err) host'
      | (.ok (), decoded) => { s with inner, encoded := encoded.drop aligned, decoded }.fill n host' := by
  have hle : encoded.length / quantumSize * quantumSize ≤ encoded.length := Nat.div_mul_le_self ..
  have haligned : (encoded.take (encoded.length / quantumSize * quantumSize)).length % quantumSize = 0 := by
    rw [Buffer.length_take, Nat.min_eq_left hle, Nat.mul_mod_left]
  rw [fill_of_lt h, hr]
  simp only [decodeWhole, Engine.decodeQuanta_eq haligned]
  cases s.engine.decode _ <;> rfl

end Base64Source

end Conduit
