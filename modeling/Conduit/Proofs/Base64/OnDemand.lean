import Mathlib.Algebra.GroupWithZero.Nat
import Mathlib.Data.Nat.Find
import Conduit.Proofs.Base64.Serving

/-!
# Decoding on demand

A decoder reads as many quanta of a text as it takes to have the bytes that are asked for, and not one more, whatever
pieces the text comes in and whether it can be read or not.  How many these are, `Needs` tells from the text and the
number of bytes alone; so what a read shows, `Engine.reading`, does not depend on the pieces (`read_on_demand`).
-/

namespace Conduit

/-! ### Readings -/

/-- What a read shows: bytes, the end of the stream, or that the stream is malformed. -/
inductive Reading where
  | bytes (x : Bytes)
  | ended
  | malformed
deriving DecidableEq, Repr

/-- The outcome of a read into `b` shows this: the bytes are appended, anything else leaves the buffer as it was. -/
def Reading.ShownBy {σ : Type} (r : Reading) (b : Buffer) (o : ReadOutcome σ) : Prop :=
  match r with
  | .bytes x => o.result = .ok (some x.length) ∧ o.buffer.toList = b.toList ++ x
  | .ended => o.result = .ok none ∧ o.buffer = b
  | .malformed => (∃ fault, o.result = .error (.malformedStream fault)) ∧ o.buffer = b

/-- Reads, one after the other, each for a number of bytes into a buffer of its own: their outcomes, and the source
after them. -/
def readMany {σ : Type} [ByteSource σ] : (reads : List (Nat × Buffer × Host)) → σ → List (ReadOutcome σ) × σ
  | [], s => ([], s)
  | (n, b, host) :: reads, s =>
    let o := ByteSource.read s n b host
    let rest := readMany reads o.source
    (o :: rest.1, rest.2)

namespace Base64

/-! ### The quanta that are needed -/

theorem Quantum.ofBytes_take (t : Bytes) (k : Nat) : ofBytes (t.take (k * quantumSize)) = (ofBytes t).take k := by
  induction k generalizing t with
  | zero => simp [ofBytes]
  | succ k ih =>
    have hk : (k + 1) * quantumSize = k * quantumSize + 4 := by simp only [quantumSize]; omega
    rw [hk]
    rcases t with _ | ⟨a, _ | ⟨b, _ | ⟨c, _ | ⟨d, t⟩⟩⟩⟩
    · simp [ofBytes]
    · simp [ofBytes]
    · simp [ofBytes]
    · simp [ofBytes]
    · simp only [List.take_succ_cons, ofBytes, ih]

theorem Quantum.ofBytes_drop (t : Bytes) (k : Nat) : ofBytes (t.drop (k * quantumSize)) = (ofBytes t).drop k := by
  induction k generalizing t with
  | zero => simp
  | succ k ih =>
    have hk : (k + 1) * quantumSize = k * quantumSize + 4 := by simp only [quantumSize]; omega
    rw [hk]
    rcases t with _ | ⟨a, _ | ⟨b, _ | ⟨c, _ | ⟨d, t⟩⟩⟩⟩
    · simp [ofBytes]
    · simp [ofBytes]
    · simp [ofBytes]
    · simp [ofBytes]
    · simp only [List.drop_succ_cons, ofBytes, ih]

namespace Engine

variable {e : Engine}

/-- If so many quanta can be read, fewer can be, and give a part of the bytes. -/
theorem decode_take_of_le {qs : List Quantum} {j k : Nat} {x : Bytes} (h : e.decode (qs.take k) = .ok x) (hj : j ≤ k) :
    ∃ y z, e.decode (qs.take j) = .ok y ∧ x = y ++ z ∧ z.length ≤ groupSize * (k - j) := by
  have hcut : qs.take k = qs.take j ++ (qs.drop j).take (k - j) := by
    rw [← List.take_add]
    congr 1
    omega
  rw [hcut] at h
  obtain ⟨y, z, hy, hz, rfl⟩ := decode_append.1 h
  have hlen : ((qs.drop j).take (k - j)).length ≤ k - j := by
    rw [List.length_take]
    exact Nat.min_le_left ..
  exact ⟨y, z, hy, rfl, Nat.le_trans (length_decode_le hz) (Nat.mul_le_mul_left _ hlen)⟩

/-- `k` quanta are as many as it takes to have `n` bytes: fewer can be read and give fewer bytes, and unless these
cannot be read or give so many there are no more. -/
structure Needs (e : Engine) (qs : List Quantum) (n k : Nat) : Prop where
  le_length : k ≤ qs.length
  short : ∀ j < k, ∃ x, e.decode (qs.take j) = .ok x ∧ x.length < n
  enough : ∀ x, e.decode (qs.take k) = .ok x → x.length < n → k = qs.length

theorem exists_needs (e : Engine) (qs : List Quantum) (n : Nat) : ∃ k, e.Needs qs n k := by
  classical
  have hex : ∃ k, k = qs.length ∨ ¬ ∃ x, e.decode (qs.take k) = .ok x ∧ x.length < n := ⟨qs.length, .inl rfl⟩
  refine ⟨Nat.find hex, Nat.find_min' hex (.inl rfl), ?_, ?_⟩
  · intro j hj
    have hmin := Nat.find_min hex hj
    rw [not_or, not_not] at hmin
    exact hmin.2
  · intro x hx hlen
    exact (Nat.find_spec hex).resolve_right (fun h => h ⟨x, hx, hlen⟩)

private theorem Needs.le {qs : List Quantum} {n k k' : Nat} (h : e.Needs qs n k) (h' : e.Needs qs n k') : k' ≤ k := by
  by_contra hlt
  obtain ⟨x, hx, hlen⟩ := h'.short k (by omega)
  have hall := h.enough x hx hlen
  have hle := h'.le_length
  omega

theorem Needs.unique {qs : List Quantum} {n k k' : Nat} (h : e.Needs qs n k) (h' : e.Needs qs n k') : k = k' :=
  Nat.le_antisymm (h'.le h) (h.le h')

/-- What is shown of the text `t` by a read for `n` bytes after reads for `before` bytes, if `k` quanta are needed for
all of these. -/
def reading (e : Engine) (t : Bytes) (before n k : Nat) : Reading :=
  match e.decode ((Quantum.ofBytes t).take k) with
  | .error _ => .malformed
  | .ok x =>
    if x.length < before + n ∧ t.length % quantumSize ≠ 0 then .malformed
    else if x.length ≤ before then .ended
    else .bytes ((x.drop before).take n)

/-- The text does not give `n` bytes, and not because it has come to an end: a quantum that is needed cannot be read, or
the text ends inside of one. -/
def Refuses (e : Engine) (t : Bytes) (n : Nat) : Prop :=
  ∃ k, e.Needs (Quantum.ofBytes t) n k ∧
    ∀ x, e.decode ((Quantum.ofBytes t).take k) = .ok x → x.length < n ∧ t.length % quantumSize ≠ 0

/-- No text that refuses some bytes gives more. -/
theorem Refuses.mono {t : Bytes} {n n' : Nat} (h : e.Refuses t n) (hn : n ≤ n') : e.Refuses t n' := by
  obtain ⟨k, hk, hx⟩ := h
  refine ⟨k, ⟨hk.le_length, ?_, ?_⟩, ?_⟩
  · intro j hj
    obtain ⟨y, hy, hlen⟩ := hk.short j hj
    exact ⟨y, hy, by omega⟩
  · intro x hd hlen
    exact hk.enough x hd (hx x hd).1
  · intro x hd
    have := hx x hd
    exact ⟨by omega, this.2⟩

theorem reading_of_refuses {t : Bytes} {before n k : Nat} (h : e.Refuses t (before + n))
    (hk : e.Needs (Quantum.ofBytes t) (before + n) k) : e.reading t before n k = .malformed := by
  obtain ⟨k', hk', hx⟩ := h
  obtain rfl := hk.unique hk'
  unfold reading
  split
  · rfl
  · rename_i x hd
    rw [if_pos (hx x hd)]

end Engine

end Base64

namespace Base64Source

open Base64

variable {σ : Type} [ByteSource σ]

/-! ### Where a source stands -/

/-- The source has decoded `k` quanta of `t`, which gave `x`, and holds what is behind the first `given` bytes of it;
fewer than four bytes of text wait, and the rest is still to come. -/
structure Stands (e : Engine) (t : Bytes) (given k : Nat) (x : Bytes) (s : Base64Source σ) : Prop where
  decode : e.decode ((Quantum.ofBytes t).take k) = .ok x
  held : s.decoded.toList = x.drop given
  waiting : s.encoded.length < quantumSize
  rest : ∃ r, Serves maxRequestLength s.inner r ∧ s.encoded.toList ++ r = t.drop (k * quantumSize)

/-- The source stands there, has not decoded more than what `demand` bytes need, and goes on. -/
structure Follows (e : Engine) (t : Bytes) (given demand k : Nat) (x : Bytes) (s : Base64Source σ) : Prop
    extends Stands e t given k x s where
  engine : s.engine = e
  isOpen : s.closed = false
  sound : s.malformed = false
  le_length : k * quantumSize ≤ t.length
  short : ∀ j < k, ∃ y, e.decode ((Quantum.ofBytes t).take j) = .ok y ∧ y.length < demand
  ended : s.exhausted = true → t.length = k * quantumSize
  supply : given ≤ x.length ∨ s.exhausted = true

/-- The source has found that the text does not give `demand` bytes. -/
structure Stuck (e : Engine) (t : Bytes) (demand : Nat) (s : Base64Source σ) : Prop where
  isOpen : s.closed = false
  malformed : s.malformed = true
  refuses : e.Refuses t demand

variable {e : Engine} {t : Bytes} {given n k : Nat} {x : Bytes} {s : Base64Source σ}

theorem Follows.length_held (h : s.Follows e t given n k x) : s.decoded.length = x.length - given := by
  rw [← Buffer.length_toList, h.held, List.length_drop]

/-- When there is enough, or the text has ended, no more and no fewer quanta are decoded than needed. -/
theorem Follows.needs (h : s.Follows e t given (given + n) k x)
    (hend : n ≤ s.decoded.length ∨ s.exhausted = true) : e.Needs (Quantum.ofBytes t) (given + n) k := by
  have hlen := Quantum.length_ofBytes t
  have hk := h.le_length
  refine ⟨?_, h.short, ?_⟩
  · rw [hlen]
    simp only [quantumSize] at *
    omega
  · intro y hy hlt
    obtain rfl : x = y := Except.ok.inj (h.decode.symm.trans hy)
    have hheld := h.length_held
    rcases hend with hn | he
    · rcases h.supply with hs | he
      · omega
      · rw [hlen, h.ended he, Nat.mul_div_cancel _ (by decide)]
    · rw [hlen, h.ended he, Nat.mul_div_cancel _ (by decide)]

/-- The quanta that come next are those of the text that is still to come. -/
private theorem quanta_behind {text r : Bytes} {p : Nat} (ht : text ++ r = t.drop (k * quantumSize))
    (hp : p * quantumSize ≤ text.length) :
    Quantum.ofBytes (text.take (p * quantumSize)) = ((Quantum.ofBytes t).drop k).take p := by
  rw [← Quantum.ofBytes_drop, ← Quantum.ofBytes_take, ← ht, List.take_append_of_le_length hp]

/-- All quanta of a text that was asked for are needed: all but the last one cannot give as many bytes as are missing. -/
private theorem short_of_request {p : Nat} (hx : e.decode ((Quantum.ofBytes t).take k) = .ok x) {missing : Nat}
    (hm : 0 < missing) (hp : p ≤ (missing + groupSize - 1) / groupSize) {j : Nat} (hj : j < k + p) {y : Bytes}
    (hy : e.decode ((Quantum.ofBytes t).take j) = .ok y) : y.length < x.length + missing := by
  -- of the quanta behind `k` there are too few to give what is missing, unless all are taken
  rcases Nat.le_total j k with hjk | hkj
  · obtain ⟨y', z, hy', rfl, -⟩ := Engine.decode_take_of_le hx hjk
    obtain rfl : y' = y := Except.ok.inj (hy'.symm.trans hy)
    rw [List.length_append]
    omega
  · obtain ⟨x', z, hx', rfl, hz⟩ := Engine.decode_take_of_le hy hkj
    obtain rfl : x' = x := Except.ok.inj (hx'.symm.trans hx)
    rw [List.length_append]
    simp only [groupSize] at *
    omega

/-- More text has come, so that `p` more quanta are there, no more than were asked for: they can be read, and are needed,
or the text refuses. -/
private theorem Follows.decode_more (h : s.Follows e t given (given + n) k x) (he : s.exhausted = false)
    (hlt : s.decoded.length < n) {p : Nat} (hp : p ≤ (n - s.decoded.length + groupSize - 1) / groupSize)
    (hle : (k + p) * quantumSize ≤ t.length) :
    match e.decode (((Quantum.ofBytes t).drop k).take p) with
    | .ok out => e.decode ((Quantum.ofBytes t).take (k + p)) = .ok (x ++ out) ∧
        ∀ j < k + p, ∃ y, e.decode ((Quantum.ofBytes t).take j) = .ok y ∧ y.length < given + n
    | .error _ => e.Refuses t (given + n) := by
  have hheld := h.length_held
  have hgiven : given ≤ x.length := h.supply.resolve_right (by simp [he])
  have hshort {j : Nat} (hj : j < k + p) {y : Bytes} (hy : e.decode ((Quantum.ofBytes t).take j) = .ok y) :
      y.length < given + n := by
    have := short_of_request h.decode (Nat.sub_pos_of_lt hlt) hp hj hy
    omega
  have hcut : (Quantum.ofBytes t).take (k + p) =
      (Quantum.ofBytes t).take k ++ ((Quantum.ofBytes t).drop k).take p := List.take_add ..
  split
  · rename_i out hout
    have hd : e.decode ((Quantum.ofBytes t).take (k + p)) = .ok (x ++ out) := by
      rw [hcut]
      exact Engine.decode_append.2 ⟨x, out, h.decode, hout, rfl⟩
    refine ⟨hd, ?_⟩
    intro j hj
    obtain ⟨y, z, hy, -⟩ := Engine.decode_take_of_le hd (Nat.le_of_lt hj)
    exact ⟨y, hy, hshort hj hy⟩
  · rename_i err herr
    obtain ⟨k', hk'⟩ := e.exists_needs (Quantum.ofBytes t) (given + n)
    refine ⟨k', hk', ?_⟩
    intro y hy
    exfalso
    -- the quanta that are needed can be read, but not all that are there, so they are not all
    have hlt' : k' < k + p := by
      by_contra hge
      obtain ⟨y', z, hy', -⟩ := Engine.decode_take_of_le hy (Nat.le_of_not_lt hge)
      rw [hcut] at hy'
      obtain ⟨-, out, -, hout, -⟩ := Engine.decode_append.1 hy'
      rw [herr] at hout
      cases hout
    have hall := hk'.enough y hy (hshort hlt' hy)
    rw [Quantum.length_ofBytes] at hall
    simp only [quantumSize] at *
    omega

/-- The text has come to its end: between quanta, and then no more are needed, or inside of one. -/
private theorem Follows.pull_end (h : s.Follows e t given (given + n) k x) (he : s.exhausted = false)
    (hlt : s.decoded.length < n) {inner : σ} (hs : Serves maxRequestLength inner []) {text : Buffer}
    (htext : text.toList = t.drop (k * quantumSize)) (hwait : text.length < quantumSize) :
    if text.isEmpty then
      { s with inner, encoded := text, exhausted := true }.Follows e t given (given + n) k x
    else e.Refuses t (given + n) := by
  have hgiven : given ≤ x.length := h.supply.resolve_right (by simp [he])
  have hlen : text.length = t.length - k * quantumSize := by
    rw [← Buffer.length_toList, htext, List.length_drop]
  have hle := h.le_length
  split
  · rename_i hempty
    have hzero : text.length = 0 := beq_iff_eq.1 hempty
    refine ⟨⟨h.decode, h.held, hwait, [], hs, by rw [List.append_nil, htext]⟩, h.engine, h.isOpen, h.sound, hle, h.short,
      fun _ => ?_, .inl hgiven⟩
    omega
  · rename_i hne
    have hpos : text.length ≠ 0 := fun h0 => hne (beq_iff_eq.2 h0)
    have hwhole : k = (Quantum.ofBytes t).length := by
      rw [Quantum.length_ofBytes]
      simp only [quantumSize] at *
      omega
    refine ⟨k, ⟨Nat.le_of_eq hwhole, h.short, fun _ _ _ => hwhole⟩, ?_⟩
    intro y hy
    obtain rfl : x = y := Except.ok.inj (h.decode.symm.trans hy)
    have hheld := h.length_held
    simp only [quantumSize] at *
    omega

/-- More of the text has come, no more than was asked for: its whole quanta can be decoded, or the text refuses. -/
private theorem Follows.pull_more (h : s.Follows e t given (given + n) k x) (he : s.exhausted = false)
    (hlt : s.decoded.length < n) {inner : σ} {r : Bytes} (hs : Serves maxRequestLength inner r) {text : Buffer}
    (htext : text.toList ++ r = t.drop (k * quantumSize))
    (hsize : text.length ≤ s.encoded.length + (n - s.decoded.length + groupSize - 1) / groupSize * quantumSize) :
    match decodeWhole s.engine text with
    | (.ok out, rest) => ∃ k', { s with inner, encoded := rest, decoded := s.decoded.append out }.Follows e t
        given (given + n) k' (x ++ out)
    | (.error _, _) => e.Refuses t (given + n) := by
  have hgiven : given ≤ x.length := h.supply.resolve_right (by simp [he])
  have hlen : text.length + r.length = t.length - k * quantumSize := by
    rw [← Buffer.length_toList, ← List.length_append, htext, List.length_drop]
  have hle := h.le_length
  have hwait := h.waiting
  have hp : text.length / quantumSize * quantumSize ≤ text.toList.length := by
    rw [Buffer.length_toList]
    exact Nat.div_mul_le_self ..
  have hall : (k + text.length / quantumSize) * quantumSize ≤ t.length := by
    simp only [quantumSize] at *
    omega
  have hasked : text.length / quantumSize ≤ (n - s.decoded.length + groupSize - 1) / groupSize := by
    simp only [quantumSize] at *
    omega
  have hmore := h.decode_more he hlt hasked hall
  rw [h.engine, decodeWhole, Buffer.take, quanta_behind htext hp]
  split
  · rename_i out rest hd
    obtain ⟨hout, rfl⟩ := Prod.mk.inj hd
    rw [hout] at hmore
    refine ⟨k + text.length / quantumSize, ⟨hmore.1, ?_, ?_, r, hs, ?_⟩, rfl, h.isOpen, h.sound, hall, hmore.2, ?_, .inl ?_⟩
    · rw [Buffer.toList_append, h.held, List.drop_append_of_le_length hgiven]
    · rw [Buffer.length_drop]
      simp only [quantumSize] at *
      omega
    · rw [Buffer.toList_drop, ← List.drop_append_of_le_length hp, htext, List.drop_drop, Nat.add_mul]
    · intro h0
      rw [he] at h0
      cases h0
    · rw [List.length_append]
      omega
  · rename_i err rest hd
    rw [(Prod.mk.inj hd).1] at hmore
    exact hmore

/-- One step of filling: the text has ended, between quanta or not, or more of it was read and can be decoded or not. -/
private theorem Follows.pull (h : s.Follows e t given (given + n) k x) (he : s.exhausted = false)
    (hlt : s.decoded.length < n) (host : Host) :
    let o := ByteSource.read s.inner (request (n - s.decoded.length)) s.encoded host
    (o.result = .ok none ∧
      if o.buffer.isEmpty then
        { s with inner := o.source, encoded := o.buffer, exhausted := true }.Follows e t given (given + n) k x
      else e.Refuses t (given + n)) ∨
    ∃ c, o.result = .ok (some c) ∧
      match decodeWhole s.engine o.buffer with
      | (.ok out, rest) => ∃ k', { s with inner := o.source, encoded := rest, decoded := s.decoded.append out }.Follows e t
          given (given + n) k' (x ++ out)
      | (.error _, _) => e.Refuses t (given + n) := by
  obtain ⟨r, hs, hr⟩ := h.rest
  have hreq : request (n - s.decoded.length) ≤
      (n - s.decoded.length + groupSize - 1) / groupSize * quantumSize := Nat.min_le_left ..
  rcases (serving_serves maxRequestLength).read hs (request_pos (Nat.sub_pos_of_lt hlt)) (Nat.min_le_right ..)
    s.encoded host with ⟨rfl, hres, hb, hs'⟩ | ⟨c, hc, hcm, hcr, hres, hb, hs'⟩
  · refine .inl ⟨hres, h.pull_end he hlt hs' ?_ ?_⟩
    · rw [hb, ← hr, List.append_nil]
    · rw [← Buffer.length_toList, hb, Buffer.length_toList]
      exact h.waiting
  · refine .inr ⟨c, hres, h.pull_more he hlt hs' ?_ ?_⟩
    · rw [hb, List.append_assoc, List.take_append_drop, hr]
    · rw [← Buffer.length_toList, hb, List.length_append, List.length_take, Buffer.length_toList]
      omega

/-- Filling decodes as many quanta as are needed, or finds that the text refuses. -/
theorem Follows.fill (h : s.Follows e t given (given + n) k x) (host : Host) :
    ((s.fill n host).result = .ok () ∧
      (∃ k' x', (s.fill n host).endpoint.Follows e t given (given + n) k' x') ∧
      (n ≤ (s.fill n host).endpoint.decoded.length ∨ (s.fill n host).endpoint.exhausted = true)) ∨
    (∃ fault, (s.fill n host).result = .error (.malformedStream fault)) ∧
      (s.fill n host).endpoint.Stuck e t (given + n) := by
  fun_induction Base64Source.fill s n host generalizing k x with
  | case1 s host hlt inner encoded host' err hr =>
    rcases h.pull hlt.2 hlt.1 host with ⟨hres, -⟩ | ⟨c, hres, -⟩
    · rw [hr] at hres
      cases hres
    · rw [hr] at hres
      cases hres
  | case2 s host hlt inner encoded host' hr s' =>
    rename_i he
    have hp := h.pull hlt.2 hlt.1 host
    rw [hr] at hp
    rcases hp with ⟨-, hend⟩ | ⟨c, hres, -⟩
    · rw [if_pos he] at hend
      exact .inl ⟨rfl, ⟨k, x, hend⟩, .inr rfl⟩
    · cases hres
  | case3 s host hlt inner encoded host' hr s' =>
    rename_i he
    have hp := h.pull hlt.2 hlt.1 host
    rw [hr] at hp
    rcases hp with ⟨-, hend⟩ | ⟨c, hres, -⟩
    · rw [if_neg he] at hend
      exact .inr ⟨⟨_, rfl⟩, h.isOpen, rfl, hend⟩
    · cases hres
  | case4 s host hlt c inner encoded host' hr err rest hd =>
    have hp := h.pull hlt.2 hlt.1 host
    rw [hr] at hp
    rcases hp with ⟨hres, -⟩ | ⟨c', -, hmore⟩
    · cases hres
    · rw [hd] at hmore
      exact .inr ⟨⟨_, rfl⟩, h.isOpen, rfl, hmore⟩
  | case5 s host hlt c inner encoded host' hr bytes rest hd ih =>
    have hp := h.pull hlt.2 hlt.1 host
    rw [hr] at hp
    rcases hp with ⟨hres, -⟩ | ⟨c', -, hmore⟩
    · cases hres
    · rw [hd] at hmore
      obtain ⟨k', hs⟩ := hmore
      exact ih hs
  | case6 s host hge =>
    refine .inl ⟨rfl, ⟨k, x, h⟩, ?_⟩
    by_cases hl : s.decoded.length < n
    · exact .inr (by simpa [hl] using hge)
    · exact .inl (Nat.le_of_not_lt hl)

/-- More may be asked for than before. -/
theorem Follows.mono {demand demand' : Nat} (h : s.Follows e t given demand k x) (hd : demand ≤ demand') :
    s.Follows e t given demand' k x := by
  refine { h with short := ?_ }
  intro j hj
  obtain ⟨y, hy, hlen⟩ := h.short j hj
  exact ⟨y, hy, by omega⟩

/-- The source after it has given away the bytes that were asked for. -/
private theorem Follows.give (h : s.Follows e t given (given + n) k x) (hn : 0 < n)
    (hend : n ≤ s.decoded.length ∨ s.exhausted = true) {decoded : Buffer} (hd : decoded.toList = x.drop (given + n)) :
    { s with decoded }.Follows e t (given + n) (given + n) k x := by
  have hheld := h.length_held
  refine ⟨⟨h.decode, hd, h.waiting, h.rest⟩, h.engine, h.isOpen, h.sound, h.le_length, h.short, h.ended, ?_⟩
  rcases hend with hle | he
  · left
    omega
  · exact .inr he

/-- What is shown when there is enough, or the text has ended: bytes that are held, or the end.  The text does not end
inside of a quantum then. -/
private theorem Follows.reading_eq (h : s.Follows e t given (given + n) k x)
    (hend : n ≤ s.decoded.length ∨ s.exhausted = true) :
    e.reading t given n k = if x.length ≤ given then .ended else .bytes ((x.drop given).take n) := by
  have hheld := h.length_held
  have hsound : ¬ (x.length < given + n ∧ t.length % quantumSize ≠ 0) := by
    rintro ⟨hlt, hmod⟩
    have he : s.exhausted = true := by
      rcases hend with hle | he
      · exact h.supply.resolve_left (by omega)
      · exact he
    rw [h.ended he, Nat.mul_mod_left] at hmod
    exact hmod rfl
  unfold Engine.reading
  rw [h.decode]
  exact if_neg hsound

/-- What a source shows that follows a text, and where it stands then. -/
theorem Follows.read (h : s.Follows e t given given k x) (hn : 0 < n) (hm : n < maxRequestLength) (b : Buffer)
    (host : Host) : ∃ k', e.Needs (Quantum.ofBytes t) (given + n) k' ∧
      (e.reading t given n k').ShownBy b (s.read n b host) ∧
      (((∃ r, (s.read n b host).result = .ok r) ∧
          ∃ x', (s.read n b host).source.Follows e t (given + n) (given + n) k' x') ∨
        (∃ err, (s.read n b host).result = .error err) ∧ (s.read n b host).source.Stuck e t (given + n)) := by
  have hfill := (h.mono (Nat.le_add_right given n)).fill (n := n) host
  rw [read_of_ready h.isOpen h.sound hn hm]
  rcases hf : s.fill n host with ⟨err | _, s', host'⟩
  · rw [hf] at hfill
    rcases hfill with ⟨hok, -⟩ | ⟨⟨fault, hres⟩, hs⟩
    · cases hok
    · obtain ⟨k', hk'⟩ := e.exists_needs (Quantum.ofBytes t) (given + n)
      refine ⟨k', hk', ?_, .inr ⟨⟨err, rfl⟩, hs⟩⟩
      rw [Engine.reading_of_refuses hs.refuses hk']
      exact ⟨⟨fault, congrArg Except.error (Except.error.inj hres)⟩, rfl⟩
  · rw [hf] at hfill
    rcases hfill with ⟨-, ⟨k', x', hs⟩, hend⟩ | ⟨⟨fault, hres⟩, -⟩
    · have hheld : s'.decoded.length = x'.length - given := hs.length_held
      have htoList : s'.decoded.toList = x'.drop given := hs.held
      refine ⟨k', hs.needs hend, ?_⟩
      rw [hs.reading_eq hend]
      by_cases hempty : s'.decoded.isEmpty
      · have hle : x'.length ≤ given := by
          have : s'.decoded.length = 0 := beq_iff_eq.1 hempty
          omega
        have hd : s'.decoded.toList = x'.drop (given + n) := by
          rw [Buffer.isEmpty_iff.1 hempty, List.drop_eq_nil_of_le (by omega)]
        simp only [hempty, if_true, if_pos hle]
        exact ⟨⟨rfl, rfl⟩, .inl ⟨⟨none, rfl⟩, x', hs.give hn hend hd⟩⟩
      · have hle : ¬ x'.length ≤ given := by
          have : s'.decoded.length ≠ 0 := fun h0 => hempty (beq_iff_eq.2 h0)
          omega
        simp only [hempty, if_false, Bool.false_eq_true, if_neg hle]
        refine ⟨⟨?_, ?_⟩, .inl ⟨⟨_, rfl⟩, x', hs.give hn hend ?_⟩⟩
        · rw [List.length_take, List.length_drop, hheld]
        · rw [Buffer.toList_moveTo_fst, htoList, hheld, ← List.length_drop, ← List.take_eq_take_min]
        · rw [Buffer.toList_moveTo_snd, htoList, hheld, List.drop_drop]
          rcases Nat.le_total n (x'.length - given) with h₁ | h₁
          · rw [Nat.min_eq_left h₁]
          · rw [List.drop_eq_nil_of_le (by omega), List.drop_eq_nil_of_le (by omega)]
    · cases hres

theorem Stuck.read {demand : Nat} (h : s.Stuck e t demand) (hm : n < maxRequestLength) (b : Buffer)
    (host : Host) : s.read n b host = ⟨.error (.malformedStream .alreadyMalformed), s, b, host⟩ := by
  unfold Base64Source.read
  rw [if_neg (Nat.not_le.2 hm), if_neg (by simp [h.isOpen]), if_pos h.malformed]

theorem Stuck.readMany {reads : List (Nat × Buffer × Host)} (hr : ∀ r ∈ reads, 0 < r.1 ∧ r.1 < maxRequestLength)
    {demand : Nat} (h : s.Stuck e t demand) : (readMany reads s).2.Stuck e t (demand + (reads.map Prod.fst).sum) := by
  induction reads with
  | nil => exact h
  | cons r reads ih =>
    have hread : ByteSource.read s r.1 r.2.1 r.2.2 = _ := h.read (hr r List.mem_cons_self).2 r.2.1 r.2.2
    have hs := ih (fun r h => hr r (List.mem_cons_of_mem _ h))
    rw [Conduit.readMany, hread]
    exact ⟨hs.isOpen, hs.malformed, hs.refuses.mono (by simp)⟩

/-- After some reads the source follows the text, or one of them has failed and the text refuses. -/
theorem Follows.readMany {reads : List (Nat × Buffer × Host)} (hr : ∀ r ∈ reads, 0 < r.1 ∧ r.1 < maxRequestLength)
    (h : s.Follows e t given given k x) :
    (∃ k' x', (readMany reads s).2.Follows e t (given + (reads.map Prod.fst).sum) (given + (reads.map Prod.fst).sum) k'
        x' ∧ ∀ o ∈ (readMany reads s).1, ∃ r, o.result = .ok r) ∨
      (readMany reads s).2.Stuck e t (given + (reads.map Prod.fst).sum) := by
  induction reads generalizing s given k x with
  | nil => exact .inl ⟨k, x, h, by simp [Conduit.readMany]⟩
  | cons r reads ih =>
    obtain ⟨hn, hm⟩ := hr r List.mem_cons_self
    have hrest : ∀ r ∈ reads, 0 < r.1 ∧ r.1 < maxRequestLength := fun r h => hr r (List.mem_cons_of_mem _ h)
    rw [List.map_cons, List.sum_cons, ← Nat.add_assoc]
    obtain ⟨k', -, -, ⟨⟨v, hv⟩, x', hs⟩ | ⟨-, hs⟩⟩ := h.read hn hm r.2.1 r.2.2
    · rcases ih hrest hs with ⟨k'', x'', hs', hok⟩ | hs'
      · left
        refine ⟨k'', x'', hs', ?_⟩
        intro o ho
        rcases List.mem_cons.1 ho with rfl | ho
        · exact ⟨v, hv⟩
        · exact hok o ho
      · exact .inr hs'
    · exact .inr (hs.readMany hrest)

theorem follows_new {inner : σ} (h : Serves maxRequestLength inner t) (e : Engine) :
    (Base64Source.new inner e).Follows e t 0 0 0 [] where
  decode := rfl
  held := rfl
  waiting := Nat.zero_lt_succ _
  rest := ⟨t, h, by simp [Base64Source.new]⟩
  engine := rfl
  isOpen := rfl
  sound := rfl
  le_length := by simp
  short := by simp
  ended he := by cases he
  supply := .inl (Nat.zero_le _)

end Base64Source

open Base64 Base64Source

/-- A text is decoded on demand, quantum by quantum, whatever source serves it and in whatever pieces: after reads for
some bytes, a read for `n` more shows what the `k` quanta give that are needed for all of them; unless it fails, the
source has then decoded these and no others.  Once a read has failed, all that follow find the text malformed. -/
theorem read_on_demand (e : Engine) (t : Bytes) {before : List Nat} {n : Nat}
    (hbefore : ∀ m ∈ before, 0 < m ∧ m < maxRequestLength) (hn : 0 < n ∧ n < maxRequestLength) :
    ∃ k, e.Needs (Quantum.ofBytes t) (before.sum + n) k ∧
      ∀ {σ : Type} [ByteSource σ] {inner : σ}, Serves maxRequestLength inner t →
        ∀ reads : List (Nat × Buffer × Host), reads.map Prod.fst = before → ∀ (b : Buffer) (host : Host),
          let run := readMany reads (Base64Source.new inner e)
          let o := run.2.read n b host
          (e.reading t before.sum n k).ShownBy b o ∧
            (∀ r, o.result = .ok r → ∃ x, o.source.Stands e t (before.sum + n) k x) ∧
            ((∃ o' ∈ run.1, ∃ err, o'.result = .error err) → e.reading t before.sum n k = .malformed) := by
  obtain ⟨k, hk⟩ := e.exists_needs (Quantum.ofBytes t) (before.sum + n)
  refine ⟨k, hk, ?_⟩
  intro σ _ inner h reads hreads b host
  have hr : ∀ r ∈ reads, 0 < r.1 ∧ r.1 < maxRequestLength := by
    intro r hr
    apply hbefore
    rw [← hreads]
    exact List.mem_map_of_mem hr
  have hrun := (follows_new h e).readMany hr
  rw [hreads, Nat.zero_add] at hrun
  rcases hrun with ⟨k₀, x₀, hs, hok⟩ | hs
  · obtain ⟨k', hk', hshown, hstate⟩ := hs.read hn.1 hn.2 b host
    obtain rfl := hk.unique hk'
    refine ⟨hshown, ?_, ?_⟩
    · intro r hres
      rcases hstate with ⟨-, x, hx⟩ | ⟨⟨err, herr⟩, -⟩
      · exact ⟨x, hx.toStands⟩
      · rw [hres] at herr
        cases herr
    · rintro ⟨o, ho, err, herr⟩
      obtain ⟨r, hres⟩ := hok o ho
      rw [hres] at herr
      cases herr
  · have hmalformed := Engine.reading_of_refuses (hs.refuses.mono (Nat.le_add_right _ n)) hk
    have hread := hs.read hn.2 b host
    refine ⟨?_, ?_, fun _ => hmalformed⟩
    · rw [hmalformed, hread]
      exact ⟨⟨_, rfl⟩, rfl⟩
    · intro r hres
      rw [hread] at hres
      cases hres

/-- A padded quantum, a full one, and a symbol that nothing follows. -/
def brokenText : Bytes := [81, 85, 73, 61, 81, 85, 74, 68, 81]

/-- A channel on which this text comes in pieces of three, five and one, with an interruption. -/
def brokenChannel : Channel := .ofScript
  [⟨⟨0⟩, .ok [81, 85, 73]⟩, ⟨⟨0⟩, .error (.ofDisk .interrupted)⟩, ⟨⟨0⟩, .ok [61, 81, 85, 74, 68]⟩, ⟨⟨0⟩, .ok [81]⟩] [] []

theorem brings_brokenChannel : brokenChannel.Brings := by
  refine ⟨by decide, ?_⟩
  intro turn hturn
  simp only [brokenChannel, Channel.ofScript, List.mem_cons, List.not_mem_nil, or_false] at hturn
  rcases hturn with rfl | rfl | rfl | rfl
  · exact List.cons_ne_nil _ _
  · rfl
  · exact List.cons_ne_nil _ _
  · exact List.cons_ne_nil _ _

/-- The text has five bytes: after four of them, two more are one too many. -/
theorem read_brokenText : (∀ m ∈ [1, 3], 0 < m ∧ m < maxRequestLength) ∧ (0 < 2 ∧ 2 < maxRequestLength) ∧
    ∃ fault, ((readMany [(1, .empty, .start), (3, .empty, .start)]
      (Base64Source.new (ChannelSource.ofChannel brokenChannel .none) .standard)).2.read 2 .empty .start).result =
        .error (.malformedStream fault) := by
  have hbefore : ∀ m ∈ [1, 3], 0 < m ∧ m < maxRequestLength := by decide
  have hn : 0 < 2 ∧ 2 < maxRequestLength := by decide
  obtain ⟨k, hk, hread⟩ := read_on_demand .standard brokenText hbefore hn
  have hneeds : Engine.standard.Needs (Quantum.ofBytes brokenText) ([1, 3].sum + 2) 2 := by
    refine ⟨by decide, ?_, fun _ _ _ => rfl⟩
    intro j hj
    rcases (by omega : j = 0 ∨ j = 1) with rfl | rfl
    · exact ⟨[], rfl, by decide⟩
    · exact ⟨[65, 66], rfl, by decide⟩
  obtain rfl := hk.unique hneeds
  obtain ⟨⟨hres, -⟩, -⟩ := hread (ChannelSource.serves_ofChannel brings_brokenChannel)
    [(1, .empty, .start), (3, .empty, .start)] rfl .empty .start
  exact ⟨hbefore, hn, hres⟩

end Conduit
