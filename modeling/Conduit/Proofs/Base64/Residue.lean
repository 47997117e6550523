import Conduit.Proofs.Base64.Perishing
import Conduit.Proofs.Watching

/-!
# What a Base64 source holds back

A decoder asks for as many quanta as the missing bytes need, and up to three symbols that form none stay with it.  The
division that counts the groups of bytes rounds up and the one that counts the quanta rounds down, so what is decoded
goes at most two bytes beyond what was asked for (`pull_le`): that is all a decoder holds after a read, unless one has
failed.  Every quantum gives at least one byte, so a read of the text that gives anything makes `progress`, and for each
byte that is asked for there are at most four of them (`residue_of_reads`).
-/

namespace Conduit

open Base64

/-- The read was for the quanta that some of the `n` bytes need, and no number on the way to that overflows. -/
def Pull.Scaled (n : Nat) (p : Pull) : Prop :=
  ∃ missing, 0 < missing ∧ missing ≤ n ∧ p.size = Base64Source.request missing ∧
    (missing + groupSize - 1) / groupSize * quantumSize < UInt64.size

namespace Base64Source

section

variable {σ : Type} {s : Base64Source σ} {n : Nat}

/-- The decoded bytes, each as much as a quantum, and the symbols that wait. -/
def progress (s : Base64Source σ) : Nat := quantumSize * s.decoded.length + s.encoded.length

theorem progress_lt (hw : s.encoded.length < quantumSize) (hlt : s.decoded.length < n) :
    s.progress < quantumSize * n := by
  simp only [progress, quantumSize] at *
  omega

/-- The quanta in what has waited and what was asked for give at most two bytes more than were missing. -/
theorem pull_le {e k m : Nat} (he : e < quantumSize) (hk : k ≤ request m) :
    groupSize * ((e + k) / quantumSize) ≤ m + 2 := by
  simp only [request, groupSize, quantumSize] at *
  omega

/-- Less than a quantum is left behind the whole ones, also when these cannot be decoded. -/
theorem length_snd_decodeWhole_lt (e : Engine) (text : Buffer) : (decodeWhole e text).2.length < quantumSize := by
  show (text.drop _).length < _
  rw [Buffer.length_drop]
  simp only [quantumSize]
  omega

variable [ByteSource σ]

/-- What is decoded comes from a modest source, and the symbols that wait form no quantum. -/
structure Sparing (s : Base64Source σ) : Prop where
  modest : Modest s.inner
  waiting : s.encoded.length < quantumSize

theorem sparing_new {inner : σ} (h : Modest inner) (e : Engine) : (new inner e).Sparing := ⟨h, Nat.zero_lt_succ _⟩

/-! ### Steps of filling -/

section

variable {inner : σ} {encoded : Buffer} {host host' : Host}

/-- The text gives nothing. -/
private theorem Sparing.idle (h : s.Sparing) (hlt : s.decoded.length < n) {r : Except Error (Option Nat)}
    (hr : ByteSource.read s.inner (request (n - s.decoded.length)) s.encoded host = ⟨r, inner, encoded, host'⟩)
    (hnone : ∀ k, r ≠ .ok (some k)) : Modest inner ∧ encoded.length < quantumSize := by
  have hpos := request_pos (Nat.sub_pos_of_lt hlt)
  have hmax : request (n - s.decoded.length) ≤ maxRequestLength := Nat.min_le_right ..
  have hkept := measured_modest.kept h.modest hpos hmax s.encoded host
  have hsame : (ByteSource.read s.inner (request (n - s.decoded.length)) s.encoded host).buffer.length =
      s.encoded.length := measured_modest.idle h.modest hpos hmax (by rw [hr]; exact hnone)
  rw [hr] at hkept hsame
  exact ⟨hkept, Nat.lt_of_le_of_lt (Nat.le_of_eq hsame) h.waiting⟩

/-- The text gives some bytes.  If they can be decoded, they make progress, and not more than two bytes too much. -/
private theorem Sparing.given (h : s.Sparing) (hlt : s.decoded.length < n) {k : Nat}
    (hr : ByteSource.read s.inner (request (n - s.decoded.length)) s.encoded host =
      ⟨.ok (some k), inner, encoded, host'⟩) :
    Modest inner ∧ 0 < k ∧ ∀ out rest, decodeWhole s.engine encoded = (.ok out, rest) →
      s.decoded.length + out.length ≤ n + 2 ∧
        s.progress < { s with inner, encoded := rest, decoded := s.decoded.append out }.progress := by
  have hpos := request_pos (Nat.sub_pos_of_lt hlt)
  have hmax : request (n - s.decoded.length) ≤ maxRequestLength := Nat.min_le_right ..
  have hkept := measured_modest.kept h.modest hpos hmax s.encoded host
  obtain ⟨hk, hkle⟩ := measured_modest.given h.modest hpos hmax (congrArg ReadOutcome.result hr)
  have hlen := ByteSource.length_read (congrArg ReadOutcome.result hr)
  rw [hr] at hkept hlen
  have hlen : encoded.length = s.encoded.length + k := hlen
  refine ⟨hkept, hk, ?_⟩
  intro out rest hd
  have hle := pull_le h.waiting hkle
  have hquanta := length_decodeWhole hd
  have hgroups := Engine.length_decode_le (Prod.mk.inj hd).1
  rw [Quantum.length_ofBytes, Buffer.length_take, hlen] at hgroups
  rw [hlen] at hquanta
  simp only [progress, Buffer.length_append, quantumSize, groupSize] at *
  omega

end

/-! ### What is held -/

/-- Filling goes at most two bytes too far, and not far enough when it fails. -/
theorem Sparing.fill (h : s.Sparing) (n : Nat) (host : Host) :
    (s.fill n host).endpoint.Sparing ∧
      ((s.fill n host).result = .ok () → (s.fill n host).endpoint.decoded.length ≤ max s.decoded.length (n + 2)) ∧
      (∀ e, (s.fill n host).result = .error e → (s.fill n host).endpoint.decoded.length < n) := by
  fun_induction Base64Source.fill s n host with
  | case1 s host hlt e inner encoded host' hr =>
    obtain ⟨hmodest, hwaiting⟩ := h.idle hlt.1 hr (by simp)
    exact ⟨⟨hmodest, hwaiting⟩, (fun hok => by cases hok), fun _ _ => hlt.1⟩
  | case2 s host hlt inner encoded host' hr s' he =>
    obtain ⟨hmodest, hwaiting⟩ := h.idle hlt.1 hr (by simp)
    exact ⟨⟨hmodest, hwaiting⟩, fun _ => Nat.le_max_left .., fun _ herr => by cases herr⟩
  | case3 s host hlt inner encoded host' hr s' he =>
    obtain ⟨hmodest, hwaiting⟩ := h.idle hlt.1 hr (by simp)
    exact ⟨⟨hmodest, hwaiting⟩, (fun hok => by cases hok), fun _ _ => hlt.1⟩
  | case4 s host hlt k inner encoded host' hr e rest hd =>
    have hwaiting := length_snd_decodeWhole_lt s.engine encoded
    rw [hd] at hwaiting
    exact ⟨⟨(h.given hlt.1 hr).1, hwaiting⟩, (fun hok => by cases hok), fun _ _ => hlt.1⟩
  | case5 s host hlt k inner encoded host' hr bytes rest hd ih =>
    obtain ⟨hmodest, -, hdecoded⟩ := h.given hlt.1 hr
    obtain ⟨hle, -⟩ := hdecoded bytes rest hd
    have hwaiting := length_snd_decodeWhole_lt s.engine encoded
    rw [hd] at hwaiting
    obtain ⟨hs, hok, herr⟩ := ih ⟨hmodest, hwaiting⟩
    refine ⟨hs, ?_, herr⟩
    intro hres
    have hfilled := hok hres
    rw [Buffer.length_append] at hfilled
    omega
  | case6 s host hge => exact ⟨h, fun _ => Nat.le_max_left .., fun _ herr => by cases herr⟩

/-- A read that succeeds leaves at most two bytes, or no more than there were; one that fails leaves less than it was
for. -/
theorem Sparing.read (h : s.Sparing) (n : Nat) (b : Buffer) (host : Host) :
    (s.read n b host).source.Sparing ∧
      ((∃ r, (s.read n b host).result = .ok r) → (s.read n b host).source.decoded.length ≤ max s.decoded.length 2) ∧
      (s.read n b host).source.decoded.length ≤ max s.decoded.length (max 2 (n - 1)) := by
  by_cases hready : s.closed = false ∧ s.malformed = false ∧ 0 < n ∧ n < maxRequestLength
  · obtain ⟨ho, hm, hn, hl⟩ := hready
    obtain ⟨hs, hok, herr⟩ := h.fill n host
    rw [read_of_ready ho hm hn hl]
    rcases hf : s.fill n host with ⟨e | _, s', host'⟩
    · rw [hf] at hs herr
      have hlt : s'.decoded.length < n := herr e rfl
      refine ⟨hs, ?_, ?_⟩
      · rintro ⟨r, hr⟩
        cases hr
      · show s'.decoded.length ≤ _
        omega
    · rw [hf] at hs hok
      have hfilled : s'.decoded.length ≤ max s.decoded.length (n + 2) := hok rfl
      -- what is held after the read, whether there was anything to give or not
      have hheld : ∀ t : Base64Source σ, t.decoded.length ≤ max s.decoded.length 2 →
          t.decoded.length ≤ max s.decoded.length (max 2 (n - 1)) := fun t ht => by omega
      simp only
      split
      · rename_i hempty
        have hnil : s'.decoded.length ≤ max s.decoded.length 2 := by
          rw [beq_iff_eq.1 hempty]
          exact Nat.zero_le _
        exact ⟨hs, fun _ => hnil, hheld s' hnil⟩
      · have hleft : (s'.decoded.moveTo (min n s'.decoded.length) b).2.length ≤ max s.decoded.length 2 := by
          rw [Buffer.length_moveTo_snd]
          omega
        exact ⟨⟨hs.modest, hs.waiting⟩, fun _ => hleft, hheld { s' with decoded := _ } hleft⟩
  · obtain ⟨r, hr, -⟩ := read_unready hready b host
    rw [hr]
    exact ⟨h, fun _ => Nat.le_max_left .., Nat.le_max_left ..⟩

theorem Sparing.readMany (h : s.Sparing) (reads : List (Nat × Buffer × Host)) :
    (readMany reads s).2.Sparing ∧
      ((∀ o ∈ (readMany reads s).1, ∃ r, o.result = .ok r) →
        (readMany reads s).2.decoded.length ≤ max s.decoded.length 2) ∧
      ∀ m, (∀ r ∈ reads, r.1 ≤ m) →
        (readMany reads s).2.decoded.length ≤ max s.decoded.length (max 2 (m - 1)) := by
  induction reads generalizing s with
  | nil => exact ⟨h, fun _ => Nat.le_max_left .., fun _ _ => Nat.le_max_left ..⟩
  | cons r reads ih =>
    obtain ⟨n, b, host⟩ := r
    obtain ⟨hs, hok, hle⟩ := h.read n b host
    obtain ⟨hrest, hok', hle'⟩ := ih hs
    refine ⟨hrest, ?_, ?_⟩
    · intro hall
      have hfirst := hok (hall _ List.mem_cons_self)
      have hlast := hok' fun o ho => hall o (List.mem_cons_of_mem _ ho)
      exact Nat.le_trans hlast (by omega)
    · intro m hm
      have hn : n ≤ m := hm _ List.mem_cons_self
      have hlast := hle' m fun r hr => hm r (List.mem_cons_of_mem _ hr)
      exact Nat.le_trans hlast (by omega)

end

/-! ### What is asked for -/

section

variable {σ : Type} {s s₁ s' : Base64Source (Watched σ)} {n : Nat} {p : Pull} {pulls : List Pull}

/-- On the way from `s` to `s'`, while fewer than `n` bytes were decoded, these reads were made of the text.  All but
the last gave something, and those that did are no more than the progress that was still to be made. -/
structure Pulled (n : Nat) (s s' : Base64Source (Watched σ)) (pulls : List Pull) : Prop where
  log : s'.inner.pulls = s.inner.pulls ++ pulls
  scaled : ∀ p ∈ pulls, p.Scaled n
  giving : ∀ p ∈ pulls.dropLast, p.gives
  few : pulls.countP Pull.gives ≤ quantumSize * n - s.progress

theorem Pulled.nil : Pulled n s s [] where
  log := (List.append_nil _).symm
  scaled := by simp
  giving := by simp
  few := by simp

/-- The last read, whatever it gives. -/
theorem Pulled.last (hprogress : s.progress < quantumSize * n) (hlog : s'.inner.pulls = s.inner.pulls ++ [p])
    (hp : p.Scaled n) : Pulled n s s' [p] where
  log := hlog
  scaled := by simpa using hp
  giving := by simp
  few := by
    have hone : [p].countP Pull.gives ≤ 1 := List.countP_le_length
    omega

/-- A read that makes progress, and those after it. -/
theorem Pulled.cons (h : Pulled n s₁ s' pulls) (hprogress : s.progress < quantumSize * n)
    (hmore : s.progress < s₁.progress) (hlog : s₁.inner.pulls = s.inner.pulls ++ [p]) (hp : p.Scaled n)
    (hgives : p.gives) : Pulled n s s' (p :: pulls) where
  log := by rw [h.log, hlog, List.append_assoc, List.singleton_append]
  scaled := List.forall_mem_cons.2 ⟨hp, h.scaled⟩
  giving := by
    rcases pulls with _ | ⟨q, pulls⟩
    · simp
    · exact List.forall_mem_cons.2 ⟨hgives, h.giving⟩
  few := by
    have hfew := h.few
    rw [List.countP_cons_of_pos hgives]
    omega

/-- At most one read gave nothing. -/
theorem Pulled.length_le (h : Pulled n s s' pulls) : pulls.length ≤ quantumSize * n + 1 := by
  have hall : pulls.dropLast.countP Pull.gives = pulls.dropLast.length := List.countP_eq_length.2 h.giving
  have hsub : pulls.dropLast.countP Pull.gives ≤ pulls.countP Pull.gives := (List.dropLast_sublist pulls).countP_le
  have hfew := h.few
  rw [List.length_dropLast] at hall
  omega

variable [ByteSource σ]

private theorem scaled_request {m : Nat} (hlt : m < n) (hn : n ≤ maxRequestLength) (r : Except Error (Option Nat)) :
    (⟨request (n - m), r⟩ : Pull).Scaled n :=
  ⟨n - m, Nat.sub_pos_of_lt hlt, Nat.sub_le .., rfl, SourceOver.scaled_lt (Nat.le_trans (Nat.sub_le ..) hn)⟩

/-- A read of the text after which filling stops. -/
private theorem Sparing.pulled_last (h : s.Sparing) (hlt : s.decoded.length < n) (hn : n ≤ maxRequestLength)
    {host host' : Host} {r : Except Error (Option Nat)} {encoded : Buffer}
    (hr : ByteSource.read s.inner (request (n - s.decoded.length)) s.encoded host = ⟨r, s'.inner, encoded, host'⟩) :
    ∃ pulls, Pulled n s s' pulls :=
  ⟨_, .last (progress_lt h.waiting hlt) (Watched.pulls_of_read hr) (scaled_request hlt hn r)⟩

theorem Sparing.pulled_fill (h : s.Sparing) (hn : n ≤ maxRequestLength) (host : Host) :
    ∃ pulls, Pulled n s (s.fill n host).endpoint pulls := by
  fun_induction Base64Source.fill s n host with
  | case1 s host hlt e inner encoded host' hr => exact h.pulled_last hlt.1 hn hr
  | case2 s host hlt inner encoded host' hr s' he => exact h.pulled_last hlt.1 hn hr
  | case3 s host hlt inner encoded host' hr s' he => exact h.pulled_last hlt.1 hn hr
  | case4 s host hlt k inner encoded host' hr e rest hd => exact h.pulled_last hlt.1 hn hr
  | case5 s host hlt k inner encoded host' hr bytes rest hd ih =>
    obtain ⟨hmodest, hk, hdecoded⟩ := h.given hlt.1 hr
    obtain ⟨-, hmore⟩ := hdecoded bytes rest hd
    have hwaiting := length_snd_decodeWhole_lt s.engine encoded
    rw [hd] at hwaiting
    obtain ⟨pulls, hpulls⟩ := ih ⟨hmodest, hwaiting⟩
    have hlog := Watched.pulls_of_read hr
    have hgives : (⟨request (n - s.decoded.length), .ok (some k)⟩ : Pull).gives := decide_eq_true hk
    exact ⟨_, hpulls.cons (progress_lt h.waiting hlt.1) hmore hlog (scaled_request hlt.1 hn _) hgives⟩
  | case6 s host hge => exact ⟨[], .nil⟩

theorem Sparing.pulled_read (h : s.Sparing) (n : Nat) (b : Buffer) (host : Host) :
    ∃ pulls, Pulled n s (s.read n b host).source pulls := by
  by_cases hn : n ≤ maxRequestLength
  · apply read_keeps (Q := fun t => ∃ pulls, Pulled n s t pulls)
    · rintro t decoded ⟨pulls, ht⟩
      exact ⟨pulls, ht.log, ht.scaled, ht.giving, ht.few⟩
    · exact ⟨[], .nil⟩
    · exact h.pulled_fill hn host
  · obtain ⟨r, hr, -⟩ := read_unready (s := s) (fun hready => hn (Nat.le_of_lt hready.2.2.2)) b host
    rw [hr]
    exact ⟨[], .nil⟩

/-- Every read of the text belongs to a read of the source. -/
theorem Sparing.scaled_of_mem (h : s.Sparing) {reads : List (Nat × Buffer × Host)} :
    ∀ p ∈ (Conduit.readMany reads s).2.inner.pulls, p ∈ s.inner.pulls ∨ ∃ r ∈ reads, p.Scaled r.1 := by
  induction reads generalizing s with
  | nil => exact fun p hp => .inl hp
  | cons r reads ih =>
    obtain ⟨n, b, host⟩ := r
    obtain ⟨pulls, hpulls⟩ := h.pulled_read n b host
    intro p hp
    rcases ih (h.read n b host).1 p hp with hp | ⟨r, hr, hp⟩
    · rw [hpulls.log, List.mem_append] at hp
      exact hp.imp_right fun hp => ⟨_, List.mem_cons_self, hpulls.scaled p hp⟩
    · exact .inr ⟨r, List.mem_cons_of_mem _ hr, hp⟩

end

/-- A decoder holds back no more than its quanta make it, whatever modest source it reads, be it endless.  All that it
asks for is within the limit and computed without overflow.  After any reads at most three symbols wait.  The decoded
bytes that are held are at most two if no read has failed, and else at most two or fewer than the longest read was for.
The next read, for `n` bytes, takes at most four reads of the text for each of them that give something, and at most one
that does not.  That the text is watched makes no difference. -/
theorem residue_of_reads {σ : Type} [ByteSource σ] {inner : σ} (h : Modest inner) (e : Engine)
    (reads : List (Nat × Buffer × Host)) :
    let run := readMany reads (new (Watched.start inner) e)
    readMany reads (new inner e) =
        (run.1.map (ReadOutcome.lift (mapInner Watched.source)), run.2.mapInner Watched.source) ∧
      (∀ p ∈ run.2.inner.pulls, (0 < p.size ∧ p.size ≤ maxRequestLength) ∧ ∃ r ∈ reads, p.Scaled r.1) ∧
      run.2.encoded.length ≤ 3 ∧
      ((∀ o ∈ run.1, ∃ r, o.result = .ok r) → run.2.decoded.length ≤ 2) ∧
      (∀ m, (∀ r ∈ reads, r.1 ≤ m) → run.2.decoded.length ≤ max 2 (m - 1)) ∧
      ∀ (n : Nat) (b : Buffer) (host : Host), ∃ pulls,
        (run.2.read n b host).source.inner.pulls = run.2.inner.pulls ++ pulls ∧
          pulls.countP Pull.gives ≤ 4 * n ∧ pulls.length ≤ 4 * n + 1 ∧ ∀ p ∈ pulls.dropLast, p.gives := by
  have hnew : (new (Watched.start inner) e).Sparing := sparing_new (Watched.modest_start h) e
  obtain ⟨hs, hok, hle⟩ := hnew.readMany reads
  have hnil : (new (Watched.start inner) e).decoded.length = 0 := rfl
  simp only [hnil, Nat.zero_max] at hok hle
  refine ⟨(hom_mapInner Watched.hom_source).readMany reads (new (Watched.start inner) e), ?_,
    Nat.le_of_lt_succ hs.waiting, hok, hle, ?_⟩
  · intro p hp
    obtain hp | ⟨r, hr, hscaled⟩ := hnew.scaled_of_mem p hp
    · exact (List.not_mem_nil hp).elim
    · obtain ⟨missing, hpos, -, hsize, -⟩ := id hscaled
      rw [hsize]
      exact ⟨⟨request_pos hpos, Nat.min_le_right ..⟩, r, hr, hscaled⟩
  · intro n b host
    obtain ⟨pulls, hpulls⟩ := hs.pulled_read n b host
    exact ⟨pulls, hpulls.log, Nat.le_trans hpulls.few (Nat.sub_le ..), hpulls.length_le, hpulls.giving⟩

/-- A channel that serves two padded quanta symbol by symbol and then a full one. -/
def dribble : Channel := .ofScript
  ([81, 81, pad, pad, 81, 81, pad, pad].map (fun b => ⟨.zero, .ok [b]⟩) ++ [⟨.zero, .ok [81, 85, 70, 66]⟩]) [] []

/-- The bounds are reached: two bytes may take eight reads of the text, and one byte of a full quantum leaves two. -/
theorem residue_of_dribble : Modest (ChannelSource.ofChannel dribble .none) ∧
    let s := new (Watched.start (ChannelSource.ofChannel dribble .none)) .standard
    (s.read 2 .empty .start).source.inner.pulls.countP Pull.gives = 4 * 2 ∧
      (readMany [(2, .empty, .start), (1, .empty, .start)] s).2.decoded.length = 2 := by
  have hmodest : Modest (ChannelSource.ofChannel dribble .none) := modest_of_obeys ChannelSource.obeys _
  refine ⟨hmodest, Nat.le_antisymm ?_ (by decide +kernel), Nat.le_antisymm ?_ (by decide +kernel)⟩
  · obtain ⟨-, -, -, -, -, hread⟩ := residue_of_reads hmodest .standard []
    obtain ⟨pulls, hlog, hfew, -⟩ := hread 2 .empty .start
    exact Nat.le_trans (Nat.le_of_eq (congrArg (List.countP Pull.gives) hlog)) hfew
  · obtain ⟨-, -, -, hheld, -⟩ := residue_of_reads hmodest .standard [(2, .empty, .start), (1, .empty, .start)]
    have hsome : ∀ o ∈ (readMany [(2, .empty, .start), (1, .empty, .start)]
        (new (Watched.start (ChannelSource.ofChannel dribble .none)) .standard)).1, o.result.toOption.isSome := by
      decide +kernel
    refine hheld fun o ho => ?_
    rcases hres : o.result with err | r
    · have h := hsome o ho
      rw [hres] at h
      cases h
    · exact ⟨r, rfl⟩

end Base64Source

end Conduit
