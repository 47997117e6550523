import Conduit.Proofs.Cipher.Protocol
import Conduit.Proofs.Contract

/-!
# Watched sources

A source that keeps to the contract gives at least one byte and no more than were asked for, or appends nothing;
`Modest` says that it goes on like this, for ever if it has to.  A watched source remembers, in order, the reads that
were made of it, and is else the source that is watched; so a layer over it does what it does when nobody watches
(`Base64Source.hom_mapInner`, `CipherSource.hom_mapInner`).
-/

namespace Conduit

/-- A map that takes every source to one that does the same. -/
structure SourceHom {σ τ : Type} [ByteSource σ] [ByteSource τ] (f : σ → τ) : Prop where
  read (s : σ) (n : Nat) (b : Buffer) (host : Host) :
    ByteSource.read (f s) n b host = (ByteSource.read s n b host).lift f
  close (s : σ) (host : Host) : ByteSource.close (f s) host = (ByteSource.close s host).lift f
  timeout (s : σ) : ByteSource.timeout (f s) = ByteSource.timeout s

section

variable {σ τ : Type} [ByteSource σ] [ByteSource τ] {f : σ → τ}

theorem SourceHom.readMany (hf : SourceHom f) (reads : List (Nat × Buffer × Host)) (s : σ) :
    Conduit.readMany reads (f s) =
      ((Conduit.readMany reads s).1.map (ReadOutcome.lift f), f (Conduit.readMany reads s).2) := by
  induction reads generalizing s with
  | nil => rfl
  | cons r reads ih =>
    obtain ⟨n, b, host⟩ := r
    have hrest := ih (ByteSource.read s n b host).source
    simp only [Conduit.readMany, hf.read, ReadOutcome.lift, List.map_cons, hrest]

/-! ### Sources that give what they should -/

/-- Reads lead from such sources to such sources, and each one, if it is for at least one byte and not for too many,
gives at least one and no more than it was for, or appends nothing. -/
structure Measured (R : σ → Prop) : Prop where
  kept {s : σ} (h : R s) {n : Nat} (hn : 0 < n) (hle : n ≤ maxRequestLength) (b : Buffer) (host : Host) :
    R (ByteSource.read s n b host).source
  given {s : σ} (h : R s) {n : Nat} (hn : 0 < n) (hle : n ≤ maxRequestLength) {b : Buffer} {host : Host} {k : Nat}
    (hr : (ByteSource.read s n b host).result = .ok (some k)) : 0 < k ∧ k ≤ n
  idle {s : σ} (h : R s) {n : Nat} (hn : 0 < n) (hle : n ≤ maxRequestLength) {b : Buffer} {host : Host}
    (hr : ∀ k, (ByteSource.read s n b host).result ≠ .ok (some k)) :
    (ByteSource.read s n b host).buffer.length = b.length

/-- However the source is read, its reads give at least one byte and no more than were asked for, or append nothing. -/
def Modest (s : σ) : Prop := ∃ R : σ → Prop, Measured R ∧ R s

theorem measured_modest : Measured (Modest : σ → Prop) where
  kept := by
    rintro s ⟨R, hR, hs⟩ n hn hle b host
    exact ⟨R, hR, hR.kept hs hn hle b host⟩
  given := by
    rintro s ⟨R, hR, hs⟩ n hn hle b host k hr
    exact hR.given hs hn hle hr
  idle := by
    rintro s ⟨R, hR, hs⟩ n hn hle b host hr
    exact hR.idle hs hn hle hr

/-- A source that obeys the contract is modest. -/
theorem modest_of_obeys {bound : Nat} {whole : Prop} {told : σ → Prop}
    (h : ∀ (s : σ) (n : Nat) (b : Buffer) (host : Host), Obeys bound whole told s n b host (ByteSource.read s n b host))
    (s : σ) : Modest s := by
  refine ⟨fun _ => True, ⟨fun _ _ _ _ _ _ => trivial, ?_, ?_⟩, trivial⟩
  · intro s _ n hn _ b host k hr
    exact ((h s n b host).given hn k hr).1
  · intro s _ n hn _ b host hr
    rcases hres : (ByteSource.read s n b host).result with e | _ | k
    · rw [(h s n b host).failed e hres]
    · rw [((h s n b host).ended hn hres).1]
    · exact absurd hres (hr k)

/-- A source is modest if one is that does the same. -/
theorem Modest.of_hom (hf : SourceHom f) {s : σ} (h : Modest (f s)) : Modest s := by
  obtain ⟨R, hR, hs⟩ := h
  have hread (s : σ) (n : Nat) (b : Buffer) (host : Host) := hf.read s n b host
  refine ⟨fun s => R (f s), ⟨?_, ?_, ?_⟩, hs⟩
  · intro s hs n hn hle b host
    have hkept := hR.kept hs hn hle b host
    rw [hread] at hkept
    exact hkept
  · intro s hs n hn hle b host k hr
    have hr : (ByteSource.read (f s) n b host).result = .ok (some k) := by
      rw [hread]
      exact hr
    exact hR.given hs hn hle hr
  · intro s hs n hn hle b host hr
    have hr : ∀ k, (ByteSource.read (f s) n b host).result ≠ .ok (some k) := by
      rw [hread]
      exact hr
    have hidle := hR.idle hs hn hle hr
    rw [hread] at hidle
    exact hidle

end

/-! ### Watching -/

/-- A read that was made of a source: how many bytes it was for, and what came of it. -/
structure Pull where
  size : Nat
  result : Except Error (Option Nat)

/-- Whether the read gave any bytes. -/
def Pull.gives (p : Pull) : Bool :=
  match p.result with
  | .ok (some k) => 0 < k
  | _ => false

/-- A source with the reads that were made of it, in order. -/
structure Watched (σ : Type) where
  source : σ
  pulls : List Pull

namespace Watched

variable {σ : Type}

/-- A source that is watched from now on. -/
def start (source : σ) : Watched σ := ⟨source, []⟩

variable [ByteSource σ]

def read (s : Watched σ) (n : Nat) (b : Buffer) (host : Host) : ReadOutcome (Watched σ) :=
  let o := ByteSource.read s.source n b host
  o.lift fun source => ⟨source, s.pulls ++ [⟨n, o.result⟩]⟩

instance : ByteSource (Watched σ) where
  read := read
  close s host := (ByteSource.close s.source host).lift fun source => { s with source }
  timeout s := ByteSource.timeout s.source
  patience s := ByteSource.patience s.source
  length_read h := ByteSource.length_read h
  patience_read hn h := ByteSource.patience_read hn h

/-- When nobody watches, a watched source is the one that is watched. -/
theorem hom_source : SourceHom (source : Watched σ → σ) :=
  ⟨fun _ _ _ _ => rfl, fun _ _ => rfl, fun _ => rfl⟩

theorem pulls_of_read {s s' : Watched σ} {n : Nat} {b b' : Buffer} {host host' : Host} {r : Except Error (Option Nat)}
    (h : ByteSource.read s n b host = ⟨r, s', b', host'⟩) : s'.pulls = s.pulls ++ [⟨n, r⟩] := by
  have hlog : (ByteSource.read s n b host).source.pulls =
    s.pulls ++ [⟨n, (ByteSource.read s n b host).result⟩] := rfl
  rw [h] at hlog
  exact hlog

theorem modest_start {s : σ} (h : Modest s) : Modest (start s) := Modest.of_hom hom_source h

end Watched

/-! ### The reads of one call -/

namespace Watched

variable {σ : Type} {asked : Pull → Prop} {room : Nat} {s s₁ s' : Watched σ} {p : Pull} {pulls : List Pull}

/-- Between `s` and `s'` these reads were made, each one as it is `asked` for.  All but the last gave something, and
those that did are at most as many as there was `room`. -/
structure Drawn (asked : Pull → Prop) (room : Nat) (s s' : Watched σ) (pulls : List Pull) : Prop where
  log : s'.pulls = s.pulls ++ pulls
  asked : ∀ p ∈ pulls, asked p
  giving : ∀ p ∈ pulls.dropLast, p.gives
  few : pulls.countP Pull.gives ≤ room

theorem Drawn.nil : Drawn asked room s s [] where
  log := (List.append_nil _).symm
  asked := by simp
  giving := by simp
  few := by simp

/-- The last read, whatever it gives. -/
theorem Drawn.last (hroom : 0 < room) (hlog : s'.pulls = s.pulls ++ [p]) (hp : asked p) :
    Drawn asked room s s' [p] where
  log := hlog
  asked := by simpa using hp
  giving := by simp
  few := by
    have hone : [p].countP Pull.gives ≤ 1 := List.countP_le_length
    omega

/-- A read that gives something and takes up room, and those after it. -/
theorem Drawn.cons {room₁ : Nat} (h : Drawn asked room₁ s₁ s' pulls) (hroom : room₁ < room)
    (hlog : s₁.pulls = s.pulls ++ [p]) (hp : asked p) (hgives : p.gives) : Drawn asked room s s' (p :: pulls) where
  log := by rw [h.log, hlog, List.append_assoc, List.singleton_append]
  asked := List.forall_mem_cons.2 ⟨hp, h.asked⟩
  giving := by
    rcases pulls with _ | ⟨q, pulls⟩
    · simp
    · exact List.forall_mem_cons.2 ⟨hgives, h.giving⟩
  few := by
    have hfew := h.few
    rw [List.countP_cons_of_pos hgives]
    omega

theorem Drawn.mono {room₁ : Nat} (h : Drawn asked room₁ s s' pulls) (hroom : room₁ ≤ room) :
    Drawn asked room s s' pulls where
  log := h.log
  asked := h.asked
  giving := h.giving
  few := Nat.le_trans h.few hroom

/-- At most one read gave nothing. -/
theorem Drawn.length_le (h : Drawn asked room s s' pulls) : pulls.length ≤ room + 1 := by
  have hall : pulls.dropLast.countP Pull.gives = pulls.dropLast.length := List.countP_eq_length.2 h.giving
  have hsub : pulls.dropLast.countP Pull.gives ≤ pulls.countP Pull.gives := (List.dropLast_sublist pulls).countP_le
  have hfew := h.few
  rw [List.length_dropLast] at hall
  omega

end Watched

/-! ### Layers over sources that do the same -/

namespace Base64Source

variable {σ τ : Type}

/-- The source over another one. -/
def mapInner (f : σ → τ) (s : Base64Source σ) : Base64Source τ :=
  ⟨f s.inner, s.engine, s.encoded, s.decoded, s.exhausted, s.malformed, s.closed⟩

variable [ByteSource σ] [ByteSource τ] {f : σ → τ}

theorem fill_mapInner (hf : SourceHom f) (s : Base64Source σ) (n : Nat) (host : Host) :
    (s.mapInner f).fill n host = (s.fill n host).lift (mapInner f) := by
  have hstep {s : Base64Source σ} (h : s.decoded.length < n ∧ s.exhausted = false) (host : Host) :=
    fill_of_lt (s := s.mapInner f) h host
  have hread (s : Base64Source σ) (host : Host) :
      ByteSource.read (s.mapInner f).inner (request (n - (s.mapInner f).decoded.length)) (s.mapInner f).encoded host =
        (ByteSource.read s.inner (request (n - s.decoded.length)) s.encoded host).lift f := hf.read ..
  fun_induction Base64Source.fill s n host with
  | case1 s host h e inner encoded host' hr =>
    rw [hstep h, hread, hr]
    rfl
  | case2 s host h inner encoded host' hr s' he =>
    rw [hstep h, hread, hr]
    exact if_pos he
  | case3 s host h inner encoded host' hr s' he =>
    rw [hstep h, hread, hr]
    exact if_neg he
  | case4 s host h k inner encoded host' hr e rest hd =>
    have hd : decodeWhole (s.mapInner f).engine encoded = _ := hd
    rw [hstep h, hread, hr]
    simp only [ReadOutcome.lift, hd]
    rfl
  | case5 s host h k inner encoded host' hr bytes rest hd ih =>
    have hd : decodeWhole (s.mapInner f).engine encoded = _ := hd
    rw [hstep h, hread, hr]
    simp only [ReadOutcome.lift, hd]
    exact ih
  | case6 s host h =>
    rw [fill]
    exact dif_neg h

theorem read_mapInner (hf : SourceHom f) (s : Base64Source σ) (n : Nat) (b : Buffer) (host : Host) :
    (s.mapInner f).read n b host = (s.read n b host).lift (mapInner f) := by
  have hclosed : (s.mapInner f).closed = s.closed := rfl
  have hmalformed : (s.mapInner f).malformed = s.malformed := rfl
  unfold read
  rw [fill_mapInner hf, hclosed, hmalformed]
  split
  · rfl
  · split
    · rfl
    · split
      · rfl
      · split
        · rfl
        · rcases s.fill n host with ⟨_ | _, s', host'⟩
          · rfl
          · have hdecoded : (s'.mapInner f).decoded = s'.decoded := rfl
            simp only [CallOutcome.lift, hdecoded]
            split
            · rfl
            · rfl

/-- Over a source that does the same a decoder does the same. -/
theorem hom_mapInner (hf : SourceHom f) : SourceHom (mapInner f : Base64Source σ → Base64Source τ) where
  read := read_mapInner hf
  close s host := by
    show (s.mapInner f).close host = (s.close host).lift (mapInner f)
    have hclosed : (s.mapInner f).closed = s.closed := rfl
    have hinner : (s.mapInner f).inner = f s.inner := rfl
    unfold close
    rw [hclosed, hinner, hf.close]
    split
    · rfl
    · rfl
  timeout s := hf.timeout s.inner

end Base64Source

namespace CipherSource

variable {κ σ τ : Type}

/-- The source over another one. -/
def mapInner (f : σ → τ) (s : CipherSource κ σ) : CipherSource κ τ :=
  ⟨f s.inner, s.cipher, s.output, s.poisoned, s.closed⟩

variable [ByteCipher κ] [ByteSource σ] [ByteSource τ] {f : σ → τ}

theorem finalize_mapInner (hf : SourceHom f) (s : CipherSource κ σ) (host : Host) :
    (s.mapInner f).finalize host = (s.finalize host).lift (mapInner f) := by
  have hinner : (s.mapInner f).inner = f s.inner := rfl
  have hcipher : (s.mapInner f).cipher = s.cipher := rfl
  unfold finalize
  rw [hinner, hf.timeout, hcipher]
  rcases (ByteSource.timeout s.inner).check host with ⟨_ | _, host'⟩
  · rfl
  · rcases ByteCipher.finalize s.cipher with ⟨_ | out, cipher⟩
    · rfl
    · rfl

theorem fill_mapInner (hf : SourceHom f) (s : CipherSource κ σ) (n : Nat) (host : Host) :
    (s.mapInner f).fill n host = (s.fill n host).lift (mapInner f) := by
  have hstep {s : CipherSource κ σ} (h : s.output.length < n ∧ ByteCipher.isFinalized s.cipher = false)
      (host : Host) := fill_of_missing (s := s.mapInner f) h host
  have hread (s : CipherSource κ σ) (host : Host) :
      ByteSource.read (s.mapInner f).inner ((s.mapInner f).request (n - (s.mapInner f).output.length)) .empty host =
        (ByteSource.read s.inner (s.request (n - s.output.length)) .empty host).lift f := hf.read ..
  fun_induction CipherSource.fill s n host with
  | case1 s host hlt e inner b host' hr =>
    rw [hstep hlt, hread, hr]
    rfl
  | case2 s host hlt inner b host' hr =>
    rw [hstep hlt, hread, hr]
    exact finalize_mapInner hf { s with inner } host'
  | case3 s host hlt k inner input host' hr e cipher hu =>
    have hu : ByteCipher.update (s.mapInner f).cipher input.toList = _ := hu
    rw [hstep hlt, hread, hr]
    simp only [ReadOutcome.lift, hu]
    rfl
  | case4 s host hlt k inner input host' hr out cipher hu ih =>
    have hu : ByteCipher.update (s.mapInner f).cipher input.toList = _ := hu
    rw [hstep hlt, hread, hr]
    simp only [ReadOutcome.lift, hu]
    exact ih
  | case5 s host hge =>
    rw [fill]
    exact dif_neg hge

theorem read_mapInner (hf : SourceHom f) (s : CipherSource κ σ) (n : Nat) (b : Buffer) (host : Host) :
    (s.mapInner f).read n b host = (s.read n b host).lift (mapInner f) := by
  have hclosed : (s.mapInner f).closed = s.closed := rfl
  have hpoisoned : (s.mapInner f).poisoned = s.poisoned := rfl
  unfold read
  rw [fill_mapInner hf, hclosed, hpoisoned]
  rcases checkRead n with _ | _
  · rfl
  · simp only
    split
    · rfl
    · split
      · rfl
      · split
        · rfl
        · rcases s.fill n host with ⟨_ | _, s', host'⟩
          · rfl
          · have houtput : (s'.mapInner f).output = s'.output := rfl
            simp only [CallOutcome.lift, houtput]
            split
            · rfl
            · rfl

/-- Over a source that does the same a source that reads through a cipher does the same. -/
theorem hom_mapInner (hf : SourceHom f) : SourceHom (mapInner f : CipherSource κ σ → CipherSource κ τ) where
  read := read_mapInner hf
  close s host := by
    show (s.mapInner f).close host = (s.close host).lift (mapInner f)
    have hclosed : (s.mapInner f).closed = s.closed := rfl
    have hinner : (s.mapInner f).inner = f s.inner := rfl
    unfold close
    rw [hclosed, hinner, hf.close]
    split
    · rfl
    · rfl
  timeout s := hf.timeout s.inner

end CipherSource

end Conduit
