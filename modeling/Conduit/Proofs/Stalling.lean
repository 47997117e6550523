import Conduit.Proofs.Resuming
import Conduit.Proofs.Watching

/-!
# Sources that stall

A read that runs out of time may have appended some bytes already.  They stay in the buffer, and the next read goes on
behind them; so a source gives its stream although reads of it stall, and some of the stream comes with an error
(`Grants`).  A traced source remembers what each read has appended.  What a layer over it makes of that is told by
relations that every read keeps (`Accounting`, `readMany_of_accounting`).
-/

namespace Conduit

section

variable {σ : Type}

/-- What a read of at most `n` bytes leaves behind when `x` is still to be given: some of `x` is served, or the read may
be repeated and goes on behind what it has appended of `x`. -/
def Advanced (R : σ → Bytes → Prop) (x : Bytes) (n : Nat) (b : Buffer) (o : ReadOutcome σ) : Prop :=
  Served R x n b o ∨ ∃ e k, o.result = .error e ∧ e.retryable = true ∧ k ≤ n ∧ k ≤ x.length ∧
    o.buffer.toList = b.toList ++ x.take k ∧ R o.source (x.drop k)

theorem Advanced.mono {R R' : σ → Bytes → Prop} (hR : ∀ s x, R s x → R' s x) {x : Bytes} {n : Nat} {b : Buffer}
    {o : ReadOutcome σ} (h : Advanced R x n b o) : Advanced R' x n b o := by
  rcases h with h | ⟨e, k, hr, he, hn, hx, hb, hs⟩
  · exact .inl (h.mono hR)
  · exact .inr ⟨e, k, hr, he, hn, hx, hb, hR _ _ hs⟩

/-- What is served is a piece of what was to be served, and there is none only at the end. -/
theorem Served.gave {R : σ → Bytes → Prop} {x : Bytes} {n : Nat} {b : Buffer} {o : ReadOutcome σ}
    (h : Served R x n b o) (host : Host) : ∃ piece rest, piece ++ rest = x ∧ Gave ((n, b, host), o) piece ∧
      R o.source rest ∧ ((o.result = .ok none ∧ x = []) ∨ ∃ k, o.result = .ok (some k) ∧ piece ≠ []) := by
  rcases h with ⟨rfl, hr, hb, hs⟩ | ⟨k, hk, hkn, hkx, hr, hb, hs⟩
  · refine ⟨[], [], rfl, ?_, hs, .inl ⟨hr, rfl⟩⟩
    simp only [Gave, hr]
    exact ⟨trivial, hb⟩
  · have hlen : (x.take k).length = k := by rw [List.length_take, Nat.min_eq_left hkx]
    refine ⟨x.take k, x.drop k, List.take_append_drop .., ?_, hs, .inr ⟨k, hr, ?_⟩⟩
    · simp only [Gave, hr]
      exact ⟨hlen, hk, hkn, hb⟩
    · exact List.ne_nil_of_length_pos (by rw [hlen]; exact hk)

variable [ByteSource σ]

/-- Reads keep the relation between a source and what it is to give. -/
structure Advancing (R : σ → Bytes → Prop) : Prop where
  read {s : σ} {x : Bytes} (h : R s x) {n : Nat} (hn : 0 < n) (hle : n ≤ maxRequestLength) (b : Buffer) (host : Host) :
    Advanced R x n b (ByteSource.read s n b host)

/-- The source is going to give `x`, if reads that run out of time are repeated; also these may append some of it. -/
def Grants (s : σ) (x : Bytes) : Prop := ∃ R : σ → Bytes → Prop, Advancing R ∧ R s x

theorem advancing_grants : Advancing (Grants : σ → Bytes → Prop) where
  read := by
    rintro s x ⟨R, hR, hs⟩ n hn hle b host
    apply (hR.read hs hn hle b host).mono
    intro s x hs
    exact ⟨R, hR, hs⟩

end

/-! ### Tracing -/

/-- A read that was made of a source: what it has appended, and what came of it. -/
structure Fetch where
  bytes : Bytes
  result : Except Error (Option Nat)

namespace Fetch

def failed (f : Fetch) : Bool :=
  match f.result with
  | .error _ => true
  | .ok _ => false

/-- Whether the read has failed or found the end. -/
def halted (f : Fetch) : Bool :=
  match f.result with
  | .ok (some _) => false
  | _ => true

/-- What the read has appended, unless it failed. -/
def retained (f : Fetch) : Bytes := if f.failed then [] else f.bytes

end Fetch

/-- All that the reads have appended. -/
def brought (fetches : List Fetch) : Bytes := fetches.flatMap Fetch.bytes

/-- All that those reads have appended that did not fail. -/
def retained (fetches : List Fetch) : Bytes := fetches.flatMap Fetch.retained

/-- The last bytes that were appended came with a failure. -/
def Dangling (fetches : List Fetch) : Prop := ∃ f ∈ (fetches.filter fun f => f.bytes ≠ []).getLast?, f.failed = true

theorem brought_concat (fetches : List Fetch) (f : Fetch) : brought (fetches ++ [f]) = brought fetches ++ f.bytes := by
  simp [brought]

theorem retained_concat (fetches : List Fetch) (f : Fetch) :
    retained (fetches ++ [f]) = retained fetches ++ f.retained := by
  simp [retained]

theorem not_dangling_nil : ¬ Dangling [] := by
  simp [Dangling]

theorem dangling_concat {fetches : List Fetch} {f : Fetch} :
    Dangling (fetches ++ [f]) ↔ if f.bytes = [] then Dangling fetches else f.failed = true := by
  by_cases h : f.bytes = []
  · simp [Dangling, h]
  · simp [Dangling, h]

/-- A source with what its reads have brought, in order. -/
structure Traced (σ : Type) where
  source : σ
  fetches : List Fetch

namespace Traced

variable {σ : Type}

/-- A source that is traced from now on. -/
def start (source : σ) : Traced σ := ⟨source, []⟩

variable [ByteSource σ]

def read (s : Traced σ) (n : Nat) (b : Buffer) (host : Host) : ReadOutcome (Traced σ) :=
  let o := ByteSource.read s.source n b host
  o.lift fun source => ⟨source, s.fetches ++ [⟨o.buffer.toList.drop b.length, o.result⟩]⟩

instance : ByteSource (Traced σ) where
  read := read
  close s host := (ByteSource.close s.source host).lift fun source => { s with source }
  timeout s := ByteSource.timeout s.source
  patience s := ByteSource.patience s.source
  length_read h := ByteSource.length_read h
  patience_read hn h := ByteSource.patience_read hn h

/-- A traced source does what the source does that is traced. -/
theorem hom_source : SourceHom (source : Traced σ → σ) :=
  ⟨fun _ _ _ _ => rfl, fun _ _ => rfl, fun _ => rfl⟩

/-- The source has brought all of `t` but for `x`, which it is still to give. -/
structure Left (t : Bytes) (s : Traced σ) (x : Bytes) : Prop where
  grants : Grants s.source x
  whole : brought s.fetches ++ x = t

theorem left_start {s : σ} {t : Bytes} (h : Grants s t) : (start s).Left t t := ⟨h, rfl⟩

/-- What a read has brought is a piece of what was left: none at the end, and some if it tells so.  If it has failed, it
may be repeated. -/
theorem Left.read {t x : Bytes} {s : Traced σ} (h : s.Left t x) {n : Nat} (hn : 0 < n) (hle : n ≤ maxRequestLength)
    (b : Buffer) (host : Host) :
    let o := ByteSource.read s n b host
    ∃ y rest, y ++ rest = x ∧ o.buffer.toList = b.toList ++ y ∧ o.source.fetches = s.fetches ++ [⟨y, o.result⟩] ∧
      o.source.Left t rest ∧ ((∃ e, o.result = .error e ∧ e.retryable = true) ∨ (o.result = .ok none ∧ x = []) ∨
        ∃ k, o.result = .ok (some k) ∧ y ≠ []) := by
  -- what was appended is what the fetch says
  have hlog {y rest : Bytes} (hcat : y ++ rest = x)
      (hb : (ByteSource.read s.source n b host).buffer.toList = b.toList ++ y)
      (hs : Grants (ByteSource.read s.source n b host).source rest) :
      (ByteSource.read s n b host).source.fetches = s.fetches ++ [⟨y, (ByteSource.read s n b host).result⟩] ∧
        (ByteSource.read s n b host).source.Left t rest := by
    have hfetches : (ByteSource.read s n b host).source.fetches =
        s.fetches ++ [⟨y, (ByteSource.read s n b host).result⟩] := by
      show s.fetches ++ [⟨(ByteSource.read s.source n b host).buffer.toList.drop b.length, _⟩] = _
      rw [hb, ← Buffer.length_toList, List.drop_left]
      rfl
    refine ⟨hfetches, hs, ?_⟩
    rw [hfetches, brought_concat, List.append_assoc, hcat, h.whole]
  rcases advancing_grants.read h.grants hn hle b host with hserved | ⟨e, k, hr, he, -, -, hb, hs⟩
  · obtain ⟨y, rest, hcat, hgave, hs, hend⟩ := hserved.gave host
    have hb : (ByteSource.read s.source n b host).buffer.toList = b.toList ++ y := by
      rcases hend with ⟨hr, -⟩ | ⟨k, hr, -⟩
      · simp only [Gave, hr] at hgave
        rw [hgave.1, hgave.2, List.append_nil]
      · simp only [Gave, hr] at hgave
        exact hgave.2.2.2
    obtain ⟨hfetches, hleft⟩ := hlog hcat hb hs
    exact ⟨y, rest, hcat, hb, hfetches, hleft, .inr hend⟩
  · have hcat := List.take_append_drop k x
    obtain ⟨hfetches, hleft⟩ := hlog hcat hb hs
    exact ⟨x.take k, x.drop k, hcat, hb, hfetches, hleft, .inl ⟨e, hr, he⟩⟩

/-- One more of the reads that were made is such a one, or not, as its result shows. -/
theorem countP_of_read {s s' : Traced σ} {n : Nat} {b b' : Buffer} {host host' : Host} {r : Except Error (Option Nat)}
    (h : ByteSource.read s n b host = ⟨r, s', b', host'⟩) {p : Fetch → Bool} {v : Bool} (hp : ∀ y, p ⟨y, r⟩ = v) :
    s'.fetches.countP p = s.fetches.countP p + v.toNat := by
  have hlog : (ByteSource.read s n b host).source.fetches =
      s.fetches ++ [⟨(ByteSource.read s n b host).buffer.toList.drop b.length, (ByteSource.read s n b host).result⟩] :=
    rfl
  rw [h] at hlog
  simp only at hlog
  rw [hlog, List.countP_append, List.countP_singleton, hp]
  cases v <;> rfl

end Traced

/-! ### Runs of reads that may fail for good -/

section

variable {σ : Type} {P : σ → Bytes → Prop} {Ended Spoilt : σ → Prop} {cost : σ → Nat} {paid : Nat} {given : Bytes}
  {n : Nat} {b : Buffer} {host : Host}

/-- A read has given a piece and kept the relation between the source and what it has given so far.  If it has found the
end, the source has ended.  If it has failed, that has cost something and it may be repeated, or the source is spoilt. -/
structure Accounted (P : σ → Bytes → Prop) (Ended Spoilt : σ → Prop) (cost : σ → Nat) (given : Bytes) (paid : Nat)
    (r : Nat × Buffer × Host) (o : ReadOutcome σ) (piece : Bytes) : Prop where
  gave : Gave (r, o) piece
  kept : P o.source (given ++ piece)
  ended : o.result = .ok none → Ended o.source
  counted : paid ≤ cost o.source
  failed {e : Error} (h : o.result = .error e) :
    (e.retryable = true ∧ paid < cost o.source) ∨ (e.retryable = false ∧ Spoilt o.source)

theorem accounted_of_error {e : Error} {s : σ} {host' : Host} (hs : P s given) (hpaid : paid ≤ cost s)
    (he : (e.retryable = true ∧ paid < cost s) ∨ (e.retryable = false ∧ Spoilt s)) :
    Accounted P Ended Spoilt cost given paid (n, b, host) ⟨.error e, s, b, host'⟩ [] where
  gave := ⟨rfl, rfl⟩
  kept := by rwa [List.append_nil]
  ended h := by cases h
  counted := hpaid
  failed h := by
    obtain rfl := Except.error.inj h
    exact he

/-- A read that gives what is in front of a buffer, or finds the end if that is empty. -/
theorem accounted_of_buffer (hn : 0 < n) {out : Buffer} {f : Buffer → σ}
    (hP : ∀ (piece : Bytes) (rest : Buffer), piece ++ rest.toList = out.toList → P (f rest) (given ++ piece))
    (hend : out.toList = [] → Ended (f out)) (hpaid : ∀ rest : Buffer, paid ≤ cost (f rest)) (host' : Host) :
    ∃ piece, Accounted P Ended Spoilt cost given paid (n, b, host)
      (if out.isEmpty then ⟨.ok none, f out, b, host'⟩
      else ⟨.ok (some (min n out.length)), f (out.moveTo (min n out.length) b).2,
        (out.moveTo (min n out.length) b).1, host'⟩) piece := by
  by_cases hempty : out.isEmpty
  · have hnil := Buffer.isEmpty_iff.1 hempty
    rw [if_pos hempty]
    refine ⟨[], ⟨rfl, rfl⟩, hP [] out rfl, fun _ => hend hnil, hpaid out, ?_⟩
    rintro e ⟨⟩
  · have hpos : out.length ≠ 0 := fun h0 => hempty (Buffer.isEmpty_iff.2 (Buffer.length_eq_zero_iff.1 h0))
    have hlen : (out.toList.take (min n out.length)).length = min n out.length := by
      rw [List.length_take, Buffer.length_toList]
      omega
    rw [if_neg hempty]
    refine ⟨out.toList.take (min n out.length), ?_, ?_, ?_, hpaid _, ?_⟩
    · exact ⟨hlen, by omega, Nat.min_le_left .., Buffer.toList_moveTo_fst ..⟩
    · refine hP _ _ ?_
      rw [Buffer.toList_moveTo_snd, List.take_append_drop]
    · rintro ⟨⟩
    · rintro e ⟨⟩

variable [ByteSource σ]

/-- Every read keeps the relation between a source and what it has given.  A source that has ended stays so, and so does
one that is spoilt. -/
structure Accounting (P : σ → Bytes → Prop) (Ended Spoilt : σ → Prop) (cost : σ → Nat) : Prop where
  read {s : σ} {given : Bytes} (h : P s given) {n : Nat} (hn : 0 < n) (hl : n < maxRequestLength) (b : Buffer)
    (host : Host) :
    ∃ piece, Accounted P Ended Spoilt cost given (cost s) (n, b, host) (ByteSource.read s n b host) piece
  ended {s : σ} {given : Bytes} (h : P s given) (hs : Ended s) {n : Nat} (hn : 0 < n) (hl : n < maxRequestLength)
    (b : Buffer) (host : Host) : Ended (ByteSource.read s n b host).source
  spoilt {s : σ} {given : Bytes} (h : P s given) (hs : Spoilt s) {n : Nat} (hn : 0 < n) (hl : n < maxRequestLength)
    (b : Buffer) (host : Host) : Spoilt (ByteSource.read s n b host).source

private theorem Accounting.lasts (hP : Accounting P Ended Spoilt cost) {reads : List (Nat × Buffer × Host)} {s : σ}
    (h : P s given) (hr : ∀ r ∈ reads, 0 < r.1 ∧ r.1 < maxRequestLength) :
    (Ended s → Ended (readMany reads s).2) ∧ (Spoilt s → Spoilt (readMany reads s).2) := by
  induction reads generalizing s given with
  | nil => exact ⟨id, id⟩
  | cons r reads ih =>
    obtain ⟨n, b, host⟩ := r
    obtain ⟨⟨hn, hl⟩, hrest⟩ := List.forall_mem_cons.1 hr
    obtain ⟨piece, hread⟩ := hP.read h hn hl b host
    obtain ⟨hended, hspoilt⟩ := ih hread.kept hrest
    exact ⟨fun he => hended (hP.ended h he hn hl b host), fun hf => hspoilt (hP.spoilt h hf hn hl b host)⟩

/-- The read has failed and may be repeated. -/
def ReadOutcome.repeatable (o : ReadOutcome σ) : Bool :=
  match o.result with
  | .error e => e.retryable
  | .ok _ => false

/-- Reads give pieces.  The source has ended once one of them has found the end, and it is spoilt once one of them has
failed for good.  Those that may be repeated are no more than what was paid for. -/
theorem readMany_of_accounting (hP : Accounting P Ended Spoilt cost) {reads : List (Nat × Buffer × Host)} {s : σ}
    (h : P s given) (hr : ∀ r ∈ reads, 0 < r.1 ∧ r.1 < maxRequestLength) : ∃ pieces : List Bytes,
      List.Forall₂ Gave (reads.zip (readMany reads s).1) pieces ∧ P (readMany reads s).2 (given ++ pieces.flatten) ∧
      ((∃ o ∈ (readMany reads s).1, o.result = .ok none) → Ended (readMany reads s).2) ∧
      (∀ o ∈ (readMany reads s).1, ∀ e, o.result = .error e → e.retryable = true ∨ Spoilt (readMany reads s).2) ∧
      cost s + (readMany reads s).1.countP ReadOutcome.repeatable ≤ cost (readMany reads s).2 := by
  induction reads generalizing s given with
  | nil =>
    refine ⟨[], .nil, ?_, by simp [readMany], by simp [readMany], Nat.le_refl _⟩
    rwa [List.flatten_nil, List.append_nil]
  | cons r reads ih =>
    obtain ⟨n, b, host⟩ := r
    obtain ⟨⟨hn, hl⟩, hrest⟩ := List.forall_mem_cons.1 hr
    obtain ⟨piece, hread⟩ := hP.read h hn hl b host
    obtain ⟨pieces, hpieces, hfinal, hend, herr, hcost⟩ := ih hread.kept hrest
    obtain ⟨hended, hspoilt⟩ := hP.lasts hread.kept hrest
    rw [List.append_assoc] at hfinal
    refine ⟨piece :: pieces, .cons hread.gave hpieces, hfinal, ?_, List.forall_mem_cons.2 ⟨?_, herr⟩, ?_⟩
    · rintro ⟨o, ho, hnone⟩
      rcases List.mem_cons.1 ho with rfl | ho
      · exact hended (hread.ended hnone)
      · exact hend ⟨o, ho, hnone⟩
    · intro e he
      exact (hread.failed he).imp And.left fun hf => hspoilt hf.2
    · have hpaid : cost s + (if (ByteSource.read s n b host).repeatable then 1 else 0) ≤
          cost (ByteSource.read s n b host).source := by
        split
        · rename_i hrep
          rcases hres : (ByteSource.read s n b host).result with e | k
          · rw [ReadOutcome.repeatable, hres] at hrep
            rcases hread.failed hres with ⟨-, hlt⟩ | ⟨hno, -⟩
            · exact hlt
            · rw [show e.retryable = true from hrep] at hno
              cases hno
          · rw [ReadOutcome.repeatable, hres] at hrep
            cases hrep
        · exact hread.counted
      simp only [readMany, List.countP_cons] at hcost ⊢
      omega

end

/-! ### A source that stalls -/

/-- A part of a stream, and whether the read that comes to its end runs out of time there. -/
structure Portion where
  bytes : Bytes
  stalls : Bool

/-- A source that gives its portions one after the other. -/
structure StallingSource where
  portions : List Portion
  closed : Bool

namespace StallingSource

def ofPortions (portions : List Portion) : StallingSource := ⟨portions, false⟩

def read (s : StallingSource) (n : Nat) (b : Buffer) (host : Host) : ReadOutcome StallingSource :=
  match checkRead n with
  | .error e => ⟨.error e, s, b, host⟩
  | .ok () =>
    if s.closed then ⟨.error .closed, s, b, host⟩
    else if n = 0 then ⟨.ok (some 0), s, b, host⟩
    else match s.portions with
      | [] => ⟨.ok none, s, b, host⟩
      | p :: portions =>
        if n < p.bytes.length then
          ⟨.ok (some n), { s with portions := { p with bytes := p.bytes.drop n } :: portions },
            b.append (p.bytes.take n), host⟩
        else
          ⟨if p.stalls then .error (.timedOut .zero) else .ok (some p.bytes.length), { s with portions },
            b.append p.bytes, host⟩

/-- What a read of an open source does. -/
private theorem read_of_open {s : StallingSource} (ho : s.closed = false) {n : Nat} (hn : 0 < n)
    (hle : n ≤ maxRequestLength) (b : Buffer) (host : Host) : s.read n b host =
      match s.portions with
      | [] => ⟨.ok none, s, b, host⟩
      | p :: portions =>
        if n < p.bytes.length then
          ⟨.ok (some n), { s with portions := { p with bytes := p.bytes.drop n } :: portions },
            b.append (p.bytes.take n), host⟩
        else
          ⟨if p.stalls then .error (.timedOut .zero) else .ok (some p.bytes.length), { s with portions },
            b.append p.bytes, host⟩ := by
  have ho : ¬ s.closed = true := by simp [ho]
  unfold read
  rw [checkRead_eq_ok_iff.2 hle]
  exact (if_neg ho).trans (if_neg (Nat.ne_of_gt hn))

theorem read_eq_ok {s : StallingSource} {n : Nat} {b : Buffer} {host : Host} {r : Option Nat}
    (h : (s.read n b host).result = .ok r) :
    (∀ k, r = some k → (s.read n b host).buffer.length = b.length + k) ∧
      (0 < n → (s.read n b host).source.portions.length + (if r = some 0 then 1 else 0) ≤ s.portions.length) := by
  unfold read at h ⊢
  split
  · rename_i hm
    simp [hm] at h
  · rename_i hm
    rw [hm] at h
    split
    · rename_i hc
      simp [hc] at h
    · rename_i hc
      split
      · rename_i hn
        subst hn
        simp only [hc, if_false, if_true, Bool.false_eq_true, Except.ok.injEq] at h
        subst h
        simp
      · rename_i hn
        simp only [hc, hn, if_false, Bool.false_eq_true] at h
        split
        · rename_i hp
          simp only [hp, Except.ok.injEq] at h
          subst h
          simp
        · rename_i p portions hp
          simp only [hp] at h
          split
          · -- a part of the portion is left
            rename_i hlt
            simp only [hlt, if_true, Except.ok.injEq] at h
            subst h
            simp [hn, hp, Nat.min_eq_left (Nat.le_of_lt hlt)]
          · rename_i hge
            simp only [hge, if_false] at h
            split at h
            · cases h
            · obtain rfl := Except.ok.inj h
              refine ⟨?_, fun _ => ?_⟩
              · rintro k ⟨⟩
                exact Buffer.length_append ..
              · have hone : (if some p.bytes.length = some 0 then 1 else 0) ≤ 1 := by split <;> omega
                rw [hp, List.length_cons]
                exact Nat.add_le_add_left hone portions.length

instance : ByteSource StallingSource where
  read := read
  close s host := ⟨.ok (), { s with closed := true }, host⟩
  timeout _ := .none
  patience s := s.portions.length
  length_read h := (read_eq_ok h).1 _ rfl
  patience_read hn h := (read_eq_ok h).2 hn

/-- Whatever reads stall, the source gives its portions, if none is empty at whose end no read stalls. -/
theorem grants {portions : List Portion} (h : ∀ p ∈ portions, p.stalls = false → p.bytes ≠ []) :
    Grants (ofPortions portions) (portions.flatMap Portion.bytes) := by
  refine ⟨fun s x => s.closed = false ∧ (∀ p ∈ s.portions, p.stalls = false → p.bytes ≠ []) ∧
    s.portions.flatMap Portion.bytes = x, ⟨?_⟩, rfl, h, rfl⟩
  rintro ⟨portions, -⟩ x ⟨rfl, hne, rfl⟩ n hn hle b host
  show Advanced _ _ _ _ (StallingSource.read _ n b host)
  rw [read_of_open rfl hn hle]
  cases portions with
  | nil => exact .inl (.inl ⟨rfl, rfl, rfl, rfl, hne, rfl⟩)
  | cons p portions =>
    obtain ⟨hp, hrest⟩ := List.forall_mem_cons.1 hne
    have hcat : (p :: portions).flatMap Portion.bytes = p.bytes ++ portions.flatMap Portion.bytes := List.flatMap_cons ..
    have hlen : p.bytes.length ≤ ((p :: portions).flatMap Portion.bytes).length := by
      rw [hcat, List.length_append]
      exact Nat.le_add_right ..
    simp only
    by_cases hlt : n < p.bytes.length
    · rw [if_pos hlt]
      refine .inl (.inr ⟨n, hn, Nat.le_refl n, by omega, rfl, ?_, rfl, ?_, ?_⟩)
      · rw [Buffer.toList_append, hcat, List.take_append_of_le_length (Nat.le_of_lt hlt)]
      · refine List.forall_mem_cons.2 ⟨fun _ => ?_, hrest⟩
        rw [ne_eq, List.drop_eq_nil_iff]
        exact Nat.not_le.2 hlt
      · rw [hcat, List.drop_append_of_le_length (Nat.le_of_lt hlt), List.flatMap_cons]
    · rw [if_neg hlt]
      have hle : p.bytes.length ≤ n := Nat.le_of_not_lt hlt
      have hb : (b.append p.bytes).toList =
          b.toList ++ ((p :: portions).flatMap Portion.bytes).take p.bytes.length := by
        rw [Buffer.toList_append, hcat, List.take_left]
      have hdrop : portions.flatMap Portion.bytes =
          ((p :: portions).flatMap Portion.bytes).drop p.bytes.length := by
        rw [hcat, List.drop_left]
      by_cases hstalls : p.stalls
      · rw [if_pos hstalls]
        exact .inr ⟨_, _, rfl, rfl, hle, hlen, hb, rfl, hrest, hdrop⟩
      · rw [if_neg hstalls]
        have hpos : 0 < p.bytes.length := List.length_pos_iff.2 (hp (by simpa using hstalls))
        exact .inl (.inr ⟨_, hpos, hle, hlen, rfl, hb, rfl, hrest, hdrop⟩)

end StallingSource

end Conduit
