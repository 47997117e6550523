import Conduit.Proofs.Base64.OnDemand
import Conduit.Proofs.Cipher.Feeding
import Conduit.Proofs.Cipher.Serving

/-!
# Reading through a cipher on demand

A cipher gives some output before the end of its stream and some at the end, or it fails there; how the stream was cut
makes no difference.  A source that reads through the cipher gives just that: each read as much as it asks for or as
there is left, and none fails before it asks for more than there is before a failing end (`portionThrough`).  What a
read gives depends on the bytes of the inner source and on the reads before, not on the pieces that the inner source
serves (`transform_on_demand`).
-/

namespace Conduit

/-! ### What is read -/

/-- The read into `b` gives this: the bytes are appended, and if there are none the buffer is left as it was. -/
def ReadOutcome.Gives {τ : Type} (o : ReadOutcome τ) (b : Buffer) (r : Except Error (Option Bytes)) : Prop :=
  match r with
  | .ok (some x) => o.result = .ok (some x.length) ∧ o.buffer.toList = b.toList ++ x
  | .ok none => o.result = .ok none ∧ o.buffer = b
  | .error e => o.result = .error e ∧ o.buffer = b

/-- What a read for `n` bytes gives of `x` after reads for `before` bytes: as many as it asks for or as there are left,
then the end. -/
def portion (x : Bytes) (before n : Nat) : Option Bytes :=
  if x.length ≤ before then none else some ((x.drop before).take n)

/-- What a read for `n` bytes gives after reads for `before` bytes, if a cipher gives `out` before the end of its stream
and `ending` is what the end gives.  The first read that asks for more than there is before a failing end fails with its
error, and those after it find that the cipher has failed. -/
def portionThrough (out : Bytes) (ending : Except Error Bytes) (before n : Nat) : Except Error (Option Bytes) :=
  match ending with
  | .ok last => .ok (portion (out ++ last) before n)
  | .error e =>
    if out.length < before then .error (.malformedStream .cipherFailed)
    else if out.length < before + n then .error e
    else .ok (some ((out.drop before).take n))

theorem portionThrough_append (out out' : Bytes) (ending : Except Error Bytes) (before n : Nat) :
    portionThrough (out ++ out') ending (out.length + before) n = portionThrough out' ending before n := by
  cases ending with
  | ok last =>
    simp only [portionThrough, portion, List.append_assoc, List.drop_length_add_append, List.length_append,
      Nat.add_le_add_iff_left]
  | error e =>
    simp only [portionThrough, List.drop_length_add_append, List.length_append, Nat.add_assoc, Nat.add_lt_add_iff_left]

/-- As long as there is enough, what else the cipher gives and how its stream ends are not seen. -/
theorem portionThrough_of_le {out : Bytes} {before n : Nat} (hn : 0 < n) (h : before + n ≤ out.length) (out' : Bytes)
    (ending : Except Error Bytes) : portionThrough (out ++ out') ending before n = .ok (portion out before n) := by
  have hseen (y : Bytes) : ((out ++ y).drop before).take n = (out.drop before).take n := by
    have htake : n ≤ (out.drop before).length := by
      rw [List.length_drop]
      omega
    rw [List.drop_append_of_le_length (by omega), List.take_append_of_le_length htake]
  have hlong (y : Bytes) : before + n ≤ (out ++ y).length := by
    rw [List.length_append]
    omega
  rw [portion, if_neg (by omega)]
  cases ending with
  | ok last =>
    have hle := hlong (out' ++ last)
    rw [portionThrough, portion, List.append_assoc, if_neg (by omega), hseen]
  | error e =>
    have hle := hlong out'
    rw [portionThrough, if_neg (by omega), if_neg (by omega), hseen]

/-- What is held of `x` behind the bytes that were given is what a read gives, and the rest is held after it. -/
private theorem gives_of_held {τ : Type} {x : Bytes} {before n : Nat} {held : Buffer} (h : held.toList = x.drop before)
    (f : Buffer → τ) (b : Buffer) (host : Host) :
    let o : ReadOutcome τ := if held.isEmpty then ⟨.ok none, f held, b, host⟩
      else ⟨.ok (some (min n held.length)), f (held.moveTo (min n held.length) b).2,
        (held.moveTo (min n held.length) b).1, host⟩
    o.Gives b (.ok (portion x before n)) ∧ ∃ rest, o.source = f rest ∧ rest.toList = x.drop (before + n) := by
  have hlen : held.length = x.length - before := by rw [← Buffer.length_toList, h, List.length_drop]
  by_cases hempty : held.isEmpty
  · have hle : x.length ≤ before := by
      have : held.length = 0 := beq_iff_eq.1 hempty
      omega
    simp only [hempty, if_true, portion, if_pos hle]
    refine ⟨⟨rfl, rfl⟩, held, rfl, ?_⟩
    rw [h, List.drop_eq_nil_of_le hle, List.drop_eq_nil_of_le (by omega)]
  · have hle : ¬ x.length ≤ before := by
      have : held.length ≠ 0 := fun h0 => hempty (beq_iff_eq.2 h0)
      omega
    simp only [hempty, if_false, Bool.false_eq_true, portion, if_neg hle]
    refine ⟨⟨?_, ?_⟩, _, rfl, ?_⟩
    · rw [List.length_take, List.length_drop, hlen]
    · rw [Buffer.toList_moveTo_fst, h, hlen, ← List.length_drop, ← List.take_eq_take_min]
    · rw [Buffer.toList_moveTo_snd, h, List.drop_drop]
      rcases Nat.le_total n held.length with hn | hn
      · rw [Nat.min_eq_left hn]
      · rw [List.drop_eq_nil_of_le (by omega), List.drop_eq_nil_of_le (by omega)]

/-! ### Where a source stands -/

/-- Such a cipher can be read through: its blocks are small enough to be asked for, and if its end fails, the stream is
malformed. -/
structure Readable {κ : Type} [ByteCipher κ] (state : Bytes → κ) (output : Bytes → Bytes) : Prop
    extends Course state output where
  blockSize (x : Bytes) : ByteCipher.blockSize (state x) ≤ maxRequestLength
  malformed (x : Bytes) {e : Error} (h : (ByteCipher.finalize (state x)).1 = .error e) :
    ∃ fault, e = .malformedStream fault

namespace CipherSource

variable {κ σ : Type} [ByteCipher κ] [ByteSource σ] {state : Bytes → κ} {output : Bytes → Bytes}

/-- The cipher has been fed `x`, and the rest of `t` is still to come; the source holds what is behind the first `given`
bytes of the output. -/
structure Follows (state : Bytes → κ) (output : Bytes → Bytes) (t : Bytes) (given : Nat) (x : Bytes)
    (s : CipherSource κ σ) : Prop where
  isOpen : s.closed = false
  sound : s.poisoned = false
  cipher : s.cipher = state x
  rest : ∃ r, Serves maxRequestLength s.inner r ∧ x ++ r = t
  held : s.output.toList = (output x).drop given
  supply : given ≤ (output x).length

/-- The cipher has ended its stream, and there will be no more than `x`; the source holds what is behind the first
`given` bytes of that. -/
structure Finished (x : Bytes) (given : Nat) (s : CipherSource κ σ) : Prop where
  isOpen : s.closed = false
  sound : s.poisoned = false
  ended : ByteCipher.isFinalized s.cipher = true
  held : s.output.toList = x.drop given

/-- The cipher has failed, and so do all reads. -/
structure Failed (s : CipherSource κ σ) : Prop where
  isOpen : s.closed = false
  poisoned : s.poisoned = true

/-- The source has given `given` bytes, or all there are, of what the cipher makes of `t`, or has failed to. -/
inductive Stands (state : Bytes → κ) (output : Bytes → Bytes) (t : Bytes) (given : Nat) (s : CipherSource κ σ) : Prop
  | following {x : Bytes} (h : s.Follows state output t given x)
  | finished {last : Bytes} (hend : (ByteCipher.finalize (state t)).1 = .ok last)
      (h : s.Finished (output t ++ last) given)
  | failed {e : Error} (hend : (ByteCipher.finalize (state t)).1 = .error e) (hlt : (output t).length < given)
      (h : s.Failed)

variable {t : Bytes} {given n : Nat} {x : Bytes} {s : CipherSource κ σ}

omit [ByteCipher κ] [ByteSource σ] in
private theorem length_held {y : Bytes} (h : s.output.toList = y.drop given) : s.output.length = y.length - given := by
  rw [← Buffer.length_toList, h, List.length_drop]

/-- What the cipher has given is in front of all that it gives. -/
private theorem Follows.prefix_output (hr : Readable state output) (h : s.Follows state output t given x) :
    output x <+: output t := by
  obtain ⟨r, -, rfl⟩ := h.rest
  obtain ⟨out, -, hout⟩ := hr.update x r
  exact ⟨out, hout.symm⟩

/-- As long as there is not enough, the inner source is read, and serves what is still to come. -/
private theorem Follows.served (hr : Readable state output) (h : s.Follows state output t given x)
    (hlt : s.output.length < n) (hn : n ≤ maxRequestLength) (host : Host) :
    ∃ r, x ++ r = t ∧ Served (Serves maxRequestLength) r (s.request (n - s.output.length)) .empty
      (ByteSource.read s.inner (s.request (n - s.output.length)) .empty host) := by
  obtain ⟨r, hs, hxr⟩ := h.rest
  have hsize : ByteCipher.blockSize s.cipher ≤ maxRequestLength := h.cipher ▸ hr.blockSize x
  have hpos : 0 < s.request (n - s.output.length) := by
    simp only [request]
    omega
  have hle : s.request (n - s.output.length) ≤ maxRequestLength := Nat.max_le.2 ⟨by omega, hsize⟩
  exact ⟨r, hxr, (serving_serves maxRequestLength).read hs hpos hle .empty host⟩

/-- The cipher has been brought to the end of its stream: the source holds all of the output then, or it has failed and
there were fewer than `n` more bytes to give. -/
def AtEnd (state : Bytes → κ) (output : Bytes → Bytes) (t : Bytes) (given n : Nat)
    (o : CallOutcome (CipherSource κ σ)) : Prop :=
  match (ByteCipher.finalize (state t)).1 with
  | .ok last => o.result = .ok () ∧ o.endpoint.Finished (output t ++ last) given
  | .error e => o.result = .error e ∧ given ≤ (output t).length ∧ (output t).length < given + n ∧ o.endpoint.Failed

/-- The end of the stream comes when all has been fed and there is not enough. -/
private theorem Follows.finalize (hr : Readable state output) (h : s.Follows state output t given t)
    (hs : Serves maxRequestLength s.inner []) (hlt : s.output.length < n) (host : Host) :
    AtEnd state output t given n (s.finalize host) := by
  have hheld := length_held h.held
  have hsupply := h.supply
  have htime := (serving_serves maxRequestLength).check hs host
  unfold CipherSource.finalize AtEnd
  rcases hc : (ByteSource.timeout s.inner).check host with ⟨e | _, host'⟩
  · rw [hc] at htime
    cases htime
  · simp only [h.cipher]
    rcases hfin : ByteCipher.finalize (state t) with ⟨e | last, cipher⟩
    · obtain ⟨fault, rfl⟩ := hr.malformed t (congrArg Prod.fst hfin)
      exact ⟨rfl, hsupply, by omega, h.isOpen, rfl⟩
    · refine ⟨rfl, h.isOpen, h.sound, ByteCipher.isFinalized_finalize hfin, ?_⟩
      rw [Buffer.toList_append, h.held, List.drop_append_of_le_length hsupply]

/-- Filling goes on until there is enough or the cipher has ended its stream. -/
theorem Follows.fill (hr : Readable state output) (h : s.Follows state output t given x) (hn : n ≤ maxRequestLength)
    (host : Host) :
    ((s.fill n host).result = .ok () ∧ ∃ x', (s.fill n host).endpoint.Follows state output t given x' ∧
      n ≤ (s.fill n host).endpoint.output.length) ∨ AtEnd state output t given n (s.fill n host) := by
  fun_induction CipherSource.fill s n host generalizing x with
  | case1 s host hlt e inner b host' hread =>
    -- the inner source does not fail
    obtain ⟨r, -, hserved⟩ := h.served hr hlt.1 hn host
    rw [hread] at hserved
    rcases hserved with ⟨-, hk, -⟩ | ⟨k, -, -, -, hk, -⟩
    · cases hk
    · cases hk
  | case2 s host hlt inner b host' hread =>
    obtain ⟨r, hxr, hserved⟩ := h.served hr hlt.1 hn host
    rw [hread] at hserved
    rcases hserved with ⟨rfl, -, -, hs⟩ | ⟨k, -, -, -, hk, -⟩
    · -- nothing was to come, so all has been fed
      obtain rfl : x = t := by rw [← hxr, List.append_nil]
      have hall : { s with inner }.Follows state output x given x :=
        ⟨h.isOpen, h.sound, h.cipher, ⟨[], hs, hxr⟩, h.held, h.supply⟩
      exact .inr (hall.finalize hr hs hlt.1 host')
    · cases hk
  | case3 s host hlt k inner input host' hread e cipher hu =>
    -- the cipher takes everything before its end
    obtain ⟨out, hu', -⟩ := hr.update x input.toList
    rw [h.cipher, hu'] at hu
    cases hu
  | case4 s host hlt k inner input host' hread out cipher hu ih =>
    obtain ⟨r, hxr, hserved⟩ := h.served hr hlt.1 hn host
    rw [hread] at hserved
    rcases hserved with ⟨-, hk, -⟩ | ⟨k', -, -, -, -, hinput, hs⟩
    · cases hk
    · obtain ⟨out', hu', hout⟩ := hr.update x input.toList
      rw [h.cipher, hu'] at hu
      cases hu
      -- the piece that was read goes from what is to come to what has been fed
      have hcome : input.toList = r.take k' := hinput
      refine ih ⟨h.isOpen, h.sound, rfl, ⟨r.drop k', hs, ?_⟩, ?_, ?_⟩
      · rw [hcome, List.append_assoc, List.take_append_drop, hxr]
      · rw [Buffer.toList_append, h.held, hout, List.drop_append_of_le_length h.supply]
      · rw [hout, List.length_append]
        exact Nat.le_add_right_of_le h.supply
  | case5 s host hge =>
    refine .inl ⟨rfl, x, h, ?_⟩
    have hopen : ByteCipher.isFinalized s.cipher = false := h.cipher ▸ hr.unended x
    exact Nat.le_of_not_lt fun hlt => hge ⟨hlt, hopen⟩

/-- What a read gives when filling has left the source with `y` behind the bytes that were given. -/
private theorem read_of_held (ho : s.closed = false) (hp : s.poisoned = false) (hn : 0 < n) (hl : n ≤ maxRequestLength)
    (b : Buffer) {host : Host} (hok : (s.fill n host).result = .ok ()) {y : Bytes}
    (hheld : (s.fill n host).endpoint.output.toList = y.drop given) :
    (s.read n b host).Gives b (.ok (portion y given n)) ∧ ∃ rest : Buffer, rest.toList = y.drop (given + n) ∧
      (s.read n b host).source = { (s.fill n host).endpoint with output := rest } := by
  rw [read_of_ready ho hp hn hl]
  rcases hf : s.fill n host with ⟨e | _, s', host'⟩
  · rw [hf] at hok
    cases hok
  · rw [hf] at hheld
    obtain ⟨hgives, rest, hsource, hrest⟩ := gives_of_held (n := n) hheld (fun output => { s' with output }) b host'
    exact ⟨hgives, rest, hrest, hsource⟩

/-- A read for `n` bytes, after `given` bytes were given, gives what is to come, and the source then stands behind
that. -/
def Continues (state : Bytes → κ) (output : Bytes → Bytes) (t : Bytes) (given n : Nat) (b : Buffer)
    (o : ReadOutcome (CipherSource κ σ)) : Prop :=
  o.Gives b (portionThrough (output t) (ByteCipher.finalize (state t)).1 given n) ∧
    o.source.Stands state output t (given + n)

private theorem read_of_following (hr : Readable state output) (ho : s.closed = false) (hp : s.poisoned = false)
    (hn : 0 < n) (hl : n ≤ maxRequestLength) (b : Buffer) {host : Host} (hok : (s.fill n host).result = .ok ())
    (hs : (s.fill n host).endpoint.Follows state output t given x) (hle : n ≤ (s.fill n host).endpoint.output.length) :
    Continues state output t given n b (s.read n b host) := by
  have hheld := length_held hs.held
  have hsupply := hs.supply
  have hgiven : given + n ≤ (output x).length := by omega
  obtain ⟨hgives, rest, hrest, hsource⟩ := read_of_held ho hp hn hl b hok hs.held
  obtain ⟨out, hout⟩ := hs.prefix_output hr
  refine ⟨?_, .following (x := x) ?_⟩
  · rwa [← hout, portionThrough_of_le hn hgiven]
  · rw [hsource]
    exact ⟨hs.isOpen, hs.sound, hs.cipher, hs.rest, hrest, hgiven⟩

private theorem read_of_finished (ho : s.closed = false) (hp : s.poisoned = false) (hn : 0 < n)
    (hl : n ≤ maxRequestLength) (b : Buffer) {host : Host} (hok : (s.fill n host).result = .ok ()) {last : Bytes}
    (hend : (ByteCipher.finalize (state t)).1 = .ok last)
    (hs : (s.fill n host).endpoint.Finished (output t ++ last) given) :
    Continues state output t given n b (s.read n b host) := by
  obtain ⟨hgives, rest, hrest, hsource⟩ := read_of_held ho hp hn hl b hok hs.held
  refine ⟨?_, .finished hend ?_⟩
  · rw [hend]
    exact hgives
  · rw [hsource]
    exact ⟨hs.isOpen, hs.sound, hs.ended, hrest⟩

private theorem read_of_failed (ho : s.closed = false) (hp : s.poisoned = false) (hn : 0 < n)
    (hl : n ≤ maxRequestLength) (b : Buffer) {host : Host} {e : Error} (herr : (s.fill n host).result = .error e)
    (hend : (ByteCipher.finalize (state t)).1 = .error e) (hgiven : given ≤ (output t).length)
    (hlt : (output t).length < given + n) (hs : (s.fill n host).endpoint.Failed) :
    Continues state output t given n b (s.read n b host) := by
  rw [Continues, read_of_ready ho hp hn hl, hend, portionThrough, if_neg (Nat.not_lt.2 hgiven), if_pos hlt]
  rcases hf : s.fill n host with ⟨e' | _, s', host'⟩
  · rw [hf] at herr hs
    exact ⟨⟨congrArg Except.error (Except.error.inj herr), rfl⟩, .failed hend hlt hs⟩
  · rw [hf] at herr
    cases herr

/-- What a read gives, and where the source stands then. -/
theorem Stands.read (hr : Readable state output) (h : s.Stands state output t given) (hn : 0 < n)
    (hl : n ≤ maxRequestLength) (b : Buffer) (host : Host) :
    Continues state output t given n b (s.read n b host) := by
  cases h with
  | following h =>
    rcases h.fill hr hl host with ⟨hok, x', hs, hle⟩ | hs
    · exact read_of_following hr h.isOpen h.sound hn hl b hok hs hle
    · unfold AtEnd at hs
      rcases hend : (ByteCipher.finalize (state t)).1 with e | last
      · rw [hend] at hs
        obtain ⟨herr, hgiven, hlt, hs⟩ := hs
        exact read_of_failed h.isOpen h.sound hn hl b herr hend hgiven hlt hs
      · rw [hend] at hs
        obtain ⟨hok, hs⟩ := hs
        exact read_of_finished h.isOpen h.sound hn hl b hok hend hs
  | finished hend h =>
    have hfill : s.fill n host = ⟨.ok (), s, host⟩ := by
      rw [CipherSource.fill, dif_neg (by simp [h.ended])]
    refine read_of_finished h.isOpen h.sound hn hl b ?_ hend ?_
    · rw [hfill]
    · rw [hfill]
      exact h
  | failed hend hlt h =>
    have hread : s.read n b host = ⟨.error (.malformedStream .cipherFailed), s, b, host⟩ := by
      unfold CipherSource.read
      rw [checkRead_eq_ok_iff.2 hl]
      simp [h.isOpen, h.poisoned]
    rw [Continues, hread, hend, portionThrough, if_pos hlt]
    exact ⟨⟨rfl, rfl⟩, .failed hend (Nat.lt_add_right n hlt) h⟩

/-- Where the source stands after some reads. -/
theorem Stands.readMany (hr : Readable state output) {reads : List (Nat × Buffer × Host)}
    (hreads : ∀ r ∈ reads, 0 < r.1 ∧ r.1 ≤ maxRequestLength) (h : s.Stands state output t given) :
    (readMany reads s).2.Stands state output t (given + (reads.map Prod.fst).sum) := by
  induction reads generalizing s given with
  | nil => exact h
  | cons r reads ih =>
    obtain ⟨hn, hl⟩ := hreads r List.mem_cons_self
    obtain ⟨-, hs⟩ := h.read hr hn hl r.2.1 r.2.2
    rw [List.map_cons, List.sum_cons, ← Nat.add_assoc]
    exact ih (fun r h => hreads r (List.mem_cons_of_mem _ h)) hs

omit [ByteCipher κ] in
theorem follows_new {inner : σ} {r : Bytes} (h : Serves maxRequestLength inner r) (x : Bytes) :
    (CipherSource.new inner (state x)).Follows state output (x ++ r) (output x).length x where
  isOpen := rfl
  sound := rfl
  cipher := rfl
  rest := ⟨r, h, rfl⟩
  held := by simp [CipherSource.new]
  supply := Nat.le_refl _

end CipherSource

/-- A source that reads `x` through the cipher gives on demand what the cipher gives for it, whatever pieces the inner
source serves it in: after reads for `before` bytes, a read for `n` more. -/
def TransformsOnDemand {κ : Type} [ByteCipher κ] (c : κ) (x : Bytes) (before : List Nat) (n : Nat) : Prop :=
  ∃ out c', (∀ pieces : List Bytes, pieces.flatten = x → feed pieces c = (.ok out, c')) ∧
    (∀ e, (ByteCipher.finalize c').1 = .error e → ∃ fault, e = .malformedStream fault) ∧
    ∀ {σ : Type} [ByteSource σ] {inner : σ}, Serves maxRequestLength inner x →
      ∀ reads : List (Nat × Buffer × Host), reads.map Prod.fst = before → ∀ (b : Buffer) (host : Host),
        ((readMany reads (CipherSource.new inner c)).2.read n b host).Gives b
          (portionThrough out (ByteCipher.finalize c').1 before.sum n)

theorem Readable.transformsOnDemand {κ : Type} [ByteCipher κ] {state : Bytes → κ} {output : Bytes → Bytes}
    (hr : Readable state output) (earlier x : Bytes) {before : List Nat} {n : Nat}
    (hbefore : ∀ m ∈ before, 0 < m ∧ m ≤ maxRequestLength) (hn : 0 < n ∧ n ≤ maxRequestLength) :
    TransformsOnDemand (state earlier) x before n := by
  obtain ⟨out, -, hout⟩ := hr.feed_eq [x] earlier
  rw [List.flatten_singleton] at hout
  refine ⟨out, state (earlier ++ x), ?_, fun _ => hr.malformed (earlier ++ x), ?_⟩
  · rintro pieces rfl
    obtain ⟨out', hfeed, hout'⟩ := hr.feed_eq pieces earlier
    rw [hfeed, List.append_cancel_left (hout'.symm.trans hout)]
  · intro σ _ inner h reads hreads b host
    have hmem : ∀ r ∈ reads, 0 < r.1 ∧ r.1 ≤ maxRequestLength := by
      intro r hmem
      apply hbefore
      rw [← hreads]
      exact List.mem_map_of_mem hmem
    have hstart : (CipherSource.new inner (state earlier)).Stands state output (earlier ++ x) (output earlier).length :=
      .following (CipherSource.follows_new h earlier)
    obtain ⟨hgives, -⟩ := (hstart.readMany hr hmem).read hr hn.1 hn.2 b host
    rwa [hreads, hout, portionThrough_append] at hgives

theorem CbcEncryptor.readable (b : BlockCipher) (iv : Bytes) :
    Readable (fed b iv) fun x => (early b iv x).flatten where
  toCourse := course b iv
  blockSize _ := Nat.le_trans (Nat.le_of_lt b.blockSize_lt) (by decide)
  malformed x e h := by
    obtain ⟨last, hfin, -⟩ := finalize_eq (c := fed b iv x) rfl (length_pending_fed b iv x)
    have hok : (fed b iv x).finalize.1 = .error e := h
    rw [hfin] at hok
    cases hok

theorem CbcDecryptor.readable (b : BlockCipher) (iv : Bytes) :
    Readable (fed b iv) fun t => (b.decryptChain iv (early b t)).flatten where
  toCourse := course b iv
  blockSize _ := Nat.le_trans (Nat.le_of_lt b.blockSize_lt) (by decide)
  malformed t e h := by
    have herr : (fed b iv t).finalize.1 = .error e := h
    rw [result_finalize rfl (pending_fed_le b iv t)] at herr
    split at herr
    · cases herr
    · exact ⟨_, (Except.error.inj herr).symm⟩

/-- A source that reads through an encryptor or a decryptor, new or fed with something earlier, transforms on demand:
how the inner source cuts its bytes is not seen, whether they can be decrypted or not. -/
theorem transform_on_demand (b : BlockCipher) (iv : Bytes) (earlier : List Bytes) (x : Bytes) {before : List Nat}
    {n : Nat} (hbefore : ∀ m ∈ before, 0 < m ∧ m ≤ maxRequestLength) (hn : 0 < n ∧ n ≤ maxRequestLength) :
    TransformsOnDemand (feed earlier (CbcEncryptor.new b iv)).2 x before n ∧
      TransformsOnDemand (feed earlier (CbcDecryptor.new b iv)).2 x before n := by
  constructor
  · obtain ⟨out, hfeed, -⟩ := (CbcEncryptor.course b iv).feed_eq earlier []
    rw [← CbcEncryptor.fed_nil, hfeed]
    exact (CbcEncryptor.readable b iv).transformsOnDemand _ x hbefore hn
  · obtain ⟨out, hfeed, -⟩ := (CbcDecryptor.course b iv).feed_eq earlier []
    rw [← CbcDecryptor.fed_nil, hfeed]
    exact (CbcDecryptor.readable b iv).transformsOnDemand _ x hbefore hn

/-- A channel that brings a ciphertext in pieces of one and two bytes and ends too early, inside of a block. -/
def truncatedChannel : Channel := .ofScript
  [⟨⟨0⟩, .ok [25]⟩, ⟨⟨0⟩, .error (.ofDisk .interrupted)⟩, ⟨⟨0⟩, .ok [35, 20]⟩] [] []

theorem brings_truncatedChannel : truncatedChannel.Brings := by
  refine ⟨by decide, ?_⟩
  intro turn hturn
  simp only [truncatedChannel, Channel.ofScript, List.mem_cons, List.not_mem_nil, or_false] at hturn
  rcases hturn with rfl | rfl | rfl
  · exact List.cons_ne_nil _ _
  · rfl
  · exact List.cons_ne_nil _ _

/-- A decryptor that was fed the beginning of the first block. -/
def begunDecryptor : CbcDecryptor := (feed [[8], [31]] (CbcDecryptor.new CbcDecryptor.sampleCipher [1, 2, 3])).2

/-- Of five bytes one block can be decrypted: after three bytes, one more is too many. -/
theorem read_truncatedChannel : (∀ m ∈ [2, 1], 0 < m ∧ m ≤ maxRequestLength) ∧ (0 < 1 ∧ 1 ≤ maxRequestLength) ∧
    ((readMany [(2, .empty, .start), (1, .empty, .start)] (CipherSource.new
      (ChannelSource.ofChannel truncatedChannel .none) begunDecryptor)).2.read 1 .empty .start).result =
        .error (.malformedStream (.partialBlock 2 3)) := by
  have hbefore : ∀ m ∈ [2, 1], 0 < m ∧ m ≤ maxRequestLength := by decide
  have hn : 0 < 1 ∧ 1 ≤ maxRequestLength := by decide
  obtain ⟨-, out, c, hfeed, -, hread⟩ :=
    transform_on_demand CbcDecryptor.sampleCipher [1, 2, 3] [[8], [31]] [25, 35, 20] hbefore hn
  have hfed : feed [[25, 35, 20]] begunDecryptor = (.ok out, c) := hfeed _ rfl
  have hout : .ok out = Except.ok [10, 20, 30] :=
    (congrArg Prod.fst hfed).symm.trans (by decide +kernel)
  have hend : (ByteCipher.finalize c).1 = .error (.malformedStream (.partialBlock 2 3)) :=
    (congrArg (fun r => (ByteCipher.finalize r.2).1) hfed).symm.trans (by decide +kernel)
  have hgives := hread (ChannelSource.serves_ofChannel brings_truncatedChannel)
    [(2, .empty, .start), (1, .empty, .start)] rfl .empty .start
  rw [Except.ok.inj hout, hend] at hgives
  exact ⟨hbefore, hn, hgives.1⟩

end Conduit
