import Conduit.Proofs.Cipher.Perishing
import Conduit.Proofs.Watching

/-!
# What a source that reads through a cipher holds

Such a source asks for what is missing or for a block, whichever is more, and the cipher gives whole blocks, fewer than
what was asked for and one block together.  So filling goes less than a block too far (`Blockwise.fits`), and so does
the block that may come at the end of the stream: less than a block of output is held after a read.  The output and what
the cipher keeps back grow with every read of the inner source that gives anything, and are less than what was asked for
and a block before each one of them; hence there are at most that many (`surplus_of_reads`).
-/

namespace Conduit

/-! ### Ciphers that give whole blocks -/

section

variable {κ : Type} [ByteCipher κ]

/-- Before the end of its stream such a cipher gives whole blocks and keeps back at most one, and a byte of what it
takes.  The end gives at most one block. -/
structure Blockwise (size : Nat) (kept : κ → Nat) (P : κ → Prop) : Prop extends Flowing size kept P where
  size_pos : 0 < size
  size_le : size ≤ maxRequestLength
  kept_le {c : κ} (h : P c) : kept c ≤ size
  whole {c c' : κ} (h : P c) {x out : Bytes} (hu : ByteCipher.update c x = (.ok out, c')) : size ∣ out.length
  behind {c c' : κ} (h : P c) {x out : Bytes} (hu : ByteCipher.update c x = (.ok out, c')) :
    out.length < size + x.length
  last {c c' : κ} (h : P c) {out : Bytes} (hf : ByteCipher.finalize c = (.ok out, c')) : out.length ≤ size

variable {size : Nat} {kept : κ → Nat} {P : κ → Prop}

/-- What the cipher gives for as many bytes as were asked for goes less than a block beyond what was missing. -/
theorem Blockwise.fits (hP : Blockwise size kept P) {c c' : κ} (h : P c) {x out : Bytes}
    (hu : ByteCipher.update c x = (.ok out, c')) {missing : Nat} (hpos : 0 < missing)
    (hx : x.length ≤ max missing size) : out.length < missing + size := by
  have hbehind := hP.behind h hu
  obtain ⟨blocks, hblocks⟩ := hP.whole h hu
  by_cases hle : x.length ≤ missing
  · omega
  · -- a block was asked for, and two are too many
    have htwo : size * blocks < size * 2 := by omega
    have hone : size * blocks ≤ size * 1 := Nat.mul_le_mul_left size (Nat.le_of_lt_succ (Nat.lt_of_mul_lt_mul_left htwo))
    omega

end

theorem CbcEncryptor.blockwise (b : BlockCipher) : Blockwise b.blockSize (fun c : CbcEncryptor => c.pending.length)
    (fun c => c.cipher = b ∧ c.pending.length < b.blockSize) where
  blockSize h := (flowing b).blockSize h.1
  update {c} h hf x := by
    obtain ⟨out, c', hu, hc, hf', hlen⟩ := (flowing b).update h.1 hf x
    obtain ⟨-, hpending, -⟩ := length_update hu
    rw [h.1] at hpending
    exact ⟨out, c', hu, ⟨hc, hpending⟩, hf', hlen⟩
  finalize {c} h := by
    refine ⟨(flowing b).finalize h.1, ?_⟩
    show c.finalize.2.pending.length < b.blockSize
    unfold CbcEncryptor.finalize
    split
    · exact h.2
    · exact b.blockSize_pos
  size_pos := b.blockSize_pos
  size_le := Nat.le_trans (Nat.le_of_lt b.blockSize_lt) (by decide)
  kept_le h := Nat.le_of_lt h.2
  whole {c c'} h x out hu := by
    have hu : c.update x = (.ok out, c') := hu
    unfold CbcEncryptor.update advance at hu
    split at hu
    · cases hu
    · simp only [Prod.mk.injEq, Except.ok.injEq] at hu
      obtain ⟨rfl, -⟩ := hu
      rw [length_flatten_of_forall (fun _ => BlockCipher.length_of_mem_encryptChain), h.1]
      exact Nat.dvd_mul_left ..
  behind h x out hu := by
    obtain ⟨hlen, -, -⟩ := length_update hu
    have hpending := h.2
    omega
  last {c c'} h out hf := by
    have hf : c.finalize = (.ok out, c') := hf
    unfold CbcEncryptor.finalize advance at hf
    split at hf
    · cases hf
    · simp only [Prod.mk.injEq, Except.ok.injEq] at hf
      obtain ⟨rfl, -⟩ := hf
      rw [length_flatten_of_forall (fun _ => BlockCipher.length_of_mem_encryptChain), BlockCipher.length_encryptChain,
        h.1, List.length_singleton, Nat.one_mul]

/-- The last byte of what is pending and what comes is never decrypted before the end. -/
theorem CbcDecryptor.length_out {c c' : CbcDecryptor} {x out : Bytes} (hu : c.update x = (.ok out, c')) :
    out.length = c.ready (c.pending.length + x.length) := by
  obtain ⟨hlen, -, -⟩ := length_update hu
  have hle : c.ready (c.pending ++ x).length ≤ (c.pending ++ x).length - 1 := Nat.div_mul_le_self ..
  unfold update advance at hu
  split at hu
  · cases hu
  · simp only [Prod.mk.injEq, Except.ok.injEq] at hu
    obtain ⟨-, rfl⟩ := hu
    rw [List.length_drop] at hlen
    rw [List.length_append] at hle hlen
    omega

theorem CbcDecryptor.blockwise (b : BlockCipher) : Blockwise b.blockSize (fun c : CbcDecryptor => c.pending.length)
    (fun c => c.cipher = b ∧ c.pending.length ≤ b.blockSize) where
  blockSize h := (flowing b).blockSize h.1
  update {c} h hf x := by
    obtain ⟨out, c', hu, hc, hf', hlen⟩ := (flowing b).update h.1 hf x
    obtain ⟨-, hpending, -⟩ := length_update hu
    rw [h.1] at hpending
    exact ⟨out, c', hu, ⟨hc, hpending⟩, hf', hlen⟩
  finalize {c} h := by
    refine ⟨(flowing b).finalize h.1, ?_⟩
    show c.finalize.2.pending.length ≤ b.blockSize
    unfold CbcDecryptor.finalize
    split
    · exact h.2
    · split
      · exact h.2
      · simp only
        split
        · exact Nat.zero_le _
        · exact Nat.zero_le _
  size_pos := b.blockSize_pos
  size_le := Nat.le_trans (Nat.le_of_lt b.blockSize_lt) (by decide)
  kept_le h := h.2
  whole {c c'} h x out hu := by
    rw [length_out hu, ready, h.1]
    exact Nat.dvd_mul_left ..
  behind {c c'} h x out hu := by
    have hready : c.ready (c.pending.length + x.length) ≤ c.pending.length + x.length - 1 := Nat.div_mul_le_self ..
    have hpos := b.blockSize_pos
    have hpending := h.2
    rw [length_out hu]
    omega
  last {c c'} h out hf := by
    have hf : c.finalize = (.ok out, c') := hf
    unfold CbcDecryptor.finalize advance at hf
    split at hf
    · cases hf
    · split at hf
      · cases hf
      · simp only at hf
        split at hf
        · cases hf
        · rename_i hunpad
          obtain rfl := Except.ok.inj (Prod.mk.inj hf).1
          have hblock : (c.cipher.decryptChain c.chain [c.pending]).flatten.length = c.cipher.blockSize := by
            rw [length_flatten_of_forall (fun _ => BlockCipher.length_of_mem_decryptChain),
              BlockCipher.length_decryptChain, List.length_singleton, Nat.one_mul]
          obtain ⟨hlt, -⟩ := (unpadBlock_eq_some_iff c.cipher.blockSize_lt hblock).1 hunpad
          rw [h.1] at hlt
          exact Nat.le_of_lt hlt

/-! ### What is held -/

namespace CipherSource

section

variable {κ σ : Type} [ByteCipher κ] {size n : Nat} {kept : κ → Nat} {P : κ → Prop} {s : CipherSource κ σ}

/-- The output and what the cipher keeps back. -/
def progress (kept : κ → Nat) (s : CipherSource κ σ) : Nat := s.output.length + kept s.cipher

theorem progress_lt (hP : Blockwise size kept P) (h : P s.cipher) (hlt : s.output.length < n) :
    s.progress kept < n + size := by
  have hkept := hP.kept_le h
  simp only [progress]
  omega

/-- The bytes that the source asks for when it needs more. -/
theorem request_bounds (hP : Blockwise size kept P) (h : P s.cipher) (hlt : s.output.length < n)
    (hn : n ≤ maxRequestLength) :
    (0 < s.request (n - s.output.length) ∧ s.request (n - s.output.length) ≤ maxRequestLength) ∧
      size ≤ s.request (n - s.output.length) ∧ s.request (n - s.output.length) ≤ max n size := by
  have hle := request_le hP.toFlowing h (Nat.sub_le n s.output.length)
  have hpos := s.request_pos (Nat.sub_pos_of_lt hlt)
  have hsize : size ≤ s.request (n - s.output.length) := by
    rw [request, hP.blockSize h]
    exact Nat.le_max_right ..
  exact ⟨⟨hpos, Nat.le_trans hle (Nat.max_le.2 ⟨hn, hP.size_le⟩)⟩, hsize, hle⟩

variable [ByteSource σ]

/-- The inner source is modest, and the cipher is one of those that give whole blocks. -/
structure Thrifty (P : κ → Prop) (s : CipherSource κ σ) : Prop where
  modest : Modest s.inner
  cipher : P s.cipher

/-! ### Steps of filling -/

section

variable {inner : σ} {input : Buffer} {host host' : Host}

private theorem Thrifty.modest_read (hP : Blockwise size kept P) (h : s.Thrifty P) (hlt : s.output.length < n)
    (hn : n ≤ maxRequestLength) {r : Except Error (Option Nat)}
    (hr : ByteSource.read s.inner (s.request (n - s.output.length)) .empty host = ⟨r, inner, input, host'⟩) :
    Modest inner := by
  obtain ⟨⟨hpos, hmax⟩, -⟩ := request_bounds hP h.cipher hlt hn
  have hkept := measured_modest.kept h.modest hpos hmax .empty host
  rw [hr] at hkept
  exact hkept

/-- The inner source gives some bytes, and the cipher takes them: that is progress, and less than a block too much. -/
private theorem Thrifty.given (hP : Blockwise size kept P) (h : s.Thrifty P) (hlt : s.output.length < n)
    (hn : n ≤ maxRequestLength) (hf : ByteCipher.isFinalized s.cipher = false) {k : Nat}
    (hr : ByteSource.read s.inner (s.request (n - s.output.length)) .empty host =
      ⟨.ok (some k), inner, input, host'⟩) {out : Bytes} {cipher : κ}
    (hu : ByteCipher.update s.cipher input.toList = (.ok out, cipher)) :
    0 < k ∧ { s with inner, cipher, output := s.output.append out }.Thrifty P ∧
      s.output.length + out.length < n + size ∧
      s.progress kept < { s with inner, cipher, output := s.output.append out }.progress kept := by
  obtain ⟨⟨hpos, hmax⟩, -⟩ := request_bounds hP h.cipher hlt hn
  obtain ⟨hk, hkle⟩ := measured_modest.given h.modest hpos hmax (congrArg ReadOutcome.result hr)
  have hinput : input.toList.length = k := by
    have hlen := ByteSource.length_read (congrArg ReadOutcome.result hr)
    rw [hr, Buffer.length_empty, Nat.zero_add] at hlen
    rw [Buffer.length_toList]
    exact hlen
  obtain ⟨out', c', hu', hc', -, hsum⟩ := hP.update h.cipher hf input.toList
  obtain ⟨hout, rfl⟩ := Prod.mk.inj (hu.symm.trans hu')
  obtain rfl : out = out' := Except.ok.inj hout
  have hfits : out.length < n - s.output.length + size := by
    apply hP.fits h.cipher hu (Nat.sub_pos_of_lt hlt)
    rw [hinput, ← hP.blockSize h.cipher]
    exact hkle
  refine ⟨hk, ⟨h.modest_read hP hlt hn hr, hc'⟩, ?_, ?_⟩
  · omega
  · simp only [progress, Buffer.length_append]
    omega

/-- The end of the stream of the cipher gives at most one block. -/
private theorem Thrifty.finalize (hP : Blockwise size kept P) (h : s.Thrifty P) (host : Host) :
    (s.finalize host).endpoint.Thrifty P ∧
      (s.finalize host).endpoint.output.length ≤ s.output.length + size := by
  have hfinalize := hP.finalize h.cipher
  unfold CipherSource.finalize fail
  split
  · exact ⟨⟨h.modest, h.cipher⟩, Nat.le_add_right ..⟩
  · split
    · rename_i hf
      rw [hf] at hfinalize
      exact ⟨⟨h.modest, hfinalize⟩, Nat.le_add_right ..⟩
    · rename_i hf
      have hlast := hP.last h.cipher hf
      rw [hf] at hfinalize
      refine ⟨⟨h.modest, hfinalize⟩, ?_⟩
      rw [Buffer.length_append]
      omega

end

/-! ### Surplus -/

/-- Filling goes less than a block too far. -/
theorem Thrifty.fill (hP : Blockwise size kept P) (h : s.Thrifty P) (hn : n ≤ maxRequestLength) (host : Host) :
    (s.fill n host).endpoint.Thrifty P ∧
      (s.fill n host).endpoint.output.length ≤ max s.output.length (n + (size - 1)) := by
  have hsize := hP.size_pos
  fun_induction CipherSource.fill s n host with
  | case1 s host hlt e inner b host' hr => exact ⟨⟨h.modest_read hP hlt.1 hn hr, h.cipher⟩, Nat.le_max_left ..⟩
  | case2 s host hlt inner b host' hr =>
    have hinner : { s with inner }.Thrifty P := ⟨h.modest_read hP hlt.1 hn hr, h.cipher⟩
    obtain ⟨hs, hle⟩ := hinner.finalize hP host'
    refine ⟨hs, Nat.le_trans hle ?_⟩
    have hless := hlt.1
    show s.output.length + size ≤ _
    omega
  | case3 s host hlt k inner input host' hr e cipher hu =>
    obtain ⟨out, c', hu', -⟩ := hP.update h.cipher hlt.2 input.toList
    rw [hu] at hu'
    cases hu'
  | case4 s host hlt k inner input host' hr out cipher hu ih =>
    obtain ⟨-, hnext, hfits, -⟩ := h.given hP hlt.1 hn hlt.2 hr hu
    obtain ⟨hs, hle⟩ := ih hnext
    refine ⟨hs, Nat.le_trans hle ?_⟩
    rw [Buffer.length_append]
    omega
  | case5 s host hge => exact ⟨h, Nat.le_max_left ..⟩

/-- A read that succeeds leaves less than a block, or no more than there was. -/
theorem Thrifty.read (hP : Blockwise size kept P) (h : s.Thrifty P) (n : Nat) (b : Buffer) (host : Host) :
    (s.read n b host).source.Thrifty P ∧
      ((∃ r, (s.read n b host).result = .ok r) →
        (s.read n b host).source.output.length ≤ max s.output.length (size - 1)) := by
  by_cases hready : s.closed = false ∧ s.poisoned = false ∧ 0 < n ∧ n ≤ maxRequestLength
  · obtain ⟨ho, hp, hn, hl⟩ := hready
    obtain ⟨hs, hle⟩ := h.fill hP hl host
    rw [read_of_ready ho hp hn hl]
    rcases hf : s.fill n host with ⟨e | _, s', host'⟩
    · rw [hf] at hs
      refine ⟨hs, ?_⟩
      rintro ⟨r, hr⟩
      cases hr
    · rw [hf] at hs hle
      have hle : s'.output.length ≤ max s.output.length (n + (size - 1)) := hle
      simp only
      split
      · rename_i hempty
        have hnil : s'.output.length = 0 := beq_iff_eq.1 hempty
        refine ⟨hs, fun _ => ?_⟩
        rw [hnil]
        exact Nat.zero_le _
      · refine ⟨⟨hs.modest, hs.cipher⟩, fun _ => ?_⟩
        show (s'.output.moveTo (min n s'.output.length) b).2.length ≤ _
        rw [Buffer.length_moveTo_snd]
        omega
  · obtain ⟨r, hr, -⟩ := read_unready hready b host
    rw [hr]
    exact ⟨h, fun _ => Nat.le_max_left ..⟩

theorem Thrifty.readMany (hP : Blockwise size kept P) (h : s.Thrifty P) (reads : List (Nat × Buffer × Host)) :
    (readMany reads s).2.Thrifty P ∧
      ((∀ o ∈ (readMany reads s).1, ∃ r, o.result = .ok r) →
        (readMany reads s).2.output.length ≤ max s.output.length (size - 1)) := by
  induction reads generalizing s with
  | nil => exact ⟨h, fun _ => Nat.le_max_left ..⟩
  | cons r reads ih =>
    obtain ⟨n, b, host⟩ := r
    obtain ⟨hs, hle⟩ := h.read hP n b host
    obtain ⟨hrest, hle'⟩ := ih hs
    refine ⟨hrest, ?_⟩
    intro hall
    have hfirst := hle (hall _ List.mem_cons_self)
    have hlast := hle' fun o ho => hall o (List.mem_cons_of_mem _ ho)
    exact Nat.le_trans hlast (by omega)

end

/-! ### What is asked for -/

section

variable {κ σ : Type} [ByteCipher κ] [ByteSource σ] {size n : Nat} {kept : κ → Nat} {P : κ → Prop}
  {s : CipherSource κ (Watched σ)}

/-- The read is for a block at least, and for no more than is needed for `n` bytes or for a block. -/
def Sized (size n : Nat) (p : Pull) : Prop := size ≤ p.size ∧ p.size ≤ max n size

theorem Thrifty.drawn_fill (hP : Blockwise size kept P) (h : s.Thrifty P) (hn : n ≤ maxRequestLength) (host : Host) :
    ∃ pulls, Watched.Drawn (Sized size n) (n + size - s.progress kept) s.inner (s.fill n host).endpoint.inner pulls := by
  -- a read of the inner source finds room, and asks for what it should
  have hread (s : CipherSource κ (Watched σ)) (hc : P s.cipher) (hlt : s.output.length < n) :
      0 < n + size - s.progress kept ∧
        ∀ r, Sized size n ⟨s.request (n - s.output.length), r⟩ := by
    have hroom := progress_lt hP hc hlt
    obtain ⟨-, hsized⟩ := request_bounds hP hc hlt hn
    exact ⟨Nat.sub_pos_of_lt hroom, fun _ => hsized⟩
  fun_induction CipherSource.fill s n host with
  | case1 s host hlt e inner b host' hr =>
    obtain ⟨hroom, hsized⟩ := hread s h.cipher hlt.1
    exact ⟨_, .last hroom (Watched.pulls_of_read hr) (hsized _)⟩
  | case2 s host hlt inner b host' hr =>
    obtain ⟨hroom, hsized⟩ := hread s h.cipher hlt.1
    rw [inner_finalize]
    exact ⟨_, .last hroom (Watched.pulls_of_read hr) (hsized _)⟩
  | case3 s host hlt k inner input host' hr e cipher hu =>
    obtain ⟨hroom, hsized⟩ := hread s h.cipher hlt.1
    exact ⟨_, .last hroom (Watched.pulls_of_read hr) (hsized _)⟩
  | case4 s host hlt k inner input host' hr out cipher hu ih =>
    obtain ⟨hroom, hsized⟩ := hread s h.cipher hlt.1
    obtain ⟨hk, hnext, -, hmore⟩ := h.given hP hlt.1 hn hlt.2 hr hu
    obtain ⟨pulls, hpulls⟩ := ih hnext
    have hgives : (⟨s.request (n - s.output.length), .ok (some k)⟩ : Pull).gives := decide_eq_true hk
    exact ⟨_, hpulls.cons (by omega) (Watched.pulls_of_read hr) (hsized _) hgives⟩
  | case5 s host hge => exact ⟨[], .nil⟩

theorem Thrifty.drawn_read (hP : Blockwise size kept P) (h : s.Thrifty P) (n : Nat) (b : Buffer) (host : Host) :
    ∃ pulls, Watched.Drawn (Sized size n) (n + size) s.inner (s.read n b host).source.inner pulls := by
  by_cases hn : n ≤ maxRequestLength
  · apply read_keeps (Q := fun t => ∃ pulls, Watched.Drawn (Sized size n) (n + size) s.inner t.inner pulls)
    · intro t output ht
      exact ht
    · exact ⟨[], .nil⟩
    · obtain ⟨pulls, hpulls⟩ := h.drawn_fill hP hn host
      exact ⟨pulls, hpulls.mono (Nat.sub_le ..)⟩
  · obtain ⟨r, hr, -⟩ := read_unready (s := s) (fun hready => hn hready.2.2.2) b host
    rw [hr]
    exact ⟨[], .nil⟩

/-- What is so after these reads of a new source over `c`.  That the inner source is watched makes no difference.  At
most a block is pending in the cipher, and if no read has failed, less than a block of output is held.  The next read,
for `n` bytes, reads the inner source at most `n` times and `size` times with a result and once without. -/
structure Frugal (size : Nat) (kept : κ → Nat) (inner : σ) (c : κ) (reads : List (Nat × Buffer × Host)) : Prop where
  unseen : readMany reads (new inner c) =
    ((readMany reads (new (Watched.start inner) c)).1.map (ReadOutcome.lift (mapInner Watched.source)),
      (readMany reads (new (Watched.start inner) c)).2.mapInner Watched.source)
  pending : kept (readMany reads (new (Watched.start inner) c)).2.cipher ≤ size
  surplus : (∀ o ∈ (readMany reads (new (Watched.start inner) c)).1, ∃ r, o.result = .ok r) →
    (readMany reads (new (Watched.start inner) c)).2.output.length < size
  pulls (n : Nat) (b : Buffer) (host : Host) : ∃ pulls, pulls.length ≤ n + size + 1 ∧
    Watched.Drawn (Sized size n) (n + size) (readMany reads (new (Watched.start inner) c)).2.inner
      ((readMany reads (new (Watched.start inner) c)).2.read n b host).source.inner pulls

theorem frugal_of_blockwise (hP : Blockwise size kept P) {inner : σ} (hs : Modest inner) {c : κ} (hc : P c)
    (reads : List (Nat × Buffer × Host)) : Frugal size kept inner c reads := by
  have hnew : (new (Watched.start inner) c).Thrifty P := ⟨Watched.modest_start hs, hc⟩
  obtain ⟨hrun, hsurplus⟩ := hnew.readMany hP reads
  refine ⟨?_, hP.kept_le hrun.cipher, ?_, ?_⟩
  · exact (hom_mapInner Watched.hom_source).readMany reads (new (Watched.start inner) c)
  · intro hall
    have hle := hsurplus hall
    have hnil : (new (Watched.start inner) c).output.length = 0 := rfl
    have hpos := hP.size_pos
    omega
  · intro n b host
    obtain ⟨pulls, hpulls⟩ := hrun.drawn_read hP n b host
    exact ⟨pulls, hpulls.length_le, hpulls⟩

end

/-- Over any modest source, be it endless, a source that encrypts or decrypts holds less than a block of output after
each read as long as none has failed, and its cipher at most a block of input.  A read for `n` bytes takes at most `n`
reads of the inner source and one for each byte of a block that give something, and one that does not. -/
theorem surplus_of_reads {σ : Type} [ByteSource σ] {inner : σ} (h : Modest inner) (b : BlockCipher) (iv : Bytes)
    (reads : List (Nat × Buffer × Host)) :
    Frugal b.blockSize (fun c => c.pending.length) inner (CbcEncryptor.new b iv) reads ∧
      Frugal b.blockSize (fun c => c.pending.length) inner (CbcDecryptor.new b iv) reads := by
  have hencryptor : (CbcEncryptor.new b iv).pending.length < b.blockSize := b.blockSize_pos
  have hdecryptor : (CbcDecryptor.new b iv).pending.length ≤ b.blockSize := Nat.zero_le _
  constructor
  · exact frugal_of_blockwise (CbcEncryptor.blockwise b) h ⟨rfl, hencryptor⟩ reads
  · exact frugal_of_blockwise (CbcDecryptor.blockwise b) h ⟨rfl, hdecryptor⟩ reads

/-- A channel that serves two blocks of three bytes, byte by byte. -/
def drops : Channel := .ofScript ([7, 1, 8, 6, 0, 9].map fun b => ⟨.zero, .ok [b]⟩) [] []

/-- The bounds are reached: to decrypt one byte takes a byte more than a block, and the rest of the block is left. -/
theorem surplus_of_drops : Modest (ChannelSource.ofChannel drops .none) ∧
    let s := new (Watched.start (ChannelSource.ofChannel drops .none))
      (CbcDecryptor.new (.masking [7, 1, 8] (by decide)) [1, 2, 3])
    (s.read 1 .empty .start).source.inner.pulls.countP Pull.gives = 1 + 3 ∧
      (readMany [(1, .empty, .start)] s).2.output.length = 2 := by
  have hmodest : Modest (ChannelSource.ofChannel drops .none) := modest_of_obeys ChannelSource.obeys _
  have hfrugal (reads : List (Nat × Buffer × Host)) :=
    (surplus_of_reads hmodest (.masking [7, 1, 8] (by decide)) [1, 2, 3] reads).2
  refine ⟨hmodest, Nat.le_antisymm ?_ (by decide +kernel), Nat.le_antisymm ?_ (by decide +kernel)⟩
  · obtain ⟨pulls, -, hpulls⟩ := (hfrugal []).pulls 1 .empty .start
    exact Nat.le_trans (Nat.le_of_eq (congrArg (List.countP Pull.gives) hpulls.log)) hpulls.few
  · have hsome : ∀ o ∈ (readMany [(1, .empty, .start)] (new (Watched.start (ChannelSource.ofChannel drops .none))
        (CbcDecryptor.new (.masking [7, 1, 8] (by decide)) [1, 2, 3]))).1, o.result.toOption.isSome := by
      decide +kernel
    refine Nat.le_of_lt_succ ((hfrugal [(1, .empty, .start)]).surplus ?_)
    intro o ho
    rcases hres : o.result with err | r
    · have h := hsome o ho
      rw [hres] at h
      cases h
    · exact ⟨r, rfl⟩

end CipherSource

end Conduit
