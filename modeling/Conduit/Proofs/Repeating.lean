import Conduit.Proofs.Receiving
import Conduit.Proofs.Serving
import Conduit.Transfer

/-!
# Repeating whole-stream operations

An operation that has run out of time may be repeated.  A source that owes a stream and a sink that accounts for what it
takes lose nothing by that.  But an operation that reads into a buffer of its own drops that buffer when it fails, and
the bytes in it are gone: all that a failed attempt has read so far (`gathered`), or what a failed write has left behind
(`stranded`).  `losses` lists them, attempt by attempt, and nothing else is missing (`accounts_of_retry`).
-/

namespace Conduit

/-! ### Attempts -/

section

variable {ς α : Type}

/-- Makes an attempt at each of the given times until one succeeds; one that fails for good or goes on is the last. -/
def retry (attempt : ς → Host → Option (Except Error α × ς)) : List Host → ς → Option (α × ς)
  | [], _ => none
  | host :: hosts, s =>
    match attempt s host with
    | none => none
    | some (.ok a, s) => some (a, s)
    | some (.error e, s) => if e.retryable then retry attempt hosts s else none

/-- What the attempts that fail lose, if each one loses `loss`. -/
def losses (attempt : ς → Host → Option (Except Error α × ς)) (loss : ς → Host → Bytes) : List Host → ς → List Bytes
  | [], _ => []
  | host :: hosts, s =>
    match attempt s host with
    | none => []
    | some (.ok _, _) => []
    | some (.error e, s') => if e.retryable then loss s host :: losses attempt loss hosts s' else []

/-- A run that succeeds is one attempt that does, or one that fails and may be repeated, with a run after it. -/
theorem retry_eq_some {attempt : ς → Host → Option (Except Error α × ς)} (loss : ς → Host → Bytes) {hosts : List Host}
    {s s' : ς} {a : α} (h : retry attempt hosts s = some (a, s')) :
    ∃ host hosts', hosts = host :: hosts' ∧
      ((attempt s host = some (.ok a, s') ∧ losses attempt loss hosts s = []) ∨
        ∃ e s'', attempt s host = some (.error e, s'') ∧ retry attempt hosts' s'' = some (a, s') ∧
          losses attempt loss hosts s = loss s host :: losses attempt loss hosts' s'') := by
  cases hosts with
  | nil => cases h
  | cons host hosts =>
    refine ⟨host, hosts, rfl, ?_⟩
    rw [retry] at h
    rw [losses]
    rcases ha : attempt s host with _ | ⟨e | a', s''⟩
    · rw [ha] at h
      cases h
    · rw [ha] at h
      by_cases he : e.retryable
      · simp only [he, if_true] at h ⊢
        exact .inr ⟨e, s'', rfl, h, rfl⟩
      · simp [he] at h
    · rw [ha] at h
      cases h
      exact .inl ⟨rfl, rfl⟩

end

/-! ### What an attempt loses -/

section

variable {σ : Type} [ByteSource σ]

/-- The buffer of a loop of reads when one of them does not give bytes, or nothing more is asked for. -/
def gathered (ask : Buffer → Nat) : (rounds : Nat) → σ → Buffer → Host → Buffer
  | 0, _, b, _ => b
  | rounds + 1, s, b, host =>
    if ask b = 0 then b
    else match ByteSource.read s (ask b) b host with
      | ⟨.ok (some _), s, b, host⟩ => gathered ask rounds s b host
      | _ => b

/-- One step of a loop of reads from a source that owes `x`: the end, a failure that loses nothing, or some bytes. -/
private theorem read_cases {s : σ} {x : Bytes} (h : Owes none s x) {n : Nat} (hn : 0 < n) (b : Buffer) (host : Host) :
    (∃ s' b' host', ByteSource.read s n b host = ⟨.ok none, s', b', host'⟩ ∧ x = [] ∧ b'.toList = b.toList ∧
        Owes none s' []) ∨
      (∃ e s' host', ByteSource.read s n b host = ⟨.error e, s', b, host'⟩ ∧ Owes none s' x) ∨
      ∃ k s' b' host', ByteSource.read s n b host = ⟨.ok (some k), s', b', host'⟩ ∧ 0 < k ∧ k ≤ n ∧ k ≤ x.length ∧
        b'.toList = b.toList ++ x.take k ∧ Owes none s' (x.drop k) := by
  have hread := (lasting_owes none).read h hn (by simp) b host
  rcases hr : ByteSource.read s n b host with ⟨r, s', b', host'⟩
  rw [hr] at hread
  rcases hread with (⟨hx, rfl, hb, hs⟩ | ⟨k, hk, hkn, hkx, rfl, hb, hs⟩) | ⟨-, ⟨e, rfl⟩, rfl, hs⟩
  · exact .inl ⟨s', b', host', rfl, hx, hb, hs⟩
  · exact .inr (.inr ⟨k, s', b', host', rfl, hk, hkn, hkx, hb, hs⟩)
  · exact .inr (.inl ⟨e, s', host', rfl, hs⟩)

/-- Reading on to the end takes what it gathers off the stream, and gives that back only if it finds the end. -/
theorem readRest_of_owes {rounds : Nat} {s : σ} {x : Bytes} (h : Owes none s x) {b : Buffer} {host : Host}
    {o : StreamOutcome σ} (ho : readRest rounds s b host = some o) :
    ∃ y rest, y ++ rest = x ∧ (gathered (fun _ => segmentSize) rounds s b host).toList = b.toList ++ y ∧
      Owes none o.source rest ∧ ∀ b', o.result = .ok b' → b'.toList = b.toList ++ y ∧ rest = [] := by
  -- what the later rounds gather stands behind what this one reads
  induction rounds generalizing s x b host with
  | zero => cases ho
  | succ rounds ih =>
    have hsize : 0 < segmentSize := by decide
    rw [readRest] at ho
    rw [gathered, if_neg (Nat.ne_of_gt hsize)]
    rcases read_cases h hsize b host with ⟨s', b', host', hr, rfl, hb, hs⟩ | ⟨e, s', host', hr, hs⟩ |
      ⟨k, s', b', host', hr, hk, hkn, hkx, hb, hs⟩
    · rw [hr] at ho ⊢
      cases ho
      refine ⟨[], [], rfl, (List.append_nil _).symm, hs, ?_⟩
      intro b'' hb''
      obtain rfl := Except.ok.inj hb''
      exact ⟨by rw [hb, List.append_nil], rfl⟩
    · rw [hr] at ho ⊢
      cases ho
      refine ⟨[], x, rfl, (List.append_nil _).symm, hs, ?_⟩
      intro b'' hb''
      cases hb''
    · rw [hr] at ho ⊢
      obtain ⟨y, rest, hcat, hgather, howes, hok⟩ := ih hs ho
      rw [hb, List.append_assoc] at hgather
      refine ⟨x.take k ++ y, rest, ?_, hgather, howes, ?_⟩
      · rw [List.append_assoc, hcat, List.take_append_drop]
      · intro b'' hb''
        obtain ⟨h₁, h₂⟩ := hok b'' hb''
        rw [hb, List.append_assoc] at h₁
        exact ⟨h₁, h₂⟩

/-- What reading until there are `n` bytes does after its next read. -/
private theorem readUpTo_eq {n : Nat} {s : σ} {b : Buffer} (hlt : b.length < n) (host : Host) :
    readUpTo n s b host =
      match ByteSource.read s (n - b.length) b host with
      | ⟨.error e, s, _, host⟩ => ⟨.error e, s, host⟩
      | ⟨.ok none, s, b, host⟩ => ⟨.error (.io (.endedEarly b.length n)), s, host⟩
      | ⟨.ok (some _), s, b, host⟩ => readUpTo n s b host := by
  rw [readUpTo, dif_pos hlt]
  split
  · rename_i hr
    rw [hr]
  · rename_i hr
    rw [hr]
  · rename_i hr
    rw [hr]

/-- Reading until there are `n` bytes takes what it gathers off the stream, and gives that back only if it succeeds. -/
theorem readUpTo_of_owes {rounds n : Nat} {s : σ} {x : Bytes} (h : Owes none s x) {b : Buffer} (host : Host)
    (hrounds : n - b.length ≤ rounds) (hn : b.length ≤ n) :
    ∃ y rest, y ++ rest = x ∧ (gathered (fun b => n - b.length) rounds s b host).toList = b.toList ++ y ∧
      Owes none (readUpTo n s b host).source rest ∧
      ∀ b', (readUpTo n s b host).result = .ok b' → b'.toList = b.toList ++ y ∧ b'.length = n := by
  -- the rounds are enough, since each of them that reads something leaves less to ask for
  induction rounds generalizing s x b host with
  | zero =>
    rw [readUpTo, dif_neg (by omega), gathered]
    refine ⟨[], x, rfl, (List.append_nil _).symm, h, ?_⟩
    intro b' hb'
    obtain rfl := Except.ok.inj hb'
    exact ⟨(List.append_nil _).symm, by omega⟩
  | succ rounds ih =>
    by_cases hlt : b.length < n
    · have hpos : 0 < n - b.length := Nat.sub_pos_of_lt hlt
      rw [readUpTo_eq hlt, gathered, if_neg (Nat.ne_of_gt hpos)]
      rcases read_cases h hpos b host with ⟨s', b', host', hr, rfl, hb, hs⟩ | ⟨e, s', host', hr, hs⟩ |
        ⟨k, s', b', host', hr, hk, hkn, hkx, hb, hs⟩
      · rw [hr]
        refine ⟨[], [], rfl, (List.append_nil _).symm, hs, ?_⟩
        intro b'' hb''
        cases hb''
      · rw [hr]
        refine ⟨[], x, rfl, (List.append_nil _).symm, hs, ?_⟩
        intro b'' hb''
        cases hb''
      · rw [hr]
        have hlen : b'.length = b.length + k := by
          rw [← Buffer.length_toList, hb, List.length_append, Buffer.length_toList, List.length_take,
            Nat.min_eq_left hkx]
        obtain ⟨y, rest, hcat, hgather, howes, hok⟩ := ih hs (b := b') host' (by omega) (by omega)
        rw [hb, List.append_assoc] at hgather
        refine ⟨x.take k ++ y, rest, ?_, hgather, howes, ?_⟩
        · rw [List.append_assoc, hcat, List.take_append_drop]
        · intro b'' hb''
          obtain ⟨h₁, h₂⟩ := hok b'' hb''
          rw [hb, List.append_assoc] at h₁
          exact ⟨h₁, h₂⟩
    · rw [readUpTo, dif_neg hlt, gathered, if_pos (by omega)]
      refine ⟨[], x, rfl, (List.append_nil _).symm, h, ?_⟩
      intro b' hb'
      obtain rfl := Except.ok.inj hb'
      exact ⟨(List.append_nil _).symm, by omega⟩

variable {τ : Type} [ByteSink τ]

/-- The buffer of a copy when a write fails, or nothing more is read. -/
def stranded : (rounds : Nat) → σ → τ → Buffer → Host → Buffer
  | 0, _, _, b, _ => b
  | rounds + 1, s, t, b, host =>
    match ByteSource.read s segmentSize b host with
    | ⟨.ok (some count), s, b, host⟩ =>
      match ByteSink.write t count b host with
      | ⟨.ok (), t, b, host⟩ => stranded rounds s t b host
      | ⟨.error _, _, b, _⟩ => b
    | _ => b

open ReceivingSink in
/-- Copying moves the front of the stream to the sink and strands the piece behind that, of which a write has failed; if
it succeeds, it has moved all of the stream. -/
theorem copyRest_of_owes [ReceivingSink τ] {rounds : Nat} {s : σ} {x : Bytes} (h : Owes none s x) {t : τ} {b : Buffer}
    (hb : b.toList = []) {total : Nat} {host : Host} {o : CopyOutcome σ τ}
    (ho : copyRest rounds s t b total host = some o) :
    ∃ moved rest, received o.sink = received t ++ moved ∧
      moved ++ (stranded rounds s t b host).toList ++ rest = x ∧ Owes none o.source rest ∧
      (stranded rounds s t b host).length ≤ segmentSize ∧
      ∀ count, o.result = .ok count → (stranded rounds s t b host).toList = [] ∧ rest = [] := by
  -- every round starts with an empty buffer, so that a read that fails strands nothing
  induction rounds generalizing s t x b total host with
  | zero => cases ho
  | succ rounds ih =>
    have hsize : 0 < segmentSize := by decide
    have hempty : b.length = 0 := Buffer.length_eq_zero_iff.2 hb
    rw [copyRest] at ho
    rw [stranded]
    rcases read_cases h hsize b host with ⟨s', b', host', hr, rfl, hb', hs⟩ | ⟨e, s', host', hr, hs⟩ |
      ⟨k, s', b', host', hr, hk, hkn, hkx, hb', hs⟩
    · rw [hr] at ho ⊢
      cases ho
      exact ⟨[], [], (List.append_nil _).symm, by simp [hb], hs, by simp [hempty], fun _ _ => ⟨hb, rfl⟩⟩
    · rw [hr] at ho ⊢
      cases ho
      refine ⟨[], x, (List.append_nil _).symm, by simp [hb], hs, by simp [hempty], ?_⟩
      intro count hcount
      cases hcount
    · rw [hr] at ho ⊢
      simp only at ho ⊢
      rw [hb, List.nil_append] at hb'
      obtain ⟨j, hj, hreceived, hleft, hall⟩ := write_takes t k b' host'
      rcases hw : ByteSink.write t k b' host' with ⟨e | _, t', b'', host''⟩
      · -- the write has failed behind the first `j` bytes
        rw [hw] at ho hreceived hleft
        cases ho
        have hleft : b''.toList = b'.toList.drop j := hleft
        refine ⟨b'.toList.take j, x.drop k, hreceived, ?_, hs, ?_, ?_⟩
        · show b'.toList.take j ++ b''.toList ++ x.drop k = x
          rw [hleft, List.take_append_drop, hb', List.take_append_drop]
        · show b''.length ≤ segmentSize
          rw [← Buffer.length_toList, hleft, hb', List.length_drop, List.length_take]
          omega
        · intro count hcount
          cases hcount
      · rw [hw] at ho hreceived hleft hall
        obtain rfl : j = k := hall rfl
        have hreceived : received t' = received t ++ b'.toList.take j := hreceived
        have hleft : b''.toList = b'.toList.drop j := hleft
        have htake : (x.take j).take j = x.take j := by rw [List.take_take, Nat.min_self]
        have hdrop : b''.toList = [] := by
          rw [hleft, hb', List.drop_eq_nil_of_le (List.length_take_le ..)]
        obtain ⟨moved, rest, hr', hcat, howes, hlen, hok⟩ := ih hs hdrop ho
        refine ⟨x.take j ++ moved, rest, ?_, ?_, howes, hlen, hok⟩
        · rw [hr', hreceived, hb', htake, List.append_assoc]
        · rw [List.append_assoc, List.append_assoc, ← List.append_assoc moved, hcat, List.take_append_drop]

end

/-! ### Attempts, one after the other -/

section

variable {σ : Type} [ByteSource σ]

/-- An attempt to read everything. -/
def attemptAll (rounds : Nat) (s : σ) (host : Host) : Option (Except Error Buffer × σ) :=
  (readToEnd rounds s host).map fun o => (o.result, o.source)

/-- What an attempt to read everything has read. -/
def lossOfAll (rounds : Nat) (s : σ) (host : Host) : Bytes :=
  (gathered (fun _ => segmentSize) rounds s .empty host).toList

/-- An attempt to read exactly `n` bytes. -/
def attemptSome (n : Nat) (s : σ) (host : Host) : Option (Except Error Buffer × σ) :=
  some ((readExactly s n host).result, (readExactly s n host).source)

/-- What an attempt to read exactly `n` bytes has read. -/
def lossOfSome (n : Nat) (s : σ) (host : Host) : Bytes := (gathered (fun b => n - b.length) n s .empty host).toList

variable {τ : Type} [ByteSink τ]

/-- An attempt to copy everything. -/
def attemptCopy (rounds : Nat) (p : σ × τ) (host : Host) : Option (Except Error Nat × (σ × τ)) :=
  (copyTo rounds p.1 p.2 host).map fun o => (o.result, (o.source, o.sink))

/-- What an attempt to copy everything has read, but not written. -/
def lossOfCopy (rounds : Nat) (p : σ × τ) (host : Host) : Bytes := (stranded rounds p.1 p.2 .empty host).toList

/-- If each attempt takes `loss` off the stream and can only give that, then a run takes off what its failures lose and
then what it gives. -/
theorem retry_of_owes {attempt : σ → Host → Option (Except Error Buffer × σ)} {loss : σ → Host → Bytes}
    {P : Buffer → Bytes → Prop}
    (hattempt : ∀ {s x host r s'}, Owes none s x → attempt s host = some (r, s') →
      ∃ rest, loss s host ++ rest = x ∧ Owes none s' rest ∧ ∀ b, r = .ok b → b.toList = loss s host ∧ P b rest)
    {hosts : List Host} {s s' : σ} {x : Bytes} {b : Buffer} (h : Owes none s x)
    (hr : retry attempt hosts s = some (b, s')) :
    ∃ rest, (losses attempt loss hosts s).flatten ++ b.toList ++ rest = x ∧ Owes none s' rest ∧ P b rest := by
  induction hosts generalizing s x with
  | nil => cases hr
  | cons host hosts ih =>
    obtain ⟨_, _, heq, hcases⟩ := retry_eq_some loss hr
    obtain ⟨rfl, rfl⟩ := List.cons.inj heq
    rcases hcases with ⟨ha, hl⟩ | ⟨e, s'', ha, hr, hl⟩
    · obtain ⟨rest, hcat, howes, hok⟩ := hattempt h ha
      obtain ⟨hb, hP⟩ := hok b rfl
      refine ⟨rest, ?_, howes, hP⟩
      rw [hl, List.flatten_nil, List.nil_append, hb, hcat]
    · -- the other attempts go on where this one has stopped, behind what it has lost
      obtain ⟨mid, hmid, howes, -⟩ := hattempt h ha
      obtain ⟨rest, hcat, howes, hP⟩ := ih howes hr
      refine ⟨rest, ?_, howes, hP⟩
      rw [hl, List.flatten_cons, List.append_assoc, List.append_assoc, ← List.append_assoc _ b.toList, hcat, hmid]

theorem attemptAll_of_owes {rounds : Nat} {s : σ} {x : Bytes} {host : Host} {r : Except Error Buffer} {s' : σ}
    (h : Owes none s x) (ha : attemptAll rounds s host = some (r, s')) :
    ∃ rest, lossOfAll rounds s host ++ rest = x ∧ Owes none s' rest ∧
      ∀ b, r = .ok b → b.toList = lossOfAll rounds s host ∧ rest = [] := by
  obtain ⟨o, ho, houtcome⟩ := Option.map_eq_some_iff.1 ha
  obtain ⟨rfl, rfl⟩ := Prod.mk.inj houtcome
  obtain ⟨y, rest, hcat, hgather, howes, hok⟩ := readRest_of_owes h ho
  rw [Buffer.toList_empty, List.nil_append] at hgather hok
  have hloss : lossOfAll rounds s host = y := hgather
  rw [hloss]
  exact ⟨rest, hcat, howes, hok⟩

theorem attemptSome_of_owes {n : Nat} {s : σ} {x : Bytes} {host : Host} {r : Except Error Buffer} {s' : σ}
    (h : Owes none s x) (ha : attemptSome n s host = some (r, s')) :
    ∃ rest, lossOfSome n s host ++ rest = x ∧ Owes none s' rest ∧
      ∀ b, r = .ok b → b.toList = lossOfSome n s host ∧ b.length = n := by
  obtain ⟨rfl, rfl⟩ := Prod.mk.inj (Option.some.inj ha)
  have hrounds : n - Buffer.empty.length ≤ n := Nat.sub_le ..
  obtain ⟨y, rest, hcat, hgather, howes, hok⟩ := readUpTo_of_owes h host hrounds (Nat.zero_le _)
  rw [Buffer.toList_empty, List.nil_append] at hgather hok
  have hloss : lossOfSome n s host = y := hgather
  rw [hloss]
  exact ⟨rest, hcat, howes, hok⟩

variable [ReceivingSink τ]

open ReceivingSink

theorem attemptCopy_of_owes {rounds : Nat} {s s' : σ} {t t' : τ} {x : Bytes} {host : Host} {r : Except Error Nat}
    (h : Owes none s x) (ha : attemptCopy rounds (s, t) host = some (r, (s', t'))) :
    ∃ moved rest, received t' = received t ++ moved ∧ moved ++ lossOfCopy rounds (s, t) host ++ rest = x ∧
      Owes none s' rest ∧ (lossOfCopy rounds (s, t) host).length ≤ segmentSize ∧
      ∀ count, r = .ok count → lossOfCopy rounds (s, t) host = [] ∧ rest = [] := by
  obtain ⟨o, ho, houtcome⟩ := Option.map_eq_some_iff.1 ha
  obtain ⟨rfl, hends⟩ := Prod.mk.inj houtcome
  obtain ⟨rfl, rfl⟩ := Prod.mk.inj hends
  obtain ⟨moved, rest, hreceived, hcat, howes, hlen, hok⟩ := copyRest_of_owes h Buffer.toList_empty ho
  have hshort : (lossOfCopy rounds (s, t) host).length ≤ segmentSize := by
    rw [lossOfCopy, Buffer.length_toList]
    exact hlen
  exact ⟨moved, rest, hreceived, hcat, howes, hshort, hok⟩

/-- The stream is moved and lost in turns: each attempt but the last moves some bytes and then loses some, and the last
one moves the rest. -/
theorem retry_attemptCopy {rounds : Nat} {hosts : List Host} {s s' : σ} {t t' : τ} {x : Bytes} {total : Nat}
    (h : Owes none s x) (hr : retry (attemptCopy rounds) hosts (s, t) = some (total, (s', t'))) {lost : List Bytes}
    (hlost : losses (attemptCopy rounds) (lossOfCopy rounds) hosts (s, t) = lost) :
    ∃ moved : List Bytes, moved.length = lost.length + 1 ∧ received t' = received t ++ moved.flatten ∧
      (List.zipWith (· ++ ·) moved (lost ++ [[]])).flatten = x ∧ (∀ y ∈ lost, y.length ≤ segmentSize) ∧
      Owes none s' [] := by
  induction hosts generalizing s t x lost with
  | nil => cases hr
  | cons host hosts ih =>
    obtain ⟨_, _, heq, hcases⟩ := retry_eq_some (lossOfCopy rounds) hr
    obtain ⟨rfl, rfl⟩ := List.cons.inj heq
    rcases hcases with ⟨ha, hl⟩ | ⟨e, ⟨s₁, t₁⟩, ha, hr, hl⟩
    · -- the attempt has moved everything
      obtain rfl : lost = [] := hlost.symm.trans hl
      obtain ⟨moved, rest, hreceived, hcat, howes, -, hok⟩ := attemptCopy_of_owes h ha
      obtain ⟨hloss, rfl⟩ := hok _ rfl
      rw [hloss, List.append_nil, List.append_nil] at hcat
      exact ⟨[moved], rfl, by simpa using hreceived, by simpa using hcat, by simp, howes⟩
    · -- it has failed, and the others move what it has left
      obtain ⟨moved, rest, hreceived, hcat, howes, hlen, -⟩ := attemptCopy_of_owes h ha
      obtain ⟨moves, hlength, hreceived', hcat', hlens, hend⟩ := ih howes hr rfl
      rw [hl] at hlost
      subst hlost
      refine ⟨moved :: moves, by rw [List.length_cons, List.length_cons, hlength], ?_, ?_, ?_, hend⟩
      · rw [hreceived', hreceived, List.append_assoc, List.flatten_cons]
      · rw [List.cons_append, List.zipWith_cons_cons, List.flatten_cons, hcat', hcat]
      · exact List.forall_mem_cons.2 ⟨hlen, hlens⟩

/-- The total length of two lists of byte strings that are read in turns. -/
private theorem length_flatten_zipWith {xs ys : List Bytes} (h : xs.length = ys.length) :
    (List.zipWith (· ++ ·) xs ys).flatten.length = xs.flatten.length + ys.flatten.length := by
  induction xs generalizing ys with
  | nil =>
    obtain rfl : ys = [] := List.eq_nil_of_length_eq_zero h.symm
    rfl
  | cons x xs ih =>
    obtain ⟨y, ys, rfl⟩ := List.exists_cons_of_length_eq_add_one h.symm
    simp only [List.zipWith_cons_cons, List.flatten_cons, List.length_append, ih (Nat.succ.inj h)]
    omega

private theorem flatten_zipWith_of_nil {xs ys : List Bytes} (h : xs.length = ys.length) (hys : ys.flatten = []) :
    (List.zipWith (· ++ ·) xs ys).flatten = xs.flatten := by
  induction xs generalizing ys with
  | nil => rfl
  | cons x xs ih =>
    obtain ⟨y, ys, rfl⟩ := List.exists_cons_of_length_eq_add_one h.symm
    rw [List.flatten_cons, List.append_eq_nil_iff] at hys
    rw [List.zipWith_cons_cons, List.flatten_cons, List.flatten_cons, ih (Nat.succ.inj h) hys.2, hys.1, List.append_nil]

/-- Repeating a whole-stream operation loses what `losses` tells, and nothing else.  For every source that owes a stream
and every run of attempts that ends with one that succeeds:
* what the attempts to read everything lose, and then what the last one gives, is the stream, so that all of it is given
  exactly if nothing is lost;
* what the attempts to read `n` bytes lose, and then the `n` bytes that the last one gives, is the front of the stream;
* what the attempts to copy everything move to the sink and what they lose, in turns, is the stream, so that all of it
  is received exactly if nothing is lost; and each of them loses at most a segment. -/
theorem accounts_of_retry {s : σ} {x : Bytes} (h : Owes none s x) (hosts : List Host) :
    (∀ {rounds b s' lost}, losses (attemptAll rounds) (lossOfAll rounds) hosts s = lost →
      retry (attemptAll rounds) hosts s = some (b, s') →
        lost.flatten ++ b.toList = x ∧ (b.toList = x ↔ lost.flatten = []) ∧ Owes none s' []) ∧
    (∀ {n b s' lost}, losses (attemptSome n) (lossOfSome n) hosts s = lost →
      retry (attemptSome n) hosts s = some (b, s') →
        b.length = n ∧ (lost.flatten = [] → b.toList = x.take n) ∧
          ∃ rest, lost.flatten ++ b.toList ++ rest = x ∧ Owes none s' rest) ∧
    ∀ {t t' : τ} {rounds total s' lost}, losses (attemptCopy rounds) (lossOfCopy rounds) hosts (s, t) = lost →
      retry (attemptCopy rounds) hosts (s, t) = some (total, (s', t')) →
        ∃ moved : List Bytes, moved.length = lost.length + 1 ∧ received t' = received t ++ moved.flatten ∧
          (List.zipWith (· ++ ·) moved (lost ++ [[]])).flatten = x ∧
          (received t' = received t ++ x ↔ lost.flatten = []) ∧ (∀ y ∈ lost, y.length ≤ segmentSize) ∧
          Owes none s' [] := by
  refine ⟨?_, ?_, ?_⟩
  · intro rounds b s' lost hlost hr
    obtain ⟨rest, hcat, howes, rfl⟩ := retry_of_owes attemptAll_of_owes h hr
    rw [hlost, List.append_nil] at hcat
    refine ⟨hcat, ?_, howes⟩
    rw [← hcat, List.self_eq_append_left]
  · intro n b s' lost hlost hr
    obtain ⟨rest, hcat, howes, hlen⟩ := retry_of_owes attemptSome_of_owes h hr
    rw [hlost] at hcat
    refine ⟨hlen, ?_, rest, hcat, howes⟩
    intro hnone
    rw [hnone, List.nil_append] at hcat
    rw [← hcat, ← hlen, ← Buffer.length_toList, List.take_left]
  · intro t t' rounds total s' lost hlost hr
    obtain ⟨moved, hlength, hreceived, hcat, hlens, howes⟩ := retry_attemptCopy h hr hlost
    have hturns : moved.length = (lost ++ [[]]).length := by rw [hlength, List.length_append, List.length_singleton]
    have hnil : (lost ++ [[]]).flatten = lost.flatten := by simp
    have hsum : moved.flatten.length + lost.flatten.length = x.length := by
      rw [← hcat, length_flatten_zipWith hturns, hnil]
    refine ⟨moved, hlength, hreceived, hcat, ?_, hlens, howes⟩
    rw [hreceived, List.append_cancel_left_eq]
    constructor
    · intro hmoved
      rw [hmoved] at hsum
      exact List.eq_nil_of_length_eq_zero (by omega)
    · intro hnone
      rw [← hcat, flatten_zipWith_of_nil hturns (hnil.trans hnone)]

end

/-- A channel brings two bytes, one byte and two more, and each call may take ten nanoseconds. -/
def sampleSlow : ChannelSource :=
  .ofChannel (.ofScript [⟨.zero, .ok [1, 2]⟩, ⟨.zero, .ok [3]⟩, ⟨.zero, .ok [4, 5]⟩] [] []) (.after ⟨10⟩)

/-- A channel accepts one byte and then everything, and each call may take ten nanoseconds. -/
def sampleCareful : ChannelSink := .ofChannel (.ofScript [] [⟨.zero, .ok (some 1)⟩] []) (.after ⟨10⟩)

/-- In the first attempt ten nanoseconds pass before the fourth reading of the clock, and no time in the second. -/
def sampleTimes : List Host := [⟨⟨0, [0, 0, 0, 10]⟩, .empty, []⟩, .start]

/-- The first attempt to read everything loses two bytes, and the second gives the rest. -/
theorem accounts_of_sampleTimes : Owes none sampleSlow [1, 2, 3, 4, 5] ∧
    ∃ b s', retry (attemptAll 4) sampleTimes sampleSlow = some (b, s') ∧ [1, 2] ++ b.toList = [1, 2, 3, 4, 5] := by
  have howes : Owes none sampleSlow [1, 2, 3, 4, 5] := ChannelSource.owes_ofChannel ..
  have hlost : losses (attemptAll 4) (lossOfAll 4) sampleTimes sampleSlow = [[1, 2]] := by decide +kernel
  obtain ⟨b, s', hr⟩ : ∃ b s', retry (attemptAll 4) sampleTimes sampleSlow = some (b, s') := by
    rcases hr : retry (attemptAll 4) sampleTimes sampleSlow with _ | ⟨b, s'⟩
    · exact absurd (congrArg Option.isSome hr) (by decide +kernel)
    · exact ⟨b, s', rfl⟩
  obtain ⟨hall, -⟩ := accounts_of_retry (τ := ChannelSink) howes sampleTimes
  exact ⟨howes, b, s', hr, (hall hlost hr).1⟩

/-- What an attempt had read when it ran out of time is missing from what the next one gives, and what it had not
written yet is missing from what the sink receives. -/
theorem lost_in_repeating :
    Owes none sampleSlow [1, 2, 3, 4, 5] ∧
    (retry (attemptAll 4) sampleTimes sampleSlow).map (fun o => o.1.toList) = some [3, 4, 5] ∧
    (retry (attemptSome 3) sampleTimes sampleSlow).map (fun o => o.1.toList) = some [3, 4, 5] ∧
    (retry (attemptCopy 3) sampleTimes (ChannelSource.ofChannel (.paced [1, 2, 3] none) .none, sampleCareful)).map
      (fun o => o.2.2.channel.written) = some [1] := by
  refine ⟨ChannelSource.owes_ofChannel .., ?_, ?_, ?_⟩
  · decide +kernel
  · decide +kernel
  · decide +kernel

end Conduit
