import Mathlib.Logic.Function.Basic
import Conduit.File.Sink
import Conduit.Proofs.FileEnd

/-!
# Files that endpoints share

Sources and sinks of files share nothing but the disk.  A write lays the bytes that it takes from its buffer over those
of the file from the sink's position on, and a read gives the bytes that the file has at that moment from the source's
position on; each moves its own position by as many bytes and leaves all other positions, and all other bytes of the
disk, as they are (`FileSink.Writes`, `FileSource.Reads`).  So it is in every step of every run, however the calls are
mixed and wherever the endpoints were opened (`Shared.exact_of_mem_steps`).
-/

namespace Conduit

open Function (update)

/-! ### One read -/

namespace FileSource

/-- What has come of asking the file for at most `n` bytes. -/
structure Polled (s : FileSource) (n : Nat) (b : Buffer) (disk : Disk) (o : ReadOutcome FileSource) : Prop where
  spared : disk.Spared o.host.disk
  given : ∀ k, o.result = .ok (some k) → 0 < k ∧ k ≤ min n segmentSize ∧ k ≤ disk.size s.node - s.position ∧
    o.buffer.toList = b.toList ++ ((disk.data s.node).drop s.position).take k ∧
    o.source = { s with position := s.position + k }
  kept : (∀ k, o.result ≠ .ok (some k)) → o.buffer = b ∧ o.source = s

/-- Nothing is given. -/
private theorem Polled.nothing {s : FileSource} {n : Nat} {b : Buffer} {disk : Disk} {host : Host}
    {r : Except Error (Option Nat)} (hr : ∀ k, r ≠ .ok (some k)) (hd : disk.Spared host.disk) :
    Polled s n b disk ⟨r, s, b, host⟩ where
  spared := hd
  given k hk := absurd hk (hr k)
  kept _ := ⟨rfl, rfl⟩

/-- An interruption leaves the file as it was, and so what is given afterwards are bytes that it had before. -/
private theorem Polled.of_spared {s : FileSource} {n : Nat} {b : Buffer} {disk disk' : Disk} {o : ReadOutcome FileSource}
    (hd : disk.Spared disk') (h : Polled s n b disk' o) : Polled s n b disk o where
  spared := hd.trans h.spared
  given k hk := by
    obtain ⟨hpos, hle, hsize, hbuffer, hsource⟩ := h.given k hk
    rw [hd.size_eq] at hsize
    rw [hd.data_eq] at hbuffer
    exact ⟨hpos, hle, hsize, hbuffer, hsource⟩
  kept := h.kept

private theorem Polled.mono {s : FileSource} {m n : Nat} {b : Buffer} {disk : Disk} {o : ReadOutcome FileSource}
    (h : Polled s m b disk o) (hle : m ≤ n) : Polled s n b disk o where
  spared := h.spared
  given k hk := by
    obtain ⟨hpos, hk, hrest⟩ := h.given k hk
    exact ⟨hpos, by omega, hrest⟩
  kept := h.kept

theorem polled_poll (s : FileSource) (deadline : Deadline) (n : Nat) (b : Buffer) (host : Host) :
    Polled s n b host.disk (s.poll deadline n b host) := by
  fun_induction poll s deadline n b host with
  | case1 host disk host' hread => exact .nothing (by simp) (Disk.spared_readAt hread)
  | case2 host data disk hread host' hdata =>
    obtain ⟨hsize, hserved⟩ := Disk.readAt_eq_ok hread
    have hlen := Disk.length_readAt hread
    rw [Buffer.size_window] at hlen
    refine ⟨Disk.spared_readAt hread, ?_, fun h => absurd rfl (h _)⟩
    intro k hk
    obtain rfl : data.length = k := Option.some.inj (Except.ok.inj hk)
    refine ⟨List.length_pos_iff.2 hdata, hlen, hsize, ?_, rfl⟩
    rw [Buffer.toList_fill, List.take_of_length_le hlen, ← hserved]
  | case3 host e disk hread hint e' host' hcheck =>
    refine .nothing (by simp) ?_
    rw [Deadline.disk_of_check hcheck]
    exact Disk.spared_readAt hread
  | case4 host e disk hread hint host' hcheck ih =>
    have hdisk : host'.disk = disk := Deadline.disk_of_check hcheck
    rw [hdisk] at ih
    exact ih.of_spared (Disk.spared_readAt hread)
  | case5 host e disk hread hint => exact .nothing (by simp) (Disk.spared_readAt hread)

/-- What has come of reading at most `n` bytes: the bytes that the file has from the position on, as many as the
position moves by, or nothing. -/
structure Reads (s : FileSource) (n : Nat) (b : Buffer) (host : Host) (o : ReadOutcome FileSource) : Prop where
  spared : host.disk.Spared o.host.disk
  given : ∀ k, o.result = .ok (some k) → (k = 0 ↔ n = 0) ∧
    k ≤ min (min n segmentSize) (host.disk.size s.node - s.position) ∧
    o.buffer.toList = b.toList ++ ((host.disk.data s.node).drop s.position).take k ∧
    o.source = { s with position := s.position + k }
  kept : (∀ k, o.result ≠ .ok (some k)) → o.buffer = b ∧ o.source = s
  /-- The end is found exactly by a proper read that is in time and finds the file no longer than the position. -/
  none_iff : o.result = .ok none ↔ s.Waits n ∧ s.InTime host ∧ s.AtEnd host

/-- A read that is refused, or asks for nothing, does nothing. -/
private theorem reads_of_not_waits {s : FileSource} {n : Nat} (hw : ¬ s.Waits n) (b : Buffer) (host : Host) :
    s.Reads n b host (s.read n b host) := by
  obtain ⟨r, hr⟩ := read_at_once hw b
  have hread := hr host
  refine ⟨by rw [hread]; exact .refl _, ?_, fun _ => by rw [hread]; exact ⟨rfl, rfl⟩, ?_⟩
  · intro k hk
    obtain ⟨hzero, hlength⟩ := read_eq_some hk
    rw [hread] at hlength ⊢
    obtain rfl : k = 0 := Nat.left_eq_add.1 hlength
    exact ⟨hzero, Nat.zero_le _, by simp, rfl⟩
  · refine ⟨fun hnone => ?_, fun h => absurd h.1 hw⟩
    have hn : n ≠ 0 := by
      rintro rfl
      unfold FileSource.read at hnone
      by_cases hc : s.closed
      · simp [checkRead, hc] at hnone
      · simp [checkRead, hc] at hnone
    obtain ⟨hc, -⟩ := read_eq_none (Nat.pos_of_ne_zero hn) hnone
    have hl : ¬ n ≤ maxRequestLength := fun hl => hw ⟨hc, Nat.pos_of_ne_zero hn, hl⟩
    rw [FileSource.read, checkRead, if_pos (Nat.lt_of_not_le hl)] at hnone
    cases hnone

/-- A read reads exactly, whatever the disk grants as long as that is not nothing. -/
theorem reads_read (s : FileSource) (n : Nat) (b : Buffer) {host : Host} (hd : host.disk.Moves) :
    s.Reads n b host (s.read n b host) := by
  by_cases hw : s.Waits n
  · have hnone := read_eq_none_iff hw b hd
    rw [← and_iff_right hw (b := _ ∧ _)] at hnone
    -- it is enough to know what the read has come to
    suffices hpolled : Polled s n b host.disk (s.read n b host) by
      refine ⟨hpolled.spared, ?_, hpolled.kept, hnone⟩
      intro k hk
      obtain ⟨hpos, hle, hsize, hbuffer, hsource⟩ := hpolled.given k hk
      have hn := hw.2.1
      exact ⟨by omega, by omega, hbuffer, hsource⟩
    rcases ask_of_check hw b host with ⟨elapsed, host', hdisk, -, hread⟩ | ⟨-, host₁, hdisk, hread⟩
    · rw [hread]
      exact .nothing (by simp) (hdisk ▸ .refl _)
    · obtain ⟨disk, hrefusals, hcases⟩ := s.serve_cases (s.timeout.start host).1 n b host₁
      rw [hdisk] at hrefusals
      have hspared := Disk.spared_of_refusals hrefusals
      obtain ⟨kind, -, -, hserve⟩ | ⟨-, -, hserve⟩ | ⟨-, hserve⟩ := hcases
      · rw [hread, hserve]
        exact .nothing (by simp) hspared
      · rw [hread, hserve]
        exact .nothing (by simp) hspared
      · rw [hread, hserve]
        exact ((s.polled_poll _ _ b { host₁ with disk }).of_spared hspared).mono (Nat.min_le_left ..)
  · exact reads_of_not_waits hw b host

end FileSource

/-! ### One write -/

namespace FileSink

/-- What has come of writing `n` bytes: so many are taken from the buffer, laid over those of the file from the position
on, and counted in the position. -/
structure Writes (s : FileSink) (n : Nat) (b : Buffer) (disk : Disk) (o : WriteOutcome FileSink) (count : Nat) : Prop where
  le : count ≤ min n b.length
  taken : o.buffer.toList = b.toList.drop count
  overlaid : disk.Overlaid s.file s.position (b.toList.take count) o.host.disk
  moved : o.sink = { s with position := s.position + count }
  complete : o.result = .ok () → count = n

/-- Nothing is written. -/
private theorem Writes.nothing {s : FileSink} {n : Nat} {b : Buffer} {disk : Disk} {host : Host} {r : Except Error Unit}
    (hr : r = .ok () → n = 0) (hd : disk.Spared host.disk) : Writes s n b disk ⟨r, s, b, host⟩ 0 where
  le := Nat.zero_le _
  taken := rfl
  overlaid := hd.overlaid _ _
  moved := rfl
  complete h := (hr h).symm

theorem exists_writes_deliver (s : FileSink) (deadline : Deadline) {n : Nat} {b : Buffer} (hb : n ≤ b.length)
    (host : Host) : ∃ count, Writes s n b host.disk (s.deliver deadline n b host) count := by
  fun_induction deliver s deadline n b host with
  | case1 s b host => exact ⟨0, .nothing (fun _ => rfl) (.refl _)⟩
  | case2 s n b host hn e host' hcheck =>
    refine ⟨0, .nothing (by simp) ?_⟩
    rw [Deadline.disk_of_check hcheck]
    exact .refl _
  | case3 s n b host hn checked hcheck disk host' hwrite =>
    -- the disk has written nothing
    have hdisk : checked.disk = host.disk := Deadline.disk_of_check hcheck
    obtain ⟨-, hover⟩ := Disk.overlaid_of_writeAt hwrite
    rw [hdisk] at hover
    exact ⟨0, Nat.zero_le _, rfl, hover, rfl, by simp⟩
  | case4 s n b host hn checked hcheck count disk hwrite host' hpos ih =>
    -- some bytes are written, and the rest behind them
    have hdisk : checked.disk = host.disk := Deadline.disk_of_check hcheck
    obtain ⟨hcount, hover⟩ := Disk.overlaid_of_writeAt hwrite
    rw [List.length_take] at hcount
    have hhead : count ≤ b.head.length := by omega
    have hfront : (b.head.take n).take count = b.toList.take count := by
      rw [List.take_take, Nat.min_eq_left (by omega), b.head_isPrefix, List.take_append_of_le_length hhead]
    have hlength : (b.toList.take count).length = count := by
      rw [List.length_take, Buffer.length_toList]
      omega
    have hrest : (b.dropHead count).toList = b.toList.drop count := by
      rw [Buffer.toList_dropHead, Nat.min_eq_left hhead]
    have hrestLength : (b.dropHead count).length = b.length - count := by
      rw [Buffer.length_dropHead, Nat.min_eq_left hhead]
    rw [hdisk, hfront] at hover
    obtain ⟨k, h⟩ := ih (by omega)
    have hle := h.le
    have hover' := h.overlaid
    rw [hrest] at hover'
    refine ⟨count + k, by omega, ?_, ?_, ?_, ?_⟩
    · rw [h.taken, hrest, List.drop_drop]
    · rw [List.take_add]
      exact hover.trans (by rw [hlength]; exact hover')
    · rw [h.moved, Nat.add_assoc]
    · intro hok
      have hlast := h.complete hok
      omega
  | case5 s n b host hn checked hcheck e disk hwrite host' hint ih =>
    -- an interruption
    have hdisk : checked.disk = host.disk := Deadline.disk_of_check hcheck
    have hspared := Disk.spared_of_writeAt hwrite
    rw [hdisk] at hspared
    obtain ⟨count, h⟩ := ih hb
    exact ⟨count, h.le, h.taken, (hspared.overlaid s.file s.position).trans h.overlaid, h.moved, h.complete⟩
  | case6 s n b host hn checked hcheck e disk hwrite host' hint =>
    refine ⟨0, .nothing (by simp) ?_⟩
    rw [← Deadline.disk_of_check hcheck]
    exact Disk.spared_of_writeAt hwrite

/-- However a write ends, what it has taken from the buffer is in the file and counted in the position. -/
theorem exists_writes (s : FileSink) (n : Nat) (b : Buffer) (host : Host) :
    ∃ count, Writes s n b host.disk (s.write n b host) count := by
  unfold write
  split
  · exact ⟨0, .nothing (by simp) (.refl _)⟩
  · rename_i hcheck
    split
    · exact ⟨0, .nothing (by simp) (.refl _)⟩
    · exact exists_writes_deliver s _ (checkWrite_eq_ok_iff.1 hcheck).2 (s.timeout.start host).2

end FileSink

/-! ### The other calls -/

theorem FileSource.close_keeps (s : FileSource) (host : Host) :
    (s.close host).endpoint.position = s.position ∧ (s.close host).host.disk = host.disk := by
  unfold FileSource.close
  split <;> exact ⟨rfl, rfl⟩

theorem FileSink.close_keeps (s : FileSink) (host : Host) :
    (s.close host).endpoint.position = s.position ∧ (s.close host).host.disk = host.disk := by
  unfold FileSink.close
  split <;> exact ⟨rfl, rfl⟩

theorem FileSink.flush_keeps (s : FileSink) (host : Host) :
    (s.flush host).endpoint.position = s.position ∧ host.disk.Spared (s.flush host).host.disk := by
  unfold FileSink.flush
  split
  · exact ⟨rfl, .refl _⟩
  · split
    · rename_i hcheck
      exact ⟨rfl, Timeout.disk_of_check hcheck ▸ .refl _⟩
    · rename_i host' hcheck
      obtain ⟨hsame, -, hrefusals⟩ := s.store_eq host'
      rw [Timeout.disk_of_check hcheck] at hrefusals
      exact ⟨by rw [hsame], Disk.spared_of_refusals hrefusals⟩

/-- A sink that is opened to write behind the end of a file begins there; if it cannot be opened, no file changes. -/
theorem FileSink.append_cases (path : String) (host : Host) : ∃ host', host.disk.Spared host'.disk ∧
    ((∃ e, append path host = (.error e, host')) ∨
      ∃ file, append path host = (.ok ⟨file, (host.disk.contents file).size, .none, false⟩, host')) := by
  unfold append startingAt
  rcases host.disk.openToWrite path with e | file
  · exact ⟨host, .refl _, .inl ⟨_, rfl⟩⟩
  · have htouch := host.disk.spared_touch file
    rcases hi : (host.disk.touch file).inspect (.file file) with ⟨r, disk⟩
    have hspared := htouch.trans (Disk.spared_of_refusals (Disk.attempt_eq hi).1)
    obtain ⟨-, rfl | ⟨kind, -, rfl⟩⟩ := Disk.attempt_eq hi
    · have hsize : (host.disk.touch file).size (.file file) = (host.disk.contents file).size := htouch.size_eq _
      rw [hsize] at hi
      refine ⟨{ host with disk }.report (.fileOpened path (.append (host.disk.contents file).size)), hspared,
        .inr ⟨file, ?_⟩⟩
      simp only [hi]
    · refine ⟨{ host with disk }, hspared, .inl ⟨.io (.ofDisk kind), ?_⟩⟩
      simp only [hi]

/-! ### Endpoints that share a host -/

/-- Sources and sinks of files, by their names, and the host that they share. -/
structure Shared (ι : Type) where
  sources : ι → Option FileSource
  sinks : ι → Option FileSink
  host : Host

/-- A call that opens an endpoint, or is made of one that has been opened. -/
inductive FileCall (ι : Type) where
  | openSource (i : ι) (path : String)
  | sourceAt (i : ι) (path : String) (position : Nat)
  | createSink (i : ι) (path : String)
  | appendSink (i : ι) (path : String)
  | sinkAt (i : ι) (path : String) (position : Nat)
  | limitSource (i : ι) (timeout : Timeout)
  | limitSink (i : ι) (timeout : Timeout)
  | read (i : ι) (n : Nat) (b : Buffer)
  | write (i : ι) (n : Nat) (b : Buffer)
  | flush (i : ι)
  | closeSource (i : ι)
  | closeSink (i : ι)

variable {ι : Type} [DecidableEq ι]

namespace Shared

/-- The bytes of a file. -/
def bytes (d : Shared ι) (file : Location) : Bytes := (d.host.disk.contents file).toList

def putSource (d : Shared ι) (i : ι) (s : FileSource) (host : Host) : Shared ι :=
  { d with sources := update d.sources i (some s), host }

def putSink (d : Shared ι) (i : ι) (s : FileSink) (host : Host) : Shared ι :=
  { d with sinks := update d.sinks i (some s), host }

/-- Puts a sink in its place if it could be opened. -/
def openSink (d : Shared ι) (i : ι) (r : Except Error FileSink × Host) : Shared ι :=
  match r with
  | (.ok s, host) => d.putSink i s host
  | (.error _, host) => { d with host }

end Shared

/-- Makes a call; one of an endpoint that has not been opened does nothing. -/
def FileCall.perform (call : FileCall ι) (d : Shared ι) : Shared ι :=
  match call with
  | .openSource i path =>
    match FileSource.opened path d.host with
    | (.ok s, host) => d.putSource i s host
    | (.error _, host) => { d with host }
  | .sourceAt i path position =>
    match FileSource.startingAt path position d.host with
    | .ok s => d.putSource i s d.host
    | .error _ => d
  | .createSink i path => d.openSink i (FileSink.create path d.host)
  | .appendSink i path => d.openSink i (FileSink.append path d.host)
  | .sinkAt i path position => d.openSink i (FileSink.startingAt path position d.host)
  | .limitSource i timeout =>
    match d.sources i with
    | some s => d.putSource i { s with timeout } d.host
    | none => d
  | .limitSink i timeout =>
    match d.sinks i with
    | some s => d.putSink i { s with timeout } d.host
    | none => d
  | .read i n b =>
    match d.sources i with
    | some s => d.putSource i (s.read n b d.host).source (s.read n b d.host).host
    | none => d
  | .write i n b =>
    match d.sinks i with
    | some s => d.putSink i (s.write n b d.host).sink (s.write n b d.host).host
    | none => d
  | .flush i =>
    match d.sinks i with
    | some s => d.putSink i (s.flush d.host).endpoint (s.flush d.host).host
    | none => d
  | .closeSource i =>
    match d.sources i with
    | some s => d.putSource i (s.close d.host).endpoint (s.close d.host).host
    | none => d
  | .closeSink i =>
    match d.sinks i with
    | some s => d.putSink i (s.close d.host).endpoint (s.close d.host).host
    | none => d

namespace Shared

/-- No file has changed, and no position. -/
structure Same (d d' : Shared ι) : Prop where
  bytes : ∀ file, d'.bytes file = d.bytes file
  sources : ∀ j, (d'.sources j).map FileSource.position = (d.sources j).map FileSource.position
  sinks : ∀ j, (d'.sinks j).map FileSink.position = (d.sinks j).map FileSink.position

/-- A source that begins at the position has been opened, if it could be. -/
structure OpensSource (d : Shared ι) (i : ι) (position : Nat) (d' : Shared ι) : Prop where
  bytes : ∀ file, d'.bytes file = d.bytes file
  sinks : d'.sinks = d.sinks
  sources : d'.sources = d.sources ∨ ∃ node, d'.sources = update d.sources i (some ⟨node, position, .none, false⟩)

/-- A sink has been opened, if it could be.  What the file holds tells where it begins and what is left of the file. -/
structure OpensSink (d : Shared ι) (i : ι) (position : Bytes → Nat) (left : Bytes → Bytes) (d' : Shared ι) : Prop where
  sources : d'.sources = d.sources
  sinks : d'.sinks = d.sinks ∧ (∀ f, d'.bytes f = d.bytes f) ∨ ∃ file,
    d'.sinks = update d.sinks i (some ⟨file, position (d.bytes file), .none, false⟩) ∧
      ∀ f, d'.bytes f = if f = file then left (d.bytes f) else d.bytes f

/-- What a read of at most `n` bytes makes of everything.  It gives bytes that the file has now, from the position of
the source on, and moves that position alone, or it changes nothing. -/
structure Reads (d : Shared ι) (i : ι) (s : FileSource) (n : Nat) (b : Buffer) (o : ReadOutcome FileSource)
    (d' : Shared ι) : Prop where
  bytes : ∀ file, d'.bytes file = d.bytes file
  sinks : d'.sinks = d.sinks
  given : ∀ k, o.result = .ok (some k) → (k = 0 ↔ n = 0) ∧
    k ≤ min (min n segmentSize) (d.host.disk.size s.node - s.position) ∧
    o.buffer.toList = b.toList ++ ((d.host.disk.data s.node).drop s.position).take k ∧
    d'.sources = update d.sources i (some { s with position := s.position + k })
  kept : (∀ k, o.result ≠ .ok (some k)) → o.buffer = b ∧ d'.sources = d.sources
  none_iff : o.result = .ok none ↔ s.Waits n ∧ s.InTime d.host ∧ s.AtEnd d.host

/-- What a write of `n` bytes makes of everything when it takes `count` of them, all of them if it succeeds.  They are
laid over the bytes of the file from the position of the sink on, and that position alone is moved. -/
structure Writes (d : Shared ι) (i : ι) (s : FileSink) (n : Nat) (b : Buffer) (o : WriteOutcome FileSink) (count : Nat)
    (d' : Shared ι) : Prop where
  le : count ≤ min n b.length
  complete : o.result = .ok () → count = n
  taken : o.buffer.toList = b.toList.drop count
  file : d'.bytes s.file = overlay (d.bytes s.file) s.position (b.toList.take count)
  /-- The same, byte by byte. -/
  places : 0 < count → ∀ p, (d'.bytes s.file)[p]? =
    if p < s.position then some ((d.bytes s.file)[p]?.getD 0)
    else if p < s.position + count then b.toList[p - s.position]? else (d.bytes s.file)[p]?
  others : ∀ file, file ≠ s.file → d'.bytes file = d.bytes file
  sinks : d'.sinks = update d.sinks i (some { s with position := s.position + count })
  sources : d'.sources = d.sources

end Shared

/-- What a call makes of the files and of all positions. -/
def FileCall.Exact (call : FileCall ι) (d d' : Shared ι) : Prop :=
  match call with
  | .openSource i _ => d.OpensSource i 0 d'
  | .sourceAt i _ position => d.OpensSource i position d'
  | .createSink i _ => d.OpensSink i (fun _ => 0) (fun _ => []) d'
  | .appendSink i _ => d.OpensSink i List.length id d'
  | .sinkAt i _ position => d.OpensSink i (fun _ => position) id d'
  | .read i n b =>
    match d.sources i with
    | some s => d.Reads i s n b (s.read n b d.host) d'
    | none => d' = d
  | .write i n b =>
    match d.sinks i with
    | some s => ∃ count, d.Writes i s n b (s.write n b d.host) count d'
    | none => d' = d
  | .limitSource .. | .limitSink .. | .flush .. | .closeSource .. | .closeSink .. => d.Same d'

namespace Shared

variable {d : Shared ι} {i : ι}

/-! ### Calls that keep the positions -/

omit [DecidableEq ι] in
theorem same_refl (d : Shared ι) : d.Same d := ⟨fun _ => rfl, fun _ => rfl, fun _ => rfl⟩

private theorem map_update {α : Type} {endpoints : ι → Option α} {position : α → Nat} {s s' : α}
    (hs : endpoints i = some s) (hposition : position s' = position s) (j : ι) :
    (update endpoints i (some s') j).map position = (endpoints j).map position := by
  by_cases hj : j = i
  · rw [hj, Function.update_self, hs, Option.map_some, Option.map_some, hposition]
  · rw [Function.update_of_ne hj]

/-- A source that stands where it stood, on files that are as they were. -/
theorem same_putSource {s s' : FileSource} {host : Host} (hs : d.sources i = some s)
    (hposition : s'.position = s.position) (hd : d.host.disk.Spared host.disk) : d.Same (d.putSource i s' host) where
  bytes file := congrArg Contents.toList (hd.contents file)
  sources := map_update hs hposition
  sinks _ := rfl

theorem same_putSink {s s' : FileSink} {host : Host} (hs : d.sinks i = some s) (hposition : s'.position = s.position)
    (hd : d.host.disk.Spared host.disk) : d.Same (d.putSink i s' host) where
  bytes file := congrArg Contents.toList (hd.contents file)
  sources _ := rfl
  sinks := map_update hs hposition

/-! ### Opening -/

theorem opensSource_putSource {position : Nat} (node : Node) {host : Host} (hd : host.disk = d.host.disk) :
    d.OpensSource i position (d.putSource i ⟨node, position, .none, false⟩ host) where
  bytes file := by simp only [bytes, putSource, hd]
  sinks := rfl
  sources := .inr ⟨node, rfl⟩

theorem opensSource_of_failed (d : Shared ι) (i : ι) (position : Nat) : d.OpensSource i position d :=
  ⟨fun _ => rfl, rfl, .inl rfl⟩

theorem opensSink_of_failed (i : ι) {position : Bytes → Nat} {left : Bytes → Bytes} (e : Error) {host : Host}
    (hd : d.host.disk.Spared host.disk) : d.OpensSink i position left (d.openSink i (.error e, host)) :=
  ⟨rfl, .inl ⟨rfl, fun file => congrArg Contents.toList (hd.contents file)⟩⟩

theorem opensSink_create (d : Shared ι) (i : ι) (path : String) :
    d.OpensSink i (fun _ => 0) (fun _ => []) (d.openSink i (FileSink.create path d.host)) := by
  unfold FileSink.create
  rcases d.host.disk.openToWrite path with e | file
  · exact opensSink_of_failed i _ (.refl _)
  · refine ⟨rfl, .inr ⟨file, rfl, fun f => ?_⟩⟩
    show ((d.host.disk.put file .empty).contents f).toList = _
    split
    · rename_i hf
      rw [hf, Disk.contents_put_self, Contents.toList_empty]
    · rename_i hf
      rw [Disk.contents_put_of_ne _ hf]
      rfl

theorem opensSink_startingAt (d : Shared ι) (i : ι) (path : String) (position : Nat) :
    d.OpensSink i (fun _ => position) id (d.openSink i (FileSink.startingAt path position d.host)) := by
  unfold FileSink.startingAt
  rcases d.host.disk.openToWrite path with e | file
  · exact opensSink_of_failed i _ (.refl _)
  · refine ⟨rfl, .inr ⟨file, rfl, fun f => ?_⟩⟩
    show ((d.host.disk.touch file).contents f).toList = _
    rw [Disk.contents_touch, id, ite_self]
    rfl

theorem opensSink_append (d : Shared ι) (i : ι) (path : String) :
    d.OpensSink i List.length id (d.openSink i (FileSink.append path d.host)) := by
  obtain ⟨host, hspared, ⟨e, h⟩ | ⟨file, h⟩⟩ := FileSink.append_cases path d.host
  · rw [h]
    exact opensSink_of_failed i e hspared
  · rw [h, Contents.size_eq_length]
    refine ⟨rfl, .inr ⟨file, rfl, fun f => ?_⟩⟩
    rw [id, ite_self]
    exact congrArg Contents.toList (hspared.contents f)

/-! ### Reading and writing -/

theorem reads_read {s : FileSource} (hs : d.sources i = some s) (hd : d.host.disk.Moves) (n : Nat) (b : Buffer) :
    d.Reads i s n b (s.read n b d.host) (d.putSource i (s.read n b d.host).source (s.read n b d.host).host) := by
  have h := s.reads_read n b hd
  refine ⟨fun file => congrArg Contents.toList (h.spared.contents file), rfl, ?_, ?_, h.none_iff⟩
  · intro k hk
    obtain ⟨hzero, hle, hbuffer, hsource⟩ := h.given k hk
    exact ⟨hzero, hle, hbuffer, by rw [putSource, hsource]⟩
  · intro hk
    obtain ⟨hbuffer, hsource⟩ := h.kept hk
    refine ⟨hbuffer, ?_⟩
    show update d.sources i (some (s.read n b d.host).source) = d.sources
    rw [hsource, ← hs, Function.update_eq_self]

theorem exists_writes_write (d : Shared ι) (i : ι) (s : FileSink) (n : Nat) (b : Buffer) : ∃ count,
    d.Writes i s n b (s.write n b d.host) count (d.putSink i (s.write n b d.host).sink (s.write n b d.host).host) := by
  obtain ⟨count, h⟩ := s.exists_writes n b d.host
  have hfile := h.overlaid.contents s.file
  rw [if_pos rfl] at hfile
  have hlength : (b.toList.take count).length = count := by
    have hle := h.le
    rw [List.length_take, Buffer.length_toList]
    omega
  refine ⟨count, h.le, h.complete, h.taken, hfile, ?_, ?_, by rw [putSink, h.moved], rfl⟩
  · intro hpos p
    have hne : b.toList.take count ≠ [] := List.ne_nil_of_length_pos (by omega)
    have hplace := getElem?_overlay (d.bytes s.file) s.position hne p
    rw [hlength] at hplace
    rw [show (d.putSink i _ _).bytes s.file = _ from hfile]
    refine hplace.trans ?_
    split
    · rfl
    · split
      · rw [List.getElem?_take_of_lt (by omega)]
      · rfl
  · intro f hf
    have hother := h.overlaid.contents f
    rw [if_neg hf] at hother
    exact hother

end Shared

/-- Every call does exactly what it is to do, if the disk grants more than nothing. -/
theorem FileCall.exact_perform (call : FileCall ι) {d : Shared ι} (hd : d.host.disk.Moves) :
    call.Exact d (call.perform d) := by
  cases call with
  | openSource i path =>
    simp only [Exact, perform, FileSource.opened, FileSource.startingAt]
    rcases d.host.disk.openToRead path with e | node
    · exact d.opensSource_of_failed i 0
    · exact Shared.opensSource_putSource node rfl
  | sourceAt i path position =>
    simp only [Exact, perform, FileSource.startingAt]
    rcases d.host.disk.openToRead path with e | node
    · exact d.opensSource_of_failed i position
    · exact Shared.opensSource_putSource node rfl
  | createSink i path => exact d.opensSink_create i path
  | appendSink i path => exact d.opensSink_append i path
  | sinkAt i path position => exact d.opensSink_startingAt i path position
  | limitSource i timeout =>
    simp only [Exact, perform]
    rcases hs : d.sources i with _ | s
    · exact d.same_refl
    · exact Shared.same_putSource hs rfl (.refl _)
  | limitSink i timeout =>
    simp only [Exact, perform]
    rcases hs : d.sinks i with _ | s
    · exact d.same_refl
    · exact Shared.same_putSink hs rfl (.refl _)
  | read i n b =>
    simp only [Exact, perform]
    rcases hs : d.sources i with _ | s
    · rfl
    · exact Shared.reads_read hs hd n b
  | write i n b =>
    simp only [Exact, perform]
    rcases hs : d.sinks i with _ | s
    · rfl
    · exact d.exists_writes_write i s n b
  | flush i =>
    simp only [Exact, perform]
    rcases hs : d.sinks i with _ | s
    · exact d.same_refl
    · obtain ⟨hposition, hspared⟩ := s.flush_keeps d.host
      exact Shared.same_putSink hs hposition hspared
  | closeSource i =>
    simp only [Exact, perform]
    rcases hs : d.sources i with _ | s
    · exact d.same_refl
    · obtain ⟨hposition, hdisk⟩ := s.close_keeps d.host
      exact Shared.same_putSource hs hposition (hdisk ▸ .refl _)
  | closeSink i =>
    simp only [Exact, perform]
    rcases hs : d.sinks i with _ | s
    · exact d.same_refl
    · obtain ⟨hposition, hdisk⟩ := s.close_keeps d.host
      exact Shared.same_putSink hs hposition (hdisk ▸ .refl _)

theorem Shared.grants_openSink {d : Shared ι} (i : ι) {r : Except Error FileSink × Host}
    (h : r.2.disk.grants <:+ d.host.disk.grants) : (d.openSink i r).host.disk.grants <:+ d.host.disk.grants := by
  obtain ⟨_ | _, host⟩ := r <;> exact h

/-- A call uses up some of what the disk grants, from the front. -/
theorem FileCall.grants_perform (call : FileCall ι) {d : Shared ι} (hd : d.host.disk.Moves) :
    (call.perform d).host.disk.grants <:+ d.host.disk.grants := by
  have hsame {host : Host} (h : host.disk = d.host.disk) : host.disk.grants <:+ d.host.disk.grants :=
    h ▸ List.suffix_refl _
  cases call with
  | openSource i path =>
    apply hsame
    rw [perform, FileSource.opened, FileSource.startingAt]
    rcases d.host.disk.openToRead path with e | node <;> rfl
  | sourceAt i path position =>
    apply hsame
    rw [perform, FileSource.startingAt]
    rcases d.host.disk.openToRead path with e | node <;> rfl
  | createSink i path =>
    refine Shared.grants_openSink i ?_
    unfold FileSink.create
    rcases d.host.disk.openToWrite path with e | file <;> exact List.suffix_refl _
  | appendSink i path =>
    refine Shared.grants_openSink i ?_
    obtain ⟨host, hspared, ⟨e, h⟩ | ⟨file, h⟩⟩ := FileSink.append_cases path d.host
    · rw [h]
      exact hspared.grants
    · rw [h]
      exact hspared.grants
  | sinkAt i path position =>
    refine Shared.grants_openSink i ?_
    unfold FileSink.startingAt
    rcases d.host.disk.openToWrite path with e | file
    · exact List.suffix_refl _
    · exact (d.host.disk.spared_touch file).grants
  | limitSource i timeout =>
    simp only [perform]
    rcases d.sources i with _ | s <;> exact List.suffix_refl _
  | limitSink i timeout =>
    simp only [perform]
    rcases d.sinks i with _ | s <;> exact List.suffix_refl _
  | read i n b =>
    simp only [perform]
    rcases d.sources i with _ | s
    · exact List.suffix_refl _
    · exact (s.reads_read n b hd).spared.grants
  | write i n b =>
    simp only [perform]
    rcases d.sinks i with _ | s
    · exact List.suffix_refl _
    · obtain ⟨count, h⟩ := s.exists_writes n b d.host
      exact h.overlaid.grants
  | flush i =>
    simp only [perform]
    rcases d.sinks i with _ | s
    · exact List.suffix_refl _
    · exact (s.flush_keeps d.host).2.grants
  | closeSource i =>
    simp only [perform]
    rcases d.sources i with _ | s
    · exact List.suffix_refl _
    · exact hsame (s.close_keeps d.host).2
  | closeSink i =>
    simp only [perform]
    rcases d.sinks i with _ | s
    · exact List.suffix_refl _
    · exact hsame (s.close_keeps d.host).2

/-- A step of a run: a call, and what was there before and after it. -/
structure FileStep (ι : Type) where
  before : Shared ι
  call : FileCall ι
  after : Shared ι

namespace Shared

/-- The steps of calls made one after the other. -/
def steps : (calls : List (FileCall ι)) → (d : Shared ι) → List (FileStep ι)
  | [], _ => []
  | call :: calls, d => ⟨d, call, call.perform d⟩ :: steps calls (call.perform d)

/-- Any number of sources and sinks, opened in any way and at any position, on the same files or not: whatever calls are
made of them, in whatever order, and however much the disk moves at a time, as long as it moves something, every call
does exactly what it is to do and leaves all other positions alone. -/
theorem exact_of_mem_steps (calls : List (FileCall ι)) {d : Shared ι} (hd : d.host.disk.Moves) :
    ∀ step ∈ steps calls d, step.call.Exact step.before step.after := by
  induction calls generalizing d with
  | nil => exact fun step hstep => (List.not_mem_nil hstep).elim
  | cons call calls ih =>
    exact List.forall_mem_cons.2 ⟨call.exact_perform hd, ih (hd.of_suffix (call.grants_perform hd))⟩

/-- Two sinks on a file, one of them behind its end, and a source that reads what they have written. -/
def sampleCalls : List (FileCall Nat) :=
  [.createSink 0 "log", .write 0 3 (.ofList [1, 2, 3]), .sinkAt 1 "log" 5, .write 1 3 (.ofList [6, 7, 8]),
    .openSource 0 "log", .read 0 9 .empty, .write 0 1 (.ofList [4]), .read 0 9 .empty]

/-- Nothing is open.  At first the disk moves one or two bytes at a time, and it fails the second write midway. -/
def sampleShared : Shared Nat :=
  ⟨fun _ => none, fun _ => none,
    { Host.start with disk := ⟨[], [.upTo 2, .failed .interrupted, .upTo 1, .upTo 2, .failed .other], []⟩ }⟩

theorem exact_of_mem_sampleSteps : sampleShared.host.disk.Moves ∧
    (∀ step ∈ steps sampleCalls sampleShared, step.call.Exact step.before step.after) ∧
      ((steps sampleCalls sampleShared).getLast?.map fun step => (step.after.bytes ⟨.working, "log"⟩,
        (step.after.sources 0).map FileSource.position, (step.after.sinks 0).map FileSink.position,
          (step.after.sinks 1).map FileSink.position)) = some ([1, 2, 3, 4, 0, 6, 7], some 7, some 4, some 7) := by
  have hmoves : sampleShared.host.disk.Moves := by decide
  exact ⟨hmoves, exact_of_mem_steps sampleCalls hmoves, by decide +kernel⟩

end Shared

end Conduit
