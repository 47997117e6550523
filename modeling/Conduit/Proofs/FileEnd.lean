import Conduit.File.Sink
import Conduit.Proofs.Base64.OnDemand
import Conduit.Proofs.Deadlines
import Conduit.Proofs.Disks

/-!
# The end of a file

A file source does not remember that it has found the end: every read compares its position with what the file holds at
that moment.  So finding the end leaves the source as it is (`read_eq_none`), and later reads find it again exactly as
long as they are in time and the disk tells that nothing stands in the file behind the position; when the file has grown
in between, the next read serves what was added (`reads_after_end`), unless it runs out of time or the disk fails it.
-/

namespace Conduit

namespace FileSource

/-- A read that is made now finds that its deadline has not passed. -/
def InTime (s : FileSource) (host : Host) : Prop := (s.timeout.check host).1 = .ok ()

/-- The disk tells the size of the file, and there is nothing in it behind the position of the source. -/
def AtEnd (s : FileSource) (host : Host) : Prop :=
  (host.disk.inspect s.node).1 = .ok (host.disk.size s.node) ∧ host.disk.size s.node ≤ s.position

instance (s : FileSource) (host : Host) : Decidable (s.InTime host) := inferInstanceAs (Decidable (_ = _))

instance (s : FileSource) (host : Host) : Decidable (s.AtEnd host) := inferInstanceAs (Decidable (_ ∧ _))

/-- What a read leaves behind that has given bytes of the file, those from the position of the source on. -/
def Gives (s : FileSource) (c : Contents) (b : Buffer) (o : ReadOutcome FileSource) : Prop :=
  ∃ k, 0 < k ∧ o.result = .ok (some k) ∧ o.source = { s with position := s.position + k } ∧
    o.buffer.toList = b.toList ++ (c.toList.drop s.position).take k

/-! ### One read -/

/-- The first check of a read decides whether it goes on. -/
theorem ask_of_check {s : FileSource} {n : Nat} (hw : s.Waits n) (b : Buffer) (host : Host) :
    (∃ elapsed host', host'.disk = host.disk ∧ (s.timeout.check host).1 = .error (.timedOut elapsed) ∧
      s.read n b host = ⟨.error (.timedOut elapsed), s, b, host'⟩) ∨
    (s.InTime host ∧ ∃ host', host'.disk = host.disk ∧
      s.read n b host = s.serve (s.timeout.start host).1 n b host') := by
  rcases hc : s.timeout.check host with ⟨e | _, host'⟩
  · obtain ⟨elapsed, rfl, -⟩ := Deadline.check_error hc
    left
    refine ⟨elapsed, host', Timeout.disk_of_check hc, rfl, ?_⟩
    rw [read_of_waits hw, ask, show (s.timeout.start host).1.check (s.timeout.start host).2 = _ from hc]
  · right
    refine ⟨congrArg Prod.fst hc, host', Timeout.disk_of_check hc, ?_⟩
    rw [read_of_waits hw, ask, show (s.timeout.start host).1.check (s.timeout.start host).2 = _ from hc]

/-- A read that has asked for bytes leaves the source as it is if it gives none. -/
private theorem poll_eq_none {s : FileSource} {deadline : Deadline} {n : Nat} {b : Buffer} {host : Host}
    (h : (s.poll deadline n b host).result = .ok none) :
    (s.poll deadline n b host).source = s ∧ (s.poll deadline n b host).buffer = b := by
  fun_induction poll s deadline n b host with
  | case1 => exact ⟨rfl, rfl⟩
  | case2 => cases h
  | case3 => cases h
  | case4 host e disk hr hi host' hc ih => exact ih h
  | case5 => cases h

/-- Asking for bytes that are there gives some of them, unless time runs out or the disk fails. -/
private theorem poll_of_lt {s : FileSource} {file : Location} (hs : s.node = .file file) (deadline : Deadline) {n : Nat}
    (b : Buffer) (host : Host) (hn : 0 < n) (hd : host.disk.Moves) (hlt : s.position < (host.disk.contents file).size) :
    s.Gives (host.disk.contents file) b (s.poll deadline n b host) ∨
      (∃ elapsed, (s.poll deadline n b host).result = .error (.timedOut elapsed)) ∨
      ∃ kind, (kind ≠ .interrupted ∧ Grant.failed kind ∈ host.disk.grants) ∧
        (s.poll deadline n b host).result = .error (.io (.ofDisk kind)) := by
  have hwindow : 0 < (b.window n).size := by
    have hsegment : 0 < segmentSize := by decide
    rw [Buffer.size_window]
    omega
  fun_induction poll s deadline n b host with
  | case1 host disk host' hr =>
    rw [hs] at hr
    exact absurd rfl (hd.ne_nil_of_readAt hwindow hlt hr)
  | case2 host data disk hr host' hne =>
    have hlen := Disk.length_readAt hr
    rw [hs] at hr
    obtain ⟨-, hdata⟩ := Disk.readAt_eq_ok hr
    refine .inl ⟨data.length, List.length_pos_iff.2 hne, rfl, rfl, ?_⟩
    rw [Buffer.toList_fill, ← Buffer.size_window b n, List.take_of_length_le hlen]
    exact congrArg _ hdata
  | case3 host e disk hr hi e' host' hc =>
    obtain ⟨elapsed, rfl, -⟩ := Deadline.check_error hc
    exact .inr (.inl ⟨elapsed, rfl⟩)
  | case4 host e disk hr hi host' hc ih =>
    -- the disk has interrupted the read and the file is the same
    have hspared := Disk.spared_readAt hr
    have hdisk : host'.disk = disk := Deadline.disk_of_check hc
    rw [hdisk, hspared.contents] at ih
    rcases ih (hd.of_suffix hspared.grants) hlt with h | h | ⟨kind, ⟨hkind, hmem⟩, h⟩
    · exact .inl h
    · exact .inr (.inl h)
    · exact .inr (.inr ⟨kind, ⟨hkind, hspared.grants.mem hmem⟩, h⟩)
  | case5 host e disk hr hi =>
    rw [hs] at hr
    obtain ⟨kind, hmem, rfl⟩ := Disk.readAt_eq_error hr
    exact .inr (.inr ⟨kind, ⟨hi, hmem⟩, rfl⟩)

/-- A directory has a size, but it cannot be read. -/
private theorem poll_of_directory {s : FileSource} {directory : Directory} (hs : s.node = .directory directory)
    (deadline : Deadline) (n : Nat) (b : Buffer) (host : Host) :
    (s.poll deadline n b host).result = .error (.io (.ofDisk .isADirectory)) := by
  unfold poll
  rw [hs]
  rfl

/-- A read that finds the end was admitted and leaves the source as it is. -/
theorem read_eq_none {s : FileSource} {n : Nat} {b : Buffer} {host : Host} (hn : 0 < n)
    (h : (s.read n b host).result = .ok none) :
    s.closed = false ∧ (s.read n b host).source = s ∧ (s.read n b host).buffer = b := by
  have hw : s.Waits n := by
    apply Classical.byContradiction
    intro hw
    unfold FileSource.read at h
    by_cases hl : n ≤ maxRequestLength
    · by_cases ho : s.closed
      · simp [checkRead_eq_ok_iff.2 hl, ho] at h
      · exact hw ⟨by simpa using ho, hn, hl⟩
    · simp [checkRead, Nat.lt_of_not_le hl] at h
  refine ⟨hw.1, ?_⟩
  rcases ask_of_check hw b host with ⟨elapsed, host', -, -, hr⟩ | ⟨-, host₁, -, hr⟩
  · rw [hr] at h
    cases h
  · obtain ⟨disk, -, ⟨kind, -, -, hserve⟩ | ⟨-, -, hserve⟩ | ⟨-, hserve⟩⟩ :=
      s.serve_cases (s.timeout.start host).1 n b host₁
    · rw [hr, hserve] at h
      cases h
    · rw [hr, hserve]
      exact ⟨rfl, rfl⟩
    · rw [hr, hserve] at h ⊢
      exact poll_eq_none h

/-- A read finds the end exactly if it is in time and is told that the file holds nothing behind the position then. -/
theorem read_eq_none_iff {s : FileSource} {n : Nat} (hw : s.Waits n) (b : Buffer) {host : Host} (hd : host.disk.Moves) :
    (s.read n b host).result = .ok none ↔ s.InTime host ∧ s.AtEnd host := by
  rcases ask_of_check hw b host with ⟨elapsed, host', -, hlate, hr⟩ | ⟨hin, host₁, hdisk, hr⟩
  · rw [hr, InTime, hlate]
    simp
  · obtain ⟨disk, hrefusals, hcases⟩ := s.serve_cases (s.timeout.start host).1 n b host₁
    rw [hdisk] at hrefusals hcases
    have hspared := Disk.spared_of_refusals hrefusals
    obtain ⟨kind, -, hsize, hserve⟩ | ⟨hsize, hle, hserve⟩ | ⟨hlt, hserve⟩ := hcases
    · simp [hr, hserve, AtEnd, hsize]
    · simp [hr, hserve, AtEnd, hsize, hle, hin]
    · have he : ¬ s.AtEnd host := fun he => Nat.not_lt.2 he.2 hlt
      have hn : 0 < min n (host.disk.size s.node - s.position) := by
        have hpos := hw.2.1
        omega
      simp only [he, and_false, iff_false]
      rw [hr, hserve]
      intro hnone
      rcases hs : s.node with file | directory
      · rw [hs] at hlt
        have hlt' : s.position < (disk.contents file).size := by rw [hspared.contents]; exact hlt
        rcases poll_of_lt hs (s.timeout.start host).1 b { host₁ with disk } hn (hd.of_suffix hspared.grants) hlt' with
          ⟨k, -, hk, -⟩ | ⟨elapsed, ht⟩ | ⟨kind, -, hf⟩
        · cases hnone.symm.trans hk
        · cases hnone.symm.trans ht
        · cases hnone.symm.trans hf
      · cases hnone.symm.trans (poll_of_directory hs _ _ b _)

/-- A read in time gives bytes if there are some behind the position, unless time runs out before it gets them or the
disk fails. -/
theorem gives_of_lt {s : FileSource} {file : Location} (hs : s.node = .file file) {n : Nat} (hw : s.Waits n) (b : Buffer)
    {host : Host} (hd : host.disk.Moves) (hlt : s.position < (host.disk.contents file).size) :
    s.Gives (host.disk.contents file) b (s.read n b host) ∨
      (∃ elapsed, (s.read n b host).result = .error (.timedOut elapsed)) ∨
      ∃ kind, host.disk.MayFail kind ∧ (s.read n b host).result = .error (.io (.ofDisk kind)) := by
  rcases ask_of_check hw b host with ⟨elapsed, host', -, -, hr⟩ | ⟨-, host₁, hdisk, hr⟩
  · rw [hr]
    exact .inr (.inl ⟨elapsed, rfl⟩)
  · obtain ⟨disk, hrefusals, hcases⟩ := s.serve_cases (s.timeout.start host).1 n b host₁
    rw [hdisk] at hrefusals hcases
    have hspared := Disk.spared_of_refusals hrefusals
    obtain ⟨kind, hkind, -, hserve⟩ | ⟨-, hle, -⟩ | ⟨hsize, hserve⟩ := hcases
    · rw [hr, hserve]
      exact .inr (.inr ⟨kind, .inr hkind, rfl⟩)
    · rw [hs] at hle
      exact absurd hlt (Nat.not_lt.2 hle)
    · have hn : 0 < min n (host.disk.size s.node - s.position) := by
        have hpos := hw.2.1
        omega
      have hlt' : s.position < (disk.contents file).size := by rw [hspared.contents]; exact hlt
      rw [hr, hserve, ← hspared.contents]
      rcases poll_of_lt hs (s.timeout.start host).1 b { host₁ with disk } hn (hd.of_suffix hspared.grants) hlt' with
        h | h | ⟨kind, ⟨hkind, hmem⟩, h⟩
      · exact .inl h
      · exact .inr (.inl h)
      · exact .inr (.inr ⟨kind, .inl ⟨hkind, hspared.grants.mem hmem⟩, h⟩)

/-! ### Later reads -/

/-- Reads that all find the end leave the source as it is. -/
private theorem readMany_eq_self {s : FileSource} {reads : List (Nat × Buffer × Host)} (hr : ∀ r ∈ reads, 0 < r.1)
    (h : ∀ o ∈ (readMany reads s).1, o.result = .ok none) : (readMany reads s).2 = s := by
  induction reads with
  | nil => rfl
  | cons r reads ih =>
    obtain ⟨n, b, host⟩ := r
    simp only [readMany, List.mem_cons, forall_eq_or_imp] at h hr ⊢
    have hs : (ByteSource.read s n b host).source = s := (read_eq_none hr.1 h.1).2.1
    rw [hs] at h ⊢
    exact ih hr.2 h.2

private theorem readMany_eq_none_iff {s : FileSource} (ho : s.closed = false) {reads : List (Nat × Buffer × Host)}
    (hr : ∀ r ∈ reads, 0 < r.1 ∧ r.1 ≤ maxRequestLength ∧ r.2.2.disk.Moves) :
    (∀ o ∈ (readMany reads s).1, o.result = .ok none) ↔ ∀ r ∈ reads, s.InTime r.2.2 ∧ s.AtEnd r.2.2 := by
  induction reads with
  | nil => simp [readMany]
  | cons r reads ih =>
    obtain ⟨n, b, host⟩ := r
    simp only [readMany, List.mem_cons, forall_eq_or_imp] at hr ⊢
    obtain ⟨⟨hn, hl, hd⟩, hrest⟩ := hr
    have hread : (ByteSource.read s n b host).result = .ok none ↔ s.InTime host ∧ s.AtEnd host :=
      read_eq_none_iff ⟨ho, hn, hl⟩ b hd
    rw [hread]
    refine and_congr_right fun hend => ?_
    have hs : (ByteSource.read s n b host).source = s := (read_eq_none hn (hread.2 hend)).2.1
    rw [hs]
    exact ih hrest

/-- A read that has found the end leaves the source and the buffer as they are.  However the disk changes between the
reads that follow, all of them find the end exactly if each is in time and is told that there is nothing in the file
behind the position of the source; and after reads that have found the end, one that finds the file longer gives what
was added, unless time runs out or the disk fails it. -/
theorem reads_after_end {s : FileSource} {n : Nat} {b : Buffer} {host : Host} (hn : 0 < n)
    (h : (s.read n b host).result = .ok none) :
    ((s.read n b host).source = s ∧ (s.read n b host).buffer = b) ∧
    ∀ reads : List (Nat × Buffer × Host), (∀ r ∈ reads, 0 < r.1 ∧ r.1 ≤ maxRequestLength ∧ r.2.2.disk.Moves) →
      ((∀ o ∈ (readMany reads s).1, o.result = .ok none) ↔ ∀ r ∈ reads, s.InTime r.2.2 ∧ s.AtEnd r.2.2) ∧
      ((∀ o ∈ (readMany reads s).1, o.result = .ok none) →
        ∀ file n' b' host', s.node = .file file → 0 < n' → n' ≤ maxRequestLength → host'.disk.Moves →
          s.position < (host'.disk.contents file).size →
            s.Gives (host'.disk.contents file) b' ((readMany reads s).2.read n' b' host') ∨
              (∃ elapsed, ((readMany reads s).2.read n' b' host').result = .error (.timedOut elapsed)) ∨
              ∃ kind, host'.disk.MayFail kind ∧
                ((readMany reads s).2.read n' b' host').result = .error (.io (.ofDisk kind))) := by
  obtain ⟨ho, hsame⟩ := read_eq_none hn h
  refine ⟨hsame, fun reads hr => ⟨readMany_eq_none_iff ho hr, ?_⟩⟩
  intro hall file n' b' host' hs hn' hl hd hlt
  rw [readMany_eq_self (fun r hmem => (hr r hmem).1) hall]
  exact gives_of_lt hs ⟨ho, hn', hl⟩ b' hd hlt

/-- A source that reads a log from its start. -/
def sampleLog : FileSource := ⟨.file ⟨.working, "log"⟩, 0, .none, false⟩

/-- A host with an empty log on its disk. -/
def emptyLog : Host := { Host.start with disk := Disk.empty.put ⟨.working, "log"⟩ .empty }

/-- A host with a log of one byte on its disk. -/
def grownLog : Host := { Host.start with disk := Disk.empty.put ⟨.working, "log"⟩ (.ofList [7]) }

theorem reads_sampleLog :
    (0 < 1 ∧ (sampleLog.read 1 .empty emptyLog).result = .ok none) ∧
      ¬ (∀ o ∈ (readMany [(1, .empty, emptyLog), (2, .empty, grownLog)] sampleLog).1, o.result = .ok none) ∧
      (sampleLog.Gives (.ofList [7]) .empty
          ((readMany [(1, .empty, emptyLog)] sampleLog).2.read 2 .empty grownLog) ∨
        ∃ elapsed, ((readMany [(1, .empty, emptyLog)] sampleLog).2.read 2 .empty grownLog).result =
          .error (.timedOut elapsed)) := by
  have hend : (sampleLog.read 1 .empty emptyLog).result = .ok none := by decide +kernel
  obtain ⟨-, hreads⟩ := reads_after_end (by decide) hend
  refine ⟨⟨by decide, hend⟩, ?_, ?_⟩
  · rw [(hreads [(1, .empty, emptyLog), (2, .empty, grownLog)] (by decide +kernel)).1]
    decide +kernel
  · have hgrown := (hreads [(1, .empty, emptyLog)] (by decide +kernel)).2 (by decide +kernel) ⟨.working, "log"⟩ 2 .empty
      grownLog rfl (by decide) (by decide +kernel) (by decide +kernel) (by decide +kernel)
    refine hgrown.imp_right fun h => h.resolve_right ?_
    -- this disk fails nothing
    rintro ⟨kind, ⟨-, hmem⟩ | hmem, -⟩ <;> cases hmem

/-- A log is opened and read to its end, then a byte is appended to it, and the next read gives that byte. -/
theorem read_after_append :
    let opened := opened "log" emptyLog
    let ended := sampleLog.read 1 .empty opened.2
    let appending := FileSink.append "log" ended.host
    let sink : FileSink := ⟨⟨.working, "log"⟩, 0, .none, false⟩
    let written := sink.write 1 (.ofList [7]) appending.2
    let again := ended.source.read 1 ended.buffer written.host
    opened.1 = .ok sampleLog ∧ ended.result = .ok none ∧ appending.1 = .ok sink ∧ written.result = .ok () ∧
      again.result = .ok (some 1) ∧ again.buffer.toList = [7] := by
  decide +kernel

end FileSource

end Conduit
