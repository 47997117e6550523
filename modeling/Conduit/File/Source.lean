import Conduit.Endpoint

/-!
# Reading from a file

A file source keeps a position of its own.  A read serves the bytes that the file holds behind that position when the
read is made, and reports the end of the stream when there are none.  It asks for the size of the file first.
-/

namespace Conduit

/-- A source that reads a file from a position on.  A directory can be opened too, but not be read. -/
structure FileSource where
  node : Node
  position : Nat
  timeout : Timeout
  closed : Bool
deriving DecidableEq, Repr

namespace FileSource

/-- A source that reads an existing file from the given position on. -/
def startingAt (path : String) (position : Nat) (host : Host) : Except Error FileSource :=
  match host.disk.openToRead path with
  | .error e => .error (.io e)
  | .ok node => .ok ⟨node, position, .none, false⟩

/-- Opens a file to be read from its start. -/
def opened (path : String) (host : Host) : Except Error FileSource × Host :=
  match startingAt path 0 host with
  | .error e => (.error e, host)
  | .ok s => (.ok s, host.report (.fileOpened path .read))

/-- Reads the file, at most `n` bytes, until it is not interrupted. -/
def poll (s : FileSource) (deadline : Deadline) (n : Nat) (b : Buffer) (host : Host) : ReadOutcome FileSource :=
  match _h : host.disk.readAt s.node s.position (b.window n).size with
  | (.ok data, disk) =>
    let host := { host with disk }.note (.transfer .fileRead)
    if data = [] then ⟨.ok none, s, b, host⟩
    else ⟨.ok (some data.length), { s with position := s.position + data.length }, b.fill n data, host⟩
  | (.error e, disk) =>
    if _hi : e.kind = .interrupted then
      match _hd : deadline.check ({ host with disk }.note (.transfer .fileRead)) with
      | (.error e, host) => ⟨.error e, s, b, host⟩
      | (.ok (), host) => poll s deadline n b host
    else ⟨.error (.io e), s, b, { host with disk }.note (.transfer .fileRead)⟩
termination_by host.disk.grants.length
decreasing_by
  rw [Deadline.disk_of_check _hd]
  exact Disk.grants_readAt_error _h _hi

/-- Reads the file if the disk tells that it holds bytes behind the position. -/
def serve (s : FileSource) (deadline : Deadline) (n : Nat) (b : Buffer) (host : Host) : ReadOutcome FileSource :=
  match host.disk.inspect s.node with
  | (.error e, disk) => ⟨.error (.io e), s, b, { host with disk }⟩
  | (.ok size, disk) =>
    if size ≤ s.position then ⟨.ok none, s, b, { host with disk }⟩
    else s.poll deadline (min n (size - s.position)) b { host with disk }

def read (s : FileSource) (n : Nat) (b : Buffer) (host : Host) : ReadOutcome FileSource :=
  match checkRead n with
  | .error e => ⟨.error e, s, b, host⟩
  | .ok () =>
    if s.closed then ⟨.error .closed, s, b, host⟩
    else if n = 0 then ⟨.ok (some 0), s, b, host⟩
    else
      let deadline := (s.timeout.start host).1
      match deadline.check (s.timeout.start host).2 with
      | (.error e, host) => ⟨.error e, s, b, host⟩
      | (.ok (), host) => s.serve deadline n b host

def close (s : FileSource) (host : Host) : CallOutcome FileSource :=
  if s.closed then ⟨.ok (), s, host⟩
  else ⟨.ok (), { s with closed := true }, host.report (.fileClosed s.position)⟩

theorem poll_eq_some {s : FileSource} {deadline : Deadline} {n k : Nat} {b : Buffer} {host : Host}
    (h : (s.poll deadline n b host).result = .ok (some k)) :
    0 < k ∧ k ≤ min n segmentSize ∧ ∃ data, data.length = k ∧ (s.poll deadline n b host).buffer = b.fill n data := by
  fun_induction poll s deadline n b host with
  | case1 => simp at h
  | case2 host data disk hr host' hd =>
    simp only [Except.ok.injEq, Option.some.injEq] at h
    have := List.length_pos_iff.2 hd
    have := Disk.length_readAt hr
    rw [Buffer.size_window] at this
    exact ⟨by omega, by omega, data, h, rfl⟩
  | case3 => simp at h
  | case4 => rename_i ih; exact ih h
  | case5 => simp at h

/-- What the disk tells of the size decides whether a read fails, finds the end or asks for bytes. -/
theorem serve_cases (s : FileSource) (deadline : Deadline) (n : Nat) (b : Buffer) (host : Host) :
    ∃ disk, (∃ refusals, disk = { host.disk with refusals }) ∧
      ((∃ kind, some kind ∈ host.disk.refusals ∧ (host.disk.inspect s.node).1 = .error (.ofDisk kind) ∧
          s.serve deadline n b host = ⟨.error (.io (.ofDisk kind)), s, b, { host with disk }⟩) ∨
        ((host.disk.inspect s.node).1 = .ok (host.disk.size s.node) ∧ host.disk.size s.node ≤ s.position ∧
          s.serve deadline n b host = ⟨.ok none, s, b, { host with disk }⟩) ∨
        (s.position < host.disk.size s.node ∧ s.serve deadline n b host =
          s.poll deadline (min n (host.disk.size s.node - s.position)) b { host with disk })) := by
  unfold serve
  rcases hi : host.disk.inspect s.node with ⟨r, disk⟩
  obtain ⟨hdisk, rfl | ⟨kind, hkind, rfl⟩⟩ := Disk.attempt_eq hi
  · refine ⟨disk, hdisk, .inr ?_⟩
    by_cases hs : host.disk.size s.node ≤ s.position
    · exact .inl ⟨rfl, hs, if_pos hs⟩
    · exact .inr ⟨Nat.lt_of_not_le hs, if_neg hs⟩
  · exact ⟨disk, hdisk, .inl ⟨kind, hkind, rfl, rfl⟩⟩

theorem serve_eq_some {s : FileSource} {deadline : Deadline} {n k : Nat} {b : Buffer} {host : Host}
    (h : (s.serve deadline n b host).result = .ok (some k)) :
    0 < k ∧ (s.serve deadline n b host).buffer.length = b.length + k := by
  obtain ⟨disk, -, ⟨kind, -, -, hserve⟩ | ⟨-, -, hserve⟩ | ⟨-, hserve⟩⟩ := s.serve_cases deadline n b host
  · rw [hserve] at h
    cases h
  · rw [hserve] at h
    cases h
  · rw [hserve] at h ⊢
    obtain ⟨hpos, hle, data, hl, hb⟩ := poll_eq_some h
    rw [hb, Buffer.length_fill]
    exact ⟨hpos, by omega⟩

theorem read_eq_some {s : FileSource} {n k : Nat} {b : Buffer} {host : Host}
    (h : (s.read n b host).result = .ok (some k)) :
    (k = 0 ↔ n = 0) ∧ (s.read n b host).buffer.length = b.length + k := by
  unfold read at h ⊢
  split
  · rename_i he; simp [he] at h
  · rename_i he
    rw [he] at h
    by_cases hc : s.closed
    · simp [hc] at h
    · by_cases hn : n = 0
      · simp_all
      · simp only [hc, hn, if_false, Bool.false_eq_true] at h ⊢
        split
        · rename_i hd; simp [hd] at h
        · rename_i hd
          rw [hd] at h
          obtain ⟨hpos, hlength⟩ := serve_eq_some h
          exact ⟨iff_of_false (Nat.ne_of_gt hpos) id, hlength⟩

instance : ByteSource FileSource where
  read := read
  close := close
  timeout := timeout
  patience _ := 0
  length_read h := (read_eq_some h).2
  patience_read {s n b host r} hn h := by
    have hr : r ≠ some 0 := by
      rintro rfl
      exact Nat.ne_of_gt hn ((read_eq_some h).1.1 rfl)
    simp [hr]

end FileSource

end Conduit
