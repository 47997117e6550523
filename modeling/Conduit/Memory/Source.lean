import Conduit.Endpoint

/-!
# Reading from memory

A memory source serves the bytes it was given, as many as are asked for or as its bound on one read allows, and counts
the reads that were made for at least one byte.
-/

namespace Conduit

/-- A source that serves bytes from a buffer of its own. -/
structure MemorySource where
  contents : Buffer
  /-- The largest number of bytes of one read. -/
  bound : Option { n : Nat // 0 < n }
  timeout : Timeout
  reads : Nat
  closed : Bool
deriving DecidableEq

namespace MemorySource

def ofList (data : Bytes) : MemorySource := ⟨.ofList data, none, .none, 0, false⟩

/-- The number of bytes that a read of `n` bytes moves. -/
def share (s : MemorySource) (n : Nat) : Nat :=
  match s.bound with
  | none => min n s.contents.length
  | some m => min (min n s.contents.length) m

def read (s : MemorySource) (n : Nat) (b : Buffer) (host : Host) : ReadOutcome MemorySource :=
  match checkRead n with
  | .error e => ⟨.error e, s, b, host⟩
  | .ok () =>
    if s.closed then ⟨.error .closed, s, b, host⟩
    else if n = 0 then ⟨.ok (some 0), s, b, host⟩
    else if s.contents.isEmpty then ⟨.ok none, { s with reads := s.reads + 1 }, b, host⟩
    else
      let (b, contents) := s.contents.moveTo (s.share n) b
      ⟨.ok (some (s.share n)), { s with contents, reads := s.reads + 1 }, b, host⟩

def close (s : MemorySource) (host : Host) : CallOutcome MemorySource := ⟨.ok (), { s with closed := true }, host⟩

theorem share_le (s : MemorySource) (n : Nat) : s.share n ≤ n ∧ s.share n ≤ s.contents.length := by
  unfold share; split <;> omega

theorem share_pos {s : MemorySource} {n : Nat} (hn : 0 < n) (hs : 0 < s.contents.length) : 0 < s.share n := by
  unfold share
  split
  · omega
  · rename_i m _; have := m.2; omega

theorem read_eq_some {s : MemorySource} {n k : Nat} {b : Buffer} {host : Host}
    (h : (s.read n b host).result = .ok (some k)) :
    (k = 0 ↔ n = 0) ∧ (s.read n b host).buffer.length = b.length + k := by
  unfold read at h ⊢
  split
  · rename_i he; simp [he] at h
  · rename_i he
    rw [he] at h
    by_cases hc : s.closed
    · simp [hc] at h
    · by_cases hn : n = 0
      · simp_all
      · by_cases hs : s.contents.isEmpty
        · simp [hc, hn, hs] at h
        · simp only [hc, hn, hs, if_false, Bool.false_eq_true, Except.ok.injEq, Option.some.injEq] at h ⊢
          subst h
          have h₀ : 0 < s.contents.length := by
            have := mt (fun h => Buffer.isEmpty_iff.2 (Buffer.length_eq_zero_iff.1 h)) hs
            omega
          have h₁ := share_pos (Nat.pos_of_ne_zero hn) h₀
          have h₂ := (s.share_le n).2
          rw [Buffer.length_moveTo_fst]
          exact ⟨iff_of_false (Nat.ne_of_gt h₁) id, by omega⟩

instance : ByteSource MemorySource where
  read := read
  close := close
  timeout := timeout
  patience _ := 0
  length_read h := (read_eq_some h).2
  patience_read {s n b host r} hn h := by
    have hr : r ≠ some 0 := by
      rintro rfl
      exact Nat.ne_of_gt hn ((read_eq_some h).1.1 rfl)
    simp [hr]

end MemorySource

end Conduit
