import Conduit.Endpoint
import Conduit.Script.Results

/-!
# Scripted sources

A scripted source answers its reads and closes as it has been told, whatever is asked of it and whether it has been
closed or not.  It remembers the requests.
-/

namespace Conduit

/-- What a scripted source does when it is read: fail, report the end of the stream, or serve some bytes. -/
inductive SourceAction where
  | fail (error : Error)
  | finish
  | serve (data : Bytes)
deriving DecidableEq, Repr

/-- One step of a script; before it acts, the source may change the timeout that it reports. -/
structure SourceStep where
  newTimeout : Option Timeout
  action : SourceAction
deriving DecidableEq, Repr

/-- A source that follows a script.  `held` are bytes of the last step that were not asked for yet. -/
structure ScriptedSource where
  held : Bytes
  steps : List SourceStep
  closeResults : List (Option Error)
  timeout : Timeout
  requests : List Nat
  closes : Nat
deriving DecidableEq, Repr

namespace ScriptedSource

def ofScript (steps : List SourceStep) (closeResults : List (Option Error)) (timeout : Timeout) : ScriptedSource :=
  ⟨[], steps, closeResults, timeout, [], 0⟩

/-- Appends the first `n` bytes of `data` and holds the rest. -/
def serve (s : ScriptedSource) (n : Nat) (data : Bytes) (b : Buffer) (host : Host) : ReadOutcome ScriptedSource :=
  ⟨.ok (some (data.take n).length), { s with held := data.drop n }, b.append (data.take n), host⟩

def read (s : ScriptedSource) (n : Nat) (b : Buffer) (host : Host) : ReadOutcome ScriptedSource :=
  let s := { s with requests := s.requests ++ [n] }
  if s.held ≠ [] then s.serve n s.held b host
  else match s.steps with
    | [] => ⟨.ok none, s, b, host⟩
    | step :: steps =>
      let s := { s with steps, timeout := step.newTimeout.getD s.timeout }
      match step.action with
      | .fail e => ⟨.error e, s, b, host⟩
      | .finish => ⟨.ok none, s, b, host⟩
      | .serve data => s.serve n data b host

def close (s : ScriptedSource) (host : Host) : CallOutcome ScriptedSource :=
  let (result, closeResults) := nextResult s.closeResults
  ⟨result, { s with closes := s.closes + 1, closeResults }, host⟩

/-- The number of reads that can still bring bytes, an error or an early end. -/
def unread (s : ScriptedSource) : Nat := s.steps.length + if s.held = [] then 0 else 1

theorem length_read {s : ScriptedSource} {n k : Nat} {b : Buffer} {host : Host}
    (h : (s.read n b host).result = .ok (some k)) : (s.read n b host).buffer.length = b.length + k := by
  unfold read serve at h ⊢
  simp only at h ⊢
  split
  · rename_i hh
    simp only [hh, ne_eq, not_false_eq_true, if_true, Except.ok.injEq, Option.some.injEq] at h
    rw [Buffer.length_append, h]
  · rename_i hh
    simp only [hh, if_false] at h
    split
    · rename_i hs; simp [hs] at h
    · rename_i step steps hs
      simp only [hs] at h
      split
      · rename_i ha; simp [ha] at h
      · rename_i ha; simp [ha] at h
      · rename_i ha
        simp only [ha, Except.ok.injEq, Option.some.injEq] at h
        rw [Buffer.length_append, h]

theorem length_steps_read {s : ScriptedSource} {n : Nat} {r : Option Nat} (hn : 0 < n) {b : Buffer} {host : Host}
    (h : (s.read n b host).result = .ok r) :
    (s.read n b host).source.steps.length + (if r = some 0 then 1 else 0) ≤ s.steps.length := by
  unfold read serve at h ⊢
  simp only at h ⊢
  split
  · rename_i hh
    simp only [hh, ne_eq, not_false_eq_true, if_true, Except.ok.injEq] at h
    subst h
    have := List.length_pos_iff.2 hh
    rw [if_neg (by simp only [List.length_take, Option.some.injEq]; omega)]
    exact Nat.le_refl _
  · rename_i hh
    simp only [hh, if_false] at h
    split
    · rename_i hs
      simp only [hs, Except.ok.injEq] at h
      subst h
      simp
    · rename_i step steps hs
      rw [hs, List.length_cons]
      split
      all_goals
        simp only
        split <;> omega

instance : ByteSource ScriptedSource where
  read := read
  close := close
  timeout := timeout
  patience s := s.steps.length
  length_read := length_read
  patience_read hn h := length_steps_read hn h

end ScriptedSource

end Conduit
