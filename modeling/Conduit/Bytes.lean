/-!
# Byte strings and their pieces

`chunks n l` cuts a list into pieces of `n` elements, the last one possibly shorter.  The pieces join to the list
(`flatten_chunks`), none is empty and none is longer than `n` (`length_of_mem_chunks`), and a whole number of pieces
can be cut off in front (`chunks_append`).
-/

namespace Conduit

/-- A finite string of bytes. -/
abbrev Bytes := List UInt8

/-- The pieces of `n` elements of a list, in order, the last possibly shorter; `chunks 0` cuts like `chunks 1`. -/
def chunks {α : Type} (n : Nat) : List α → List (List α)
  | [] => []
  | a :: l => (a :: l.take (n - 1)) :: chunks n (l.drop (n - 1))
termination_by l => l.length
decreasing_by simp only [List.length_drop, List.length_cons]; omega

@[simp] theorem chunks_nil {α : Type} (n : Nat) : chunks n ([] : List α) = [] := by
  rw [chunks]

theorem chunks_of_ne_nil {α : Type} {n : Nat} (hn : 0 < n) {l : List α} (hl : l ≠ []) :
    chunks n l = l.take n :: chunks n (l.drop n) := by
  obtain ⟨m, rfl⟩ : ∃ m, n = m + 1 := ⟨n - 1, by omega⟩
  cases l with
  | nil => exact absurd rfl hl
  | cons a l => rw [chunks]; simp

@[simp] theorem flatten_chunks {α : Type} (n : Nat) (l : List α) : (chunks n l).flatten = l := by
  fun_induction chunks n l with
  | case1 => rfl
  | case2 a l ih => simp [ih]

theorem length_of_mem_chunks {α : Type} {n : Nat} (hn : 0 < n) {l c : List α} (hc : c ∈ chunks n l) :
    c ≠ [] ∧ c.length ≤ n := by
  fun_induction chunks n l with
  | case1 => simp at hc
  | case2 a l ih =>
    rcases List.mem_cons.1 hc with rfl | h
    · simp only [ne_eq, reduceCtorEq, not_false_eq_true, List.length_cons, List.length_take, true_and]; omega
    · exact ih h

/-- Cutting off `k` whole pieces in front. -/
theorem chunks_append {α : Type} {n : Nat} (hn : 0 < n) (l r : List α) {k : Nat} (hl : l.length = k * n) :
    chunks n (l ++ r) = chunks n l ++ chunks n r := by
  induction k generalizing l with
  | zero => simp [List.length_eq_zero_iff.1 (by simpa using hl)]
  | succ k ih =>
    have hlen : n ≤ l.length := by rw [hl, Nat.succ_mul]; omega
    have hne : l ≠ [] := by intro h; subst h; simp at hlen; omega
    rw [chunks_of_ne_nil hn (by simp [hne]), chunks_of_ne_nil hn hne, List.take_append_of_le_length hlen,
      List.drop_append_of_le_length hlen, ih]
    · rfl
    · rw [List.length_drop, hl, Nat.succ_mul]; omega

end Conduit
