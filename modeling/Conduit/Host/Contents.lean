import Conduit.Bytes

/-!
# File contents

A file holds a row of stretches: bytes that were written, and gaps that nobody has written, which read as zeros.  So a
file can be long and yet hold little.  `Contents.toList` is what a reader sees of it; `overlay` says of byte strings
what a write leaves behind, and `Contents.toList_write` that files follow it.
-/

namespace Conduit

/-- What is left of `old` when `data` is written at `position`: a gap in between is filled with zeros.  Writing nothing
changes nothing. -/
def overlay (old : Bytes) (position : Nat) (data : Bytes) : Bytes :=
  if data = [] then old
  else old.take position ++ List.replicate (position - old.length) 0 ++ data ++ old.drop (position + data.length)

@[simp] theorem overlay_nil (old : Bytes) (position : Nat) : overlay old position [] = old := if_pos rfl

theorem length_overlay (old : Bytes) (position : Nat) {data : Bytes} (h : data ≠ []) :
    (overlay old position data).length = max old.length (position + data.length) := by
  simp only [overlay, h, if_false, List.length_append, List.length_take, List.length_replicate, List.length_drop]
  omega

/-- A write that begins where the last one ended adds to it. -/
theorem overlay_overlay (old : Bytes) (position : Nat) (x y : Bytes) :
    overlay (overlay old position x) (position + x.length) y = overlay old position (x ++ y) := by
  by_cases hx : x = []
  · simp [hx]
  by_cases hy : y = []
  · simp [hy]
  have hxy : x ++ y ≠ [] := by simp [hx]
  have h₁ : (old.take position ++ List.replicate (position - old.length) 0).length = position := by
    simp only [List.length_append, List.length_take, List.length_replicate]; omega
  have h₂ : (old.take position ++ List.replicate (position - old.length) 0 ++ x).length = position + x.length := by
    rw [List.length_append, h₁]
  have h₃ : position + x.length - (overlay old position x).length = 0 := by rw [length_overlay old position hx]; omega
  have h₄ : (overlay old position x).take (position + x.length) =
      old.take position ++ List.replicate (position - old.length) 0 ++ x := by
    rw [overlay, if_neg hx, List.take_append_of_le_length (by omega), List.take_of_length_le (by omega)]
  have h₅ : (overlay old position x).drop (position + x.length + y.length) =
      old.drop (position + (x ++ y).length) := by
    rw [overlay, if_neg hx, List.drop_append, List.drop_eq_nil_of_le (by omega), h₂, List.nil_append, List.drop_drop,
      List.length_append]
    congr 1; omega
  rw [overlay, if_neg hy, h₃, h₄, h₅, List.replicate_zero, List.append_nil]
  simp only [overlay, hxy, if_false, List.append_assoc]

/-- A part of a file: zeros that nobody has written, or bytes. -/
inductive Stretch where
  | gap (length : Nat)
  | written (bytes : Array UInt8)
deriving DecidableEq, Repr

namespace Stretch

def length : Stretch → Nat
  | gap n => n
  | written data => data.size

def toList : Stretch → Bytes
  | gap n => List.replicate n 0
  | written data => data.toList

/-- The part of a stretch from `start` to `stop`. -/
def extract (s : Stretch) (start stop : Nat) : Stretch :=
  if start = 0 ∧ s.length ≤ stop then s
  else match s with
    | gap n => gap (min stop n - start)
    | written data => written (data.extract start stop)

@[simp] theorem length_toList (s : Stretch) : s.toList.length = s.length := by cases s <;> simp [toList, length]

theorem toList_extract (s : Stretch) (start stop : Nat) :
    (s.extract start stop).toList = (s.toList.take stop).drop start := by
  unfold extract
  split
  · rename_i h
    rw [h.1, List.drop_zero, List.take_of_length_le (by simpa using h.2)]
  · cases s with
    | gap n => simp [toList]
    | written data => simp [toList, List.extract_eq_take_drop, List.drop_take]

/-- The bytes of a row of stretches. -/
def join (row : List Stretch) : Bytes := row.flatMap toList

/-- How many bytes a row of stretches has. -/
def total : List Stretch → Nat
  | [] => 0
  | s :: row => s.length + total row

theorem length_join (row : List Stretch) : (join row).length = total row := by
  induction row with
  | nil => rfl
  | cons s row ih =>
    have hc : join (s :: row) = s.toList ++ join row := rfl
    rw [hc, List.length_append, length_toList, ih, total]

/-- The part of a row of stretches from `start` to `stop`. -/
def slice : (row : List Stretch) → (start stop : Nat) → List Stretch
  | [], _, _ => []
  | s :: row, start, stop =>
    if stop = 0 then []
    else if s.length ≤ start then slice row (start - s.length) (stop - s.length)
    else s.extract start stop :: slice row (start - s.length) (stop - s.length)

theorem join_slice (row : List Stretch) (start stop : Nat) :
    join (slice row start stop) = ((join row).take stop).drop start := by
  induction row generalizing start stop with
  | nil => simp [slice, join]
  | cons s row ih =>
    have hd : ((join (s :: row)).take stop).drop start =
        (s.toList.take stop).drop start ++ ((join row).take (stop - s.length)).drop (start - s.length) := by
      have hc : join (s :: row) = s.toList ++ join row := rfl
      rw [hc, List.take_append, length_toList, List.drop_append, List.length_take, length_toList]
      by_cases h : s.length ≤ stop
      · rw [Nat.min_eq_right h]
      · rw [Nat.sub_eq_zero_of_le (by omega : stop ≤ s.length), List.take_zero, List.drop_nil, List.drop_nil]
    rw [hd, slice]
    split
    · rename_i h; subst h; simp [join]
    · split
      · rename_i h
        have hn : (s.toList.take stop).drop start = [] :=
          List.drop_eq_nil_of_le (by rw [List.length_take, length_toList]; omega)
        rw [ih, hn, List.nil_append]
      · have hc : join (s.extract start stop :: slice row (start - s.length) (stop - s.length)) =
            (s.extract start stop).toList ++ join (slice row (start - s.length) (stop - s.length)) := rfl
        rw [hc, ih, toList_extract]

end Stretch

/-- What a file holds. -/
structure Contents where
  row : List Stretch
deriving DecidableEq, Repr

namespace Contents

def empty : Contents := ⟨[]⟩

def ofList (data : Bytes) : Contents := ⟨[.written data.toArray]⟩

/-- The bytes that a reader finds. -/
def toList (c : Contents) : Bytes := Stretch.join c.row

def size (c : Contents) : Nat := Stretch.total c.row

/-- At most `n` bytes from `position` on. -/
def read (c : Contents) (position n : Nat) : Bytes := Stretch.join (Stretch.slice c.row position (position + n))

/-- The contents after `data` has been written at `position`. -/
def write (c : Contents) (position : Nat) (data : Bytes) : Contents :=
  if data = [] then c
  else
    let front := Stretch.slice c.row 0 position
    let gap := if position ≤ c.size then [] else [.gap (position - c.size)]
    let back := Stretch.slice c.row (position + data.length) c.size
    ⟨front ++ gap ++ .written data.toArray :: back⟩

@[simp] theorem toList_empty : empty.toList = [] := rfl

@[simp] theorem toList_ofList (data : Bytes) : (ofList data).toList = data := by
  simp [ofList, toList, Stretch.join, Stretch.toList]

theorem size_eq_length (c : Contents) : c.size = c.toList.length := (Stretch.length_join c.row).symm

theorem read_eq (c : Contents) (position n : Nat) : c.read position n = (c.toList.drop position).take n := by
  rw [read, Stretch.join_slice, List.drop_take, Nat.add_sub_cancel_left]
  rfl

theorem toList_write (c : Contents) (position : Nat) (data : Bytes) :
    (c.write position data).toList = overlay c.toList position data := by
  unfold write overlay
  split
  · rfl
  · have hg : Stretch.join (if position ≤ c.size then [] else [.gap (position - c.size)]) =
        List.replicate (position - c.toList.length) 0 := by
      rw [← size_eq_length]
      split
      · rename_i h; rw [Nat.sub_eq_zero_of_le h]; rfl
      · simp [Stretch.join, Stretch.toList]
    have hs : Stretch.join (Stretch.slice c.row (position + data.length) c.size) =
        c.toList.drop (position + data.length) := by
      have ht : (Stretch.join c.row).take c.size = c.toList :=
        List.take_of_length_le (Nat.le_of_eq c.size_eq_length.symm)
      rw [Stretch.join_slice, ht]
    have hp : Stretch.join (Stretch.slice c.row 0 position) = c.toList.take position := by
      rw [Stretch.join_slice]; rfl
    rw [← hg, ← hs, ← hp]
    simp [toList, Stretch.join, Stretch.toList, List.flatMap_append]

end Contents

end Conduit
