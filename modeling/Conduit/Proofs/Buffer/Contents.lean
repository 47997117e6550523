import Mathlib.Logic.Function.Basic
import Conduit.Buffer.Basic

/-!
# Buffers as queues of bytes

Any number of buffers, whatever is done with them, hold the bytes that byte strings would hold with which the same is
done, and give the same answers (`allowsAll_performAll`): bytes are put behind the last one and taken from the front,
wherever the segments begin and end.  All that depends on the segments is which window is lent to a writer and how many
of the first bytes are shown to a reader.
-/

namespace Conduit

namespace Buffer

/-! ### Calls -/

/-- Compares two buffers by their lengths and then byte by byte, as far as both go. -/
def agrees (a b : Buffer) : Bool :=
  a.length == b.length && (a.pieces.flatten.zip b.pieces.flatten).all fun p => p.1 == p.2

/-- An operation on buffers that have names from `ι`.  What a function makes of a window or of the bytes it is shown may
be an error from `ε`; a window's memory is left behind in any case.  A function that looks at what the memory holds
before is, in any one run, one that does not. -/
inductive Call (ι ε : Type) where
  | append (i : ι) (data : Bytes)
  | push (i : ι) (byte : UInt8)
  | popFront (i : ι)
  | skip (i : ι) (n : Nat)
  /-- Fills `room` with the first bytes. -/
  | copyOut (i : ι) (room : Bytes)
  | clear (i : ι)
  | transfer (source target : ι) (distinct : source ≠ target) (n : Nat)
  | writeWith (i : ι) (n : Nat) (write : (w : Window) → Vector UInt8 w.size × Except ε Nat)
  | readWith (i : ι) (read : Bytes → Except ε Nat)
  | toList (i : ι)
  | length (i : ι)
  | compare (i j : ι)

/-- What a call gives back. -/
inductive Answer (ε : Type) where
  | done
  | byte (b : Option UInt8)
  | bytes (x : Bytes)
  | count (n : Except ε Nat)
  | truth (b : Bool)

variable {ι ε : Type} [DecidableEq ι]

open Function (update)

/-- Makes a call. -/
def Call.perform (call : Call ι ε) (bs : ι → Buffer) : Except Fault (Answer ε × (ι → Buffer)) :=
  match call with
  | .append i data => .ok (.done, update bs i ((bs i).append data))
  | .push i byte => .ok (.done, update bs i ((bs i).push byte))
  | .popFront i =>
    match (bs i).popFront with
    | none => .ok (.byte none, bs)
    | some (byte, b) => .ok (.byte (some byte), update bs i b)
  | .skip i n => ((bs i).skip n).map fun b => (.done, update bs i b)
  | .copyOut i room => ((bs i).copyOut room.length).map fun (x, b) => (.bytes x, update bs i b)
  | .clear i => .ok (.done, update bs i .empty)
  | .transfer i j _ n => ((bs i).transfer n (bs j)).map fun (b, rest) => (.done, update (update bs i rest) j b)
  | .writeWith i n write =>
    ((bs i).writeWith n fun w => (write w).2.map ((write w).1, ·)).map fun (r, b) => (.count r, update bs i b)
  | .readWith i read => ((bs i).readWith read).map fun (r, b) => (.count r, update bs i b)
  | .toList i => .ok (.bytes (bs i).toList, bs)
  | .length i => .ok (.count (.ok (bs i).length), bs)
  | .compare i j => .ok (.truth ((bs i).agrees (bs j)), bs)

/-- Makes one call after the other, up to the first fault. -/
def performAll : (calls : List (Call ι ε)) → (ι → Buffer) → Except Fault (List (Answer ε) × (ι → Buffer))
  | [], bs => .ok ([], bs)
  | call :: calls, bs =>
    match call.perform bs with
    | .error f => .error f
    | .ok (answer, bs) => (performAll calls bs).map fun (answers, bs) => (answer :: answers, bs)

/-! ### The same on byte strings -/

/-- What a call may come to if the byte strings `c` are the contents.  Any window for `n` bytes may be lent that shows as
many as a segment holds at most, and any first bytes may be shown to a reader. -/
def Call.Allows (call : Call ι ε) (c : ι → Bytes) (r : Except Fault (Answer ε × (ι → Bytes))) : Prop :=
  match call with
  | .append i data => r = .ok (.done, update c i (c i ++ data))
  | .push i byte => r = .ok (.done, update c i (c i ++ [byte]))
  | .popFront i => r = .ok (.byte (c i).head?, update c i (c i).tail)
  | .skip i n =>
    r = if n ≤ (c i).length then .ok (.done, update c i ((c i).drop n)) else .error (.skip n (c i).length)
  | .copyOut i room =>
    r = if room.length ≤ (c i).length then
        .ok (.bytes ((c i).take room.length), update c i ((c i).drop room.length))
      else .error (.copy room.length (c i).length)
  | .clear i => r = .ok (.done, update c i [])
  | .transfer i j _ n =>
    r = if n ≤ (c i).length then
        .ok (.done, update (update c i ((c i).drop n)) j (c j ++ (c i).take n))
      else .error (.move n (c i).length)
  | .writeWith i n write =>
    if n = 0 then r = .ok (.count (.ok 0), c)
    else ∃ w : Window, w.size = min n segmentSize ∧ w.stop ≤ segmentSize ∧
      r = match write w with
        | (_, .error e) => .ok (.count (.error e), c)
        | (memory, .ok k) =>
          if k ≤ w.size then .ok (.count (.ok k), update c i (c i ++ memory.toList.take k)) else .error (.commit k w.size)
  | .readWith i read =>
    if c i = [] then r = .ok (.count (.ok 0), c)
    else ∃ shown : Bytes, shown ≠ [] ∧ shown <+: c i ∧
      r = match read shown with
        | .error e => .ok (.count (.error e), c)
        | .ok k =>
          if k ≤ shown.length then .ok (.count (.ok k), update c i ((c i).drop k)) else .error (.consume k shown.length)
  | .toList i => r = .ok (.bytes (c i), c)
  | .length i => r = .ok (.count (.ok (c i).length), c)
  | .compare i j => r = .ok (.truth (c i = c j), c)

/-- What calls may come to, one after the other. -/
def AllowsAll : (calls : List (Call ι ε)) → (ι → Bytes) → Except Fault (List (Answer ε) × (ι → Bytes)) → Prop
  | [], c, r => r = .ok ([], c)
  | call :: calls, c, r => ∃ o, call.Allows c o ∧
    match o with
    | .error f => r = .error f
    | .ok (answer, c) => ∃ r', AllowsAll calls c r' ∧ r = r'.map fun (answers, c) => (answer :: answers, c)

/-- The bytes that the buffers hold. -/
def contents (bs : ι → Buffer) (i : ι) : Bytes := (bs i).toList

@[simp] theorem contents_update (bs : ι → Buffer) (i : ι) (b : Buffer) :
    contents (update bs i b) = update (contents bs) i b.toList := by
  funext j
  exact Function.apply_update (fun _ => toList) bs i b j

/-- The outcome of calls in terms of the bytes. -/
def seen {α : Type} (r : Except Fault (α × (ι → Buffer))) : Except Fault (α × (ι → Bytes)) :=
  r.map (Prod.map id contents)

/-! ### The calls do what they do on byte strings -/

private theorem all_zip_iff {l r : Bytes} (h : l.length = r.length) :
    ((l.zip r).all fun p => p.1 == p.2) ↔ l = r := by
  induction l generalizing r with
  | nil => simp [List.length_eq_zero_iff.1 h.symm]
  | cons a l ih =>
    cases r with
    | nil => cases h
    | cons b r => simp [ih (Nat.succ.inj h)]

theorem agrees_iff {a b : Buffer} : a.agrees b ↔ a.toList = b.toList := by
  rw [agrees, flatten_pieces, flatten_pieces, Bool.and_eq_true, beq_iff_eq, ← length_toList, ← length_toList]
  constructor
  · rintro ⟨hlen, hall⟩
    exact (all_zip_iff hlen).1 hall
  · intro h
    exact ⟨congrArg List.length h, (all_zip_iff (congrArg List.length h)).2 h⟩

private theorem toList_fill_take {b : Buffer} {n k : Nat} (hk : k ≤ (b.window n).size) (data : Bytes) :
    (b.fill n (data.take k)).toList = b.toList ++ data.take k := by
  rw [size_window] at hk
  rw [toList_fill, List.take_take, Nat.min_eq_right hk]

/-- A call does to the bytes, and gives back, what it does on byte strings. -/
theorem Call.allows_perform (call : Call ι ε) (bs : ι → Buffer) :
    call.Allows (contents bs) (seen (call.perform bs)) := by
  have hlen (i : ι) : (contents bs i).length = (bs i).length := length_toList _
  cases call with
  | append i data => simp [Allows, perform, seen, Except.map, contents]
  | push i byte => simp [Allows, perform, seen, Except.map, contents]
  | popFront i =>
    rcases hp : (bs i).popFront with _ | ⟨byte, b⟩
    · have hnil : contents bs i = [] := popFront_eq_none_iff.1 hp
      have hsame : update (contents bs) i [] = contents bs := Function.update_eq_iff.2 ⟨hnil.symm, fun _ _ => rfl⟩
      simp [Allows, perform, seen, Except.map, hp, hnil, hsame]
    · have hcons : contents bs i = byte :: b.toList := popFront_eq_some hp
      simp [Allows, perform, seen, Except.map, hp, hcons]
  | skip i n =>
    by_cases hn : n ≤ (bs i).length
    · simp [Allows, perform, seen, Except.map, Buffer.skip, hn, contents]
    · simp [Allows, perform, seen, Except.map, Buffer.skip, hlen, hn]
  | copyOut i room =>
    by_cases hn : room.length ≤ (bs i).length
    · simp [Allows, perform, seen, Except.map, Buffer.copyOut, hn, contents, Buffer.take]
    · simp [Allows, perform, seen, Except.map, Buffer.copyOut, hlen, hn]
  | clear i => simp [Allows, perform, seen, Except.map]
  | transfer i j distinct n =>
    by_cases hn : n ≤ (bs i).length
    · simp [Allows, perform, seen, Except.map, Buffer.transfer, hn, contents]
    · simp [Allows, perform, seen, Except.map, Buffer.transfer, hlen, hn]
  | writeWith i n write =>
    by_cases hn : n = 0
    · simp [Allows, perform, seen, Except.map, Buffer.writeWith, hn]
    · simp only [Allows, hn, if_false]
      refine ⟨(bs i).window n, size_window .., (SegmentQueue.size_window ..).2, ?_⟩
      rcases hw : write ((bs i).window n) with ⟨memory, e | k⟩
      · simp [perform, seen, Except.map, Buffer.writeWith, hn, hw]
      · by_cases hk : k ≤ ((bs i).window n).size
        · simp [-size_window, -toList_fill, perform, seen, Except.map, Buffer.writeWith, hn, hw, hk, contents,
            toList_fill_take hk]
        · simp [-size_window, perform, seen, Except.map, Buffer.writeWith, hn, hw, hk]
  | readWith i read =>
    by_cases hnil : contents bs i = []
    · have hempty : (bs i).isEmpty := isEmpty_iff.2 hnil
      simp [Allows, perform, seen, Except.map, Buffer.readWith, hnil, hempty]
    · have hempty : ¬ (bs i).isEmpty := fun h => hnil (isEmpty_iff.1 h)
      simp only [Allows, hnil, if_false]
      refine ⟨(bs i).head, fun h => hnil (head_eq_nil_iff.1 h), ⟨_, (head_isPrefix _).symm⟩, ?_⟩
      rcases hr : read (bs i).head with e | k
      · simp [perform, seen, Except.map, Buffer.readWith, hempty, hr]
      · by_cases hk : k ≤ (bs i).head.length
        · simp [perform, seen, Except.map, Buffer.readWith, hempty, hr, hk, contents]
        · simp [perform, seen, Except.map, Buffer.readWith, hempty, hr, hk]
  | toList i => rfl
  | length i => simp [Allows, perform, seen, Except.map, contents]
  | compare i j =>
    have h : (bs i).agrees (bs j) = decide (contents bs i = contents bs j) :=
      Bool.eq_iff_iff.2 (agrees_iff.trans decide_eq_true_iff.symm)
    rw [Allows, perform, h]
    rfl

/-- A run of calls does to the bytes, and gives back, what it does on byte strings. -/
theorem allowsAll_performAll (calls : List (Call ι ε)) (bs : ι → Buffer) :
    AllowsAll calls (contents bs) (seen (performAll calls bs)) := by
  induction calls generalizing bs with
  | nil => rfl
  | cons call calls ih =>
    refine ⟨seen (call.perform bs), call.allows_perform bs, ?_⟩
    rcases hp : call.perform bs with f | ⟨answer, bs'⟩
    · simp [performAll, hp, seen, Except.map]
    · refine ⟨seen (performAll calls bs'), ih bs', ?_⟩
      rcases hq : performAll calls bs' with f | ⟨answers, bs''⟩ <;> simp [performAll, hp, hq, seen, Except.map]

end Buffer

end Conduit
