import Conduit.Host.Disk

/-!
# What transfers leave of a disk

A transfer changes no file but the one that it writes, and of that one only the bytes that it writes and the gap before
them (`Disk.Overlaid`); a read, a failure and an operation that moves no bytes change no file at all (`Disk.Spared`).
What is read are the bytes that stand in the file (`Disk.readAt_eq_ok`), some of them if there are any, as long as the
disk does not answer with nothing (`Disk.Moves`).
-/

namespace Conduit

/-- The disk answers a transfer with nothing only if there is nothing to be moved. -/
def Disk.Moves (disk : Disk) : Prop := Grant.upTo 0 ∉ disk.grants

instance (disk : Disk) : Decidable disk.Moves := inferInstanceAs (Decidable (_ ∉ _))

/-- The disk fails an operation with an error of this kind, which is no interruption of a transfer. -/
def Disk.MayFail (disk : Disk) (kind : IoErrorKind) : Prop :=
  (kind ≠ .interrupted ∧ Grant.failed kind ∈ disk.grants) ∨ some kind ∈ disk.refusals

theorem Disk.Moves.of_suffix {disk disk' : Disk} (h : disk.Moves) (hgrants : disk'.grants <:+ disk.grants) :
    disk'.Moves := fun hmem => h (hgrants.mem hmem)

/-! ### Reading -/

namespace Disk

/-- The bytes that can be read. -/
def data (disk : Disk) : Node → Bytes
  | .file file => (disk.contents file).toList
  | .directory _ => []

/-- What a transfer leaves of a disk: every file as it was, and some of the grants. -/
structure Spared (disk disk' : Disk) : Prop where
  contents : ∀ file, disk'.contents file = disk.contents file
  grants : disk'.grants <:+ disk.grants

theorem Spared.refl (disk : Disk) : disk.Spared disk := ⟨fun _ => rfl, List.suffix_refl _⟩

theorem Spared.trans {disk disk' disk'' : Disk} (h : disk.Spared disk') (h' : disk'.Spared disk'') :
    disk.Spared disk'' :=
  ⟨fun file => (h'.contents file).trans (h.contents file), h'.grants.trans h.grants⟩

theorem Spared.size_eq {disk disk' : Disk} (h : disk.Spared disk') (node : Node) :
    disk'.size node = disk.size node := by
  cases node with
  | file file => rw [size, h.contents, size]
  | directory directory => rfl

theorem Spared.data_eq {disk disk' : Disk} (h : disk.Spared disk') (node : Node) :
    disk'.data node = disk.data node := by
  cases node with
  | file file => rw [data, h.contents, data]
  | directory directory => rfl

/-- An operation that moves no bytes uses up no more than a refusal. -/
theorem spared_of_refusals {disk disk' : Disk} (h : ∃ refusals, disk' = { disk with refusals }) :
    disk.Spared disk' := by
  obtain ⟨refusals, rfl⟩ := h
  exact ⟨fun _ => rfl, List.suffix_refl _⟩

theorem spared_readAt {disk disk' : Disk} {node : Node} {position n : Nat} {r : Except IoError Bytes}
    (h : disk.readAt node position n = (r, disk')) : disk.Spared disk' := by
  unfold readAt at h
  split at h
  · cases h
    exact .refl disk
  · split at h
    · cases h
      exact .refl disk
    · rename_i hg
      cases h
      exact ⟨fun _ => rfl, by rw [hg]; exact List.suffix_cons ..⟩
    · rename_i hg
      cases h
      exact ⟨fun _ => rfl, by rw [hg]; exact List.suffix_cons ..⟩

/-- What is served stands in the file from the position on. -/
theorem readAt_eq_ok {disk disk' : Disk} {node : Node} {position n : Nat} {data : Bytes}
    (h : disk.readAt node position n = (.ok data, disk')) :
    data.length ≤ disk.size node - position ∧ data = ((disk.data node).drop position).take data.length := by
  have hserved (c : Contents) (k : Nat) : (c.read position k).length ≤ c.size - position ∧
      c.read position k = (c.toList.drop position).take (c.read position k).length := by
    rw [Contents.read_eq, List.length_take, ← List.take_eq_take_min, List.length_drop, Contents.size_eq_length]
    exact ⟨Nat.min_le_right .., rfl⟩
  unfold readAt at h
  split at h
  · cases h
  · split at h
    · cases h
      exact hserved ..
    · cases h
      exact hserved ..
    · cases h

/-- A disk that moves bytes serves some if there are any behind the position. -/
theorem Moves.ne_nil_of_readAt {disk disk' : Disk} (hd : disk.Moves) {file : Location} {position n : Nat} (hn : 0 < n)
    (hlt : position < (disk.contents file).size) {data : Bytes}
    (h : disk.readAt (.file file) position n = (.ok data, disk')) : data ≠ [] := by
  have hserved (k : Nat) (hk : 0 < k) : (disk.contents file).read position k ≠ [] := by
    rw [Contents.read_eq, ← List.length_pos_iff, List.length_take, List.length_drop, ← Contents.size_eq_length]
    omega
  simp only [readAt] at h
  split at h
  · cases h
    exact hserved n hn
  · rename_i limit grants hg
    have hlimit : limit ≠ 0 := by
      rintro rfl
      exact hd (by rw [hg]; exact List.mem_cons_self)
    cases h
    exact hserved (min n limit) (by omega)
  · cases h

/-- A file is not read only if the disk has been granted to fail. -/
theorem readAt_eq_error {disk disk' : Disk} {file : Location} {position n : Nat} {e : IoError}
    (h : disk.readAt (.file file) position n = (.error e, disk')) :
    ∃ kind, Grant.failed kind ∈ disk.grants ∧ e = .ofDisk kind := by
  simp only [readAt] at h
  split at h
  · cases h
  · cases h
  · rename_i kind grants hg
    cases h
    exact ⟨kind, by rw [hg]; exact List.mem_cons_self, rfl⟩

end Disk

/-! ### Writing -/

/-- What a place holds after a write: a byte of the data, one that was there, or a zero in a gap before the data. -/
theorem getElem?_overlay (old : Bytes) (position : Nat) {data : Bytes} (h : data ≠ []) (p : Nat) :
    (overlay old position data)[p]? =
      if p < position then some (old[p]?.getD 0)
      else if p < position + data.length then data[p - position]? else old[p]? := by
  have hfront : (old.take position ++ List.replicate (position - old.length) 0).length = position := by
    rw [List.length_append, List.length_take, List.length_replicate]
    omega
  rw [overlay, if_neg h, List.append_assoc _ data]
  by_cases hp : p < position
  · rw [if_pos hp, List.getElem?_append_left (by omega), List.getElem?_append]
    split
    · rename_i hold
      rw [List.length_take] at hold
      rw [List.getElem?_take_of_lt hp, List.getElem?_eq_getElem (by omega)]
      rfl
    · rename_i hgap
      rw [List.length_take] at hgap ⊢
      rw [List.getElem?_replicate, if_pos (by omega), List.getElem?_eq_none (by omega)]
      rfl
  · rw [if_neg hp, List.getElem?_append_right (by omega), hfront, List.getElem?_append]
    split
    · rw [if_pos (by omega)]
    · rw [if_neg (by omega), List.getElem?_drop]
      congr 1
      omega

namespace Disk

theorem contents_touch (disk : Disk) (file f : Location) : (disk.touch file).contents f = disk.contents f := by
  unfold touch
  split
  · rfl
  · rename_i hnone
    by_cases hf : f = file
    · rw [hf, contents_put_self, contents, hnone]
      rfl
    · rw [contents_put_of_ne _ hf]

theorem spared_touch (disk : Disk) (file : Location) : disk.Spared (disk.touch file) where
  contents f := disk.contents_touch file f
  grants := by
    unfold touch
    split <;> exact List.suffix_refl _

/-- What a write leaves of a disk when it has written `data` at `position` of a file, and some of the grants. -/
structure Overlaid (disk : Disk) (file : Location) (position : Nat) (data : Bytes) (disk' : Disk) : Prop where
  contents : ∀ f, (disk'.contents f).toList =
    if f = file then overlay (disk.contents file).toList position data else (disk.contents f).toList
  grants : disk'.grants <:+ disk.grants

theorem Spared.overlaid {disk disk' : Disk} (h : disk.Spared disk') (file : Location) (position : Nat) :
    disk.Overlaid file position [] disk' where
  contents f := by
    rw [h.contents, overlay_nil]
    split
    · rename_i hf
      rw [hf]
    · rfl
  grants := h.grants

/-- Writing on where the last write has ended. -/
theorem Overlaid.trans {disk disk' disk'' : Disk} {file : Location} {position : Nat} {x y : Bytes}
    (h : disk.Overlaid file position x disk') (h' : disk'.Overlaid file (position + x.length) y disk'') :
    disk.Overlaid file position (x ++ y) disk'' where
  contents f := by
    rw [h'.contents, h.contents file, if_pos rfl, overlay_overlay, h.contents f]
    split <;> rfl
  grants := h'.grants.trans h.grants

theorem overlaid_put (disk : Disk) (file : Location) (position : Nat) (data : Bytes) {grants : List Grant}
    (hgrants : grants <:+ disk.grants) :
    disk.Overlaid file position data { disk.put file ((disk.contents file).write position data) with grants } where
  contents f := by
    show ((disk.put file ((disk.contents file).write position data)).contents f).toList = _
    split
    · rename_i hf
      rw [hf, contents_put_self, Contents.toList_write]
    · rename_i hf
      rw [contents_put_of_ne _ hf]
  grants := hgrants

theorem overlaid_of_writeAt {disk disk' : Disk} {file : Location} {position count : Nat} {data : Bytes}
    (h : disk.writeAt file position data = (.ok count, disk')) :
    count ≤ data.length ∧ disk.Overlaid file position (data.take count) disk' := by
  unfold writeAt at h
  split at h
  · cases h
  · split at h
    · cases h
      refine ⟨Nat.le_refl _, ?_⟩
      rw [List.take_length]
      exact disk.overlaid_put file position data (List.suffix_refl _)
    · rename_i limit grants hg
      cases h
      refine ⟨List.length_take_le' .., ?_⟩
      rw [List.length_take, ← List.take_eq_take_min]
      exact disk.overlaid_put file position _ (by rw [hg]; exact List.suffix_cons ..)
    · cases h

theorem spared_of_writeAt {disk disk' : Disk} {file : Location} {position : Nat} {data : Bytes} {e : IoError}
    (h : disk.writeAt file position data = (.error e, disk')) : disk.Spared disk' := by
  unfold writeAt at h
  split at h
  · cases h
    exact .refl disk
  · split at h
    · cases h
    · cases h
    · rename_i hg
      cases h
      exact ⟨fun _ => rfl, by rw [hg]; exact List.suffix_cons ..⟩

end Disk

end Conduit
