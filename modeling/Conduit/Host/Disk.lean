import Conduit.Host.Contents
import Conduit.Host.Path

/-!
# Disks

A disk keeps the contents of files by their locations.  Beside the files there are the directories that a path can
start in or go up to, and no others.  `Disk.place` finds where a path puts a file, `Disk.find` what it leads to, and
`Disk.find_of_place` ties the two together.  Files are read and written at a position.  How much one transfer moves, and
whether it fails, is up to the disk, which follows a script of grants and without one moves all there is; so is whether
the size of a file can be told and what was written be stored, for which there is a script of refusals.
-/

namespace Conduit

/-- What a disk grants to the next transfer: at most so many bytes, or an error, which may be an interruption. -/
inductive Grant where
  | upTo (limit : Nat)
  | failed (kind : IoErrorKind)
deriving DecidableEq, Repr

/-- The files of a disk, the last written in front, what it grants to the next transfers, and how it refuses the next
operations that move no bytes, if it does. -/
structure Disk where
  files : List (Location × Contents)
  grants : List Grant
  refusals : List (Option IoErrorKind)
deriving DecidableEq, Repr

/-- What a path can lead to. -/
inductive Node where
  | file (location : Location)
  | directory (directory : Directory)
deriving DecidableEq, Repr

namespace Disk

def empty : Disk := ⟨[], [], []⟩

/-- No write ends at this position or behind it: positions have 63 bits. -/
def positionLimit : Nat := UInt64.size / 2

/-- The bytes that a directory takes up; they cannot be read as those of a file can. -/
def directorySize : Nat := 4096

/-- The contents of a file, if there is one. -/
def get? (disk : Disk) (file : Location) : Option Contents := disk.files.lookup file

/-- The contents of a file; one that does not exist has none. -/
def contents (disk : Disk) (file : Location) : Contents := (disk.get? file).getD .empty

/-- Creates a file, or replaces the contents of one. -/
def put (disk : Disk) (file : Location) (contents : Contents) : Disk :=
  { disk with files := (file, contents) :: disk.files.filter (·.1 != file) }

/-- Creates a file without bytes, unless there is one. -/
def touch (disk : Disk) (file : Location) : Disk :=
  match disk.get? file with
  | some _ => disk
  | none => disk.put file .empty

/-! ### Following a path -/

/-- What a name stands for in a directory. -/
def step (disk : Disk) (directory : Directory) (name : String) : Except IoErrorKind Node :=
  if name = "." then .ok (.directory directory)
  else if name = ".." then .ok (.directory directory.parent)
  else if Path.nameLimit < name.utf8ByteSize then .error .invalidFilename
  else if (disk.get? ⟨directory, name⟩).isSome then .ok (.file ⟨directory, name⟩)
  else .error .notFound

/-- The directory to which names lead, one after the other. -/
def descend (disk : Disk) : Directory → List String → Except IoErrorKind Directory
  | directory, [] => .ok directory
  | directory, name :: names =>
    match disk.step directory name with
    | .ok (.directory next) => descend disk next names
    | .ok (.file _) => .error .notADirectory
    | .error e => .error e

/-- The file or directory that a path leads to.  A slash must not follow the name of a file. -/
def find (disk : Disk) (path : Path) : Except IoErrorKind Node :=
  match disk.descend path.start path.way, path.last with
  | .error e, _ => .error e
  | .ok directory, none => .ok (.directory directory)
  | .ok directory, some name =>
    match disk.step directory name with
    | .ok (.file file) => if path.slash then .error .notADirectory else .ok (.file file)
    | result => result

/-- Where a path puts a file, be it there or not.  The path must end in a name, not in a directory or a slash. -/
def place (disk : Disk) (path : Path) : Except IoErrorKind Location :=
  match disk.descend path.start path.way, path.last with
  | .error e, _ => .error e
  | .ok _, none => .error .isADirectory
  | .ok directory, some name =>
    if path.slash ∨ name = "." ∨ name = ".." then .error .isADirectory
    else if Path.nameLimit < name.utf8ByteSize then .error .invalidFilename
    else .ok ⟨directory, name⟩

/-- A path to a place where a file can be leads to that file, once it is there. -/
theorem find_of_place {disk : Disk} {path : Path} {file : Location} (h : disk.place path = .ok file) :
    disk.find path = if (disk.get? file).isSome then .ok (.file file) else .error .notFound := by
  unfold place at h
  unfold find
  split at h
  · cases h
  · cases h
  · rename_i directory name _ _
    split at h
    · cases h
    · rename_i hn
      split at h
      · cases h
      · rename_i hs
        obtain rfl := Except.ok.inj h
        simp only [not_or] at hn
        simp only [step, hn.2.1, hn.2.2, hs, if_false]
        by_cases hf : (disk.get? ⟨directory, name⟩).isSome
        · simp [hf, hn.1]
        · simp [hf]

/-- What a path leads to, for a reader. -/
def openToRead (disk : Disk) (path : String) : Except IoError Node :=
  match Path.parse path with
  | .error e => .error e
  | .ok path => (disk.find path).mapError .ofDisk

/-- Where a path puts a file, for a writer. -/
def openToWrite (disk : Disk) (path : String) : Except IoError Location :=
  match Path.parse path with
  | .error e => .error e
  | .ok path => (disk.place path).mapError .ofDisk

/-- The whole contents of the file that a path leads to. -/
def load (disk : Disk) (path : String) : Except IoError Contents :=
  match disk.openToRead path with
  | .error e => .error e
  | .ok (.directory _) => .error (.ofDisk .isADirectory)
  | .ok (.file file) => .ok (disk.contents file)

/-- The disk with a file of the given bytes where a path puts it. -/
def save (disk : Disk) (path : String) (data : Bytes) : Except IoError Disk :=
  (disk.openToWrite path).map fun file => disk.put file (.ofList data)

/-! ### Reading and writing -/

def size (disk : Disk) : Node → Nat
  | .file file => (disk.contents file).size
  | .directory _ => directorySize

/-- An operation that moves no bytes: it gives the value, or the next refusal. -/
def attempt {α : Type} (disk : Disk) (value : α) : Except IoError α × Disk :=
  match disk.refusals with
  | [] => (.ok value, disk)
  | none :: refusals => (.ok value, { disk with refusals })
  | some kind :: refusals => (.error (.ofDisk kind), { disk with refusals })

/-- Tells the size of what a path has led to. -/
def inspect (disk : Disk) (node : Node) : Except IoError Nat × Disk := disk.attempt (disk.size node)

/-- Stores for good what was written. -/
def store (disk : Disk) : Except IoError Unit × Disk := disk.attempt ()

/-- Serves at most `n` of the bytes of a file from `position` on. -/
def readAt (disk : Disk) (node : Node) (position n : Nat) : Except IoError Bytes × Disk :=
  match node with
  | .directory _ => (.error (.ofDisk .isADirectory), disk)
  | .file file =>
    match disk.grants with
    | [] => (.ok ((disk.contents file).read position n), disk)
    | .upTo limit :: grants => (.ok ((disk.contents file).read position (min n limit)), { disk with grants })
    | .failed kind :: grants => (.error (.ofDisk kind), { disk with grants })

/-- Writes the front part of `data` at `position` and says how many bytes that are. -/
def writeAt (disk : Disk) (file : Location) (position : Nat) (data : Bytes) : Except IoError Nat × Disk :=
  if positionLimit ≤ position + data.length then (.error (.ofDisk .invalidInput), disk)
  else match disk.grants with
    | [] => (.ok data.length, disk.put file ((disk.contents file).write position data))
    | .upTo limit :: grants =>
      (.ok (data.take limit).length,
        { disk.put file ((disk.contents file).write position (data.take limit)) with grants })
    | .failed kind :: grants => (.error (.ofDisk kind), { disk with grants })

/-! ### What is found after an operation -/

@[simp] theorem get?_put_self (disk : Disk) (file : Location) (contents : Contents) :
    (disk.put file contents).get? file = some contents := by simp [put, get?]

theorem get?_put_of_ne (disk : Disk) {file other : Location} (h : other ≠ file) (contents : Contents) :
    (disk.put file contents).get? other = disk.get? other := by
  have hb : (other == file) = false := by simpa using h
  simp only [put, get?, List.lookup_cons, hb]
  induction disk.files with
  | nil => rfl
  | cons f files ih =>
    rw [List.filter_cons, List.lookup_cons]
    by_cases hf : f.1 = file
    · simp [hf, hb, ih]
    · have : (f.1 != file) = true := by simpa using hf
      rw [this, if_pos rfl, List.lookup_cons, ih]

@[simp] theorem contents_put_self (disk : Disk) (file : Location) (contents : Contents) :
    (disk.put file contents).contents file = contents := by simp [Disk.contents]

theorem contents_put_of_ne (disk : Disk) {file other : Location} (h : other ≠ file) (contents : Contents) :
    (disk.put file contents).contents other = disk.contents other := by
  rw [Disk.contents, Disk.contents, get?_put_of_ne disk h]

/-- An operation that moves no bytes leaves the files and the grants alone, and fails only if it was refused. -/
theorem attempt_eq {α : Type} {disk disk' : Disk} {value : α} {r : Except IoError α}
    (h : disk.attempt value = (r, disk')) :
    (∃ refusals, disk' = { disk with refusals }) ∧
      (r = .ok value ∨ ∃ kind, some kind ∈ disk.refusals ∧ r = .error (.ofDisk kind)) := by
  unfold attempt at h
  split at h
  · cases h
    exact ⟨⟨_, rfl⟩, .inl rfl⟩
  · cases h
    exact ⟨⟨_, rfl⟩, .inl rfl⟩
  · rename_i kind refusals hrefusals
    cases h
    exact ⟨⟨_, rfl⟩, .inr ⟨kind, by rw [hrefusals]; exact List.mem_cons_self, rfl⟩⟩

theorem length_readAt {disk disk' : Disk} {node : Node} {position n : Nat} {data : Bytes}
    (h : disk.readAt node position n = (.ok data, disk')) : data.length ≤ n := by
  unfold readAt at h
  split at h
  · cases h
  · split at h
    · cases h; rw [Contents.read_eq]; exact List.length_take_le ..
    · cases h; rw [Contents.read_eq]; exact Nat.le_trans (List.length_take_le ..) (Nat.min_le_left ..)
    · cases h

theorem grants_readAt_error {disk disk' : Disk} {node : Node} {position n : Nat} {e : IoError}
    (h : disk.readAt node position n = (.error e, disk')) (he : e.kind = .interrupted) :
    disk'.grants.length < disk.grants.length := by
  unfold readAt at h
  split at h
  · cases h; simp [IoError.kind] at he
  · split at h
    · cases h
    · cases h
    · rename_i hg; cases h; simp [hg]

theorem grants_writeAt_ok {disk disk' : Disk} {file : Location} {position count : Nat} {data : Bytes}
    (h : disk.writeAt file position data = (.ok count, disk')) : disk'.grants.length ≤ disk.grants.length := by
  unfold writeAt at h
  split at h
  · cases h
  · split at h
    · cases h; exact Nat.le_refl _
    · rename_i hg; cases h; simp [hg]
    · cases h

theorem grants_writeAt_error {disk disk' : Disk} {file : Location} {position : Nat} {data : Bytes} {e : IoError}
    (h : disk.writeAt file position data = (.error e, disk')) (he : e.kind = .interrupted) :
    disk'.grants.length < disk.grants.length := by
  unfold writeAt at h
  split at h
  · cases h; simp [IoError.kind] at he
  · split at h
    · cases h
    · cases h
    · rename_i hg; cases h; simp [hg]

end Disk

end Conduit
