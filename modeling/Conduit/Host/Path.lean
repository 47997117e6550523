import Conduit.Error.Io

/-!
# Paths

A path is a text of names with slashes between them.  Read from left to right it leads from the working directory, or
from the root if it begins with a slash, through directories to its last name.  `Path.parse` takes the text apart;
`Path.joinSlashes_splitSlashes` says that nothing is lost when a text is cut at its slashes.
-/

namespace Conduit

/-- A directory: the root of all, or the one that lies so many levels above the working directory. -/
inductive Directory where
  | root
  | above (levels : Nat)
deriving DecidableEq, Repr

namespace Directory

def working : Directory := above 0

def parent : Directory → Directory
  | root => root
  | above levels => above (levels + 1)

end Directory

/-- Where a file is: in which directory and under which name. -/
structure Location where
  directory : Directory
  name : String
deriving DecidableEq, Repr

/-- A path taken apart: the directory where it starts, the names up to the last one, that one, if there is any name at
all, and whether a slash follows it. -/
structure Path where
  start : Directory
  way : List String
  last : Option String
  slash : Bool
deriving DecidableEq, Repr

namespace Path

/-- A path has fewer bytes than this. -/
def sizeLimit : Nat := 4096

/-- A name in a path has at most so many bytes. -/
def nameLimit : Nat := 255

/-- The pieces of a text between its slashes; there is one more of them than there are slashes. -/
def splitSlashes : List Char → List (List Char)
  | [] => [[]]
  | c :: text =>
    if c = '/' then [] :: splitSlashes text
    else match splitSlashes text with
      | [] => [[c]]
      | piece :: pieces => (c :: piece) :: pieces

/-- The text with the given pieces between its slashes. -/
def joinSlashes : List (List Char) → List Char
  | [] => []
  | [piece] => piece
  | piece :: pieces => piece ++ '/' :: joinSlashes pieces

/-- The names in a path: its pieces, without the empty ones between slashes that follow each other. -/
def names (text : List Char) : List String :=
  ((splitSlashes text).filter (!·.isEmpty)).map String.ofList

/-- Takes a path apart.  It must not contain a zero, and must not be too long. -/
def parse (text : String) : Except IoError Path :=
  if text.toList.contains '\x00' then .error .zeroInPath
  else if sizeLimit ≤ text.utf8ByteSize then .error (.ofDisk .invalidFilename)
  else .ok {
    start := if text.toList.head? = some '/' then .root else .working
    way := (names text.toList).dropLast
    last := (names text.toList).getLast?
    slash := text.toList.getLast? = some '/' }

theorem splitSlashes_ne_nil (text : List Char) : splitSlashes text ≠ [] := by
  cases text with
  | nil => simp [splitSlashes]
  | cons c text =>
    rw [splitSlashes]
    split
    · simp
    · split <;> simp

theorem joinSlashes_splitSlashes (text : List Char) : joinSlashes (splitSlashes text) = text := by
  induction text with
  | nil => rfl
  | cons c text ih =>
    obtain ⟨piece, pieces, hp⟩ := List.exists_cons_of_ne_nil (splitSlashes_ne_nil text)
    rw [hp] at ih
    by_cases hc : c = '/'
    · simp [splitSlashes, hc, hp, joinSlashes, ih]
    · have hs : splitSlashes (c :: text) = (c :: piece) :: pieces := by simp [splitSlashes, hc, hp]
      rw [hs]
      cases pieces with
      | nil => simpa [joinSlashes] using ih
      | cons next pieces => simpa [joinSlashes] using ih

theorem slash_notMem_of_mem_splitSlashes {text piece : List Char} (h : piece ∈ splitSlashes text) :
    '/' ∉ piece := by
  induction text generalizing piece with
  | nil => simp_all [splitSlashes]
  | cons c text ih =>
    obtain ⟨first, pieces, hp⟩ := List.exists_cons_of_ne_nil (splitSlashes_ne_nil text)
    rw [hp] at ih
    by_cases hc : c = '/'
    · simp only [splitSlashes, hc, if_true, hp] at h
      rcases List.mem_cons.1 h with rfl | h
      · simp
      · exact ih h
    · simp only [splitSlashes, hc, if_false, hp] at h
      rcases List.mem_cons.1 h with rfl | h
      · simpa [Ne.symm hc] using ih List.mem_cons_self
      · exact ih (List.mem_cons_of_mem _ h)

end Path

end Conduit
