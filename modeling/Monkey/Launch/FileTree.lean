import Monkey.Text.Quoted

/-!
# File trees

A tree of files held in memory, with the directory that paths start from. A place in the tree is the list of names
that lead to it from the root. `FileTree.walk` follows a path name by name: each place on the way has to be a
directory, `.` and an empty name stay, and `..` goes up, where the root is above itself.
-/

namespace Monkey

/-- Why a file cannot be opened. -/
inductive FileProblem where
  | notFound
  | isDirectory
  | notADirectory
  | nameTooLong
deriving DecidableEq

/-- The words for a path that cannot be opened. -/
def FileProblem.message (p : FileProblem) (path : String) : String :=
  let what :=
    match p with
    | .notFound => "FileNotFoundError: [Errno 2] No such file or directory: "
    | .isDirectory => "IsADirectoryError: [Errno 21] Is a directory: "
    | .notADirectory => "NotADirectoryError: [Errno 20] Not a directory: "
    | .nameTooLong => "OSError: [Errno 36] File name too long: "
  what ++ quoted path

/-- What can stand at a place. -/
inductive Entry where
  | file (bytes : List UInt8)
  | directory

/-- A tree of files: what stands at some places, and the place that paths start from. -/
structure FileTree where
  entries : List (List String × Entry)
  current : List String

namespace FileTree

/-- The most bytes that a name may have. -/
def maxNameBytes : Nat := 255

/-- The most bytes that a path may have. -/
def maxPathBytes : Nat := 4095

/-- What stands at a place. The current place, and one with something below it, are directories. -/
def entry? (t : FileTree) (place : List String) : Option Entry :=
  match t.entries.find? (·.1 = place) with
  | some (_, e) => some e
  | none =>
    if place.isPrefixOf t.current || t.entries.any fun (p, _) => place.isPrefixOf p then some .directory else none

/-- The place that names lead to from another one. -/
def walk (t : FileTree) : List String → List String → Except FileProblem (List String)
  | place, [] => .ok place
  | place, name :: names =>
    match t.entry? place with
    | none => .error .notFound
    | some (.file _) => .error .notADirectory
    | some .directory =>
      if name = "" || name = "." then t.walk place names
      else if name = ".." then t.walk place.dropLast names
      else if maxNameBytes < name.utf8ByteSize then .error .nameTooLong
      else t.walk (place ++ [name]) names

/-- The place at which a path starts. -/
def origin (t : FileTree) (path : String) : List String :=
  if path.startsWith "/" then [] else t.current

/-- The bytes of the file at a path. -/
def read (t : FileTree) (path : String) : Except FileProblem (List UInt8) :=
  if path.isEmpty then .error .notFound
  else if maxPathBytes < path.utf8ByteSize then .error .nameTooLong
  else
    match t.walk (t.origin path) (path.splitOn "/") with
    | .error p => .error p
    | .ok place =>
      match t.entry? place with
      | none => .error .notFound
      | some (.file bytes) => .ok bytes
      | some .directory => .error .isDirectory

end FileTree

end Monkey
