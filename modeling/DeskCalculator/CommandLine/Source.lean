/-!
# Sources of input

The input of a run comes from a file, from the text argument or from the standard
input.  Reading it can fail, for a cause that is reported in words.

A folder is given by its files.  Reading a path from it fails for the causes that
a file system reports.
-/

namespace DeskCalculator
namespace CommandLine

/-- Where the input comes from. -/
inductive Source where
  /-- A file. -/
  | file (path : String)
  /-- The text argument. -/
  | text (contents : String)
  /-- The standard input. -/
  | standardInput
  deriving DecidableEq, Repr

/-- Why a file cannot be read. -/
inductive ReadFailure where
  /-- The path names nothing. -/
  | noSuchFile
  /-- The path names a folder. -/
  | isFolder
  /-- The path goes through a file as if it were a folder. -/
  | notAFolder
  /-- The bytes do not encode a text. -/
  | notText
  /-- Any other cause. -/
  | other (cause : String)
  deriving DecidableEq, Repr

/-- The text of a cause. -/
def ReadFailure.message : ReadFailure → String
  | .noSuchFile => "No such file or directory (os error 2)"
  | .isFolder => "Is a directory (os error 21)"
  | .notAFolder => "Not a directory (os error 20)"
  | .notText => "stream did not contain valid UTF-8"
  | .other cause => cause

/-! ## Folders -/

/-- A folder: the paths of its files, as lists of names, and their contents. -/
structure Folder where
  /-- The files. -/
  files : List (List String × String)

namespace Folder

/-- The names that a path is made of. -/
def names (path : String) : List String :=
  path.splitOn "/"

/-- Where the names read so far lead to. -/
inductive Place where
  /-- A folder inside this one, given by its names from the inside out. -/
  | inside (names : List String)
  /-- A folder that contains this one. -/
  | outside
  /-- A file. -/
  | file (contents : String)

/-- The place that a name leads to from a folder inside this one. -/
def enter (f : Folder) (position : List String) (name : String) : Except ReadFailure Place :=
  let path := (name :: position).reverse
  match f.files.lookup path with
  | some contents => .ok (.file contents)
  | none =>
    if f.files.any fun file => path.isPrefixOf file.1 then .ok (.inside (name :: position))
    else .error .noSuchFile

/-- The place that one name leads to.  An empty name and `.` stay in a folder, and
`..` leaves it. -/
def follow (f : Folder) (place : Place) (name : String) : Except ReadFailure Place :=
  match place with
  | .file _ => .error .notAFolder
  | .outside => if name = "" ∨ name = "." ∨ name = ".." then .ok .outside else .error .noSuchFile
  | .inside position =>
    if name = "" ∨ name = "." then .ok place
    else if name = ".." then
      match position with
      | [] => .ok .outside
      | _ :: outer => .ok (.inside outer)
    else f.enter position name

/-- The contents of the file at a path. -/
def read (f : Folder) (path : String) : Except ReadFailure String := do
  if path.isEmpty then .error .noSuchFile
  else
    let start : Place := if path.startsWith "/" then .outside else .inside []
    match ← (names path).foldlM f.follow start with
    | .file contents => .ok contents
    | _ => .error .isFolder

end Folder

end CommandLine
end DeskCalculator
