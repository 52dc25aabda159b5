import RefGraph.Path

/-!
# File systems

What the program needs of a file system: listing a directory, reading a file, and telling files and
directories apart. Everything above this module works on any value of `FileSystem`.
-/

namespace RefGraph

/-- Why an operation on a file system failed. -/
inductive FileError where
  | noSuchDirectory (path : Path)
  | noSuchFile (path : Path)
  | notFound
  | notADirectory
  | isADirectory
  | tooManyLinks
  | alreadyExists
  | invalidUtf8
deriving DecidableEq, Repr, Inhabited

/-- The text of an error. -/
def FileError.message : FileError → String
  | noSuchDirectory path => "no such directory: " ++ path.text
  | noSuchFile path => "no such file: " ++ path.text
  | notFound => "No such file or directory (os error 2)"
  | notADirectory => "Not a directory (os error 20)"
  | isADirectory => "Is a directory (os error 21)"
  | tooManyLinks => "Too many levels of symbolic links (os error 40)"
  | alreadyExists => "File exists (os error 17)"
  | invalidUtf8 => "stream did not contain valid UTF-8"

/-- A child of a directory. -/
structure Entry where
  path : Path
  name : String
  isDir : Bool
deriving DecidableEq, Repr, Inhabited

/-- A file system. No chain of directories, each of them listed in the one before, is longer than
`depth`. -/
structure FileSystem where
  list : Path → Except FileError (List Entry)
  read : Path → Except FileError String
  isDir : Path → Bool
  isFile : Path → Bool
  depth : Nat

end RefGraph
