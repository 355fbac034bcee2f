import Rill.Files.Path

/-!
# Access to files

What the program asks of files : whether a path is a file or a directory, the text of a file, and
all paths below a directory. Everything above works over any answer to these questions, be it a tree
of files in memory (`Rill.FileTree`) or the files of a machine.
-/

namespace Rill

/-- Why the text of a file cannot be read. -/
inductive ReadError where
  | notFound
  | isDirectory
  | notDirectory
  | notText
  | other (reason : String)
deriving DecidableEq, Repr

/-- The wording of a read error. -/
def ReadError.message : ReadError → String
  | .notFound => "No such file or directory (os error 2)"
  | .isDirectory => "Is a directory (os error 21)"
  | .notDirectory => "Not a directory (os error 20)"
  | .notText => "stream did not contain valid UTF-8"
  | .other reason => reason

/-- That a path meets more links than are followed. -/
def ReadError.tooManyLinks : ReadError := .other "Too many levels of symbolic links (os error 40)"

/-- The text of some bytes. -/
def ReadError.decode (bytes : ByteArray) : Except ReadError String :=
  match String.fromUTF8? bytes with
  | some text => .ok text
  | none => .error .notText

/-- Access to files. `walk` lists a directory and all that lies below it, a directory before what
it holds and names in order; below the start it goes into no link. -/
structure FileAccess (m : Type → Type) where
  isFile : String → m Bool
  isDir : String → m Bool
  read : String → m (Except ReadError String)
  walk : String → m (List String)

end Rill
