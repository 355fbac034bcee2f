import Rill.Files.Access

/-!
# File trees

A tree of files in memory, with access to its files. Besides files and directories there are links
and whatever else a directory may hold, such as a pipe. What a read of a file or of anything else
gives is part of the tree : its bytes, or why they cannot be read.

Paths are resolved from the root of the tree one segment at a time; the directory above the root is
empty. A link is followed wherever a path meets it, also at the end, but a walk goes into no link
below its start. A path that meets too many links leads nowhere.
-/

namespace Rill

/-- What a name stands for : a file, a directory, a link to a path, or anything else. -/
inductive FileTree where
  | file (content : Except ReadError ByteArray)
  | dir (entries : List (String × FileTree))
  | link (target : String)
  | special (content : Except ReadError ByteArray)

namespace FileTree

/-- The entries of a directory, none of anything else. -/
def entries : FileTree → List (String × FileTree)
  | .dir es => es
  | _ => []

/-- Puts an entry into its place by name, over one of the same name. -/
def insertEntry (name : String) (tree : FileTree) :
    List (String × FileTree) → List (String × FileTree)
  | [] => [(name, tree)]
  | (other, old) :: rest =>
    if name = other then (name, tree) :: rest
    else if name < other then (name, tree) :: (other, old) :: rest
    else (other, old) :: insertEntry name tree rest

/-- Puts a tree at a path of names; directories on the way are made. -/
def insert (leaf : FileTree) : List String → FileTree → FileTree
  | [], _ => leaf
  | name :: path, tree =>
    let inner := (tree.entries.lookup name).getD (.dir [])
    .dir (insertEntry name (insert leaf path inner) tree.entries)

/-- Makes a directory at a path of names, unless something is there. -/
def makeDir : List String → FileTree → FileTree
  | [], tree => tree
  | name :: path, tree =>
    let inner := (tree.entries.lookup name).getD (.dir [])
    .dir (insertEntry name (makeDir path inner) tree.entries)

/-- Makes the directory at each segment of a way that starts at a path of names, and gives the names
at its end. A directory that the way only passes through on its way up is made too. -/
def makeWay : List String → List String → FileTree → List String × FileTree
  | place, [], tree => (place, tree)
  | place, segment :: rest, tree =>
    let next := Path.enter place segment
    makeWay next rest (tree.makeDir next)

/-- Puts something at a path. -/
def add (tree : FileTree) (path : String) (leaf : FileTree) : FileTree :=
  let segments := Path.segments path
  let (place, tree) := makeWay [] segments.dropLast tree
  insert leaf (segments.getLast?.elim place (Path.enter place)) tree

/-- Adds a file that can be read. -/
def addFile (path : String) (bytes : ByteArray) (tree : FileTree) : FileTree :=
  tree.add path (.file (.ok bytes))

/-- Adds a directory, unless something is there. -/
def addDir (path : String) (tree : FileTree) : FileTree :=
  (makeWay [] (Path.segments path) tree).2

/-! ## Paths that are followed -/

/-- Follows segments from a tree, given the directories above it. What a link leads to
is said by `onLink`, for its target, the segments behind it, and the directory that
holds it with those above. -/
def followWith
    (onLink : String → List String → List FileTree → FileTree → Except ReadError FileTree) :
    List String → List FileTree → FileTree → Except ReadError FileTree
  | [], _, tree => .ok tree
  | segment :: rest, above, .dir es =>
    if Path.isIdle segment then followWith onLink rest above (.dir es)
    else if segment = ".." then
      match above with
      | [] => followWith onLink rest [] (.dir [])
      | up :: above => followWith onLink rest above up
    else
      match es.lookup segment with
      | none => .error .notFound
      | some (.link target) => onLink target rest above (.dir es)
      | some inner => followWith onLink rest (.dir es :: above) inner
  | _ :: _, _, _ => .error .notDirectory

/-- Where a link in a directory leads, with the segments behind it, if so many links may be
followed. The target is followed from the directory, or from the root if it starts with a slash. -/
def atLink (root : FileTree) :
    Nat → String → List String → List FileTree → FileTree → Except ReadError FileTree
  | 0, _, _, _, _ => .error .tooManyLinks
  | n + 1, target, rest, above, here =>
    if target.toList.head? = some '/' then
      followWith (atLink root n) (Path.segments target ++ rest) [] root
    else followWith (atLink root n) (Path.segments target ++ rest) above here

/-- The number of links that a path may meet. -/
def maxLinks : Nat := 40

/-- What lies at a path, with links followed. -/
def resolve (tree : FileTree) (path : String) : Except ReadError FileTree :=
  if path = "" then .error .notFound
  else followWith (atLink tree maxLinks) (Path.segments path) [] tree

/-- Whether a path leads to a file. -/
def isFile (tree : FileTree) (path : String) : Bool :=
  match tree.resolve path with
  | .ok (.file _) => true
  | _ => false

/-- Whether a path leads to a directory. -/
def isDir (tree : FileTree) (path : String) : Bool :=
  match tree.resolve path with
  | .ok (.dir _) => true
  | _ => false

/-- What a read gives. -/
def content : FileTree → Except ReadError ByteArray
  | .file content | .special content => content
  | .dir _ => .error .isDirectory
  | .link _ => .error .notFound

/-- The text at a path. -/
def read (tree : FileTree) (path : String) : Except ReadError String := do
  ReadError.decode (← (← tree.resolve path).content)

/-! ## Walks -/

mutual

/-- A tree at a path and all that lies below it, each with its path. -/
def located (path : String) : FileTree → List (String × FileTree)
  | .dir es => (path, .dir es) :: locatedEntries path es
  | leaf => [(path, leaf)]

/-- The entries of a directory and all that lies below them, each with its path. -/
def locatedEntries (path : String) : List (String × FileTree) → List (String × FileTree)
  | [] => []
  | (name, tree) :: rest => located (Path.join path name) tree ++ locatedEntries path rest

end

/-- All paths at and below a path. -/
def walk (tree : FileTree) (path : String) : List String :=
  match tree.resolve path with
  | .ok found => (located path found).map Prod.fst
  | .error _ => []

/-- Access to the files of the tree. -/
def access (tree : FileTree) : FileAccess Id where
  isFile path := tree.isFile path
  isDir path := tree.isDir path
  read path := tree.read path
  walk path := tree.walk path

end FileTree

end Rill
