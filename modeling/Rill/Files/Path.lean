/-!
# Paths

A path is a text of segments with slashes in between. Empty segments and dots name nothing,
apart from a dot that a relative path starts with; they are passed over when the last part
of a path is looked for.
-/

namespace Rill.Path

/-- The segments of a path. -/
def segments (path : String) : List String := (path.toList.splitOn '/').map String.ofList

/-- Whether a segment names nothing by itself. -/
def isIdle (segment : String) : Bool := segment = "" || segment = "."

/-- Where a segment leads from a path of names : into a directory, one level up, or nowhere else. -/
def enter (names : List String) (segment : String) : List String :=
  if isIdle segment then names
  else if segment = ".." then names.dropLast
  else names ++ [segment]

/-- Drops the idle segments at the end, but never the first segment. -/
def trimIdle : List String → List String
  | [] => []
  | first :: rest => first :: (rest.reverse.dropWhile isIdle).reverse

/-- A path from its segments. A lone empty segment before others stands for the root. -/
def ofSegments : List String → String
  | [""] => "/"
  | segments => "/".intercalate segments

/-- The path without its last part; the empty path and the root have none. -/
def parent? (path : String) : Option String :=
  match trimIdle (segments path) with
  | [] => none
  | [""] => none
  | [_] => some ""
  | parts => some (ofSegments (trimIdle parts.dropLast))

/-- A relative path appended to a path. -/
def join (path name : String) : String :=
  if path = "" then name
  else if path.toList.getLast? = some '/' then path ++ name
  else path ++ "/" ++ name

/-- The last part of a path, if it is a name. -/
def fileName? (path : String) : Option String :=
  match (trimIdle (segments path)).getLast? with
  | none => none
  | some name => if isIdle name || name = ".." then none else some name

/-- What follows the last dot of a name; a dot at its start does not count. -/
def extension? (path : String) : Option String := do
  let name ← fileName? path
  let after := (name.toList.reverse.takeWhile (· != '.')).reverse
  guard (after.length + 1 < name.length)
  return String.ofList after

end Rill.Path
