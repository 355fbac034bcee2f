import Rill.Config.Basic

/-!
# Finding settings

The settings for a file come from the nearest `rill.toml` in its directory or above it, as far up as
its path says, unless a file of settings is named. Without any file the defaults hold.
-/

namespace Rill.Config

variable {m : Type → Type} [Monad m]

/-- The name of the file that holds settings. -/
def fileName : String := "rill.toml"

/-- Reads the settings in a file. -/
def load (fs : FileAccess m) (path : String) : m (Except ConfigError Config) := do
  match ← fs.read path with
  | .ok text => return ofText text path
  | .error reason => return .error (.unreadable path reason)

/-- The nearest file of settings in a directory or above it, at most so many levels up. -/
def findAbove (fs : FileAccess m) : Nat → String → m (Option String)
  | 0, _ => return none
  | n + 1, directory => do
    let candidate := Path.join directory fileName
    if ← fs.isFile candidate then return some candidate
    else
      match Path.parent? directory with
      | none => return none
      | some above => findAbove fs n above

/-- The nearest file of settings for a file or a directory. -/
def find? (fs : FileAccess m) (path : String) : m (Option String) := do
  let levels := path.length + 2
  if ← fs.isFile path then
    match Path.parent? path with
    | none => return none
    | some directory => findAbove fs levels directory
  else findAbove fs levels path

/-- The file that settings come from : the named one, or else the nearest one. -/
def locate (fs : FileAccess m) (named : Option String) (path : String) : m (Option String) :=
  match named with
  | some file => return some file
  | none => find? fs path

/-- The settings in the named file, or else in the nearest one, or else the defaults. -/
def discover (fs : FileAccess m) (named : Option String) (path : String) :
    m (Except ConfigError Config) := do
  match ← locate fs named path with
  | some file => load fs file
  | none => return .ok {}

end Rill.Config
