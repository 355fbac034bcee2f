import Rill.Files.Access
import Rill.Toml.Reader

/-!
# Settings

The settings are read from a TOML document with two sections : `interpreter` holds `max_call_depth`,
and `dump` holds `show_ranges`. All of it is optional, nothing else is allowed, and the call depth
is at least one. A section is a table; an array in its place gives the values of its keys in order.
-/

namespace Rill

/-- The settings of a run. -/
structure Config where
  maxCallDepth : Nat := 256
  showRanges : Bool := true
deriving DecidableEq, Repr

/-- Why there are no settings. -/
inductive ConfigError where
  | unreadable (path : String) (reason : ReadError)
  | invalid (path : String)
  | zeroCallDepth
deriving DecidableEq, Repr

/-- The wording of a settings error. -/
def ConfigError.message : ConfigError → String
  | .unreadable path reason => s!"cannot read config {path}: {reason.message}"
  | .invalid path => s!"invalid config {path}"
  | .zeroCallDepth => "max_call_depth must be at least 1"

namespace Config

/-- The items of a section under its keys, in the order of the keys. -/
def fields? (keys : List String) : Toml.Item → Option (List (Option Toml.Item))
  | .table _ entries =>
    if entries.all fun (name, _) => keys.contains name then
      some (keys.map fun key => entries.lookup key)
    else none
  | .array items => some ((List.range keys.length).map fun i => items[i]?)
  | .tables last earlier =>
    let items := (earlier.reverse ++ [last]).map (Toml.Item.table .header)
    some ((List.range keys.length).map fun i => items[i]?)
  | _ => none

/-- A setting that is a number. -/
def number? (default : Nat) : Option Toml.Item → Option Nat
  | none => some default
  | some (.int i) => if 0 ≤ i then some i.toNat else none
  | some _ => none

/-- A setting that is a truth value. -/
def flag? (default : Bool) : Option Toml.Item → Option Bool
  | none => some default
  | some (.bool b) => some b
  | some _ => none

/-- The items of a section that may be missing. -/
def optionalFields? (keys : List String) : Option Toml.Item → Option (List (Option Toml.Item))
  | none => some (keys.map fun _ => none)
  | some item => fields? keys item

/-- The settings that a document holds. -/
def ofToml? (document : Toml.Item) : Option Config := do
  let sections ← fields? ["interpreter", "dump"] document
  let interpreter ← optionalFields? ["max_call_depth"] (sections[0]?.join)
  let dump ← optionalFields? ["show_ranges"] (sections[1]?.join)
  let maxCallDepth ← number? 256 (interpreter[0]?.join)
  let showRanges ← flag? true (dump[0]?.join)
  return ⟨maxCallDepth, showRanges⟩

/-- Reads settings from the text of the file at a path. -/
def ofText (text path : String) : Except ConfigError Config :=
  match (Toml.read? text).bind ofToml? with
  | none => .error (.invalid path)
  | some config => if config.maxCallDepth = 0 then .error .zeroCallDepth else .ok config

end Config

end Rill
