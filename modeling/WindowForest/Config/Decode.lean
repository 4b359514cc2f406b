import WindowForest.Config.Error

/-!
# Reading a configuration from a document

The entries of a table are read in the order of their keys, and the first one
that does not fit decides. Settings that are not given keep their defaults. The
settings may also be given as an array that lists their values in the order in
which they are written.
-/

set_option autoImplicit false

namespace WindowForest.Config

open Toml (Value Entries)

/-- The mode with a given name, unless no mode has that name. -/
def modeOfName (name : String) : Except Misfit Mode :=
  match Mode.ofName? name with
  | some m => .ok m
  | none => .error (.unknownMode name)

/-- Refuses any value of a mode but an empty table or an empty array. -/
def checkModeValue : Value → Except Misfit Unit
  | .table _ entries => if entries.isEmpty then .ok () else .error .modeWithEntries
  | .array items => if items.isEmpty then .ok () else .error .modeWithItems
  | .tables _ _ => .error .modeWithItems
  | .text _ => .error (.modeWithValue "string")
  | .integer _ => .error (.modeWithValue "integer")
  | .real _ => .error (.modeWithValue "float")
  | .boolean _ => .error (.modeWithValue "boolean")
  | .moment _ => .error (.modeWithValue "datetime")

/-- A mode, given by its name or as the only key of a table. -/
def decodeMode : Value → Except Misfit Mode
  | .text s => modeOfName s
  | .table _ [] => .error .modeMissing
  | .table _ [(name, v)] => do
    let m ← modeOfName name
    checkModeValue v
    return m
  | .table _ _ => .error .modeAmbiguous
  | _ => .error .modeNeitherTextNorTable

/-- A truth value. -/
def decodeBool : Value → Except Misfit Bool
  | .boolean b => .ok b
  | v => .error (mistyped v .boolean)

/-- A whole number of 32 bits. -/
def decodeInt32 : Value → Except Misfit Int32
  | .integer (some n) =>
    if fitsSigned 32 n then .ok (Int32.ofInt n)
    else if fits64 n then .error (.outOfRange n)
    else .error (mistyped (.integer (some n)) .int32)
  | v => .error (mistyped v .int32)

/-- Gives a setting the value that is written for it. -/
def assign (s : Settings) (setting : Setting) (v : Value) : Except Misfit Settings :=
  match setting with
  | .defaultMode => (decodeMode v).map fun m => { s with defaultMode := m }
  | .freeformEnabled => (decodeBool v).map fun b => { s with freeformEnabled := b }
  | .defaultWidth => (decodeInt32 v).map fun n => { s with defaultWidth := n }
  | .defaultHeight => (decodeInt32 v).map fun n => { s with defaultHeight := n }

/-- Gives the setting with a given key the value that is written for it. -/
def assignKey (s : Settings) (entry : String × Value) : Except Misfit Settings :=
  match Setting.ofKey? entry.1 with
  | some setting => assign s setting entry.2
  | none => .error (.unknownKey entry.1 .settings)

/-- Settings given as the entries of a table. -/
def decodeEntries (entries : Entries) : Except Misfit Settings := entries.foldlM assignKey {}

/-- Settings given as the items of an array. Items past the last setting are not looked at. -/
def decodeItems (items : List Value) : Except Misfit Settings :=
  (Setting.all.zip items).foldlM (fun s (setting, v) => assign s setting v) {}

/-- The key under which a date or time appears where a table is expected. -/
def momentKey : String := "$__toml_private_datetime"

/-- Settings, given as a table or an array. -/
def decodeSettings : Value → Except Misfit Settings
  | .table _ entries => decodeEntries entries
  | .array items => decodeItems items
  | .tables earlier last => decodeItems ((earlier ++ [last]).map (.table .header))
  | .moment _ => .error (.unknownKey momentKey .settings)
  | v => .error (mistyped v .settings)

/-- Takes one entry of a document into account. -/
def decodeEntry (c : Config) (entry : String × Value) : Except Misfit Config :=
  if entry.1 = settingsKey then (decodeSettings entry.2).map fun s => { c with settings := s }
  else .error (.unknownKey entry.1 .document)

/-- The configuration that a document describes. -/
def decode (entries : Entries) : Except Misfit Config := entries.foldlM decodeEntry {}

end WindowForest.Config
