import WindowForest.Toml.Value

/-!
# Building tables

The parts of a document add to its tables one after the other. An entry is never
replaced. A table may be added to from another place of the document only in
some styles: a header may open a table that was only implied so far, and a
dotted key may add to a table that has not been opened by a header. Whatever
goes against this makes the document malformed.
-/

set_option autoImplicit false

namespace WindowForest.Toml

/-- Changes the entry under a key, given what it is so far. The entries stay in the order of their
keys. If the change is refused, so is the whole. -/
def alterEntry (key : String) (change : Option Value → Option Value) : Entries → Option Entries
  | [] => (change none).map fun v => [(key, v)]
  | (k, v) :: rest =>
    if key = k then (change (some v)).map fun v => (k, v) :: rest
    else if key < k then (change none).map fun new => (key, new) :: (k, v) :: rest
    else (alterEntry key change rest).map fun rest => (k, v) :: rest

/-- Adds an entry under a key that has none so far. -/
def addEntry (key : String) (v : Value) : Entries → Option Entries :=
  alterEntry key fun
    | none => some v
    | some _ => none

/-- Changes the table that a path leads to, given its style. Tables missing on the way are added in
the style `via`. The way leads through the last table of an array of tables. It does not lead
through tables that are written out between braces, nor, along a dotted key, through tables with a
header of their own. -/
def alterTable (via : Style) (change : Style → Entries → Option Entries) :
    List String → Style → Entries → Option Entries
  | [], style, entries => change style entries
  | key :: path, _, entries =>
    alterEntry key (fun
      | none => (alterTable via change path via []).map (.table via)
      | some (.table .inline _) => none
      | some (.table .header inner) =>
        if via = .dotted then none
        else (alterTable via change path .header inner).map (.table .header)
      | some (.table .implied inner) =>
        (alterTable via change path .implied inner).map (.table .implied)
      | some (.table .dotted inner) =>
        (alterTable via change path .dotted inner).map (.table .dotted)
      | some (.tables earlier last) =>
        (alterTable via change path .header last).map (.tables earlier)
      | some _ => none) entries

/-- Adds the entry of a dotted key to a table. A key of several parts adds to a table that came
about through dotted keys, and only to such a table. -/
def assign (path : List String) (key : String) (v : Value) : Style → Entries → Option Entries :=
  alterTable .dotted
    (fun style entries =>
      if style = .dotted ↔ path ≠ [] then addEntry key v entries else none)
    path

/-- Opens a table by its header. -/
def openTable (path : List String) (key : String) (entries : Entries) : Option Entries :=
  alterTable .implied
    (fun _ => alterEntry key fun
      | none => some (.table .header [])
      | some (.table .implied inner) => some (.table .header inner)
      | some _ => none)
    path .header entries

/-- Adds one more table to an array of tables by its header. -/
def openElement (path : List String) (key : String) (entries : Entries) : Option Entries :=
  alterTable .implied
    (fun _ => alterEntry key fun
      | none => some (.tables [] [])
      | some (.tables earlier last) => some (.tables (earlier ++ [last]) [])
      | some _ => none)
    path .header entries

/-- Adds an entry to the table that the path of a header leads to. -/
def assignUnder (header path : List String) (key : String) (v : Value) (entries : Entries) :
    Option Entries :=
  alterTable .implied (assign path key v) header .header entries

end WindowForest.Toml
