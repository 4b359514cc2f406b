import WindowForest.Hierarchy.Layout

/-!
# Moves

A container is attached to a parent, detached from it, moved to another parent,
or moved among its siblings. Each move is first checked as a whole and then
carried out. A container that comes to a display it was not on before reports
this to its hook, and so does every container below it.
-/

set_option autoImplicit false

namespace WindowForest

namespace Hierarchy

variable {η : Type}

/-- Refuses to put a container under a parent that is not there, that lies below the container
itself, or that does not hold containers of its kind. -/
def checkPlacement (h : Hierarchy η) (node parent : Key) : Except Error Unit :=
  match h.kindOf parent with
  | none => .error (.missing parent)
  | some parentKind =>
    if h.forest.isAncestor node parent then .error (.ownSubtree node)
    else
      match h.kindOf node with
      | none => .error (.gone node)
      | some kind =>
        if parentKind.canContain kind then .ok () else .error (.misfit parentKind kind)

/-- Moves a container in the tree, and nothing else. -/
def place (h : Hierarchy η) (node parent : Key) (pos : Nat) : Hierarchy η :=
  { h with tree := h.tree.place node parent pos }

/-- The reports of a container and all below it that they are now on `display`. -/
def displayCalls (h : Hierarchy η) (top display : Key) : List Call :=
  ((h.forest.preorder top).filter (· ∈ h.records.hooks)).map fun k =>
    .displayChanged k display h.forest

/-- The reports that are due after a move, given the display that the container was on before. -/
def moveCalls (h : Hierarchy η) (node : Key) (before : Option Key) : List Call :=
  match h.displayOf node with
  | none => []
  | some display => if before = some display then [] else h.displayCalls node display

/-- Completes a move: lays out what was moved and reports a change of display. -/
def finishMove (h : Hierarchy η) (node : Key) (before : Option Key) : Outcome η Unit :=
  (h.layOut node).finish () ((h.layOut node).moveCalls node before)

/-- Refuses to attach a container that has a parent or cannot go under the new one. -/
def checkAttach (h : Hierarchy η) (node parent : Key) : Except Error Unit :=
  match h.checkLive node with
  | .error e => .error e
  | .ok () =>
    match h.forest.parent node with
    | some current => .error (.attachedAlready node current)
    | none => h.checkPlacement node parent

/-- Puts a container without parent under `parent`, at the position `pos`. Positions past the end
append. -/
def attach (h : Hierarchy η) (node parent : Key) (pos : Nat) : Outcome η Unit :=
  h.guarded (h.checkAttach node parent) <|
    (h.place node parent pos).finishMove node (h.displayOf node)

/-- Refuses to detach a container that waits to be removed. -/
def checkDetach (h : Hierarchy η) (node : Key) : Except Error Unit :=
  match h.checkLive node with
  | .error e => .error e
  | .ok () =>
    match h.forest.parent node with
    | none => .ok ()
    | some parent =>
      if h.isPending node then .error (.removalPending node parent) else .ok ()

/-- Takes a container from its parent, together with all below it. A container without parent is
left as it is. -/
def detach (h : Hierarchy η) (node : Key) : Outcome η Unit :=
  h.guarded (h.checkDetach node) <|
    match h.forest.parent node with
    | none => h.finish ()
    | some _ => ({ h with tree := h.tree.uproot node }.layOut node).finish ()

/-- Refuses to move a container to its own parent or away from any display. -/
def checkReparent (h : Hierarchy η) (node target : Key) : Except Error Unit :=
  match h.checkLive node with
  | .error e => .error e
  | .ok () =>
    if ¬ h.contains target then .error (.missing target)
    else if h.forest.parent node = some target then .error (.childAlready node target)
    else if h.displayOf target = none then .error (.offDisplay target)
    else h.checkPlacement node target

/-- Makes a container active all the way up to its root. -/
def select (h : Hierarchy η) (node : Key) : Hierarchy η :=
  h.updateRecords fun r => { r with focus := r.focus.select h.forest node }

/-- Moves a container under another parent, at the position `pos`. It no longer waits to be removed
afterwards. With `activate`, it also becomes active all the way up. -/
def reparent (h : Hierarchy η) (node target : Key) (pos : Nat) (activate : Bool) :
    Outcome η Unit :=
  h.guarded (h.checkReparent node target) <|
    let moved := (h.place node target pos).updateContainer node fun c => { c with pending := false }
    (if activate then moved.select node else moved).finishMove node (h.displayOf node)

/-- Refuses to position a container that has no siblings to stand among. -/
def checkPosition (h : Hierarchy η) (node : Key) : Except Error Unit :=
  match h.checkLive node with
  | .error e => .error e
  | .ok () => if h.forest.parent node = none then .error (.noParent node) else .ok ()

/-- Moves a container to the position `pos` among its siblings. -/
def position (h : Hierarchy η) (node : Key) (pos : Nat) : Outcome η Unit :=
  h.guarded (h.checkPosition node) <|
    match h.forest.parent node with
    | none => h.finish ()
    | some parent => (h.place node parent pos).finish ()

end Hierarchy

end WindowForest
