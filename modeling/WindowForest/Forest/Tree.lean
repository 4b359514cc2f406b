import WindowForest.Forest.Walk

/-!
# Trees with an observer

A tree is a forest together with an observer that is told about every change of
structure. The observer sees the forest as it is at that moment: a node that
comes under a parent is already linked, one that leaves its parent is still
linked, and a removed one is already gone.

Moving a node within its parent's list is no change that is told.
-/

set_option autoImplicit false

namespace WindowForest

/-- The kinds of change that an observer is told about. -/
inductive Change where
  /-- A node came into being. -/
  | added
  /-- A node came under a parent. -/
  | attached
  /-- A node is about to leave its parent. -/
  | detaching
  /-- A node ceased to be. -/
  | removed
deriving DecidableEq, Repr, Inhabited

/-- A change, and the node that it happens to. -/
structure Event where
  change : Change
  node : Key
deriving DecidableEq, Repr, Inhabited

/-- Data that is kept in step with a forest by listening to its changes. -/
class Observer (σ : Type) where
  /-- Takes note of a change, given the forest at that moment. -/
  notice : σ → Forest → Event → σ

/-- The observer that does not listen. -/
instance : Observer Unit := ⟨fun _ _ _ => ()⟩

/-- Two observers listen side by side. -/
instance {σ τ : Type} [Observer σ] [Observer τ] : Observer (σ × τ) where
  notice s f e := (Observer.notice s.1 f e, Observer.notice s.2 f e)

namespace Forest

/-- Moves a node under `parent`, to the position `pos` among the children that are there once the
node has been taken out of its old place. Positions past the end append. -/
def move (f : Forest) (node parent : Key) (pos : Nat) : Forest :=
  (f.unlink node).link node parent ((f.unlink node).childAt parent pos)

end Forest

/-- A forest and the observer of its changes. -/
structure Tree (σ : Type) where
  forest : Forest := ∅
  observer : σ

namespace Tree

variable {σ : Type} [Observer σ]

/-- Tells the observer about a change. -/
def notify (t : Tree σ) (change : Change) (node : Key) : Tree σ :=
  { t with observer := Observer.notice t.observer t.forest ⟨change, node⟩ }

/-- Makes a new node without parent. -/
def create (t : Tree σ) : Key × Tree σ :=
  (t.forest.nextKey, { t with forest := t.forest.insert {} }.notify .added t.forest.nextKey)

/-- Moves a node under `parent`, to the position `pos` among its other children. Where one of the
two is missing, the node is only taken from its old place. -/
def place (t : Tree σ) (node parent : Key) (pos : Nat) : Tree σ :=
  match t.forest.parent node with
  | none => { t with forest := t.forest.move node parent pos }.notify .attached node
  | some old =>
    if old = parent then { t with forest := t.forest.move node parent pos }
    else
      let t := t.notify .detaching node
      { t with forest := t.forest.move node parent pos }.notify .attached node

/-- Takes a node from its parent, so that it becomes the root of the tree below it. -/
def uproot (t : Tree σ) (node : Key) : Tree σ :=
  match t.forest.parent node with
  | none => t
  | some _ =>
    let t := t.notify .detaching node
    { t with forest := t.forest.unlink node }

/-- Deletes one node from the forest. Its links are expected to be of no further use. -/
def erase (t : Tree σ) (node : Key) : Tree σ :=
  { t with forest := t.forest.erase node }.notify .removed node

/-- Takes a node from its parent and deletes it and all below it, parents first. -/
def remove (t : Tree σ) (node : Key) : Tree σ :=
  let t := t.uproot node
  (t.forest.preorder node).foldl erase t

end Tree

end WindowForest
