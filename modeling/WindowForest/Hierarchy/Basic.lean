import WindowForest.Container.Basic
import WindowForest.Forest.Focus
import WindowForest.Hierarchy.Error
import WindowForest.Hierarchy.Hook
import WindowForest.Settings

/-!
# The hierarchy of containers

A hierarchy is a tree whose observer keeps the records of the containers: what
each of them is, the hooks installed on them, which child was last active, and
which displays and tasks there are. A node that is removed takes all of its
records with it, because the records listen to the tree.

Operations on a hierarchy never fail half way. Each gives an `Outcome`: the
hierarchy afterwards, an answer or the reason for a refusal, and the calls of
hooks in the order in which they were made.
-/

set_option autoImplicit false

namespace WindowForest

/-- What is kept about the nodes of a hierarchy. -/
structure Records (η : Type) where
  containers : Table Container := ∅
  hooks : Table η := ∅
  focus : Focus := ∅
  displays : Std.ExtTreeMap DisplayId Key := ∅
  tasks : Std.ExtTreeMap TaskId Key := ∅

namespace Records

variable {η : Type}

/-- Frees the number under which a container of this kind was listed. -/
def unlist (r : Records η) : Kind → Records η
  | .display id => { r with displays := r.displays.erase id }
  | .task id _ => { r with tasks := r.tasks.erase id }
  | .stack => r
  | .activity _ => r

/-- Drops the hook and the container of a removed node. -/
def drop (r : Records η) (node : Key) : Records η :=
  let r := { r with hooks := r.hooks.erase node }
  match r.containers[node]? with
  | none => r
  | some c => { r with containers := r.containers.erase node }.unlist c.kind

instance : Observer (Records η) where
  notice r f e :=
    let r := { r with focus := Observer.notice r.focus f e }
    match e.change with
    | .removed => r.drop e.node
    | .added => r
    | .attached => r
    | .detaching => r

end Records

/-- Containers arranged in trees, under settings that do not change. -/
structure Hierarchy (η : Type) where
  tree : Tree (Records η)
  settings : Settings

/-- What becomes of an operation. -/
structure Outcome (η α : Type) where
  hierarchy : Hierarchy η
  result : Except Error α
  calls : List Call := []

namespace Hierarchy

variable {η : Type}

/-- The hierarchy without any containers. -/
def empty (settings : Settings) : Hierarchy η := { tree := { observer := {} }, settings }

/-- The links between the containers. -/
def forest (h : Hierarchy η) : Forest := h.tree.forest

/-- What is kept about the containers. -/
def records (h : Hierarchy η) : Records η := h.tree.observer

/-- Changes what is kept about the containers. -/
def updateRecords (h : Hierarchy η) (g : Records η → Records η) : Hierarchy η :=
  { h with tree := { h.tree with observer := g h.tree.observer } }

/-- The container with a given key. -/
def container? (h : Hierarchy η) (node : Key) : Option Container := h.records.containers[node]?

/-- Whether a key names a container. -/
def contains (h : Hierarchy η) (node : Key) : Bool := node ∈ h.records.containers

/-- Changes what is recorded for a container. -/
def updateContainer (h : Hierarchy η) (node : Key) (g : Container → Container) : Hierarchy η :=
  h.updateRecords fun r => { r with containers := r.containers.modify node g }

/-- What a container is. -/
def kindOf (h : Hierarchy η) (node : Key) : Option Kind := (h.container? node).map Container.kind

/-- The bounds in effect for a container. -/
def boundsOf (h : Hierarchy η) (node : Key) : Option Rect :=
  (h.container? node).map Container.bounds

/-- Whether a container waits to be removed. -/
def isPending (h : Hierarchy η) (node : Key) : Bool := (h.container? node).any Container.pending

/-- Whether a key names a display. -/
def isDisplay (h : Hierarchy η) (node : Key) : Bool := (h.kindOf node).any Kind.isDisplay

/-- The display that a container belongs to: itself or the closest display above it. -/
def displayOf (h : Hierarchy η) (node : Key) : Option Key :=
  (h.forest.ancestors node).find? h.isDisplay

/-- Refuses an operation on a container that is not there. -/
def checkLive (h : Hierarchy η) (node : Key) : Except Error Unit :=
  if h.contains node then .ok () else .error (.gone node)

/-- An operation that was refused. It changes nothing and calls no hook. -/
def refuse {α : Type} (h : Hierarchy η) (e : Error) : Outcome η α := ⟨h, .error e, []⟩

/-- An operation that was carried out. -/
def finish {α : Type} (h : Hierarchy η) (answer : α) (calls : List Call := []) : Outcome η α :=
  ⟨h, .ok answer, calls⟩

/-- Carries an operation out unless it is refused. -/
@[macro_inline]
def guarded {α : Type} (h : Hierarchy η) (check : Except Error Unit) (act : Outcome η α) :
    Outcome η α :=
  match check with
  | .error e => h.refuse e
  | .ok () => act

/-- Installs the hook of a container in place of any former one. -/
def setHook (h : Hierarchy η) (node : Key) (hook : η) : Outcome η Unit :=
  h.guarded (h.checkLive node) <|
    (h.updateRecords fun r => { r with hooks := r.hooks.insert node hook }).finish ()

end Hierarchy

end WindowForest
