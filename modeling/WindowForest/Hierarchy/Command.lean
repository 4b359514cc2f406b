import WindowForest.Hierarchy.Create
import WindowForest.Hierarchy.Move
import WindowForest.Hierarchy.Removal

/-!
# Commands

The operations that change a hierarchy, gathered into one type, so that a
history is a list of commands. The hierarchies that can come about under given
settings are the ones that such a list leads to from the empty hierarchy.
-/

set_option autoImplicit false

namespace WindowForest

/-- An operation on a hierarchy, with its arguments. -/
inductive Command (η : Type) where
  | createDisplay (id : DisplayId) (bounds : Rect)
  | createDefaultDisplay (id : DisplayId)
  | createStack
  | createTask (id : TaskId) (user : UserId)
  | createActivity (name : String)
  | setHook (node : Key) (hook : η)
  | attach (node parent : Key) (pos : Nat)
  | detach (node : Key)
  | reparent (node target : Key) (pos : Nat) (activate : Bool)
  | position (node : Key) (pos : Nat)
  | remove (node : Key)
  | removeNow (node : Key)
  | setBounds (node : Key) (bounds : Rect)
  | setOverride (node : Key) (bounds : Option Rect)
  | setMode (node : Key) (mode : Mode)

/-- What an operation that was carried out answers. -/
inductive Answer where
  /-- A container was created under this key. -/
  | created (node : Key)
  | removed
  | deferred
  | done
deriving DecidableEq, Repr, Inhabited

namespace Answer

/-- The answer of an operation that has nothing to tell. -/
def ofUnit (_ : Unit) : Answer := done

/-- What became of the wish to remove a container, as an answer. -/
def ofRemoval : Removal → Answer
  | .removed => removed
  | .deferred => deferred

end Answer

/-- Restates the answer of an operation. -/
def Outcome.map {η α β : Type} (g : α → β) (o : Outcome η α) : Outcome η β :=
  ⟨o.hierarchy, o.result.map g, o.calls⟩

namespace Hierarchy

variable {η : Type} [Hook η]

/-- Carries out a command. -/
def apply (h : Hierarchy η) : Command η → Outcome η Answer
  | .createDisplay id bounds => (h.createDisplay id bounds).map .created
  | .createDefaultDisplay id => (h.createDefaultDisplay id).map .created
  | .createStack => h.createStack.map .created
  | .createTask id user => (h.createTask id user).map .created
  | .createActivity name => (h.createActivity name).map .created
  | .setHook node hook => (h.setHook node hook).map .ofUnit
  | .attach node parent pos => (h.attach node parent pos).map .ofUnit
  | .detach node => (h.detach node).map .ofUnit
  | .reparent node target pos activate => (h.reparent node target pos activate).map .ofUnit
  | .position node pos => (h.position node pos).map .ofUnit
  | .remove node => (h.remove node).map .ofRemoval
  | .removeNow node => (h.removeNow node).map .ofUnit
  | .setBounds node bounds => (h.setBounds node bounds).map .ofUnit
  | .setOverride node bounds => (h.setOverride node bounds).map .ofUnit
  | .setMode node mode => (h.setMode node mode).map .ofUnit

/-- Carries out one command after the other. -/
def run (h : Hierarchy η) (commands : List (Command η)) : Hierarchy η :=
  commands.foldl (fun h c => (h.apply c).hierarchy) h

/-- The hierarchies that can come about under given settings. -/
inductive Reachable (settings : Settings) : Hierarchy η → Prop
  | empty : Reachable settings (.empty settings)
  | step {h : Hierarchy η} (c : Command η) :
    Reachable settings h → Reachable settings (h.apply c).hierarchy

end Hierarchy

end WindowForest
