import WindowForest.Container.Kind
import WindowForest.Forest.Key

/-!
# Refused operations

Each cause for which an operation is refused is a constructor of `Error`.
`fault` sorts the causes into bad arguments and operations out of place, and
`message` words them.
-/

set_option autoImplicit false

namespace WindowForest

/-- The two ways in which an operation can be at fault. -/
inductive Fault where
  | invalidArgument
  | invalidOperation
deriving DecidableEq, Repr, Inhabited

/-- The words for a way of being at fault. -/
def Fault.name : Fault → String
  | invalidArgument => "Invalid argument"
  | invalidOperation => "Invalid operation"

/-- Why an operation was refused. -/
inductive Error where
  /-- The container that the operation is about is not in the hierarchy. -/
  | gone (node : Key)
  /-- The container that was to become a parent is not in the hierarchy. -/
  | missing (target : Key)
  /-- A live display has this number already. -/
  | displayExists (id : DisplayId)
  /-- A live task has this number already. -/
  | taskExists (id : TaskId)
  /-- A container with a parent cannot be attached once more. -/
  | attachedAlready (node parent : Key)
  /-- A container that waits to be removed stays with its parent. -/
  | removalPending (node parent : Key)
  /-- The container is already where it was to go. -/
  | childAlready (node parent : Key)
  /-- The new parent does not belong to a display. -/
  | offDisplay (target : Key)
  /-- A container cannot come under itself. -/
  | ownSubtree (node : Key)
  /-- The kind of the parent does not hold the kind of the child. -/
  | misfit (parent child : Kind)
  /-- Without a parent there are no siblings to be placed among. -/
  | noParent (node : Key)
  /-- The settings do not allow freeform windowing. -/
  | freeformDisabled
deriving DecidableEq, Inhabited

namespace Error

/-- The way in which an operation refused for this cause was at fault. -/
def fault : Error → Fault
  | missing _ | displayExists _ | taskExists _ | childAlready _ _ | offDisplay _ | ownSubtree _
  | misfit _ _ => .invalidArgument
  | gone _ | attachedAlready _ _ | removalPending _ _ | noParent _ | freeformDisabled =>
    .invalidOperation

/-- What a cause says, without the way in which the operation was at fault. -/
def detail : Error → String
  | gone k => "container " ++ k.text ++ " has been removed"
  | missing k => "container " ++ k.text ++ " does not exist"
  | displayExists i => i.text ++ " already exists"
  | taskExists i => i.text ++ " already exists"
  | attachedAlready k p =>
    k.text ++ " is already attached to " ++ p.text ++ "; detach or reparent it instead"
  | removalPending k p =>
    k.text ++ " is pending removal and cannot be detached from " ++ p.text
  | childAlready k p => k.text ++ " is already a child of " ++ p.text
  | offDisplay k => "reparent target " ++ k.text ++ " is not attached to a display"
  | ownSubtree k => "cannot place " ++ k.text ++ " inside its own subtree"
  | misfit p c => "a " ++ p.name ++ " cannot contain a " ++ c.name
  | noParent k => k.text ++ " has no parent to be positioned in"
  | freeformDisabled => "freeform windowing is disabled"

/-- The full text of a refusal. -/
def message (e : Error) : String := e.fault.name ++ ": " ++ e.detail

end Error

end WindowForest
