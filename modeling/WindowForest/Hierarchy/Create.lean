import WindowForest.Hierarchy.Layout

/-!
# Creation

New containers have no parent. The number of a display or a task is taken for as
long as it lives, and a second one with the same number is refused.
-/

set_option autoImplicit false

namespace WindowForest

namespace Hierarchy

variable {η : Type}

/-- Makes a container without parent and gives its key. -/
def insertContainer (h : Hierarchy η) (c : Container) : Key × Hierarchy η :=
  let (node, tree) := h.tree.create
  (node, { h with tree }.updateRecords fun r =>
    { r with containers := r.containers.insert node c })

/-- Creates a stack without parent. -/
def createStack (h : Hierarchy η) : Outcome η Key :=
  let (node, h) := h.insertContainer { kind := .stack }
  h.finish node

/-- Creates an activity without parent. -/
def createActivity (h : Hierarchy η) (name : String) : Outcome η Key :=
  let (node, h) := h.insertContainer { kind := .activity name }
  h.finish node

/-- Creates a task without parent. -/
def createTask (h : Hierarchy η) (id : TaskId) (user : UserId) : Outcome η Key :=
  if id ∈ h.records.tasks then h.refuse (.taskExists id)
  else
    let (node, h) := h.insertContainer { kind := .task id user }
    (h.updateRecords fun r => { r with tasks := r.tasks.insert id node }).finish node

/-- Creates a display with the given bounds, in the mode that the settings name. -/
def createDisplay (h : Hierarchy η) (id : DisplayId) (bounds : Rect) : Outcome η Key :=
  if id ∈ h.records.displays then h.refuse (.displayExists id)
  else
    let (node, h) := h.insertContainer
      { kind := .display id, requestedMode := h.settings.defaultMode, requestedBounds := bounds }
    ((h.updateRecords fun r =>
      { r with displays := r.displays.insert id node }).layOut node).finish node

/-- Creates a display of the size that the settings name. -/
def createDefaultDisplay (h : Hierarchy η) (id : DisplayId) : Outcome η Key :=
  h.createDisplay id h.settings.defaultBounds

end Hierarchy

end WindowForest
