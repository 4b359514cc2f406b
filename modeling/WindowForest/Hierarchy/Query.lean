import WindowForest.Hierarchy.Basic

/-!
# Queries

Look-ups by number, and lists of what a display, a task or a user has. Lists of
children come in stacking order, bottom to top, and lists from the tables in the
order of the numbers.
-/

set_option autoImplicit false

namespace WindowForest

namespace Hierarchy

variable {η : Type}

/-- The display with a given number. -/
def display? (h : Hierarchy η) (id : DisplayId) : Option Key := h.records.displays[id]?

/-- All displays with their numbers, in the order of the numbers. -/
def displays (h : Hierarchy η) : List (DisplayId × Key) := h.records.displays.toList

/-- The task with a given number. -/
def task? (h : Hierarchy η) (id : TaskId) : Option Key := h.records.tasks[id]?

/-- The number of the display that a container belongs to. -/
def displayIdOf (h : Hierarchy η) (node : Key) : Option DisplayId :=
  ((h.displayOf node).bind h.kindOf).bind fun
    | .display id => some id
    | _ => none

/-- The number of the task that a container is. -/
def taskIdOf (h : Hierarchy η) (node : Key) : Option TaskId :=
  (h.kindOf node).bind fun
    | .task id _ => some id
    | _ => none

/-- The user that a task belongs to. -/
def userIdOf (h : Hierarchy η) (node : Key) : Option UserId :=
  (h.kindOf node).bind fun
    | .task _ user => some user
    | _ => none

/-- The stacks of a display. -/
def stacksOf (h : Hierarchy η) (display : Key) : List Key :=
  if h.isDisplay display then h.forest.children display else []

/-- How many stacks a display has. -/
def stackCount (h : Hierarchy η) (display : Key) : Nat := (h.stacksOf display).length

/-- The tasks of a display, stack by stack. -/
def tasksOnDisplay (h : Hierarchy η) (display : Key) : List Key :=
  ((h.stacksOf display).flatMap h.forest.children).filter fun k => (h.kindOf k).any Kind.isTask

/-- The activities of a task. -/
def activitiesOf (h : Hierarchy η) (task : Key) : List Key :=
  if (h.taskIdOf task).isSome then h.forest.children task else []

/-- The tasks of a user, attached or not, in the order of their numbers. -/
def tasksForUser (h : Hierarchy η) (user : UserId) : List Key :=
  (h.records.tasks.toList.filter fun (_, k) => h.userIdOf k = some user).map Prod.snd

/-- The child of a container that was last active. -/
def lastActive (h : Hierarchy η) (node : Key) : Option Key := h.records.focus.lastActive node

/-- The container reached by following last active children down as far as they go. -/
def active (h : Hierarchy η) (node : Key) : Key := h.records.focus.active node

end Hierarchy

end WindowForest
