import WindowForest.Container.Id

/-!
# Kinds of container

There are four kinds of container, and each holds only the next one: displays
hold stacks, stacks hold tasks, and tasks hold activities.
-/

set_option autoImplicit false

namespace WindowForest

/-- What a container is, with the data that only its kind carries. -/
inductive Kind where
  | display (id : DisplayId)
  | stack
  | task (id : TaskId) (user : UserId)
  | activity (name : String)
deriving DecidableEq, Inhabited

namespace Kind

/-- The word for a kind. -/
def name : Kind → String
  | display _ => "display"
  | stack => "stack"
  | task _ _ => "task"
  | activity _ => "activity"

/-- Whether a kind is that of a display. -/
def isDisplay : Kind → Bool
  | display _ => true
  | _ => false

/-- Whether a kind is that of a stack. -/
def isStack : Kind → Bool
  | stack => true
  | _ => false

/-- Whether a kind is that of a task. -/
def isTask : Kind → Bool
  | task _ _ => true
  | _ => false

/-- Whether a kind is that of an activity. -/
def isActivity : Kind → Bool
  | activity _ => true
  | _ => false

/-- Whether a container of the first kind may hold one of the second. -/
def canContain : Kind → Kind → Bool
  | display _, stack => true
  | stack, task _ _ => true
  | task _ _, activity _ => true
  | _, _ => false

/-- How many levels lie above a kind. -/
def depth : Kind → Nat
  | display _ => 0
  | stack => 1
  | task _ _ => 2
  | activity _ => 3

/-- Containment joins neighbouring levels and nothing else. -/
theorem canContain_iff {a b : Kind} : a.canContain b ↔ b.depth = a.depth + 1 := by
  cases a <;> cases b <;> simp [canContain, depth]

end Kind

end WindowForest
