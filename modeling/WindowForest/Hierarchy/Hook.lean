import WindowForest.Forest.Links

/-!
# Hooks

A hook is installed on a container. It has a say in whether the container may
be removed, and it is called when the container comes to another display and
when it is about to be removed. Only the vote feeds back into the hierarchy. The
other calls are reports, and `Call` keeps for each of them the forest that the
hook gets to see.
-/

set_option autoImplicit false

namespace WindowForest

/-- Hooks that vote on removal. -/
class Hook (η : Type) where
  /-- Asks whether the removal of a container is to be put off, and gives the hook as it is after
  having been asked. -/
  vote : η → Key → Bool × η

/-- A call of the hook installed on a container. -/
inductive Call where
  /-- The hook was asked whether to put off removal, and gave this answer. -/
  | vote (node : Key) (answer : Bool)
  /-- The container came to a display that it was not on before. -/
  | displayChanged (node display : Key) (seen : Forest)
  /-- The container is about to be removed. It is still linked to its parent. -/
  | removed (node : Key) (seen : Forest)

/-- The container whose hook a call is for. -/
def Call.node : Call → Key
  | vote k _ => k
  | displayChanged k _ _ => k
  | removed k _ => k

/-- Hooks that put removal off a number of times, counting down with each vote. -/
inductive Voter where
  /-- Takes no part: never puts off removal and wants no reports. -/
  | passive
  /-- Puts off removal as many more times as the number says. -/
  | times (left : Nat)
  /-- Always puts off removal. -/
  | always
deriving DecidableEq, Repr, Inhabited

namespace Voter

/-- How many more times removal will be put off, if that is bounded. -/
def remaining : Voter → Option Nat
  | passive => some 0
  | times n => some n
  | always => none

instance : Hook Voter where
  vote
    | passive, _ => (false, passive)
    | times 0, _ => (false, times 0)
    | times (n + 1), _ => (true, times n)
    | always, _ => (true, always)

end Voter

end WindowForest
