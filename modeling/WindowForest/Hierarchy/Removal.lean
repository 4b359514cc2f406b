import WindowForest.Hierarchy.Basic

/-!
# Removal

A container is removed together with all below it, leaves first, so that no
container is ever removed while it has children. Before a removal that is not
forced, the hooks of all containers concerned are asked, parents first. The
first one that wants to put the removal off decides, and the container is then
only marked as waiting to be removed.
-/

set_option autoImplicit false

namespace WindowForest

/-- What became of the wish to remove a container. -/
inductive Removal where
  /-- The container is gone, with all below it. -/
  | removed
  /-- A hook put the removal off. -/
  | deferred
deriving DecidableEq, Repr, Inhabited

/-- What the hooks said when asked about a removal. -/
structure Poll (η : Type) where
  /-- Whether one of them put the removal off. -/
  deferred : Bool
  /-- The hooks as they are after having been asked. -/
  hooks : Table η
  calls : List Call

/-- Asks the hooks of the listed containers in turn, until one puts the removal off. -/
def Poll.ask {η : Type} [Hook η] (hooks : Table η) : List Key → Poll η
  | [] => ⟨false, hooks, []⟩
  | k :: rest =>
    match hooks[k]? with
    | none => ask hooks rest
    | some hook =>
      let (answer, hook) := Hook.vote hook k
      let hooks := hooks.insert k hook
      if answer then ⟨true, hooks, [.vote k true]⟩
      else
        let poll := ask hooks rest
        { poll with calls := .vote k false :: poll.calls }

namespace Hierarchy

variable {η : Type}

/-- The report of a container that is about to be removed. -/
def removalCalls (h : Hierarchy η) (node : Key) : List Call :=
  if node ∈ h.records.hooks then [.removed node h.forest] else []

/-- Removes the listed containers one by one, each with whatever is still below it. -/
def removeEach (h : Hierarchy η) : List Key → Hierarchy η × List Call
  | [] => (h, [])
  | k :: rest =>
    let (after, calls) := { h with tree := h.tree.remove k }.removeEach rest
    (after, h.removalCalls k ++ calls)

/-- Removes a container and all below it, leaves first. -/
def removeSubtree {α : Type} (h : Hierarchy η) (top : Key) (answer : α) : Outcome η α :=
  let (after, calls) := h.removeEach (h.forest.postorder top)
  after.finish answer calls

/-- Removes a container and all below it without asking. -/
def removeNow (h : Hierarchy η) (node : Key) : Outcome η Unit :=
  h.guarded (h.checkLive node) <| h.removeSubtree node ()

/-- Removes a container and all below it, unless a hook puts that off. The container then waits to
be removed. -/
def remove [Hook η] (h : Hierarchy η) (node : Key) : Outcome η Removal :=
  h.guarded (h.checkLive node) <|
    let poll := Poll.ask h.records.hooks (h.forest.preorder node)
    let asked := h.updateRecords fun r => { r with hooks := poll.hooks }
    if poll.deferred then
      (asked.updateContainer node fun c => { c with pending := true }).finish .deferred poll.calls
    else
      let outcome := asked.removeSubtree node .removed
      { outcome with calls := poll.calls ++ outcome.calls }

end Hierarchy

end WindowForest
