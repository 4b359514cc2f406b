import WindowForest.Forest.Tree

/-!
# Journals

A journal is the observer that writes down what it is told, together with what
the forest shows of the node at that moment.
-/

set_option autoImplicit false

namespace WindowForest

/-- One line of a journal. -/
structure Journal.Entry where
  event : Event
  /-- The parent that the node had at the moment of the event. -/
  parent : Option Key
  /-- Whether the node was in the forest at the moment of the event. -/
  present : Bool
deriving DecidableEq, Repr, Inhabited

/-- The changes of a forest in the order in which they happened. -/
structure Journal where
  entries : List Journal.Entry := []
deriving DecidableEq, Repr, Inhabited

namespace Journal

instance : Observer Journal where
  notice j f e := ⟨j.entries ++ [⟨e, f.parent e.node, e.node ∈ f⟩]⟩

end Journal

end WindowForest
