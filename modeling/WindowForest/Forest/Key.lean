import Std.Data.ExtTreeMap

/-!
# Keys and tables

A node is named by a key: the slot it is kept in, together with the version of
that slot. Slots are handed out again after a removal, versions only ever grow,
so the key of a removed node never comes to name another one.

Keys are ordered by slot and then by version. The order is lawful, which makes
`Table`, the finite maps from keys, extensional: two tables are equal when they
answer every look-up alike.
-/

set_option autoImplicit false

namespace WindowForest

/-- The name of a node: a slot, and which of the slot's successive occupants is meant. -/
structure Key where
  slot : Nat
  version : Nat
deriving DecidableEq, Repr, Inhabited

namespace Key

/-- The null key. Slots count from one, so it names no node. -/
def null : Key := ⟨0, 0⟩

/-- The key that names the occupant after this one of the same slot. -/
def successor (k : Key) : Key := ⟨k.slot, k.version + 2⟩

instance : Ord Key := ⟨compareLex (compareOn Key.slot) (compareOn Key.version)⟩

instance : Std.TransOrd Key :=
  inferInstanceAs (Std.TransCmp (compareLex (compareOn Key.slot) (compareOn Key.version)))

instance : Std.LawfulEqOrd Key where
  eq_of_compare {a b} h := by
    have h' : (compare a.slot b.slot).then (compare a.version b.version) = .eq := h
    rw [Ordering.then_eq_eq] at h'
    cases a; cases b
    simp_all

/-- The text of a key: slot and version around a `v`, or `null` for the null key. -/
def text (k : Key) : String :=
  if k = null then "NodeId(null)" else "NodeId(" ++ k.slot.repr ++ "v" ++ k.version.repr ++ ")"

end Key

/-- A finite map from keys. -/
abbrev Table (α : Type) : Type := Std.ExtTreeMap Key α

end WindowForest
