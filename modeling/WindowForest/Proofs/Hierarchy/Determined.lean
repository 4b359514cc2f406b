import WindowForest.Proofs.Forest.Determined
import WindowForest.Proofs.Hierarchy.Bounds

/-!
# What determines a hierarchy

Bounds and surfaces are computed, and in a hierarchy in which everything is settled they
are what the computation gives. So two such hierarchies are equal as soon as they agree
on the links, on what is asked of the containers, and on everything that is kept besides
(`eq_of_requests`). How they have come about makes no difference, and neither does the
order in which their containers were laid out.
-/

set_option autoImplicit false

namespace WindowForest

variable {η : Type}

/-- The bounds and the surface from before do not count when a container is laid out. -/
theorem Container.resolve_request (c : Container) (bounds : Option Rect) (mode : Mode) :
    c.request.resolve bounds mode = c.resolve bounds mode := rfl

namespace Hierarchy

variable {h h' : Hierarchy η} {node parent k : Key}

/-- What is kept besides the links and the containers. -/
def besides (h : Hierarchy η) : Settings × Records η :=
  (h.settings, { h.records with containers := ∅ })

/-- The hooks are kept besides the links and the containers. -/
theorem hooks_of_besides (hbesides : h'.besides = h.besides) :
    h'.records.hooks = h.records.hooks := by
  have hrecords := (Prod.mk.inj hbesides).2
  simp only [Records.mk.injEq] at hrecords
  exact hrecords.2.1

/-- The last active children are kept besides the links and the containers. -/
theorem focus_of_besides (hbesides : h'.besides = h.besides) :
    h'.records.focus = h.records.focus := by
  have hrecords := (Prod.mk.inj hbesides).2
  simp only [Records.mk.injEq] at hrecords
  exact hrecords.2.2.1

/-- The settings are kept besides the links and the containers. -/
theorem settings_of_besides (hbesides : h'.besides = h.besides) : h'.settings = h.settings := by
  obtain ⟨hsettings, -⟩ := Prod.mk.inj hbesides
  exact hsettings

/-! ## What is left alone -/

/-- Laying out a container changes nothing besides the containers. -/
theorem besides_layOne (h : Hierarchy η) (node : Key) : (h.layOne node).besides = h.besides := by
  unfold layOne
  cases h.modeOf node <;> rfl

/-- Laying out a tree changes nothing besides the containers. -/
theorem besides_layOut (h : Hierarchy η) (top : Key) : (h.layOut top).besides = h.besides := by
  unfold layOut
  induction h.forest.preorder top generalizing h with
  | nil => rfl
  | cons k l ih => rw [List.foldl_cons, ih, besides_layOne]

/-- Nobody takes note of a root that comes under a parent. -/
theorem besides_place_of_root (hroot : h.forest.parent node = none) (pos : Nat) :
    (h.place node parent pos).besides = h.besides := by
  have hobserver : (h.tree.place node parent pos).observer = h.tree.observer := by
    unfold Tree.place
    rw [show h.tree.forest.parent node = none from hroot]
    rfl
  unfold besides records place
  rw [hobserver]

/-! ## Equality of hierarchies -/

/-- A hierarchy has no other parts. -/
theorem eq_of_parts (hforest : h'.forest = h.forest)
    (hcontainers : ∀ k, h'.container? k = h.container? k) (hbesides : h'.besides = h.besides) :
    h' = h := by
  obtain ⟨⟨f, containers, hooks, focus, displays, tasks⟩, settings⟩ := h
  obtain ⟨⟨f', containers', hooks', focus', displays', tasks'⟩, settings'⟩ := h'
  have htable : containers' = containers :=
    Std.ExtTreeMap.ext_getElem? fun {k} => hcontainers k
  obtain rfl : f' = f := hforest
  unfold besides records at hbesides
  simp only [Prod.mk.injEq, Records.mk.injEq, true_and] at hbesides
  obtain ⟨rfl, rfl, rfl, rfl, rfl⟩ := hbesides
  rw [htable]

/-- The record of a settled container follows from what is asked of it and from the bounds of its
parent. -/
theorem container?_eq_of_settled (hs : h.Settled k) (hs' : h'.Settled k)
    (hrequest : h'.requestOf k = h.requestOf k) (hmode : h'.modeOf k = h.modeOf k)
    (hbounds : (h'.forest.parent k).bind h'.boundsOf = (h.forest.parent k).bind h.boundsOf) :
    h'.container? k = h.container? k := by
  have hlaid : ∀ h : Hierarchy η, h.laid k = (h.requestOf k).map fun c =>
      c.resolve ((h.forest.parent k).bind h.boundsOf) ((h.modeOf k).getD .fullscreen) := by
    intro h
    rw [laid, requestOf, Option.map_map]
    apply Option.map_congr
    intro c _
    exact (c.resolve_request _ _).symm
  rw [← hs, ← hs', hlaid, hlaid, hrequest, hmode, hbounds]

/-- Settled hierarchies with the same links have the same containers, if the same is asked of
them. -/
theorem containers_eq_of_settled (ha : h.Arranged) (hs : ∀ k, h.Settled k)
    (hs' : ∀ k, h'.Settled k) (hforest : h'.forest = h.forest)
    (hrequest : ∀ k, h'.requestOf k = h.requestOf k) (k : Key) :
    h'.container? k = h.container? k := by
  -- The bounds are handed down from parents to children, and so is the argument.
  induction k using ha.wellFormed.rooted.induction with
  | root k hroot =>
    apply container?_eq_of_settled (hs k) (hs' k) (hrequest k)
      (modeOf_of_requestOf hforest hrequest k)
    rw [hforest, hroot]
    rfl
  | child k p hp ih =>
    apply container?_eq_of_settled (hs k) (hs' k) (hrequest k)
      (modeOf_of_requestOf hforest hrequest k)
    rw [hforest, hp]
    exact boundsOf_congr ih

/-- Links, requests and what is kept besides determine a settled hierarchy. -/
theorem eq_of_requests (ha : h.Arranged) (hs : ∀ k, h.Settled k) (hs' : ∀ k, h'.Settled k)
    (hforest : h'.forest = h.forest) (hrequest : ∀ k, h'.requestOf k = h.requestOf k)
    (hbesides : h'.besides = h.besides) : h' = h := by
  have hcontainers := containers_eq_of_settled ha hs hs' hforest hrequest
  exact eq_of_parts hforest hcontainers hbesides

end Hierarchy

end WindowForest
