import WindowForest.Proofs.Hierarchy.Determined
import WindowForest.Proofs.Hierarchy.Effect
import WindowForest.Proofs.Hierarchy.Signals

/-!
# Reparenting in two steps

To move a container to another parent is to detach it and to attach it there. The two
steps lay out the moved tree twice, the first time without any parent, and the second one
sees it come from no display at all. Still they lead to the same hierarchy as the single
step (`Reachable.twoSteps`). The reason is that a settled hierarchy is determined by its
links, by what is asked of its containers and by what is kept besides, and on these the
two ways agree at once: the observer is told the same of a node that is moved as of one
that is uprooted and then placed.

What the two steps report of a new display, the single one reports as well, unless the
container was on that display before.
-/

set_option autoImplicit false

namespace WindowForest.Hierarchy

variable {η : Type} {h : Hierarchy η} {node target : Key} {pos : Nat} {activate : Bool}

/-- The hierarchy after a container was detached, attached to another parent and then, where that
is wanted, made active. -/
def relay (h : Hierarchy η) (node target : Key) (pos : Nat) (activate : Bool) : Hierarchy η :=
  let moved := ((h.detach node).hierarchy.attach node target pos).hierarchy
  if activate then moved.select node else moved

/-- A container can be moved to another parent in two steps with the same result. -/
structure TwoSteps (h : Hierarchy η) (node target : Key) (pos : Nat) (activate : Bool) :
    Prop where
  /-- The container can be detached. -/
  detached : (h.detach node).result = .ok ()
  /-- After that it can be attached. -/
  attached : ((h.detach node).hierarchy.attach node target pos).result = .ok ()
  /-- The two steps lead to the hierarchy that the single one leads to. -/
  same : h.relay node target pos activate = (h.reparent node target pos activate).hierarchy
  /-- A container that comes to another display reports this in the same calls. -/
  reported : h.displayOf node ≠ h.displayOf target →
    (h.reparent node target pos activate).calls =
      (h.detach node).calls ++ ((h.detach node).hierarchy.attach node target pos).calls
  /-- One that stays on its display reports nothing if it is moved in a single step. -/
  silent : h.displayOf node = h.displayOf target →
    (h.reparent node target pos activate).calls = []

/-! ## The single step -/

/-- The hierarchy after a container was moved in the tree and laid out. -/
def moved (h : Hierarchy η) (node target : Key) (pos : Nat) : Hierarchy η :=
  (h.place node target pos).layOut node

/-- A container that does not wait to be removed is moved in the tree and nothing else, except that
it may become active. -/
theorem relocated_of_not_pending (hfree : ¬ h.isPending node) :
    h.relocated node target pos activate =
      if activate then (h.place node target pos).select node else h.place node target pos := by
  have hrecord : ((h.place node target pos).container? node).map
      (fun c => { c with pending := false }) = (h.place node target pos).container? node := by
    rw [container?_place]
    unfold isPending at hfree
    cases hc : h.container? node with
    | none => rfl
    | some c =>
      rw [hc, Option.any_some, Bool.not_eq_true] at hfree
      rw [Option.map_some, ← hfree]
  unfold relocated
  rw [updateContainer_eq_self hrecord]

/-- It makes no difference whether a container becomes active before or after one is laid out. -/
theorem layOne_select (h : Hierarchy η) (node k : Key) :
    (h.select node).layOne k = (h.layOne k).select node := by
  unfold layOne
  rw [show (h.select node).modeOf k = h.modeOf k from rfl]
  cases h.modeOf k <;> rfl

/-- It makes no difference whether a container becomes active before or after it is laid out. -/
theorem layOut_select (h : Hierarchy η) (node top : Key) :
    (h.select node).layOut top = (h.layOut top).select node := by
  unfold layOut
  rw [show (h.select node).forest = h.forest from rfl]
  induction h.forest.preorder top generalizing h with
  | nil => rfl
  | cons k l ih => rw [List.foldl_cons, List.foldl_cons, layOne_select, ih]

/-- What was moved is on the display that its new parent was on before. -/
theorem Arranged.displayOf_moved (ha : h.Arranged) (hfits : h.Placeable node target) :
    (h.moved node target pos).displayOf node = h.displayOf target := by
  have hplaced := ha.place_of_placeable hfits pos
  have hparent : (h.place node target pos).forest.parent node = some target := by
    rw [ha.parent_place hfits, if_pos rfl]
  have hchain := ha.sameChain_place hfits pos (ha.not_within_of_placeable hfits)
  rw [moved, displayOf_layOut, hplaced.displayOf_of_parent hparent,
    ha.displayOf_of_chain hplaced hchain]

/-- Whether the container becomes active is of no concern to the reports. -/
theorem reparent_of_check (hcheck : h.checkReparent node target = .ok ())
    (hfree : ¬ h.isPending node) :
    h.reparent node target pos activate =
      (if activate then (h.moved node target pos).select node else h.moved node target pos).finish
        () ((h.moved node target pos).moveCalls node (h.displayOf node)) := by
  have hact : h.reparent node target pos activate =
      (h.relocated node target pos activate).finishMove node (h.displayOf node) := by
    unfold reparent
    rw [hcheck]
    rfl
  rw [hact, relocated_of_not_pending hfree, finishMove]
  cases activate with
  | false => rfl
  | true =>
    rw [if_pos rfl, if_pos rfl, layOut_select]
    rfl

/-! ## The two steps -/

/-- The hierarchy after a container was taken from its parent and laid out. -/
def severed (h : Hierarchy η) (node : Key) : Hierarchy η := (h.uproot node).layOut node

/-- A container that was taken from its parent is an unlinked node. -/
theorem forest_severed (h : Hierarchy η) (node : Key) :
    (h.severed node).forest = h.forest.unlink node := by
  rw [severed, forest_layOut, forest_uproot]

/-- A container that was taken from its parent has none. -/
theorem parent_severed (h : Hierarchy η) (node : Key) :
    (h.severed node).forest.parent node = none := by
  rw [forest_severed, Forest.parent_unlink, if_pos rfl]

/-- Taking a container from its parent changes no kind. -/
theorem kindOf_severed (h : Hierarchy η) (node k : Key) :
    (h.severed node).kindOf k = h.kindOf k := by
  rw [severed, kindOf_layOut, kindOf_uproot]

/-- A root is taken from nowhere. -/
theorem severed_of_root (hs : ∀ k, h.Settled k) (hroot : h.forest.parent node = none) :
    h.severed node = h := by
  have hsame : h.uproot node = h := by
    unfold uproot Tree.uproot
    rw [show h.tree.forest.parent node = none from hroot]
  rw [severed, hsame, layOut_of_settled hs]

/-- A container that passes the check is taken from its parent. -/
theorem detach_of_check (hs : ∀ k, h.Settled k) (hcheck : h.checkDetach node = .ok ()) :
    h.detach node = (h.severed node).finish () := by
  unfold detach
  rw [hcheck]
  cases hp : h.forest.parent node with
  | some p => rfl
  | none =>
    rw [severed_of_root hs hp]
    rfl

/-- Nobody is told more or less if a container is taken from its parent before it is moved. -/
theorem besides_place_severed (hnew : h.forest.parent node ≠ some target) (pos : Nat) :
    ((h.severed node).place node target pos).besides = (h.place node target pos).besides := by
  have hroot : (h.uproot node).forest.parent node = none := by
    rw [forest_uproot, Forest.parent_unlink, if_pos rfl]
  have htree : (h.uproot node).place node target pos = h.place node target pos := by
    unfold place uproot
    rw [Tree.place_uproot hnew]
  rw [besides_place_of_root (parent_severed h node), severed, besides_layOut, ← htree,
    besides_place_of_root hroot]

namespace Arranged

variable (ha : h.Arranged)

include ha

/-- A hierarchy stays arranged when a container is taken from its parent. -/
theorem severed (node : Key) : (h.severed node).Arranged := (ha.uproot node).layOut node

/-- A hierarchy stays settled when a container is taken from its parent. -/
theorem settled_severed (hs : ∀ k, h.Settled k) (node k : Key) : (h.severed node).Settled k := by
  cases hp : h.forest.parent node with
  | none =>
    rw [severed_of_root hs hp]
    exact hs k
  | some p => exact ha.settled_transition hs (.uprooted hp) k

variable (hfits : h.Placeable node target)

include hfits

/-- A container that has been detached may come wherever it could have been moved to. -/
theorem placeable_severed : (h.severed node).Placeable node target := by
  refine ⟨?_, ?_⟩
  · rw [(ha.severed node).wellFormed.rooted.isAncestor_iff, forest_severed,
      Forest.within_unlink_iff]
    exact fun hbelow => ha.not_within_of_placeable hfits hbelow.2
  · rw [kindOf_severed, kindOf_severed]
    exact hfits.fits

/-- Once it has been detached, it is on no display. -/
theorem displayOf_severed : (h.severed node).displayOf node = none := by
  obtain ⟨a, b, -, hnode, hab⟩ := hfits.fits
  rw [← kindOf_severed h node] at hnode
  rw [(ha.severed node).displayOf_of_root ((ha.severed node).mem_of_kindOf hnode)
    (parent_severed h node), if_neg (not_isDisplay_of_canContain hnode hab)]

variable (hs : ∀ k, h.Settled k) (hnew : h.forest.parent node ≠ some target)

include hs hnew

/-- Laying out a container between the two steps makes no difference in the end. -/
theorem moved_severed : (h.severed node).moved node target pos = h.moved node target pos := by
  have hfits' := ha.placeable_severed hfits
  have hsettled := ha.settled_transition hs
    (.placed pos hfits (hooks_place h node target pos) (.refl _))
  have hsettled' := (ha.severed node).settled_transition (ha.settled_severed hs node)
    (.placed pos hfits' (hooks_place _ node target pos) (.refl _))
  -- Bounds and surfaces need not be compared, because both sides are settled.
  unfold moved
  apply eq_of_requests ((ha.place_of_placeable hfits pos).layOut node) hsettled hsettled'
  · rw [forest_layOut, forest_layOut, forest_place, forest_place, forest_severed,
      Forest.move_unlink]
  · intro k
    rw [requestOf_layOut, requestOf_layOut, requestOf_congr (container?_place h node target pos k),
      requestOf_congr (container?_place _ node target pos k), Hierarchy.severed,
      requestOf_layOut, requestOf_congr (container?_uproot h node k)]
  · rw [besides_layOut, besides_layOut, besides_place_severed hnew]

/-- A container that has been detached is attached like one that was on no display before. -/
theorem attach_severed :
    (h.severed node).attach node target pos =
      (h.moved node target pos).finish () ((h.moved node target pos).moveCalls node none) := by
  have hlive : (h.severed node).contains node := by
    obtain ⟨a, b, -, hnode, -⟩ := hfits.fits
    rw [← isSome_kindOf, kindOf_severed, hnode]
    rfl
  have hcheck := checkAttach_eq_ok_iff.2
    ⟨hlive, parent_severed h node, ha.placeable_severed hfits⟩
  rw [← ha.moved_severed hfits hs hnew, ← ha.displayOf_severed hfits]
  unfold attach
  rw [hcheck]
  rfl

end Arranged

/-- Whenever a container that does not wait to be removed can be moved to another parent, this can
be done in two steps, and the reports of the single step are those of the two, or none if the
container stays on its display. -/
theorem Reachable.twoSteps [Hook η] {settings : Settings} (hr : Reachable settings h)
    (hok : (h.reparent node target pos activate).result = .ok ()) (hfree : ¬ h.isPending node) :
    h.TwoSteps node target pos activate := by
  have hcheck := (guarded_of_ok hok).1
  obtain ⟨hlive, -, hnew, hdisplay, hfits⟩ := checkReparent_eq_ok_iff.1 hcheck
  obtain ⟨d, hd⟩ := Option.ne_none_iff_exists'.1 hdisplay
  have hnow : (h.moved node target pos).displayOf node = some d :=
    (hr.arranged.displayOf_moved hfits).trans hd
  have hsingle : h.reparent node target pos activate = _ := reparent_of_check hcheck hfree
  have hdetach := detach_of_check hr.settled (checkDetach_eq_ok_iff.2 ⟨hlive, .inr hfree⟩)
  have hattach : (h.detach node).hierarchy.attach node target pos =
      (h.moved node target pos).finish () ((h.moved node target pos).moveCalls node none) := by
    rw [hdetach]
    exact hr.arranged.attach_severed hfits hr.settled hnew
  constructor
  case detached => rw [hdetach]; rfl
  case attached => rw [hattach]; rfl
  case same =>
    unfold relay
    rw [hattach, hsingle]
    rfl
  case reported =>
    intro hne
    have hreports : (h.moved node target pos).moveCalls node (h.displayOf node) =
        (h.moved node target pos).moveCalls node none := by
      rw [moveCalls_of_change hnow (hd ▸ hne),
        moveCalls_of_change hnow (Option.some_ne_none d).symm]
    rw [hsingle, hattach, hdetach]
    exact hreports
  case silent =>
    intro hsame
    rw [hsingle]
    refine moveCalls_of_same fun d' hd' => ?_
    rw [hsame, ← hr.arranged.displayOf_moved hfits, hd']

/-- The stack comes to the other display, where the task in it reports that, and becomes active. -/
theorem twoSteps_furnished :
    Reachable {} furnished ∧ furnished.TwoSteps ⟨3, 1⟩ ⟨2, 1⟩ 0 true ∧
      (furnished.reparent ⟨3, 1⟩ ⟨2, 1⟩ 0 true).result = .ok () ∧
      (furnished.relay ⟨3, 1⟩ ⟨2, 1⟩ 0 true).forest.children ⟨2, 1⟩ = [⟨3, 1⟩] ∧
      (furnished.relay ⟨3, 1⟩ ⟨2, 1⟩ 0 true).lastActive ⟨2, 1⟩ = some ⟨3, 1⟩ ∧
      arrivals (furnished.reparent ⟨3, 1⟩ ⟨2, 1⟩ 0 true).calls = [(⟨4, 1⟩, ⟨2, 1⟩)] := by
  have hr := reachable_furnished
  have hok : (furnished.reparent ⟨3, 1⟩ ⟨2, 1⟩ 0 true).result = .ok () := by rfl
  exact ⟨hr, hr.twoSteps hok (by decide), hok, by decide, by decide, by decide⟩

end WindowForest.Hierarchy
