import WindowForest.Proofs.Hierarchy.Layout

/-!
# What a command can do

There are fifteen commands, but only eight ways in which one of them changes a
hierarchy, and `Transition` lists them. A refused command is among the commands
that adjust the records at most. Whatever is to hold after every command is
proved by going through the eight ways (`transition_apply`), and the code of the
commands is not looked at again.
-/

set_option autoImplicit false

namespace WindowForest

variable {η : Type}

/-! ## Changes that the layout does not depend on -/

/-- A change of a container that makes no difference to the layout: it may as well be made after
the container is laid out. -/
structure Container.Incidental (g : Container → Container) : Prop where
  kind : ∀ c, (g c).kind = c.kind
  requestedMode : ∀ c, (g c).requestedMode = c.requestedMode
  bounds : ∀ c, (g c).bounds = c.bounds
  resolve : ∀ c b m, (g c).resolve b m = g (c.resolve b m)

/-- Leaving a container as it is makes no difference to the layout. -/
theorem Container.incidental_id : Incidental fun c => c := by
  constructor <;> intros <;> rfl

/-- Two changes that make no difference to the layout make none together. -/
theorem Container.Incidental.comp {g g' : Container → Container} (hg' : Incidental g')
    (hg : Incidental g) : Incidental (g' ∘ g) where
  kind c := (hg'.kind (g c)).trans (hg.kind c)
  requestedMode c := (hg'.requestedMode (g c)).trans (hg.requestedMode c)
  bounds c := (hg'.bounds (g c)).trans (hg.bounds c)
  resolve c b m := (hg'.resolve (g c) b m).trans (congrArg g' (hg.resolve c b m))

/-- Whether a container waits to be removed makes no difference to the layout. -/
theorem Container.incidental_pending (waits : Bool) :
    Incidental fun c => { c with pending := waits } := by
  constructor <;> intros <;> rfl

/-- The rectangle that a surface is anchored to does not count for the bounds. -/
theorem Container.incidental_overrideBounds (bounds : Option Rect) :
    Incidental fun c => { c with overrideBounds := bounds }.anchor := by
  constructor <;> intros <;> rfl

namespace Hierarchy

variable {h h' h'' : Hierarchy η} {node parent target k : Key}

/-- The second hierarchy has the links of the first one, and containers that are changed at most
in ways that make no difference to the layout. -/
structure Adjusted (h h' : Hierarchy η) : Prop where
  forest : h'.forest = h.forest
  container : ∀ k, ∃ g, Container.Incidental g ∧ h'.container? k = (h.container? k).map g

namespace Adjusted

/-- A hierarchy with the same links and containers is adjusted by nothing. -/
theorem of_container? (hforest : h'.forest = h.forest)
    (hk : ∀ k, h'.container? k = h.container? k) : h.Adjusted h' where
  forest := hforest
  container k := ⟨fun c => c, Container.incidental_id, by rw [hk, Option.map_id']⟩

/-- Every hierarchy comes from itself by an adjustment. -/
theorem refl (h : Hierarchy η) : h.Adjusted h := of_container? rfl fun _ => rfl

/-- Two adjustments after each other are one. -/
theorem trans (ha : h.Adjusted h') (hb : h'.Adjusted h'') : h.Adjusted h'' where
  forest := hb.forest.trans ha.forest
  container k := by
    obtain ⟨g, hg, hk⟩ := ha.container k
    obtain ⟨g', hg', hk'⟩ := hb.container k
    exact ⟨g' ∘ g, hg'.comp hg, by rw [hk', hk, Option.map_map]⟩

/-- A change of the records that keeps the containers is an adjustment. -/
theorem updateRecords (h : Hierarchy η) {g : Records η → Records η}
    (hg : ∀ r, (g r).containers = r.containers) : h.Adjusted (h.updateRecords g) :=
  of_container? rfl (container?_updateRecords hg)

/-- A change of a container that makes no difference to the layout is an adjustment. -/
theorem updateContainer (h : Hierarchy η) (node : Key) {g : Container → Container}
    (hg : Container.Incidental g) : h.Adjusted (h.updateContainer node g) where
  forest := rfl
  container k := by
    by_cases hk : node = k
    · exact ⟨g, hg, by rw [container?_updateContainer, if_pos hk]⟩
    · refine ⟨fun c => c, Container.incidental_id, ?_⟩
      rw [container?_updateContainer, if_neg hk, Option.map_id']

variable (ha : h.Adjusted h')

include ha

/-- What no change without difference to the layout touches is recorded as before. -/
theorem field_eq {α : Type} (field : Container → α)
    (hfield : ∀ g, Container.Incidental g → ∀ c, field (g c) = field c) (k : Key) :
    (h'.container? k).map field = (h.container? k).map field := by
  obtain ⟨g, hg, hk⟩ := ha.container k
  rw [hk, Option.map_map]
  apply Option.map_congr
  intro c _
  exact hfield g hg c

/-- An adjustment changes no kind. -/
theorem kindOf (k : Key) : h'.kindOf k = h.kindOf k := by
  apply ha.field_eq Container.kind
  intro g hg
  exact hg.kind

/-- An adjustment makes no container and removes none. -/
theorem contains (k : Key) : h'.contains k = h.contains k := by
  rw [Bool.eq_iff_iff, ← isSome_kindOf, ← isSome_kindOf, ha.kindOf]

/-- An adjustment puts nothing on another display. -/
theorem displayOf (k : Key) : h'.displayOf k = h.displayOf k := by
  rw [displayOf_congr ha.forest ha.kindOf]

/-- An adjustment changes no bounds. -/
theorem boundsOf (k : Key) : h'.boundsOf k = h.boundsOf k := by
  apply ha.field_eq Container.bounds
  intro g hg
  exact hg.bounds

/-- An adjustment sets no mode. -/
theorem requestedModeOf (k : Key) : h'.requestedModeOf k = h.requestedModeOf k := by
  apply ha.field_eq Container.requestedMode
  intro g hg
  exact hg.requestedMode

/-- An adjustment changes no mode in effect. -/
theorem modeOf (k : Key) : h'.modeOf k = h.modeOf k := by
  apply modeOf_congr (ha.contains k)
  · rw [ha.forest]
  · intro a _
    exact ha.requestedModeOf a

/-- Settled containers stay settled. -/
theorem settled (hs : h.Settled k) : h'.Settled k := by
  obtain ⟨g, hg, hk⟩ := ha.container k
  have hbounds : (h'.forest.parent k).bind h'.boundsOf = (h.forest.parent k).bind h.boundsOf := by
    rw [ha.forest, funext ha.boundsOf]
  unfold Settled at hs ⊢
  rw [laid, hbounds, ha.modeOf, hk, ← hs, laid]
  cases h.container? k with
  | none => rfl
  | some c =>
    simp only [Option.map_some]
    rw [← hg.resolve, Container.resolve_resolve]

end Adjusted

/-! ## Checks -/

/-- A container may come under a parent: it is not above the parent, and the parent holds containers
of its kind. -/
structure Placeable (h : Hierarchy η) (node parent : Key) : Prop where
  apart : ¬ h.forest.isAncestor node parent
  fits : ∃ a b, h.kindOf parent = some a ∧ h.kindOf node = some b ∧ a.canContain b

/-- The check on a placement passes exactly for a container that may come under the parent. -/
theorem checkPlacement_eq_ok_iff :
    h.checkPlacement node parent = .ok () ↔ h.Placeable node parent := by
  unfold checkPlacement
  cases hparent : h.kindOf parent with
  | none =>
    refine ⟨nofun, ?_⟩
    intro hp
    obtain ⟨a, b, ha, -⟩ := hp.fits
    rw [hparent] at ha
    cases ha
  | some a =>
    by_cases hapart : h.forest.isAncestor node parent
    · simp only [if_pos hapart]
      exact ⟨nofun, fun hp => absurd hapart hp.apart⟩
    · simp only [if_neg hapart]
      cases hnode : h.kindOf node with
      | none =>
        refine ⟨nofun, ?_⟩
        intro hp
        obtain ⟨a', b, -, hb, -⟩ := hp.fits
        rw [hnode] at hb
        cases hb
      | some b =>
        by_cases hfits : a.canContain b
        · simp only [if_pos hfits, true_iff]
          exact ⟨hapart, a, b, hparent, hnode, hfits⟩
        · simp only [if_neg hfits]
          refine ⟨nofun, ?_⟩
          intro hp
          obtain ⟨a', b', ha, hb, hab⟩ := hp.fits
          obtain rfl := Option.mem_unique hparent ha
          obtain rfl := Option.mem_unique hnode hb
          exact absurd hab hfits

/-- Only containers without parent are attached. -/
theorem checkAttach_eq_ok_iff :
    h.checkAttach node parent = .ok () ↔
      h.contains node ∧ h.forest.parent node = none ∧ h.Placeable node parent := by
  unfold checkAttach
  by_cases hnode : h.contains node
  · rw [checkLive_of_contains hnode]
    cases hp : h.forest.parent node with
    | none => simp [hnode, checkPlacement_eq_ok_iff]
    | some p => simp
  · simp [checkLive_of_not_contains hnode, hnode]

/-- A container that waits to be removed is not taken from its parent. -/
theorem checkDetach_eq_ok_iff :
    h.checkDetach node = .ok () ↔
      h.contains node ∧ (h.forest.parent node = none ∨ ¬ h.isPending node) := by
  unfold checkDetach
  by_cases hnode : h.contains node
  · rw [checkLive_of_contains hnode]
    cases hp : h.forest.parent node with
    | none => simp [hnode]
    | some p => cases h.isPending node <;> simp [hnode]
  · simp [checkLive_of_not_contains hnode, hnode]

/-- Containers are only moved to where there is a display, and never to where they are. -/
theorem checkReparent_eq_ok_iff :
    h.checkReparent node target = .ok () ↔
      h.contains node ∧ h.contains target ∧ h.forest.parent node ≠ some target ∧
        h.displayOf target ≠ none ∧ h.Placeable node target := by
  unfold checkReparent
  by_cases hnode : h.contains node
  · rw [checkLive_of_contains hnode]
    by_cases htarget : h.contains target
    · by_cases hp : h.forest.parent node = some target
      · simp [htarget, hp]
      · by_cases hdisplay : h.displayOf target = none
        · simp [htarget, hp, hdisplay]
        · simp [hnode, htarget, hp, hdisplay, checkPlacement_eq_ok_iff]
    · simp [htarget]
  · simp [checkLive_of_not_contains hnode, hnode]

/-- Only containers with a parent are positioned. -/
theorem checkPosition_eq_ok_iff :
    h.checkPosition node = .ok () ↔ h.contains node ∧ h.forest.parent node ≠ none := by
  unfold checkPosition
  by_cases hnode : h.contains node
  · by_cases hp : h.forest.parent node = none <;> simp [checkLive_of_contains hnode, hnode, hp]
  · simp [checkLive_of_not_contains hnode, hnode]

/-- A mode is set on containers that are there, and the freeform one only if it is enabled. -/
theorem checkMode_eq_ok_iff {mode : Mode} :
    h.checkMode node mode = .ok () ↔
      h.contains node ∧ (mode = .freeform → h.settings.freeformEnabled) := by
  unfold checkMode
  rw [← checkLive_eq_ok_iff]
  by_cases hfree : mode = .freeform ∧ ¬ h.settings.freeformEnabled
  · simp [hfree]
  · have hallowed : mode = .freeform → h.settings.freeformEnabled := by
      intro hmode
      by_contra hoff
      exact hfree ⟨hmode, hoff⟩
    rw [if_neg hfree]
    exact ⟨fun hlive => ⟨hlive, hallowed⟩, And.left⟩

end Hierarchy

/-! ## Transitions -/

/-- The container and the display that a call is about, if it reports a change of display. -/
def Call.arrival? : Call → Option (Key × Key)
  | vote _ _ => none
  | displayChanged node display _ => some (node, display)
  | removed _ _ => none

/-- The changes of display that calls report, in the order in which they are reported. -/
def arrivals (calls : List Call) : List (Key × Key) := calls.filterMap Call.arrival?

/-- Calls one after the other report the changes of display of both. -/
theorem arrivals_append (a b : List Call) : arrivals (a ++ b) = arrivals a ++ arrivals b := by
  unfold arrivals
  rw [List.filterMap_append]

namespace Hierarchy

variable {h h' h'' : Hierarchy η} {node parent target k : Key}

/-- What a command makes of a hierarchy, together with the container that it may put under another
parent, and with the calls of hooks. -/
inductive Transition (h : Hierarchy η) : Option Key → Hierarchy η → List Call → Prop
  /-- The records change in ways that neither links nor layout depend on. -/
  | adjusted {moved : Option Key} {h' : Hierarchy η} {calls : List Call} :
    h.Adjusted h' → arrivals calls = [] → Transition h moved h' calls
  /-- A container is made of which nothing is asked. -/
  | created {h' : Hierarchy η} (kind : Kind) :
    (h.insertContainer { kind }).2.Adjusted h' → Transition h none h' []
  /-- A container is made of which something is asked, as of a display. -/
  | displayed {m : Hierarchy η} (c : Container) :
    (h.insertContainer c).2.Adjusted m → Transition h none (m.layOut h.forest.nextKey) []
  /-- A container comes under another parent. -/
  | placed {m : Hierarchy η} {node parent : Key} (pos : Nat) :
    h.Placeable node parent → m.records.hooks = h.records.hooks →
    (h.place node parent pos).Adjusted m →
    Transition h (some node) (m.layOut node)
      ((m.layOut node).moveCalls node (h.displayOf node))
  /-- A container comes to another position under its parent. -/
  | ordered {node parent : Key} (pos : Nat) :
    h.forest.parent node = some parent → Transition h none (h.place node parent pos) []
  /-- A container leaves its parent. -/
  | uprooted {node parent : Key} :
    h.forest.parent node = some parent → Transition h none ((h.uproot node).layOut node) []
  /-- Something else is asked of a container. -/
  | asked {node : Key} (g : Container → Container) :
    h.contains node → (∀ c, (g c).kind = c.kind) →
    Transition h none ((h.updateContainer node g).layOut node) []
  /-- Containers are removed one after the other. -/
  | removed {m : Hierarchy η} {votes : List Call} (l : List Key) :
    h.Adjusted m → arrivals votes = [] →
    Transition h none (m.removeEach l).1 (votes ++ (m.removeEach l).2)

namespace Transition

/-- A refused command changes nothing and calls no hook. -/
theorem refused (h : Hierarchy η) (moved : Option Key) : h.Transition moved h [] :=
  .adjusted (.refl h) rfl

/-- Behind a check, an operation has to be a transition only if the check passes. -/
theorem guarded {α : Type} {moved : Option Key} {check : Except Error Unit} {act : Outcome η α}
    (hact : check = .ok () → h.Transition moved act.hierarchy act.calls) :
    h.Transition moved (h.guarded check act).hierarchy (h.guarded check act).calls := by
  obtain ⟨e, -, heq⟩ | ⟨hcheck, heq⟩ := h.guarded_cases check act
  · rw [heq]
    exact refused h _
  · rw [heq]
    exact hact hcheck

/-- Creating a display makes a container of which bounds are asked, or is refused. -/
theorem createDisplay (h : Hierarchy η) (id : DisplayId) (bounds : Rect) :
    h.Transition none (h.createDisplay id bounds).hierarchy (h.createDisplay id bounds).calls := by
  unfold Hierarchy.createDisplay
  split
  · exact refused h _
  · have hlisted := fun c => Adjusted.updateRecords (h.insertContainer c).2
      (g := fun r => { r with displays := r.displays.insert id h.forest.nextKey }) fun _ => rfl
    exact .displayed _ (hlisted _)

/-- Creating a task makes a container of which nothing is asked, or is refused. -/
theorem createTask (h : Hierarchy η) (id : TaskId) (user : UserId) :
    h.Transition none (h.createTask id user).hierarchy (h.createTask id user).calls := by
  unfold Hierarchy.createTask
  split
  · exact refused h _
  · have hlisted := Adjusted.updateRecords (h.insertContainer { kind := .task id user }).2
      (g := fun r => { r with tasks := r.tasks.insert id h.forest.nextKey }) fun _ => rfl
    exact .created (.task id user) hlisted

/-- Installing a hook adjusts the records. -/
theorem setHook (h : Hierarchy η) (node : Key) (hook : η) :
    h.Transition none (h.setHook node hook).hierarchy (h.setHook node hook).calls := by
  have hhooked := Adjusted.updateRecords h
    (g := fun r => { r with hooks := r.hooks.insert node hook }) fun _ => rfl
  exact guarded fun _ => .adjusted hhooked rfl

/-- Setting bounds asks something else of a container. -/
theorem setBounds (h : Hierarchy η) (node : Key) (bounds : Rect) :
    h.Transition none (h.setBounds node bounds).hierarchy (h.setBounds node bounds).calls := by
  apply guarded
  intro hcheck
  exact .asked (fun c => { c with requestedBounds := bounds }) (checkLive_eq_ok_iff.1 hcheck)
    fun _ => rfl

/-- Overriding the bounds of a surface adjusts the record of the container. -/
theorem setOverride (h : Hierarchy η) (node : Key) (bounds : Option Rect) :
    h.Transition none (h.setOverride node bounds).hierarchy (h.setOverride node bounds).calls := by
  have hanchored := Adjusted.updateContainer h node (Container.incidental_overrideBounds bounds)
  exact guarded fun _ => .adjusted hanchored rfl

/-- Setting a mode asks something else of a container. -/
theorem setMode (h : Hierarchy η) (node : Key) (mode : Mode) :
    h.Transition none (h.setMode node mode).hierarchy (h.setMode node mode).calls := by
  apply guarded
  intro hcheck
  exact .asked (fun c => { c with requestedMode := mode }) (checkMode_eq_ok_iff.1 hcheck).1
    fun _ => rfl

/-- Attaching puts a container under a parent. -/
theorem attach (h : Hierarchy η) (node parent : Key) (pos : Nat) :
    h.Transition (some node) (h.attach node parent pos).hierarchy
      (h.attach node parent pos).calls := by
  apply guarded
  intro hcheck
  obtain ⟨-, -, hfits⟩ := checkAttach_eq_ok_iff.1 hcheck
  exact .placed pos hfits (hooks_place h node parent pos) (.refl _)

/-- Detaching takes a container from its parent, or changes nothing. -/
theorem detach (h : Hierarchy η) (node : Key) :
    h.Transition none (h.detach node).hierarchy (h.detach node).calls := by
  apply guarded
  intro _
  cases hp : h.forest.parent node with
  | none => exact refused h _
  | some parent => exact .uprooted hp

/-- Reparenting puts a container under another parent, and may select it. -/
theorem reparent (h : Hierarchy η) (node target : Key) (pos : Nat) (activate : Bool) :
    h.Transition (some node) (h.reparent node target pos activate).hierarchy
      (h.reparent node target pos activate).calls := by
  apply guarded
  intro hcheck
  obtain ⟨-, -, -, -, hfits⟩ := checkReparent_eq_ok_iff.1 hcheck
  have hpending := Adjusted.updateContainer (h.place node target pos) node
    (Container.incidental_pending false)
  have hhooks := hooks_place h node target pos
  cases activate with
  | false => exact .placed pos hfits hhooks hpending
  | true =>
    have hselected := Adjusted.updateRecords
      ((h.place node target pos).updateContainer node fun c => { c with pending := false })
      (g := fun r => { r with focus := r.focus.select (h.place node target pos).forest node })
      fun _ => rfl
    exact .placed pos hfits hhooks (hpending.trans hselected)

/-- Positioning orders a container among its siblings. -/
theorem position (h : Hierarchy η) (node : Key) (pos : Nat) :
    h.Transition none (h.position node pos).hierarchy (h.position node pos).calls := by
  apply guarded
  intro _
  cases hp : h.forest.parent node with
  | none => exact refused h _
  | some parent => exact .ordered pos hp

/-- Votes report no change of display. -/
theorem arrivals_ask [Hook η] (hooks : Table η) (l : List Key) :
    arrivals (Poll.ask hooks l).calls = [] := by
  induction l generalizing hooks with
  | nil => rfl
  | cons k l ih =>
    unfold Poll.ask
    cases hooks[k]? with
    | none => exact ih hooks
    | some hook =>
      show arrivals (if (Hook.vote hook k).1 then _ else _ : Poll η).calls = []
      split
      · rfl
      · exact ih (hooks.insert k (Hook.vote hook k).2)

/-- Removing at once removes the containers of a tree one after the other. -/
theorem removeNow (h : Hierarchy η) (node : Key) :
    h.Transition none (h.removeNow node).hierarchy (h.removeNow node).calls := by
  apply guarded
  intro _
  have hremoved := Transition.removed (h.forest.postorder node) (.refl h)
    (show arrivals [] = [] from rfl)
  exact hremoved

/-- Removing asks first, and then either adjusts the records or removes the containers of the tree.
-/
theorem remove [Hook η] (h : Hierarchy η) (node : Key) :
    h.Transition none (h.remove node).hierarchy (h.remove node).calls := by
  apply guarded
  intro _
  have hvotes := arrivals_ask h.records.hooks (h.forest.preorder node)
  have hasked := Adjusted.updateRecords h
    (g := fun r => { r with hooks := (Poll.ask h.records.hooks (h.forest.preorder node)).hooks })
    fun _ => rfl
  show h.Transition none (Outcome.hierarchy (if _ then _ else _))
    (Outcome.calls (if _ then _ else _))
  split
  · exact .adjusted
      (hasked.trans (.updateContainer _ node (Container.incidental_pending true))) hvotes
  · exact .removed _ hasked hvotes

end Transition

end Hierarchy

/-- The container that a command puts under another parent, if it is not refused. -/
def Command.moved : Command η → Option Key
  | attach node _ _ => some node
  | reparent node _ _ _ => some node
  | _ => none

namespace Hierarchy

/-- Every command amounts to one of the transitions. -/
theorem transition_apply [Hook η] (h : Hierarchy η) (c : Command η) :
    h.Transition c.moved (h.apply c).hierarchy (h.apply c).calls := by
  cases c with
  | createDisplay id bounds => exact .createDisplay h id bounds
  | createDefaultDisplay id => exact .createDisplay h id _
  | createStack => exact .created .stack (.refl _)
  | createTask id user => exact .createTask h id user
  | createActivity name => exact .created (.activity name) (.refl _)
  | setHook node hook => exact .setHook h node hook
  | attach node parent pos => exact .attach h node parent pos
  | detach node => exact .detach h node
  | reparent node target pos activate => exact .reparent h node target pos activate
  | position node pos => exact .position h node pos
  | remove node => exact .remove h node
  | removeNow node => exact .removeNow h node
  | setBounds node bounds => exact .setBounds h node bounds
  | setOverride node bounds => exact .setOverride h node bounds
  | setMode node mode => exact .setMode h node mode

end Hierarchy

end WindowForest
